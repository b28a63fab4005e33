import CenterIM.EventText

/-!
# Records of contact lists

`imcontacts::write` puts each contact on a line of its own, its number and its name with a tab
between them. `imcontacts::read` gets the same list back, whatever the names, as long as no
line break is in them.
-/
namespace CenterIM.ContactsRecord
open ByteText Decimal StrText Contact Event EventReader EventLines RecordText EventFraming
  EventText

def contactLine (ic : UInt32 × Str) : Str := decimal ic.1.toNat ++ tab :: ic.2

/-- The contacts of an event, and no line break in their names. -/
structure ContactsEvent (e : ImEvent) (contacts : List (UInt32 × Str)) : Prop where
  stored : Persisted e
  body : e.body = .imcontacts contacts
  unbroken : ∀ ic ∈ contacts, lf ∉ ic.2 ∧ cr ∉ ic.2

theorem not_mem_decimal {c : Byte} (hc : isdigit c = false) (n : ℕ) : c ∉ decimal n := by
  intro h
  rw [isdigit_of_mem_decimal h] at hc
  cases hc

theorem splitTab_contactLine (ic : UInt32 × Str) :
    (splitTab (contactLine ic)).map (fun p => ((atoi p.1).toUInt32, p.2)) = some ic := by
  have htab : tab ∉ decimal ic.1.toNat := not_mem_decimal (by decide) _
  have hlt := ic.1.toNat_lt
  have hatoi : (atoi (decimal ic.1.toNat)).toUInt32 = ic.1 := by
    rw [atoi_decimal (by omega)]
    apply UInt32.toNat_inj.mp
    rw [← Int32.toNat_toBitVec]
    simp
  rw [contactLine, splitTab_tab htab, Option.map_some, hatoi]

variable {contacts : List (UInt32 × Str)}

theorem contactLine_plain (h : ∀ ic ∈ contacts, lf ∉ ic.2 ∧ cr ∉ ic.2) :
    ∀ l ∈ contacts.map contactLine, (lf ∉ l ∧ cr ∉ l) ∧ tab ∈ l := by
  intro l hl
  obtain ⟨ic, hic, rfl⟩ := List.mem_map.mp hl
  have hlf : lf ∉ decimal ic.1.toNat := not_mem_decimal (by decide) _
  have hcr : cr ∉ decimal ic.1.toNat := not_mem_decimal (by decide) _
  obtain ⟨hl, hc⟩ := h ic hic
  refine ⟨⟨?_, ?_⟩, ?_⟩
  · simpa [contactLine] using ⟨hlf, by decide, hl⟩
  · simpa [contactLine] using ⟨hcr, by decide, hc⟩
  · simp [contactLine]

theorem blockPart_contacts (h : ∀ ic ∈ contacts, lf ∉ ic.2 ∧ cr ∉ ic.2) :
    blockPart (.imcontacts contacts) = contacts.map contactLine := by
  have hw : (Body.imcontacts contacts).write = unlines (contacts.map contactLine) := by
    simp [Body.write, contactLine, unlines, List.flatMap_map]
  have hp : blockPart (.imcontacts contacts) = bodyLines (.imcontacts contacts) :=
    if_neg (by simp [Body.gettype, readsFirst])
  rw [hp, bodyLines, hw, unlines_dropLast_lines fun l hl => (contactLine_plain h l hl).1.1]

theorem marker_not_mem (h : ∀ ic ∈ contacts, lf ∉ ic.2 ∧ cr ∉ ic.2) :
    marker ∉ contacts.map contactLine := by
  intro hm
  exact absurd (contactLine_plain h marker hm).2 (by decide)

theorem contactsOf_lines (h : ∀ ic ∈ contacts, lf ∉ ic.2 ∧ cr ∉ ic.2) :
    contactsOf ((contacts.map contactLine).foldl addLine []) = contacts := by
  have hlines : ∀ l ∈ contacts.map contactLine, (lf ∉ l ∧ cr ∉ l) ∧ l ≠ [] := by
    intro l hl
    obtain ⟨hplain, htab⟩ := contactLine_plain h l hl
    exact ⟨hplain, List.ne_nil_of_mem htab⟩
  have hstream := streamLines_foldl hlines
  have hread : ∀ bufs : List Str, (bufs.filterMap fun buf =>
      (splitTab (strip buf)).map fun p => ((atoi p.1).toUInt32, p.2)) =
      (bufs.map strip).filterMap fun buf =>
        (splitTab buf).map fun p => ((atoi p.1).toUInt32, p.2) := by
    intro bufs
    rw [List.filterMap_map]
    rfl
  rw [contactsOf, hread, hstream, List.filterMap_map]
  have hsome : ∀ ic ∈ contacts, ((fun buf => (splitTab buf).map fun p =>
      ((atoi p.1).toUInt32, p.2)) ∘ contactLine) ic = some ic :=
    fun ic _ => splitTab_contactLine ic
  rw [List.filterMap_congr hsome, List.filterMap_some]

/-- A list of contacts is read back as it was written, at any place in a file. -/
theorem contacts_round_trip {e : ImEvent} (h : ContactsEvent e contacts) {pre post : List ImEvent}
    (hall : ∀ d ∈ pre ++ post, Persisted d ∧ Clean d) :
    readAt pre e post = some (.imcontacts contacts) := by
  have hpart := blockPart_contacts h.unbroken
  have hmark : marker ∉ blockPart e.body := by
    rw [h.body, hpart]
    exact marker_not_mem h.unbroken
  have hclean : Clean e :=
    ⟨fun data hb => absurd (h.body.symm.trans hb) nofun, fun hm => absurd hm hmark⟩
  have hblock : blockText e.body = (contacts.map contactLine).foldl addLine [] := by
    rw [blockText_unmarked hmark, h.body, hpart]
  have htype : e.gettype = .contacts := by
    rw [ImEvent.gettype, h.body]
    rfl
  have hread : recordBody e = .ok (.imcontacts (contactsOf (blockText e.body))) := by
    rw [recordBody, htype]
    rfl
  rw [hblock, contactsOf_lines h.unbroken] at hread
  exact readAt_record ⟨h.stored, hclean⟩ hread hall

/-- Names with tabs and blanks, an empty one, and the largest number. -/
def someContacts : List (UInt32 × Str) :=
  [(4294967295, bytes " a\tb "), (0, []), (7, [200])]

def contactsEvent : ImEvent := ⟨contactroot, .incoming, 5, 5, false, .imcontacts someContacts⟩

theorem contacts_round_trip_some :
    readAt [plainMessage] contactsEvent [] = some (.imcontacts someContacts) := by
  have hstored : Persisted contactsEvent :=
    ⟨by decide, by simp [contactsEvent], by decide, by simp [contactsEvent, fieldNames]⟩
  apply contacts_round_trip ⟨hstored, rfl, by decide⟩
  simpa using plainMessage_clean

end CenterIM.ContactsRecord

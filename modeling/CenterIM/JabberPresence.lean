import CenterIM.JabberHook

/-!
# The status of a Jabber contact

The status that is worked out from the table of resources against the presences that came
over the connection. The search for the highest priority starts from -127, so it passes over
the resources with the two lowest priorities; and the library takes only some addresses for
JIDs.
-/
namespace CenterIM.JabberPresence
open ByteText StrText Contact ContactDirectory Event JabberHook OrderedMap

/-- The last presence of each resource of a contact, if it is online, and whether there is a
connection. -/
structure Reports where
  connected : Bool
  held : Str → Option (ℤ × ImStatus)

def Reports.initial : Reports := ⟨false, fun _ => none⟩

/-- What a contact's resources reported since the connection was lost. -/
def Reports.next (id : Str) (w : Reports) : Happening → Reports
  | .presence p =>
    if w.connected ∧ p.id = id then
      { w with
        held := Function.update w.held p.resource
          (if p.status = .offline then none else some (p.jutil_priority, p.status)) }
    else w
  | .loss => .initial
  | .disconnect => .initial
  | .connect valid => ⟨valid, fun _ => none⟩

def Reports.run (id : Str) (w : Reports) (hs : List Happening) : Reports :=
  hs.foldl (Reports.next id) w

/-- The status is that of a resource of highest priority among those that are online, and
offline if and only if there is none. -/
structure Agrees (held : Str → Option (ℤ × ImStatus)) (status : ImStatus) : Prop where
  best : status ≠ .offline → ∃ r prio, held r = some (prio, status) ∧
    ∀ r' prio' status', held r' = some (prio', status') → prio' ≤ prio
  offline : status = .offline ↔ ∀ r, held r = none

/-- The packet tells that a resource is online or that it is not. -/
def Tells (p : Presence) : Prop :=
  p.type = none ∨ p.type = some (bytes "available") ∨ p.type = some (bytes "unavailable")

instance (p : Presence) : Decidable (Tells p) := inferInstanceAs (Decidable (_ ∨ _))

def Found (prio : ℤ) : Prop := -127 < prio

instance (prio : ℤ) : Decidable (Found prio) := inferInstanceAs (Decidable (_ < _))

/-- Does the table of the contact, after a packet, have a resource that the search finds, or
none at all? -/
def Leaves (res : Resources) (p : Presence) : Prop :=
  (p.status ≠ .offline ∧ Found p.jutil_priority) ∨
    (∃ e ∈ res.entries, e.1 ≠ p.resource ∧ Found e.2.1) ∨
    (p.status = .offline ∧ ∀ e ∈ res.entries, e.1 = p.resource)

/-- A packet that is handled as it should be: its addresses are taken for JIDs, it is not the
packet of a contact whose JID is spelled in other letters, and among the contact's resources,
if there was a packet of it before, is one that the search finds. No connection is replaced
while the contact is online. -/
def Meets (id : Str) (h : Hook) : Happening → Prop
  | .presence p => h.connected = true →
    (p.id = id → p.toAttr.all jid_new = true ∧ p.fromAttr.all jid_new = true ∧
      ∀ res ∈ h.statuses.find? id, Leaves res p) ∧
    (p.id ≠ id → nickKey .jabber p.id ≠ nickKey .jabber id)
  | .loss => True
  | .disconnect => True
  | .connect _ => h.connected = true → h.status (nickKey .jabber id) = .offline

def AllMeet (clist : List ImContact) (id : Str) (h : Hook) : List Happening → Prop
  | [] => True
  | e :: hs => Meets id h e ∧ AllMeet clist id (step clist h e) hs

instance (res : Resources) (p : Presence) : Decidable (Leaves res p) :=
  inferInstanceAs (Decidable (_ ∨ _))

instance (id : Str) (h : Hook) : (e : Happening) → Decidable (Meets id h e)
  | .presence _ => inferInstanceAs (Decidable (_ → _))
  | .loss => inferInstanceAs (Decidable True)
  | .disconnect => inferInstanceAs (Decidable True)
  | .connect _ => inferInstanceAs (Decidable (_ → _))

instance decidableAllMeet (clist : List ImContact) (id : Str) (h : Hook) :
    (hs : List Happening) → Decidable (AllMeet clist id h hs)
  | [] => inferInstanceAs (Decidable True)
  | e :: hs =>
    have := decidableAllMeet clist id (step clist h e) hs
    inferInstanceAs (Decidable (_ ∧ _))

/-- The search keeps a priority that is at least that of all resources that it passed. -/
theorem bestOf_spec (best : ImStatus × ℤ) (es : List (Str × ℤ × ImStatus)) :
    best.2 ≤ (bestOf best es).2 ∧ (∀ e ∈ es, e.2.1 ≤ (bestOf best es).2) ∧
      (bestOf best es = best ∨
        ∃ e ∈ es, best.2 < e.2.1 ∧ bestOf best es = (e.2.2, e.2.1)) := by
  induction es generalizing best with
  | nil => exact ⟨le_rfl, by simp, Or.inl rfl⟩
  | cons it es ih =>
    obtain ⟨result, prio⟩ := best
    rw [bestOf]
    obtain ⟨hle, hall, hres⟩ := ih (if it.2.1 > prio then (it.2.2, it.2.1) else (result, prio))
    by_cases hgt : it.2.1 > prio
    · rw [if_pos hgt] at hle hall hres ⊢
      refine ⟨hgt.le.trans hle, ?_, Or.inr ?_⟩
      · rintro e (_ | ⟨_, he⟩)
        · exact hle
        · exact hall e he
      · rcases hres with heq | ⟨e, he, hlt, heq⟩
        · exact ⟨it, by simp, hgt, heq⟩
        · exact ⟨e, by simp [he], hgt.trans hlt, heq⟩
    · rw [if_neg hgt] at hle hall hres ⊢
      refine ⟨hle, ?_, ?_⟩
      · rintro e (_ | ⟨_, he⟩)
        · exact (not_lt.mp hgt).trans hle
        · exact hall e he
      · exact hres.imp_right fun ⟨e, he, hlt, heq⟩ => ⟨e, by simp [he], hlt, heq⟩

/-- With a resource above the start of the search, one of highest priority is found. -/
theorem get_presence_found {res : Resources} (h : ∃ e ∈ res.entries, Found e.2.1) :
    ∃ e ∈ res.entries, get_presence res = e.2.2 ∧ ∀ d ∈ res.entries, d.2.1 ≤ e.2.1 := by
  obtain ⟨d, hd, hfound⟩ := h
  obtain ⟨-, hall, hres⟩ := bestOf_spec (.offline, -127) res.entries
  rcases hres with heq | ⟨e, he, -, heq⟩
  · have hle := hall d hd
    rw [heq] at hle
    exact absurd hfound (not_lt.mpr hle)
  · rw [heq] at hall
    exact ⟨e, he, by rw [get_presence, heq], hall⟩

theorem get_presence_nil {res : Resources} (h : res.entries = []) : get_presence res = .offline := by
  rw [get_presence, h]
  rfl

/-- The table of a contact's resources, as a function. -/
def lookup (statuses : OrderedMap Str Resources strLt) (id r : Str) : Option (ℤ × ImStatus) :=
  (statuses.find? id).bind (·.find? r)

theorem find?_iff {res : Resources} {r : Str} {v : ℤ × ImStatus} :
    res.find? r = some v ↔ (r, v) ∈ res.entries := by
  constructor
  · intro h
    obtain ⟨k, hk, hmem⟩ := exists_mem_of_find? h
    rwa [same_strLt.mp hk] at hmem
  · exact find?_of_mem res

theorem find?_none_iff {res : Resources} : (∀ r, res.find? r = none) ↔ res.entries = [] := by
  constructor
  · intro h
    refine List.eq_nil_iff_forall_not_mem.mpr fun e he => ?_
    have hfind := (h e.1).symm.trans (find?_iff.mpr he)
    exact nomatch hfind
  · intro h r
    simp [find?, h]

theorem find?_set (res : Resources) (s : Str) (v : ℤ × ImStatus) (r : Str) :
    (res.set s v).find? r = Function.update res.find? s (some v) r := by
  by_cases hr : r = s
  · subst hr
    rw [find?_set_self, Function.update_self]
  · rw [find?_set_other _ _ (same_strLt_false (Ne.symm hr)), Function.update_of_ne hr]

theorem find?_erase (res : Resources) (s r : Str) :
    (res.erase s).find? r = Function.update res.find? s none r := by
  by_cases hr : r = s
  · subst hr
    rw [find?_erase_same _ (same_refl r), Function.update_self]
  · rw [find?_erase_other _ (same_strLt_false (Ne.symm hr)), Function.update_of_ne hr]

/-- The status of a table without resources that the search passes over is right. -/
theorem agrees_get_presence {res : Resources}
    (hon : ∀ r prio status, res.find? r = some (prio, status) → status ≠ .offline)
    (h : (∀ r, res.find? r = none) ∨ ∃ r v, res.find? r = some v ∧ Found v.1) :
    Agrees res.find? (get_presence res) := by
  rcases h with h | ⟨r, v, hr, hv⟩
  · have hoff := get_presence_nil (find?_none_iff.mp h)
    exact ⟨fun hne => absurd hoff hne, fun _ => h, fun _ => hoff⟩
  · obtain ⟨e, he, heq, hall⟩ := get_presence_found ⟨(r, v), find?_iff.mp hr, hv⟩
    have hfind : res.find? e.1 = some e.2 := find?_iff.mpr he
    rw [heq]
    refine ⟨fun _ => ⟨e.1, e.2.1, hfind, fun r' prio' status' h' => ?_⟩, fun hoff => ?_, fun h => ?_⟩
    · exact hall _ (find?_iff.mp h')
    · exact absurd hoff (hon e.1 e.2.1 e.2.2 hfind)
    · rw [h e.1] at hfind
      exact nomatch hfind

def report (p : Presence) : Option (ℤ × ImStatus) :=
  if p.status = .offline then none else some (p.jutil_priority, p.status)

theorem report_online {held : Str → Option (ℤ × ImStatus)} {p : Presence}
    (hon : ∀ r prio status, held r = some (prio, status) → status ≠ .offline) {r : Str} {prio : ℤ}
    {status : ImStatus} (hr : Function.update held p.resource (report p) r = some (prio, status)) :
    status ≠ .offline := by
  by_cases hp : r = p.resource
  · rw [hp, Function.update_self, report] at hr
    split_ifs at hr with hoff
    obtain ⟨-, rfl⟩ := Prod.mk.inj (Option.some.inj hr)
    exact hoff
  · rw [Function.update_of_ne hp] at hr
    exact hon r prio status hr

theorem Leaves.after {res : Resources} {p : Presence} (h : Leaves res p) :
    (∀ r, Function.update res.find? p.resource (report p) r = none) ∨
      ∃ r v, Function.update res.find? p.resource (report p) r = some v ∧ Found v.1 := by
  rcases h with ⟨hon, hfound⟩ | ⟨e, he, hne, hfound⟩ | ⟨hoff, hall⟩
  · refine Or.inr ⟨p.resource, (p.jutil_priority, p.status), ?_, hfound⟩
    rw [Function.update_self, report, if_neg hon]
  · refine Or.inr ⟨e.1, e.2, ?_, hfound⟩
    rw [Function.update_of_ne hne]
    exact find?_iff.mpr he
  · refine Or.inl fun r => ?_
    by_cases hr : r = p.resource
    · rw [hr, Function.update_self, report, if_pos hoff]
    · rw [Function.update_of_ne hr]
      cases hf : res.find? r with
      | none => rfl
      | some v => exact absurd (hall _ (find?_iff.mp hf)) hr

theorem agrees_none : Agrees (fun _ => none) .offline :=
  ⟨fun h => absurd rfl h, fun _ _ => rfl, fun _ => rfl⟩

theorem agrees_first (p : Presence) :
    Agrees (Function.update (fun _ => none) p.resource (report p)) p.status := by
  by_cases hoff : p.status = .offline
  · have hupd : Function.update (fun _ => none) p.resource (report p) = fun _ => none := by
      funext r
      rw [report, if_pos hoff]
      by_cases hr : r = p.resource <;> simp [hr]
    rw [hupd, hoff]
    exact agrees_none
  · rw [report, if_neg hoff]
    refine ⟨fun _ => ⟨p.resource, p.jutil_priority, Function.update_self .., ?_⟩,
      fun h => absurd h hoff, fun h => ?_⟩
    · intro r' prio' status' h'
      by_cases hr : r' = p.resource
      · rw [hr, Function.update_self, Option.some.injEq, Prod.mk.injEq] at h'
        exact h'.1.ge
      · rw [Function.update_of_ne hr] at h'
        cases h'
    · have hself := h p.resource
      rw [Function.update_self] at hself
      cases hself

/-- The table of a known contact after the packet, which is the same in the four cases of the
code. -/
theorem process_presence_table {h : Hook} {p : Presence} {res : Resources}
    (hf : h.statuses.find? p.id = some res) : ∃ res' : Resources,
      (∀ r, res'.find? r = Function.update res.find? p.resource (report p) r) ∧
      process_presence h p.id p.resource p.jutil_priority p.status =
        ({ h with statuses := h.statuses.set p.id res' }, get_presence res') := by
  by_cases hoff : p.status = .offline
  · have hreport : report p = none := if_pos hoff
    rw [hreport]
    cases hs : res.find? p.resource with
    | none =>
      refine ⟨res, fun r => ?_, by simp [process_presence, hf, hs, hoff]⟩
      rw [← hs, Function.update_eq_self]
    | some v =>
      exact ⟨res.erase p.resource, find?_erase res _, by simp [process_presence, hf, hs, hoff]⟩
  · have hreport : report p = some (p.jutil_priority, p.status) := if_neg hoff
    rw [hreport]
    refine ⟨res.set p.resource (p.jutil_priority, p.status), find?_set res _ _, ?_⟩
    cases hs : res.find? p.resource <;> simp [process_presence, hf, hs, hoff]

/-- What `process_presence` does to the tables, and the status it gives. -/
theorem process_presence_spec (h : Hook) (p : Presence)
    (hon : ∀ r prio status, lookup h.statuses p.id r = some (prio, status) → status ≠ .offline)
    (hleaves : ∀ res, h.statuses.find? p.id = some res → Leaves res p) :
    ∃ statuses ust, process_presence h p.id p.resource p.jutil_priority p.status =
        ({ h with statuses := statuses }, ust) ∧
      (∀ r, lookup statuses p.id r =
        Function.update (lookup h.statuses p.id) p.resource (report p) r) ∧
      (∀ id, id ≠ p.id → ∀ r, lookup statuses id r = lookup h.statuses id r) ∧
      Agrees (Function.update (lookup h.statuses p.id) p.resource (report p)) ust := by
  have hother : ∀ (res : Resources) (id : Str), id ≠ p.id → ∀ r,
      lookup (h.statuses.set p.id res) id r = lookup h.statuses id r := by
    intro res id hid r
    rw [lookup, find?_set_other _ _ (same_strLt_false (Ne.symm hid))]
    rfl
  cases hf : h.statuses.find? p.id with
  | none =>
    have hnone : lookup h.statuses p.id = fun _ => none := by
      funext r
      rw [lookup, hf]
      rfl
    rw [hnone]
    by_cases hoff : p.status = .offline
    · refine ⟨h.statuses, p.status, ?_, fun r => ?_, fun _ _ _ => rfl, agrees_first p⟩
      · simp [process_presence, hf, hoff]
      · rw [hnone, report, if_pos hoff]
        by_cases hr : r = p.resource <;> simp [hr]
    · refine ⟨h.statuses.set p.id (OrderedMap.empty.set p.resource (p.jutil_priority, p.status)),
        p.status, ?_, fun r => ?_, hother _, agrees_first p⟩
      · simp [process_presence, hf, hoff]
      · rw [lookup, find?_set_self, Option.bind_some, find?_set, report, if_neg hoff]
        rfl
  | some res =>
    have hlook : lookup h.statuses p.id = res.find? := by
      funext r
      rw [lookup, hf]
      rfl
    obtain ⟨res', hres', hrun⟩ := process_presence_table hf
    have hfun : res'.find? =
        Function.update (lookup h.statuses p.id) p.resource (report p) := by
      funext r
      rw [hres', hlook]
    refine ⟨_, _, hrun, fun r => ?_, hother _, ?_⟩
    · rw [lookup, find?_set_self, Option.bind_some, hfun]
    · rw [← hfun]
      refine agrees_get_presence (fun r prio status hr => ?_) ?_
      · rw [hfun] at hr
        exact report_online hon hr
      · rw [hfun, hlook]
        exact (hleaves res hf).after

structure Inv (id : Str) (h : Hook) (w : Reports) : Prop where
  connected : w.connected = h.connected
  off : h.wasOff = true → h.connected = false
  unknown : h.connected = false → w.held = fun _ => none
  table : h.connected = true → lookup h.statuses id = w.held
  online : ∀ r prio status, w.held r = some (prio, status) → status ≠ .offline
  agrees : Agrees w.held (h.status (nickKey .jabber id))

theorem inv_initial (id : Str) : Inv id .initial .initial :=
  ⟨rfl, by simp [Hook.initial], fun _ => rfl, by simp [Hook.initial],
    by simp [Reports.initial], agrees_none⟩

theorem Inv.status_off {id : Str} {h : Hook} {w : Reports} (hi : Inv id h w)
    (hc : h.connected = false) : h.status (nickKey .jabber id) = .offline :=
  hi.agrees.offline.mpr fun r => by rw [hi.unknown hc]

theorem stateOff_status {id : Str} {h : Hook} {w : Reports} (hi : Inv id h w) :
    (stateOff h).status (nickKey .jabber id) = .offline := by
  rw [stateOff]
  by_cases hoff : h.wasOff = true
  · simp only [hoff, if_true]
    exact hi.status_off (hi.off hoff)
  · simp [hoff]

/-- The reset of the packet by the library, for a packet with addresses that it takes. -/
theorem reset_eq {p : Presence} (ht : Tells p) (h1 : p.toAttr.all jid_new = true)
    (h2 : p.fromAttr.all jid_new = true) : p.reset = true := by
  rw [Presence.reset, h1, h2, Bool.and_self, Bool.and_true]
  rcases ht with ht | ht | ht <;> rw [ht] <;> decide

section Runs

variable {clist : List ImContact} {id : Str}

theorem inv_own {h : Hook} {w : Reports} (hi : Inv id h w) (hc : h.connected = true)
    (hlist : (get clist (.ofNick id .jabber)).isSome = true)
    (hroom : get clist (.ofNick (35 :: id) .jabber) = none) {p : Presence} (ht : Tells p)
    (hid : p.id = id) (hm : Meets id h (.presence p)) :
    Inv id (packethandler clist h p) (w.next id (.presence p)) := by
  obtain ⟨h1, h2, hleaves⟩ := (hm hc).1 hid
  subst hid
  have htable := hi.table hc
  obtain ⟨statuses, ust, hrun, hself, -, hagrees⟩ := process_presence_spec h p
    (fun r prio status hr => hi.online r prio status (by rw [← htable]; exact hr)) hleaves
  have hnext : w.next p.id (.presence p) =
      { w with held := Function.update w.held p.resource (report p) } := by
    rw [Reports.next, if_pos ⟨hi.connected.trans hc, rfl⟩, report]
  have hhandler : packethandler clist h p = { h with
      statuses := statuses
      status := Function.update h.status (nickKey .jabber p.id) ust } := by
    simp [packethandler, reset_eq ht h1 h2, hroom, Option.isNone_eq_false_iff.mpr hlist, hrun]
  rw [hnext, hhandler]
  refine ⟨hi.connected, hi.off, fun hn => ?_, fun _ => ?_, fun r prio status hr => ?_, ?_⟩
  · exact absurd (hc.symm.trans hn) (by decide)
  · funext r
    rw [hself, htable]
  · exact report_online hi.online hr
  · rw [htable] at hagrees
    simpa using hagrees

variable (clist) in
/-- The tables of other contacts, and the statuses of contacts that are not equal to one,
stay as they are. -/
theorem packethandler_other (h : Hook) {p : Presence} (hid : p.id ≠ id)
    (hkey : nickKey .jabber p.id ≠ nickKey .jabber id) :
    (∀ r, lookup (packethandler clist h p).statuses id r = lookup h.statuses id r) ∧
      (packethandler clist h p).status (nickKey .jabber id) = h.status (nickKey .jabber id) ∧
      (packethandler clist h p).connected = h.connected ∧
      (packethandler clist h p).wasOff = h.wasOff := by
  have hset : ∀ res r, lookup (h.statuses.set p.id res) id r = lookup h.statuses id r := by
    intro res r
    rw [lookup, find?_set_other _ _ (same_strLt_false hid)]
    rfl
  obtain ⟨statuses, ust, hrun, hlook⟩ : ∃ statuses ust,
      process_presence h p.id p.resource p.jutil_priority p.status =
        ({ h with statuses := statuses }, ust) ∧
      ∀ r, lookup statuses id r = lookup h.statuses id r := by
    rw [process_presence]
    cases h.statuses.find? p.id with
    | none =>
      by_cases hoff : p.status = .offline
      · exact ⟨h.statuses, .offline, by simp [hoff], fun _ => rfl⟩
      · exact ⟨_, _, if_pos hoff, hset _⟩
    | some res => exact ⟨_, _, rfl, hset _⟩
  have hcases : packethandler clist h p = h ∨ packethandler clist h p = { h with
      statuses := statuses
      status := Function.update h.status (nickKey .jabber p.id) ust } := by
    simp only [packethandler, hrun]
    split_ifs <;> simp
  rcases hcases with hp | hp
  · rw [hp]
    exact ⟨fun _ => rfl, rfl, rfl, rfl⟩
  · rw [hp]
    exact ⟨hlook, Function.update_of_ne (Ne.symm hkey) _ _, rfl, rfl⟩

theorem inv_step {h : Hook} {w : Reports} (hi : Inv id h w)
    (hlist : (get clist (.ofNick id .jabber)).isSome = true)
    (hroom : get clist (.ofNick (35 :: id) .jabber) = none) {e : Happening}
    (ht : ∀ p, e = .presence p → Tells p) (hm : Meets id h e) :
    Inv id (step clist h e) (w.next id e) := by
  cases e with
  | presence p =>
    by_cases hc : h.connected = true
    · rw [step, if_pos hc]
      by_cases hid : p.id = id
      · exact inv_own hi hc hlist hroom (ht p rfl) hid hm
      · obtain ⟨hlook, hstatus, hcon, hoff⟩ :=
          packethandler_other clist h hid ((hm hc).2 hid)
        have hnext : w.next id (.presence p) = w := if_neg fun h => hid h.2
        rw [hnext]
        exact ⟨hi.connected.trans hcon.symm, by rw [hoff, hcon]; exact hi.off,
          by rw [hcon]; exact hi.unknown, fun _ => (funext hlook).trans (hi.table hc), hi.online,
          by rw [hstatus]; exact hi.agrees⟩
    · have hnext : w.next id (.presence p) = w := if_neg fun h => hc (hi.connected.symm.trans h.1)
      rw [step, if_neg hc, hnext]
      exact hi
  | loss =>
    exact ⟨rfl, fun _ => rfl, fun _ => rfl, by simp [step], by simp [Reports.next, Reports.initial],
      (stateOff_status hi).symm ▸ agrees_none⟩
  | disconnect =>
    exact ⟨rfl, fun _ => rfl, fun _ => rfl, by simp [step], by simp [Reports.next, Reports.initial],
      (stateOff_status hi).symm ▸ agrees_none⟩
  | connect valid =>
    have hstatus : h.status (nickKey .jabber id) = .offline := by
      by_cases hc : h.connected = true
      · exact hm hc
      · exact hi.status_off (by simpa using hc)
    have hagrees : Agrees (fun _ => none) (h.status (nickKey .jabber id)) := by
      rw [hstatus]
      exact agrees_none
    refine ⟨rfl, fun hoff => ?_, fun _ => rfl, fun _ => rfl, by simp [Reports.next], hagrees⟩
    cases valid with
    | true => exact absurd hoff (by simp [step])
    | false => rfl

/-- In every run whose packets are handled as they should be, the status of the contact is
that of an online resource of highest priority, and offline exactly if there is none. -/
theorem presence_aggregates (hlist : (get clist (.ofNick id .jabber)).isSome = true)
    (hroom : get clist (.ofNick (35 :: id) .jabber) = none) {hs : List Happening}
    (ht : ∀ p, .presence p ∈ hs → Tells p) (hm : AllMeet clist id .initial hs) :
    Agrees (Reports.initial.run id hs).held
      ((run clist .initial hs).status (nickKey .jabber id)) := by
  have hrun : ∀ h w, Inv id h w → AllMeet clist id h hs →
      Inv id (run clist h hs) (w.run id hs) := by
    clear hm
    induction hs with
    | nil => exact fun h w hi _ => hi
    | cons e hs ih =>
      intro h w hi ⟨hme, hms⟩
      have hstep := inv_step hi hlist hroom (fun p hp => ht p (by simp [hp])) hme
      exact ih (fun p hp => ht p (List.mem_cons_of_mem _ hp)) _ _ hstep hms
  exact (hrun _ _ (inv_initial id) hm).agrees

end Runs

def bob : Str := bytes "bob@host"

def bobList : List ImContact := [.ofNick bob .jabber]

def online (resource priority : Str) : Happening :=
  .presence ⟨some (bob ++ 47 :: resource), none, none, none, some priority⟩

/-- The resource with the higher priority goes, and comes back over a new connection. -/
def ordinaryRun : List Happening :=
  [.connect true, online (bytes "home") (bytes "5"), online (bytes "work") (bytes "-126"),
    .presence ⟨some (bob ++ bytes "/home"), none, some (bytes "unavailable"), none, none⟩, .loss,
    .connect true, online (bytes "home") (bytes "0")]

theorem presence_aggregates_ordinary :
    Agrees (Reports.initial.run bob ordinaryRun).held
      ((run bobList .initial ordinaryRun).status (nickKey .jabber bob)) := by
  refine presence_aggregates (by decide) (by decide) (fun p hp => ?_) (by decide)
  simp only [ordinaryRun, online, List.mem_cons, List.not_mem_nil, Happening.presence.injEq,
    reduceCtorEq, false_or, or_false] at hp
  rcases hp with rfl | rfl | rfl | rfl <;> decide

def lowRun : List Happening :=
  [.connect true, online (bytes "home") (bytes "-127"), online (bytes "work") (bytes "-128")]

/-- Both resources are online, and the contact is offline. -/
theorem presence_disagrees :
    ¬ ∀ clist id hs, (get clist (.ofNick id .jabber)).isSome = true →
      get clist (.ofNick (35 :: id) .jabber) = none → (∀ p, .presence p ∈ hs → Tells p) →
      Agrees (Reports.initial.run id hs).held
        ((run clist .initial hs).status (nickKey .jabber id)) := by
  intro h
  have hagrees := h bobList bob lowRun (by decide) (by decide) fun p hp => by
    simp only [lowRun, online, List.mem_cons, List.not_mem_nil, Happening.presence.injEq,
      reduceCtorEq, false_or, or_false] at hp
    rcases hp with rfl | rfl <;> decide
  have hoff : (run bobList .initial lowRun).status (nickKey .jabber bob) = .offline := by
    decide
  have hheld : (Reports.initial.run bob lowRun).held (bytes "home") = some (-127, .available) := by
    decide
  have hnone := hagrees.offline.mp hoff (bytes "home")
  exact nomatch hnone.symm.trans hheld

end CenterIM.JabberPresence

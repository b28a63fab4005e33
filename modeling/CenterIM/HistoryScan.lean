import CenterIM.EventFraming
import CenterIM.HistoryFile

/-!
# What scanhistory finds

The mark that `scanhistory` looks for stands at the incoming records of a history, and it can
stand in a text too. The scan stops at the first mark in the 64-byte block that holds the
start of the last one, blocks being counted from the end of the file: at the start of a
record, or inside one that it cuts in two.
-/
namespace CenterIM.HistoryScan
open ByteText Decimal LineStream StrText Contact XmlTree Event EventReader EventLines RecordText
  XmlRecord EventFraming HistoryFile

def MarkAt (s : Str) (j : ℕ) : Prop := incomingMark <+: s.drop j

/-- The start of the block, of those counted in steps of 64 from `size`, that holds `q`. -/
def blockStart (size q : ℕ) : ℕ := size - 64 * ((size - q + 63) / 64)

theorem incomingMark_eq : incomingMark = [ff, lf, 73, 78, lf] := by decide

theorem blockStart_last {n q : ℕ} (hq : q < n) (h : n - min 64 n ≤ q) :
    blockStart n q = n - min 64 n := by
  have hdiv : (n - q + 63) / 64 = 1 := by omega
  rw [blockStart, hdiv]
  omega

theorem blockStart_step {n q : ℕ} (h : q < n - min 64 n) :
    blockStart (n - min 64 n) q = blockStart n q := by
  have hn : n - min 64 n = n - 64 := by omega
  have hdiv : (n - q + 63) / 64 = (n - 64 - q + 63) / 64 + 1 := by omega
  rw [hn, blockStart, blockStart, hdiv]
  omega

section
variable {content : Str} (hnul : nul ∉ content)
include hnul

theorem block_eq (n : ℕ) :
    cstr ((content.drop (n - min 64 n)).take (min 64 n)) ++ content.drop n =
      content.drop (n - min 64 n) := by
  have hc : nul ∉ (content.drop (n - min 64 n)).take (min 64 n) := fun hm =>
    hnul (List.mem_of_mem_drop (List.mem_of_mem_take hm))
  have hd : content.drop n = (content.drop (n - min 64 n)).drop (min 64 n) := by
    rw [List.drop_drop]
    congr 1
    omega
  rw [cstr_eq_self hc, hd, List.take_append_drop]

theorem scanLoop_none {fuel n : ℕ} (h : ∀ j, ¬ MarkAt content j) :
    scanLoop content fuel n (content.drop n) = none := by
  induction fuel generalizing n with
  | zero => rfl
  | succ fuel ih =>
    rw [scanLoop]
    split_ifs with h0
    · rfl
    · have hf : find incomingMark (content.drop (n - min 64 n)) = none := by
        cases hf : find incomingMark (content.drop (n - min 64 n)) with
        | none => rfl
        | some r =>
          obtain ⟨v, hv, hr⟩ := find_some hf
          refine absurd ?_ (h (n - min 64 n + r))
          rw [MarkAt, ← List.drop_drop, hv, List.drop_left' (by simpa using hr)]
          exact List.prefix_append _ _
      simp only [block_eq hnul, hf]
      exact ih

/-- The scan from `n` stops in the block of the last mark, at the first mark there. -/
theorem scanLoop_some {fuel n q : ℕ} (hf : n < fuel) (hn : n ≤ content.length) (hq : q < n)
    (hm : MarkAt content q) (hlast : ∀ j, q < j → ¬ MarkAt content j) :
    ∃ p, scanLoop content fuel n (content.drop n) = some (p, content.drop (p + 2)) ∧
      MarkAt content p ∧ blockStart n q ≤ p ∧
        ∀ j, blockStart n q ≤ j → j < p → ¬ MarkAt content j := by
  induction fuel generalizing n with
  | zero => omega
  | succ fuel ih =>
    have h0 : n ≠ 0 := by omega
    rw [scanLoop, if_neg h0]
    simp only [block_eq hnul]
    cases hfind : find incomingMark (content.drop (n - min 64 n)) with
    | some r =>
      obtain ⟨v, hv, hr⟩ := find_some hfind
      have hmr : MarkAt content (n - min 64 n + r) := by
        rw [MarkAt, ← List.drop_drop, hv, List.drop_left' (by simpa using hr)]
        exact List.prefix_append _ _
      have hle : n - min 64 n ≤ q := by
        by_contra hlt
        exact hlast _ (by omega) hmr
      rw [List.length_drop] at hr
      refine ⟨n - min 64 n + r, ?_, hmr, ?_, ?_⟩
      · simp only [List.length_drop, List.drop_drop, Option.some.injEq, Prod.mk.injEq]
        constructor
        · omega
        · congr 1
      · rw [blockStart_last hq hle]
        omega
      · intro j h1 h2 hmj
        rw [blockStart_last hq hle] at h1
        refine find_first hfind (j := j - (n - min 64 n)) (by omega) ?_
        rw [List.drop_drop, show n - min 64 n + (j - (n - min 64 n)) = j by omega]
        exact hmj
    | none =>
      have hlt : q < n - min 64 n := by
        by_contra hge
        refine find_none hfind (q - (n - min 64 n)) (by rw [List.length_drop]; omega) ?_
        rw [List.drop_drop, show n - min 64 n + (q - (n - min 64 n)) = q by omega]
        exact hm
      obtain ⟨p, hp, h1, h2, h3⟩ := ih (n := n - min 64 n) (by omega) (by omega) hlt
      rw [blockStart_step hlt] at h2 h3
      exact ⟨p, hp, h1, h2, h3⟩

end

/-- An event whose record the reader takes for one record: no line of its body is a marker,
and an `imxmlevent` has a field. -/
structure WellFormed (e : ImEvent) : Prop where
  stored : Persisted e
  fields : ∀ data, e.body = .imxmlevent data → xmlItems data ≠ []
  separate : marker ∉ bodyLines e.body

theorem WellFormed.not_mem_blockPart {e : ImEvent} (h : WellFormed e) : marker ∉ blockPart e.body := by
  rw [blockPart]
  split_ifs
  · exact fun hm => h.separate (List.mem_of_mem_tail hm)
  · exact h.separate

theorem WellFormed.clean {e : ImEvent} (h : WellFormed e) : Clean e :=
  ⟨fun data hb => ⟨h.fields data hb, h.not_mem_blockPart⟩, fun hm => absurd hm h.not_mem_blockPart⟩

def headText (e : ImEvent) : Str :=
  sdirection e.direction ++ lf :: (seventtype e.gettype ++ lf :: (decimalInt e.timestamp.toInt ++
    lf :: (decimalInt e.senttimestamp.toInt ++ [lf])))

/-- An event of which a record is written, and one without a NUL. -/
structure Recorded (e : ImEvent) : Prop where
  type : e.gettype ≠ .imeventtype_size
  direction : e.direction ≠ .imdirection_size
  plain : nul ∉ e.body.write

theorem recorded {e : ImEvent} (h : Persisted e) : Recorded e :=
  ⟨h.type_ne, h.direction, nul_not_mem_write h⟩

theorem write_eq {e : ImEvent} (h : Recorded e) :
    e.write = ff :: lf :: (headText e ++ e.body.write) := by
  simp [ImEvent.write, writeHeader, h.type, headText]

theorem ff_not_mem_headText (e : ImEvent) : ff ∉ headText e := by
  have h1 : ff ∉ sdirection e.direction := by cases e.direction <;> decide
  have h2 : ff ∉ seventtype e.gettype := by cases e.gettype <;> decide
  have h3 : ∀ i, ff ∉ decimalInt i := not_mem_decimalInt (by decide) (by decide)
  have h4 : ff ≠ lf := by decide
  simp [headText, h1, h2, h3, h4]

theorem writeAll_append (es fs : List ImEvent) : writeAll (es ++ fs) = writeAll es ++ writeAll fs := by
  simp [writeAll]

theorem writeAll_cons (e : ImEvent) (es : List ImEvent) :
    writeAll (e :: es) = e.write ++ writeAll es := rfl

def AtMarker (rest : Str) : Prop := ∀ c, rest.head? = some c → c = ff

theorem head_writeAll {hs : List ImEvent} (h : ∀ e ∈ hs, Recorded e) : AtMarker (writeAll hs) := by
  intro c hc
  cases hs with
  | nil => exact absurd hc (by simp [writeAll])
  | cons e hs =>
    rw [writeAll_cons, write_eq (h e (by simp))] at hc
    exact (Option.some.inj hc).symm

/-- A mark that begins in a body ends in it: the newline at the end of the body would have to be
the one in the mark, and then the next record would begin with its direction. -/
theorem mark_within_body {b : Body} {rest : Str} (hrest : AtMarker rest) {k : ℕ}
    (hk : k < b.write.length) (hm : incomingMark <+: (b.write ++ rest).drop k) :
    incomingMark <+: b.write.drop k := by
  obtain ⟨w, hw⟩ := (write_ended b).resolve_left (List.ne_nil_of_length_pos (by omega))
  have hlen : b.write.length = w.length + 1 := by rw [hw]; simp
  have hin : k + 5 ≤ b.write.length := by
    by_contra hin
    obtain ⟨v, hv⟩ := hm
    have hat : ∀ i, (b.write ++ rest)[k + i]? = (incomingMark ++ v)[i]? := fun i => by
      rw [hv, List.getElem?_drop]
    have hend := hat (w.length - k)
    rw [show k + (w.length - k) = w.length by omega, List.getElem?_append_left (by omega), hw,
      List.getElem?_concat_length] at hend
    have hnext := hat (w.length - k + 1)
    rw [List.getElem?_append_right (by omega),
      show k + (w.length - k + 1) - b.write.length = 0 by omega, ← List.head?_eq_getElem?] at hnext
    have hi : w.length - k < 4 := by omega
    rw [incomingMark_eq] at hend hnext
    interval_cases w.length - k
    · exact absurd (Option.some.inj hend : lf = ff) (by decide)
    · exact absurd (hrest _ hnext) (by decide)
    · exact absurd (Option.some.inj hend : lf = 73) (by decide)
    · exact absurd (Option.some.inj hend : lf = 78) (by decide)
  have hlen5 : incomingMark.length ≤ (b.write.drop k).length := by
    rw [incomingMark_eq, List.length_drop]
    simp only [List.length_cons, List.length_nil]
    omega
  rw [List.drop_append_of_le_length (by omega)] at hm
  exact List.prefix_of_prefix_length_le hm (List.prefix_append _ _) hlen5

theorem drop_body {b : Body} {k : ℕ} (hm : incomingMark <+: b.write.drop k) :
    ∃ T, b.write.drop k = incomingMark ++ unlines T ∧ ∀ l ∈ T, l ∈ bodyLines b := by
  obtain ⟨v, hv⟩ := hm
  have hsplit : b.write = (b.write.take k ++ [ff]) ++ lf :: (bytes "IN" ++ lf :: v) := by
    conv_lhs => rw [← List.take_append_drop k b.write, ← hv]
    simp [incomingMark_eq, bytes]
  have hlines : lines b.write = lines (b.write.take k ++ [ff]) ++ bytes "IN" :: lines v := by
    conv_lhs => rw [hsplit]
    rw [lines_append_lf, lines_line (by decide)]
  have hended : Ended v := by
    rcases List.eq_nil_or_concat v with rfl | ⟨w, c, rfl⟩
    · exact .inl rfl
    · rw [List.concat_eq_append] at *
      obtain ⟨w', hw'⟩ := (write_ended b).resolve_left (by rw [hsplit]; simp)
      have hlast := congrArg List.getLast? (hw'.symm.trans hsplit)
      simp only [List.getLast?_append, List.getLast?_cons, Option.some_or,
        Option.or_some, Option.getD_some] at hlast
      exact .inr ⟨w, by simpa using hlast.symm⟩
  have hunlines : unlines (lines v).dropLast = v := by
    rcases hended with rfl | ⟨w, rfl⟩
    · rfl
    · rw [lines_append_lf_dropLast, unlines_lines]
  refine ⟨(lines v).dropLast, by rw [hunlines, hv], fun l hl => ?_⟩
  rw [bodyLines, hlines, List.dropLast_append_of_ne_nil (by simp),
    List.dropLast_cons_of_ne_nil (lines_ne_nil v)]
  exact List.mem_append_right _ (List.mem_cons_of_mem _ hl)

/-- A mark in the text of a record, but not at its start, stands in the body. -/
theorem mark_in_record {e : ImEvent} (h : Recorded e) {rest : Str} (hrest : AtMarker rest) {j : ℕ}
    (h0 : j ≠ 0) (hj : j < e.write.length) (hm : incomingMark <+: (e.write ++ rest).drop j) :
    ∃ T, e.write.drop j = incomingMark ++ unlines T ∧ ∀ l ∈ T, l ∈ bodyLines e.body := by
  have hw := write_eq h
  obtain ⟨i, rfl⟩ : ∃ i, j = i + 1 := ⟨j - 1, by omega⟩
  have hd : ∀ s : Str, (e.write ++ s).drop (i + 1) = ((lf :: headText e) ++ (e.body.write ++ s)).drop i := by
    intro s
    rw [hw]
    simp
  rw [hd, List.drop_append] at hm
  cases hh : (lf :: headText e).drop i with
  | nil =>
    have hle := List.drop_eq_nil_iff.mp hh
    rw [hh, List.nil_append] at hm
    have hk : i - (lf :: headText e).length < e.body.write.length := by
      rw [hw] at hj
      simp only [List.length_cons, List.length_append] at hj hle ⊢
      omega
    obtain ⟨T, hT, hmem⟩ := drop_body (mark_within_body hrest hk hm)
    refine ⟨T, ?_, hmem⟩
    have hwrite := hd []
    rw [List.append_nil, List.append_nil, List.drop_append, hh, List.nil_append] at hwrite
    rw [hwrite, hT]
  | cons c t =>
    -- the form feed of the mark would be in the header
    rw [hh] at hm
    obtain ⟨v, hv⟩ := hm
    rw [incomingMark_eq] at hv
    have hc : ff = c := (List.cons.inj hv).1
    have hmem : c ∈ lf :: headText e := List.mem_of_mem_drop (hh ▸ List.mem_cons_self ..)
    rw [← hc] at hmem
    rcases List.mem_cons.mp hmem with h1 | h1
    · exact absurd h1 (by decide)
    · exact absurd h1 (ff_not_mem_headText e)

theorem mark_of_incoming {e : ImEvent} (h : Recorded e) (rest : Str) :
    incomingMark <+: e.write ++ rest ↔ e.direction = .incoming := by
  rw [write_eq h, incomingMark_eq]
  cases hd : e.direction with
  | incoming =>
    have hb : sdirection .incoming = [73, 78] := by decide
    simp [headText, hd, hb]
  | outgoing =>
    have hb : sdirection .outgoing = [79, 85, 84] := by decide
    simp [headText, hd, hb]
  | imdirection_size => exact absurd hd h.direction

def LastMark (s : Str) (m : ℕ) : Prop := MarkAt s m ∧ ∀ j, m < j → ¬ MarkAt s j

theorem nul_not_mem_writeAll {hs : List ImEvent} (h : ∀ e ∈ hs, Recorded e) :
    nul ∉ writeAll hs := by
  intro hm
  obtain ⟨e, he, hn⟩ := List.mem_flatMap.mp hm
  have hdec : ∀ i, nul ∉ decimalInt i := fun i => (decimalInt_plain i).2
  have hdir : nul ∉ sdirection e.direction := (sdirection_plain _).2
  have htype : nul ∉ seventtype e.gettype := (seventtype_plain _).2
  have hff : nul ≠ ff ∧ nul ≠ lf := by decide
  rw [write_eq (h e he)] at hn
  simp [headText, hff, hdec, hdir, htype, (h e he).plain] at hn

theorem exists_lastMark {s : Str} {j : ℕ} (h : MarkAt s j) : ∃ m, LastMark s m ∧ j ≤ m := by
  have hbound : ∀ i, MarkAt s i → i < s.length := by
    intro i hi
    have hlen := List.IsPrefix.length_le hi
    simp [incomingMark_eq] at hlen
    omega
  induction hn : s.length - j using Nat.strong_induction_on generalizing j with
  | _ n ih =>
    by_cases hlast : ∀ i, j < i → ¬ MarkAt s i
    · exact ⟨j, ⟨h, hlast⟩, le_rfl⟩
    · push Not at hlast
      obtain ⟨i, hji, hi⟩ := hlast
      have hi' := hbound i hi
      obtain ⟨m, hm, hle⟩ := ih (s.length - i) (by omega) hi rfl
      exact ⟨m, hm, by omega⟩

/-- The scan of a text with a mark stops at the first mark of the block of the last one. -/
theorem scanLoop_mark {s : Str} (hnul : nul ∉ s) {m : ℕ} (hm : LastMark s m) :
    ∃ p, scanLoop s (s.length + 1) s.length [] = some (p, s.drop (p + 2)) ∧ MarkAt s p ∧
      blockStart s.length m ≤ p ∧ ∀ j, blockStart s.length m ≤ j → j < p → ¬ MarkAt s j := by
  have hnil : ([] : Str) = s.drop s.length := by simp
  have hlen := List.IsPrefix.length_le hm.1
  simp only [incomingMark_eq, List.length_cons, List.length_nil, List.length_drop] at hlen
  rw [hnil]
  exact scanLoop_some hnul (Nat.lt_succ_self _) le_rfl (by omega) hm.1 hm.2

theorem scanhistory_mark {s : Str} (hnul : nul ∉ s) {m : ℕ} (hm : LastMark s m)
    (c : HistoryContact) :
    ∃ p, scanhistory (some s) c =
        { c with fhasevents := newerThan (s.drop (p + 2)) c.lastread, fhistoffset := p } ∧
      MarkAt s p ∧ blockStart s.length m ≤ p ∧
      ∀ j, blockStart s.length m ≤ j → j < p → ¬ MarkAt s j := by
  obtain ⟨p, hscan, hp⟩ := scanLoop_mark hnul hm
  refine ⟨p, ?_, hp⟩
  rw [scanhistory, hscan]

/-- The third line of what the scan leaves is the time of the record it stopped at. -/
theorem newerThan_record {e : ImEvent} (h : Recorded e) (pre suf : List ImEvent) (t : Int64) :
    newerThan ((writeAll (pre ++ e :: suf)).drop ((writeAll pre).length + 2)) t =
      decide (t.toUInt64 < e.timestamp.toUInt64) := by
  have hd : (writeAll (pre ++ e :: suf)).drop ((writeAll pre).length + 2) =
      headText e ++ (e.body.write ++ writeAll suf) := by
    rw [writeAll_append, writeAll_cons, write_eq h, ← List.drop_drop, List.drop_left]
    simp
  have hl : lines (headText e ++ (e.body.write ++ writeAll suf)) =
      sdirection e.direction :: seventtype e.gettype :: decimalInt e.timestamp.toInt ::
        decimalInt e.senttimestamp.toInt :: lines (e.body.write ++ writeAll suf) := by
    have ha : headText e ++ (e.body.write ++ writeAll suf) =
        sdirection e.direction ++ lf :: (seventtype e.gettype ++ lf ::
          (decimalInt e.timestamp.toInt ++ lf :: (decimalInt e.senttimestamp.toInt ++
            lf :: (e.body.write ++ writeAll suf)))) := by simp [headText]
    rw [ha, lines_line (sdirection_plain _).1, lines_line (seventtype_plain _).1,
      lines_line (decimalInt_plain _).1, lines_line (decimalInt_plain _).1]
  have hthird : (streamLines (headText e ++ (e.body.write ++ writeAll suf)))[2]? =
      some (decimalInt e.timestamp.toInt) := by
    rw [streamLines, hl]
    split_ifs <;> simp
  rw [newerThan, hd, hthird]
  simp only [strtoul_decimalInt]

def marks (s : Str) : List ℕ := (List.range s.length).filter fun j => decide (incomingMark <+: s.drop j)

/-- The first mark at or after the start of the block of the last one, if there is a mark. -/
def stop (s : Str) : Option ℕ :=
  (marks s).getLast?.bind fun q => (marks s).find? fun j => decide (blockStart s.length q ≤ j)

def place (s : Str) : ℕ := (stop s).getD 0

def begun : ℕ → List ImEvent → List ImEvent
  | _, [] => []
  | p, e :: es => if p = 0 then [] else e :: begun (p - e.write.length) es

/-- The records of a history that begin before the place at which its scan stops. -/
def skipped (hs : List ImEvent) : List ImEvent := begun (place (writeAll hs)) hs

def behind (hs added : List ImEvent) : List ImEvent := (hs ++ added).drop (skipped hs).length

/-- What is left of the last one of them behind that place. -/
def cut (hs : List ImEvent) : Str := (writeAll (skipped hs)).drop (place (writeAll hs))

/-- The lines that are left of it behind its direction. -/
def cutLines (hs : List ImEvent) : List Str := (lines (cut hs)).dropLast.drop 2

theorem mem_marks {s : Str} {j : ℕ} : j ∈ marks s ↔ MarkAt s j := by
  simp only [marks, List.mem_filter, List.mem_range, decide_eq_true_eq, MarkAt, and_iff_right_iff_imp]
  intro hm
  have hlen := hm.length_le
  rw [incomingMark_eq, List.length_drop] at hlen
  simp only [List.length_cons, List.length_nil] at hlen
  omega

theorem marks_sorted (s : Str) : (marks s).Pairwise (· < ·) :=
  List.pairwise_lt_range.sublist List.filter_sublist

theorem le_getLast {s : Str} {j m : ℕ} (hj : j ∈ marks s) (hm : (marks s).getLast? = some m) : j ≤ m := by
  obtain ⟨before, hsplit⟩ := List.getLast?_eq_some_iff.mp hm
  have hsorted := marks_sorted s
  rw [hsplit] at hj hsorted
  rcases List.mem_append.mp hj with hd | hd
  · exact ((List.pairwise_append.mp hsorted).2.2 j hd m (by simp)).le
  · exact (List.mem_singleton.mp hd).le

theorem lastMark_iff {s : Str} {m : ℕ} : LastMark s m ↔ (marks s).getLast? = some m := by
  constructor
  · intro hm
    have hmem := mem_marks.mpr hm.1
    have hk := List.getLast?_eq_some_getLast (List.ne_nil_of_mem hmem)
    generalize (marks s).getLast _ = k at hk
    have hle := le_getLast hmem hk
    have hge : k ≤ m := by
      by_contra hlt
      exact hm.2 k (not_le.mp hlt) (mem_marks.mp (List.mem_of_getLast? hk))
    rw [hk, le_antisymm hge hle]
  · intro hm
    refine ⟨mem_marks.mp (List.mem_of_getLast? hm), fun j hlt hj => ?_⟩
    have hle := le_getLast (mem_marks.mpr hj) hm
    omega

theorem stop_eq {s : Str} {m p : ℕ} (hm : LastMark s m) (hp : MarkAt s p)
    (hle : blockStart s.length m ≤ p)
    (hfirst : ∀ j, blockStart s.length m ≤ j → j < p → ¬ MarkAt s j) : stop s = some p := by
  rw [stop, lastMark_iff.mp hm, Option.bind_some]
  obtain ⟨before, after, hsplit⟩ := List.append_of_mem (mem_marks.mpr hp)
  have hsorted := marks_sorted s
  rw [hsplit, List.pairwise_append] at hsorted
  have hnone : before.find? (fun j => decide (blockStart s.length m ≤ j)) = none := by
    rw [List.find?_eq_none]
    intro j hj hd
    have hjp : j < p := hsorted.2.2 j hj p (by simp)
    have hmj : MarkAt s j := mem_marks.mp (by rw [hsplit]; simp [hj])
    exact hfirst j (by simpa using hd) hjp hmj
  rw [hsplit, List.find?_append, hnone, Option.none_or, List.find?_cons_of_pos (by simpa using hle)]

theorem stop_none {s : Str} (h : ∀ j, ¬ MarkAt s j) : stop s = none := by
  have hnil : marks s = [] := List.eq_nil_iff_forall_not_mem.mpr fun j hj => h j (mem_marks.mp hj)
  rw [stop, hnil]
  rfl

/-- `scanhistory` on any text. -/
theorem scanhistory_stop {s : Str} (hnul : nul ∉ s) (c : HistoryContact) :
    scanhistory (some s) c =
      { c with
        fhasevents := ((stop s).map fun p => newerThan (s.drop (p + 2)) c.lastread).getD false
        fhistoffset := place s } := by
  by_cases h : ∃ j, MarkAt s j
  · obtain ⟨j, hj⟩ := h
    obtain ⟨m, hm, -⟩ := exists_lastMark hj
    obtain ⟨p, hscan, hp, hle, hfirst⟩ := scanhistory_mark hnul hm c
    rw [hscan, place, stop_eq hm hp hle hfirst]
    rfl
  · push Not at h
    have hscan : scanLoop s (s.length + 1) s.length (s.drop s.length) = none := scanLoop_none hnul h
    rw [List.drop_length] at hscan
    rw [scanhistory, hscan, place, stop_none h]
    rfl

theorem place_cases (s : Str) :
    (stop s = none ∧ place s = 0) ∨ (stop s = some (place s) ∧ MarkAt s (place s)) := by
  rw [place]
  cases hs : stop s with
  | none => exact .inl ⟨rfl, rfl⟩
  | some p =>
    obtain ⟨q, -, hq⟩ := Option.bind_eq_some_iff.mp hs
    exact .inr ⟨rfl, mem_marks.mp (List.mem_of_find?_eq_some hq)⟩

theorem not_mark_of_stop {s : Str} (h : stop s = none) (j : ℕ) : ¬ MarkAt s j := by
  intro hj
  obtain ⟨m, hm, -⟩ := exists_lastMark hj
  rw [stop, lastMark_iff.mp hm, Option.bind_some, List.find?_eq_none] at h
  have hlen := hm.1.length_le
  rw [incomingMark_eq, List.length_drop] at hlen
  simp only [List.length_cons, List.length_nil] at hlen
  have hblock : blockStart s.length m ≤ m := by
    rw [blockStart]
    omega
  exact h m (mem_marks.mpr hm.1) (decide_eq_true hblock)

theorem place_le (s : Str) : place s ≤ s.length := by
  rcases place_cases s with ⟨-, h0⟩ | ⟨-, hm⟩
  · omega
  · have hlen := hm.length_le
    rw [incomingMark_eq, List.length_drop] at hlen
    simp only [List.length_cons, List.length_nil] at hlen
    omega

section
variable {hs added : List ImEvent} {p : ℕ}

theorem begun_isPrefix : begun p hs <+: hs := by
  induction hs generalizing p with
  | nil => exact List.prefix_rfl
  | cons e es ih =>
    rw [begun]
    split_ifs
    · exact List.nil_prefix
    · exact List.cons_prefix_cons.mpr ⟨rfl, ih⟩

theorem skipped_isPrefix (hs : List ImEvent) : skipped hs <+: hs := begun_isPrefix

theorem le_length_begun (h : p ≤ (writeAll hs).length) : p ≤ (writeAll (begun p hs)).length := by
  induction hs generalizing p with
  | nil => exact h
  | cons e es ih =>
    rw [begun]
    split_ifs with h0
    · omega
    · rw [writeAll_cons, List.length_append] at h ⊢
      have hle := ih (p := p - e.write.length) (by omega)
      omega

/-- A place with a mark is the start of a record, or it cuts one in its text. -/
theorem begun_cut (h : ∀ e ∈ hs, Recorded e) (hm : MarkAt (writeAll hs) p) :
    (writeAll (begun p hs)).drop p = [] ∨ ∃ T e, e ∈ hs ∧
      (writeAll (begun p hs)).drop p = incomingMark ++ unlines T ∧ ∀ l ∈ T, l ∈ bodyLines e.body := by
  induction hs generalizing p with
  | nil =>
    have hlen := hm.length_le
    simp [writeAll, incomingMark_eq] at hlen
  | cons e es ih =>
    have hes : ∀ d ∈ es, Recorded d := fun d hd => h d (by simp [hd])
    rw [begun]
    split_ifs with h0
    · exact .inl (by simp [writeAll])
    · by_cases hlt : p < e.write.length
      · have hsub : p - e.write.length = 0 := by omega
        have hone : begun (p - e.write.length) es = [] := by
          rw [hsub]
          cases es <;> rfl
        obtain ⟨T, hT, hmem⟩ := mark_in_record (h e (by simp)) (head_writeAll hes) h0 hlt hm
        refine .inr ⟨T, e, by simp, ?_, hmem⟩
        rw [hone, writeAll_cons, writeAll, List.flatMap_nil, List.append_nil, hT]
      · have hdrop : ∀ s : Str, (e.write ++ s).drop p = s.drop (p - e.write.length) := by
          intro s
          rw [List.drop_append, List.drop_eq_nil_iff.mpr (not_lt.mp hlt), List.nil_append]
        have hm' : MarkAt (writeAll es) (p - e.write.length) := by
          rw [MarkAt, writeAll_cons, hdrop] at hm
          exact hm
        rw [writeAll_cons, hdrop]
        rcases ih hes hm' with hnil | ⟨T, d, hd, hT, hmem⟩
        · exact .inl hnil
        · exact .inr ⟨T, d, by simp [hd], hT, hmem⟩

/-- What a file has behind the place of the scan: the rest of a record, and other records. -/
theorem drop_place (hs added : List ImEvent) :
    (writeAll (hs ++ added)).drop (place (writeAll hs)) = cut hs ++ writeAll (behind hs added) := by
  have hle : place (writeAll hs) ≤ (writeAll (skipped hs)).length := le_length_begun (place_le _)
  obtain ⟨rest, hrest⟩ := (skipped_isPrefix hs).trans (List.prefix_append hs added)
  rw [behind, ← hrest, List.drop_left, writeAll_append, List.drop_append_of_le_length hle]
  rfl

/-- A scan that cuts no record leaves the offset behind the records that it skipped. -/
theorem place_uncut {hs : List ImEvent} (hcut : cut hs = []) :
    place (writeAll hs) = (writeAll (skipped hs)).length := by
  have hge := List.drop_eq_nil_iff.mp hcut
  have hle : place (writeAll hs) ≤ (writeAll (skipped hs)).length := le_length_begun (place_le _)
  omega

theorem stop_uncut {hs : List ImEvent} (hcut : cut hs = []) {p : ℕ} (hs' : stop (writeAll hs) = some p) :
    p = (writeAll (skipped hs)).length ∧ ∃ e suf, hs = skipped hs ++ e :: suf := by
  have hp : place (writeAll hs) = p := by rw [place, hs']; rfl
  have huncut := place_uncut hcut
  refine ⟨hp ▸ huncut, ?_⟩
  obtain ⟨rest, hrest⟩ := skipped_isPrefix hs
  cases rest with
  | cons e suf => exact ⟨e, suf, hrest.symm⟩
  | nil =>
    -- a mark does not stand at the end of the file
    rw [List.append_nil] at hrest
    rcases place_cases (writeAll hs) with ⟨hnone, -⟩ | ⟨-, hm⟩
    · rw [hs'] at hnone
      cases hnone
    · have hlen := hm.length_le
      rw [huncut, hrest, incomingMark_eq, List.length_drop] at hlen
      simp at hlen

/-- The rest of a record that the scan cuts: a marker, a direction and lines of its text. -/
theorem cut_cases {hs : List ImEvent} (h : ∀ e ∈ hs, WellFormed e) :
    cut hs = [] ∨ (cut hs = incomingMark ++ unlines (cutLines hs) ∧ marker ∉ cutLines hs ∧
      PlainLines (cutLines hs)) := by
  rcases place_cases (writeAll hs) with ⟨-, h0⟩ | ⟨-, hm⟩
  · left
    rw [cut, skipped, h0]
    cases hs <;> rfl
  · rcases begun_cut (fun e he => recorded (h e he).stored) hm with hnil | ⟨T, e, he, hT, hmem⟩
    · exact .inl hnil
    · right
      have hplain : PlainLines T := fun l hl =>
        recLines_plain (h e he).stored l (List.mem_append_right _ (hmem l hl))
      have hcut : cut hs = incomingMark ++ unlines T := hT
      have hlines : cutLines hs = T := by
        have hmark : incomingMark ++ unlines T = [ff] ++ lf :: (bytes "IN" ++ lf :: unlines T) := by
          simp [incomingMark_eq, bytes]
        rw [cutLines, hcut, hmark, lines_line (by decide), lines_line (by decide),
          lines_unlines fun l hl => (hplain l hl).1, ← List.cons_append, ← List.cons_append,
          List.dropLast_concat]
        rfl
      rw [hlines]
      exact ⟨hcut, fun hin => (h e he).separate (hmem _ hin), hplain⟩

end

end CenterIM.HistoryScan

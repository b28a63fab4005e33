import CenterIM.HistoryScan

/-!
# The last incoming record

`scanhistory` is meant to find the last incoming record of a history. It looks for the
first mark of the block that it has read, and the mark can stand in a text too; when it
finds that record, the times are compared as unsigned numbers.
-/
namespace CenterIM.ScanOffset
open ByteText Event HistoryFile HistoryScan

def lastRecord : List ImEvent → Option (List ImEvent × ImEvent)
  | [] => none
  | e :: es =>
    match lastRecord es with
    | some r => some (e :: r.1, r.2)
    | none => if e.direction = .incoming then some ([], e) else none

/-- The offset of the last incoming record, and whether it is newer than what was read. -/
def exact (hs : List ImEvent) (c : HistoryContact) : HistoryContact :=
  match lastRecord hs with
  | some (pre, e) =>
    { c with
      fhasevents := decide (c.lastread < e.timestamp)
      fhistoffset := (writeAll pre).length }
  | none => { c with fhasevents := false, fhistoffset := 0 }

/-- No mark stands before `q` in the block in which the last one begins. -/
def FirstInBlock (s : Str) (q : ℕ) : Prop :=
  ∃ m, LastMark s m ∧ blockStart s.length m ≤ q ∧
    ∀ j, blockStart s.length m ≤ j → j < q → ¬ MarkAt s j

/-- The scan stops at the last incoming record, and its time has the sign of `lastread`. -/
def ScanExact (hs : List ImEvent) (lastread : Int64) : Prop :=
  match lastRecord hs with
  | some (pre, e) =>
    FirstInBlock (writeAll hs) (writeAll pre).length ∧ (0 ≤ lastread ↔ 0 ≤ e.timestamp)
  | none => ∀ j, ¬ MarkAt (writeAll hs) j

theorem lastRecord_some {hs pre : List ImEvent} {e : ImEvent} (h : lastRecord hs = some (pre, e)) :
    e.direction = .incoming ∧ ∃ suf, hs = pre ++ e :: suf := by
  induction hs generalizing pre with
  | nil => cases h
  | cons d hs ih =>
    rw [lastRecord] at h
    cases hl : lastRecord hs with
    | some r =>
      rw [hl] at h
      obtain ⟨rfl, rfl⟩ := Prod.mk.inj (Option.some.inj h)
      obtain ⟨hin, suf, hsuf⟩ := ih hl
      exact ⟨hin, suf, by rw [List.cons_append, ← hsuf]⟩
    | none =>
      rw [hl] at h
      dsimp only at h
      split_ifs at h with hin
      obtain ⟨rfl, rfl⟩ := Prod.mk.inj (Option.some.inj h)
      exact ⟨hin, hs, rfl⟩

theorem lastRecord_none {hs : List ImEvent} (h : lastRecord hs = none) :
    ∀ e ∈ hs, e.direction ≠ .incoming := by
  induction hs with
  | nil => simp
  | cons d hs ih =>
    rw [lastRecord] at h
    cases hl : lastRecord hs with
    | some r => rw [hl] at h; cases h
    | none =>
      rw [hl] at h
      dsimp only at h
      split_ifs at h with hin
      intro e he
      obtain rfl | he := List.mem_cons.mp he
      · exact hin
      · exact ih hl e he

theorem toUInt64_toNat (x : Int64) :
    (x.toUInt64.toNat : ℤ) = if 0 ≤ x.toInt then x.toInt else x.toInt + 2 ^ 64 := by
  have hnat : x.toUInt64.toNat = x.toBitVec.toNat := rfl
  have hint : x.toInt = x.toBitVec.toInt := rfl
  have hlt : x.toBitVec.toNat < 2 ^ 64 := x.toBitVec.isLt
  rw [hnat, hint, BitVec.toInt_eq_toNat_cond]
  split_ifs <;> omega

/-- Unsigned comparison is the signed one of two numbers of the same sign. -/
theorem unsigned_lt_iff (a b : Int64) :
    decide (a.toUInt64 < b.toUInt64) = decide (a < b) ↔ (0 ≤ a ↔ 0 ≤ b) := by
  have hlo := a.le_toInt
  have hhi := a.toInt_lt
  have hlo' := b.le_toInt
  have hhi' := b.toInt_lt
  have ha := toUInt64_toNat a
  have hb := toUInt64_toNat b
  have h0 : (0 : Int64).toInt = 0 := by decide
  rw [decide_eq_decide, UInt64.lt_iff_toNat_lt, Int64.lt_iff_toInt_lt, Int64.le_iff_toInt_le,
    Int64.le_iff_toInt_le, h0]
  split_ifs at ha hb <;> omega

/-- Without incoming records a mark can stand in a text only, and the scan finds it. -/
theorem scanhistory_none {hs : List ImEvent} (h : ∀ e ∈ hs, Recorded e)
    (hl : lastRecord hs = none) (c : HistoryContact) :
    scanhistory (some (writeAll hs)) c = exact hs c ↔ ∀ j, ¬ MarkAt (writeAll hs) j := by
  have hnul := nul_not_mem_writeAll h
  rw [exact, hl]
  constructor
  · intro heq j hj
    obtain ⟨m, hm, -⟩ := exists_lastMark hj
    obtain ⟨p, hscan, hp, -⟩ := scanhistory_mark hnul hm c
    have hzero : p = 0 := by
      rw [hscan] at heq
      exact congrArg HistoryContact.fhistoffset heq
    rw [hzero, MarkAt, List.drop_zero] at hp
    cases hs with
    | nil =>
      have hlen := hp.length_le
      simp [writeAll, incomingMark_eq] at hlen
    | cons e hs =>
      rw [writeAll_cons, mark_of_incoming (h e (by simp))] at hp
      exact lastRecord_none hl e (by simp) hp
  · intro hnone
    have hscan : scanLoop (writeAll hs) ((writeAll hs).length + 1) (writeAll hs).length
        ((writeAll hs).drop (writeAll hs).length) = none := scanLoop_none hnul hnone
    rw [List.drop_length] at hscan
    rw [scanhistory, hscan]

theorem scanhistory_some {hs pre : List ImEvent} {e : ImEvent} (h : ∀ e ∈ hs, Recorded e)
    (hl : lastRecord hs = some (pre, e)) (c : HistoryContact) :
    scanhistory (some (writeAll hs)) c = exact hs c ↔
      FirstInBlock (writeAll hs) (writeAll pre).length ∧
        (0 ≤ c.lastread ↔ 0 ≤ e.timestamp) := by
  have hnul := nul_not_mem_writeAll h
  obtain ⟨hin, suf, hsuf⟩ := lastRecord_some hl
  have he : Recorded e := h e (by rw [hsuf]; simp)
  have hmark : MarkAt (writeAll hs) (writeAll pre).length := by
    rw [hsuf, MarkAt, writeAll_append, List.drop_left, writeAll_cons, mark_of_incoming he]
    exact hin
  have hnewer := newerThan_record he pre suf c.lastread
  rw [← hsuf] at hnewer
  obtain ⟨m, hm, -⟩ := exists_lastMark hmark
  obtain ⟨p, hscan, hp, hge, hfirst⟩ := scanhistory_mark hnul hm c
  have hsame : ∀ m', LastMark (writeAll hs) m' → m' = m := by
    intro m' hm'
    obtain hlt | heq | hgt := lt_trichotomy m' m
    · exact absurd hm.1 (hm'.2 m hlt)
    · exact heq
    · exact absurd hm'.1 (hm.2 m' hgt)
  -- the first mark of the block is the record just when none stands before the record
  have hplace : p = (writeAll pre).length ↔ FirstInBlock (writeAll hs) (writeAll pre).length := by
    constructor
    · rintro rfl
      exact ⟨m, hm, hge, hfirst⟩
    · rintro ⟨m', hm', hge', hfirst'⟩
      obtain rfl := hsame m' hm'
      obtain hlt | heq | hgt := lt_trichotomy p (writeAll pre).length
      · exact absurd hp (hfirst' p hge hlt)
      · exact heq
      · exact absurd hmark (hfirst _ hge' hgt)
  rw [hscan, exact, hl, ← hplace, ← unsigned_lt_iff]
  constructor
  · intro heq
    have hoffset : p = (writeAll pre).length := congrArg HistoryContact.fhistoffset heq
    have hflag := congrArg HistoryContact.fhasevents heq
    dsimp only at hflag
    rw [hoffset, hnewer] at hflag
    exact ⟨hoffset, hflag⟩
  · rintro ⟨rfl, hflag⟩
    rw [hnewer, hflag]

/-- The scan gives the place of the last incoming record, and whether it is newer than what
was read, when that record is the first mark of its block and the signs of the times agree. -/
theorem scanhistory_exact_iff {hs : List ImEvent} (h : ∀ e ∈ hs, Recorded e)
    (c : HistoryContact) :
    scanhistory (some (writeAll hs)) c = exact hs c ↔ ScanExact hs c.lastread := by
  rw [ScanExact]
  cases hl : lastRecord hs with
  | none => exact scanhistory_none h hl c
  | some r => exact scanhistory_some h hl c

/-- A message that was stored at time `t`. -/
def stored (t : Int64) (text : Str) : ImEvent :=
  ⟨Contact.contactroot, .incoming, t, t, false, .immessage text⟩

def reader (t : Int64) : HistoryContact := ⟨Contact.contactroot, t, 0, false, [], []⟩

theorem recorded_stored (t : Int64) {text : Str} (h : nul ∉ text) : Recorded (stored t text) where
  type := by simp [stored, ImEvent.gettype, Body.gettype]
  direction := by simp [stored]
  plain := by simpa [stored, Body.write] using ⟨h, by decide⟩

def sent (t : Int64) (text : Str) : ImEvent :=
  ⟨Contact.contactroot, .outgoing, t, t, false, .immessage text⟩

/-- A long message, one of two lines, and an answer. The mark of the second message begins in
front of a border between two blocks and ends behind it. -/
def bordered : List ImEvent :=
  [stored 5 (List.replicate 64 97), stored 6 (bytes "two\nlines"), sent 7 (List.replicate 28 98)]

/-- The second message is found. -/
theorem scanhistory_exact_bordered :
    ((writeAll bordered).length, (writeAll [stored 5 (List.replicate 64 97)]).length) = (144, 144 - 64 - 2) ∧
      scanhistory (some (writeAll bordered)) (reader 5) =
        { reader 5 with fhasevents := true, fhistoffset := 78 } := by
  have hrec : ∀ e ∈ bordered, Recorded e := by
    simp only [bordered, List.mem_cons, List.not_mem_nil, or_false, forall_eq_or_imp, forall_eq]
    refine ⟨recorded_stored 5 (by decide), recorded_stored 6 (by decide), ?_⟩
    refine ⟨by simp [sent, ImEvent.gettype, Body.gettype], by simp [sent], ?_⟩
    simp only [sent, Body.write]
    decide
  have hlast : LastMark (writeAll bordered) 78 := lastMark_iff.mpr (by decide +kernel)
  have hfirst : ∀ j ∈ marks (writeAll bordered), j < 78 →
      j < blockStart (writeAll bordered).length 78 := by decide +kernel
  have hexact : ScanExact bordered 5 := by
    refine ⟨⟨78, hlast, by decide +kernel, fun j hge hlt hj => ?_⟩, by decide⟩
    have hj' := hfirst j (mem_marks.mpr hj) (by
      have hlen : (writeAll [stored 5 (List.replicate 64 97)]).length = 78 := by decide
      exact hlen ▸ hlt)
    omega
  exact ⟨by decide +kernel, (scanhistory_exact_iff hrec (reader 5)).mpr hexact⟩

/-- The first of two short messages hides the second one, which is unread. -/
theorem second_hidden :
    ¬ (scanhistory (some (writeAll [stored 5 (bytes "a"), stored 6 (bytes "b")])) (reader 5) =
      exact [stored 5 (bytes "a"), stored 6 (bytes "b")] (reader 5)) := by
  intro h
  have hflag := congrArg HistoryContact.fhasevents h
  revert hflag
  decide

end CenterIM.ScanOffset

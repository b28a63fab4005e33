import CenterIM.Event
import CenterIM.Runs

/-!
# An offline queue that two processes use

`resend` of the running program and `eventwrite` of a second one on the offline file of the
same contact, one system call a step. `eventwrite` puts out a record with a write for each line.
The lock is taken after ten tries whether it is free or not, and `resend` renames, reads and
unlinks the file without it.
-/
namespace CenterIM.SharedQueue
open ByteText Contact Event Runs

/-- A byte of a file: the event whose record it belongs to, and its place there. -/
abbrev Cell := ImEvent × ℕ

/-- The bytes that `write` puts out for an event. -/
def record (ev : ImEvent) : List Cell := (List.range ev.write.length).map fun k => (ev, k)

def records (evs : List ImEvent) : List Cell := evs.flatMap record

/-- The files of the contact by their names: `offline`, `offline_` and `offline.lock`. What is
in a file goes with its inode, which a file that is open keeps when the name is gone. -/
structure Files where
  offline : Option ℕ
  renamed : Option ℕ
  lock : Bool
  content : ℕ → List Cell
  fresh : ℕ

/-- What is in the file that is named `offline`. -/
def Files.queue (f : Files) : List Cell := (f.offline.map f.content).getD []

/-- Where a process is in `eventwrite(ev, offline)`; the calls up to `create` are those of
`setlock`, and of the record the first `k` bytes have been written. -/
inductive Writer
  | access (ntries : ℕ)
  | create
  | opening
  | write (fd k : ℕ)
  | close
  | unlock
  | done
  deriving DecidableEq

/-- One call of an `eventwrite`. What a write puts out is a line or what fits in the buffer of the
stream: some bytes of the record, at least one. -/
def writerStep (ev : ImEvent) (chunk : ℕ) : Writer → Files → Writer × Files
  | .access ntries, f =>
    if f.lock && decide (ntries < 10) then (.access (ntries + 1), f) else (.create, f)
  | .create, f => (.opening, { f with lock := true })
  | .opening, f =>
    match f.offline with
    | some fd => (.write fd 0, f)
    | none =>
      (.write f.fresh 0, { f with
        offline := some f.fresh
        content := Function.update f.content f.fresh []
        fresh := f.fresh + 1 })
  | .write fd k, f =>
    (if k + chunk + 1 < (record ev).length then .write fd (k + chunk + 1) else .close, { f with
      content := Function.update f.content fd
        (f.content fd ++ ((record ev).drop k).take (chunk + 1)) })
  | .close, f => (.unlock, f)
  | .unlock, f => (.done, { f with lock := false })
  | .done, f => (.done, f)

/-- The loop of `resend` over the renamed file: what has been read and not been looked at, and
the event that is being written back. -/
structure Reader where
  fd : ℕ
  pos : ℕ
  buffer : List Cell
  eof : Bool
  back : Option (ImEvent × Writer)
  deriving DecidableEq

/-- What `eventread` finds in the buffer. -/
inductive Front
  | more
  | nothing
  | event (rev : ImEvent) (rest : List Cell)
  | damaged

/-- A record ends where the first line of another one stands, or the end of the file. Bytes that
are not those of one record after another are damaged. -/
def front (eof : Bool) (buffer : List Cell) : Front :=
  match buffer with
  | [] => if eof then .nothing else .more
  | (rev, _) :: _ =>
    if record rev <+: buffer then
      let rest := buffer.drop (record rev).length
      let next := (rest.take 2).map Prod.snd
      if next <+: [0, 1] then
        if next.length = 2 || eof then .event rev rest else .more
      else .damaged
    else if buffer <+: record rev && !eof then .more
    else .damaged

/-- Where the running program is in `resend`. -/
inductive Main
  | access
  | rename
  | opening
  | reading (r : Reader)
  | closing
  | unlink
  | done
  deriving DecidableEq

structure Sys where
  files : Files
  main : Main
  other : Writer
  handed : List ImEvent

/-- A step of one of the processes: how much is read or written, whether the hook takes the event
that is next, and what is made out of damaged bytes. -/
inductive Action
  | main (chunk : ℕ) (taken : Bool) (garbled : Option ImEvent)
  | other (chunk : ℕ)

/-- An event goes to the hook, and back to the file when the hook does not take it. -/
def Reader.deal (taken : Bool) (rev : ImEvent) (rest : List Cell) (r : Reader) (f : Files)
    (handed : List ImEvent) : Main × Files × List ImEvent :=
  if taken then (.reading { r with buffer := rest }, f, handed ++ [rev])
  else (.reading { r with buffer := rest, back := some (rev, .access 0) }, f, handed)

def Reader.step (chunk : ℕ) (taken : Bool) (garbled : Option ImEvent) (r : Reader) (f : Files)
    (handed : List ImEvent) : Main × Files × List ImEvent :=
  match r.back with
  | some (rev, w) =>
    let (w, f) := writerStep rev chunk w f
    (.reading { r with back := if w = .done then none else some (rev, w) }, f, handed)
  | none =>
    match front r.eof r.buffer with
    | .more =>
      let got := ((f.content r.fd).drop r.pos).take (chunk + 1)
      (.reading { r with
        pos := r.pos + got.length
        buffer := r.buffer ++ got
        eof := got.isEmpty }, f, handed)
    | .nothing => (.closing, f, handed)
    | .event rev rest => r.deal taken rev rest f handed
    | .damaged =>
      match garbled with
      | none => (.reading { r with buffer := r.buffer.drop (chunk + 1) }, f, handed)
      | some rev => r.deal taken rev (r.buffer.drop (chunk + 1)) f handed

def mainStep (chunk : ℕ) (taken : Bool) (garbled : Option ImEvent) (m : Main) (f : Files)
    (handed : List ImEvent) : Main × Files × List ImEvent :=
  match m with
  | .access => (if f.offline.isSome then .rename else .done, f, handed)
  | .rename =>
    match f.offline with
    | some i => (.opening, { f with offline := none, renamed := some i }, handed)
    | none => (.done, f, handed)
  | .opening =>
    match f.renamed with
    | some i => (.reading ⟨i, 0, [], false, none⟩, f, handed)
    | none => (.unlink, f, handed)
  | .reading r => r.step chunk taken garbled f handed
  | .closing => (.unlink, f, handed)
  | .unlink => (.done, { f with renamed := none }, handed)
  | .done => (.done, f, handed)

variable (ev : ImEvent)

def step (s : Sys) : Action → Sys
  | .main chunk taken garbled =>
    let (m, f, handed) := mainStep chunk taken garbled s.main s.files s.handed
    ⟨f, m, s.other, handed⟩
  | .other chunk =>
    let (w, f) := writerStep ev chunk s.other s.files
    { s with files := f, other := w }

/-- Both processes start on the files of the contact, at any of which an earlier run may have
stopped. -/
def Start (f : Files) (s : Sys) : Prop := s = ⟨f, .access, .access 0, []⟩

/-- A file system hands out numbers that are not in use. -/
def Files.Fresh (f : Files) : Prop := ∀ i, f.offline = some i → i < f.fresh

/-- The file that `resend` has renamed and not read to its end. -/
def Main.unread (f : Files) : Main → Option ℕ
  | .opening => f.renamed
  | .reading r => if r.eof then none else some r.fd
  | _ => none

/-- The `eventwrite` with which `resend` puts an event back. -/
def Main.back : Main → Option (ImEvent × Writer)
  | .reading r => r.back
  | _ => none

/-- The file that an `eventwrite` has open to write to, and what it has written of its record. -/
def Writer.writing : Writer → Option (ℕ × ℕ)
  | .write fd k => some (fd, k)
  | _ => none

def Main.writing (m : Main) : Option (ℕ × ℕ) := m.back.bind fun b => b.2.writing

/-- The second process does not write to a file that `resend` has read to its end, and a process
does not write to a file in which the other has written a part of a record. -/
def InTime (s : Sys) : Action → Prop
  | .main _ _ _ => ∀ p ∈ s.main.writing, ∀ p' ∈ s.other.writing, p'.1 = p.1 → p'.2 = 0
  | .other _ => ∀ p ∈ s.other.writing,
      (s.files.offline = some p.1 ∨ s.main.unread s.files = some p.1) ∧
      ∀ p' ∈ s.main.writing, p'.1 = p.1 → p'.2 = 0

instance (s : Sys) : DecidablePred (InTime s)
  | .main _ _ _ => inferInstanceAs
      (Decidable (∀ p ∈ s.main.writing, ∀ p' ∈ s.other.writing, p'.1 = p.1 → p'.2 = 0))
  | .other _ => inferInstanceAs (Decidable (∀ p ∈ s.other.writing,
      (s.files.offline = some p.1 ∨ s.main.unread s.files = some p.1) ∧
      ∀ p' ∈ s.main.writing, p'.1 = p.1 → p'.2 = 0))

/-- The event of an `eventwrite` that has not written it to the end yet. -/
def Writer.waiting (ev : ImEvent) : Writer → List ImEvent
  | .access _ | .create | .opening | .write _ _ => [ev]
  | .close | .unlock | .done => []

/-- What an `eventwrite` that is not at its end has written to a file. -/
def Writer.part (ev : ImEvent) (fd : ℕ) : Writer → List Cell
  | .write fd' k => if fd' = fd then (record ev).take k else []
  | _ => []

def Main.backing (m : Main) : List ImEvent :=
  match m.back with
  | some (rev, w) => w.waiting rev
  | none => []

def Main.part (fd : ℕ) (m : Main) : List Cell :=
  match m.back with
  | some (rev, w) => w.part rev fd
  | none => []

/-- What `resend` has in its buffer or ahead of it. -/
def Main.ahead (f : Files) : Main → List Cell
  | .opening => (f.renamed.map f.content).getD []
  | .reading r => r.buffer ++ if r.eof then [] else (f.content r.fd).drop r.pos
  | _ => []

/-- A state of a run that is in time, with the events `u` that `resend` has yet to look at and the
events `q` in the offline file: behind them stands what a process has written of its record. -/
structure Good (ev : ImEvent) (old u q : List ImEvent) (s : Sys) : Prop where
  typed : ∀ e ∈ old ++ [ev], 2 ≤ (record e).length
  total : (s.handed : Multiset ImEvent) + s.main.backing + u + q + s.other.waiting ev = old + {ev}
  fresh : s.files.Fresh
  queue : ∀ fd, s.files.offline = some fd →
    s.files.content fd = records q ++ (s.other.part ev fd ++ s.main.part fd)
  noQueue : s.files.offline = none → q = []
  ahead : s.main.ahead s.files =
    records u ++ ((s.main.unread s.files).map fun fd => s.other.part ev fd).getD []
  other : ∀ fd k, s.other = .write fd k → k < (record ev).length ∧
    (s.files.offline = some fd ∨ s.main.unread s.files = some fd)
  back : ∀ rev fd k, s.main.back = some (rev, .write fd k) →
    k < (record rev).length ∧ s.files.offline = some fd
  apart : ∀ i, s.main.unread s.files = some i → s.files.offline ≠ some i ∧ i < s.files.fresh
  pos : ∀ r, s.main = .reading r → r.eof = false → r.pos ≤ (s.files.content r.fd).length

/-- `resend` has read the renamed file to its end. -/
def Main.ended : Main → Prop
  | .reading r => r.eof = true
  | .closing | .unlink | .done => True
  | _ => False

/-- The second process has open a file that nobody will read, so it cannot write in time. -/
def Stuck (s : Sys) : Prop :=
  ∃ fd k, s.other = .write fd k ∧ s.files.offline ≠ some fd ∧ fd < s.files.fresh ∧ s.main.ended

def Inv (old : List ImEvent) (s : Sys) : Prop := (∃ u q, Good ev old u q s) ∨ Stuck s

@[simp] theorem record_length (e : ImEvent) : (record e).length = e.write.length := by
  simp [record]

theorem record_snd (e : ImEvent) : (record e).map Prod.snd = List.range e.write.length := by
  rw [record, List.map_map]
  exact List.map_id _

theorem records_cons (e : ImEvent) (es : List ImEvent) : records (e :: es) = record e ++ records es :=
  List.flatMap_cons

theorem records_append (es es' : List ImEvent) : records (es ++ es') = records es ++ records es' :=
  List.flatMap_append

@[simp] theorem records_singleton (e : ImEvent) : records [e] = record e := by
  rw [records_cons, records, List.flatMap_nil, List.append_nil]

theorem two_le_record {e : ImEvent} (h : e.gettype ≠ .imeventtype_size) : 2 ≤ (record e).length := by
  rw [record_length, ImEvent.write, writeHeader, if_neg h]
  simp only [List.length_append, List.length_cons]
  omega

theorem record_head {e rev : ImEvent} {i : ℕ} {t : List Cell} (h : (rev, i) :: t <+: record e) :
    rev = e := by
  have hm : (rev, i) ∈ record e := h.subset List.mem_cons_self
  obtain ⟨k, -, hk⟩ := List.mem_map.mp hm
  exact (Prod.mk.inj hk).1.symm

theorem next_records {us : List ImEvent} (hus : ∀ e ∈ us, 2 ≤ (record e).length) (e : ImEvent) (k : ℕ) :
    ((records us ++ (record e).take k).take 2).map Prod.snd <+: [0, 1] := by
  cases us with
  | nil =>
    rw [records, List.flatMap_nil, List.nil_append, List.take_take, List.map_take, record_snd,
      List.take_range]
    have hmin : min (min 2 k) e.write.length ≤ 2 := by omega
    generalize min (min 2 k) e.write.length = n at hmin
    rw [show ([0, 1] : List ℕ) = List.range 2 from rfl, ← Nat.min_eq_left hmin, ← List.take_range]
    exact List.take_prefix ..
  | cons x us =>
    have hx := hus x List.mem_cons_self
    rw [records_cons, List.append_assoc, List.take_append_of_le_length hx, List.map_take, record_snd,
      List.take_range, Nat.min_eq_left (by rwa [record_length] at hx)]
    exact List.prefix_rfl

theorem front_short {x : ImEvent} {buffer : List Cell} (hpre : buffer <+: record x)
    (hshort : ¬record x <+: buffer) : front false buffer = .more := by
  cases buffer with
  | nil => rfl
  | cons a b =>
    obtain ⟨rev, i⟩ := a
    obtain rfl := record_head hpre
    simp only [front, hshort, if_false, hpre, decide_true, Bool.not_false, Bool.and_self, if_true]

theorem front_whole {x : ImEvent} {b : List Cell} {eof : Bool} (hx : 2 ≤ (record x).length)
    (hnext : (b.take 2).map Prod.snd <+: [0, 1]) :
    front eof (record x ++ b) =
      if ((b.take 2).map Prod.snd).length = 2 || eof then .event x b else .more := by
  obtain ⟨⟨rev, i⟩, t, ht⟩ := List.exists_cons_of_ne_nil (List.ne_nil_of_length_pos
    (Nat.lt_of_lt_of_le Nat.zero_lt_two hx))
  obtain rfl := record_head (by rw [ht] : (rev, i) :: t <+: record x)
  have hpre : record rev <+: (rev, i) :: (t ++ b) := by
    rw [← List.cons_append, ← ht]
    exact List.prefix_append ..
  have hdrop : List.drop (record rev).length ((rev, i) :: (t ++ b)) = b := by
    rw [← List.cons_append, ← ht, List.drop_left]
  rw [show record rev ++ b = (rev, i) :: (t ++ b) by rw [ht, List.cons_append], front, if_pos hpre]
  simp only [hdrop, hnext, if_true]

/-- What is found in a buffer that holds records from its start on. -/
theorem front_of_records {us : List ImEvent} {e : ImEvent} {k : ℕ} {eof : Bool}
    {buffer rest : List Cell} (hus : ∀ x ∈ us, 2 ≤ (record x).length) (hk : k < (record e).length)
    (h : buffer ++ rest = records us ++ (record e).take k) (heof : eof = true → rest = [] ∧ k = 0) :
    (eof = false ∧ front eof buffer = .more) ∨
    (us = [] ∧ buffer = [] ∧ eof = true ∧ front eof buffer = .nothing) ∨
    ∃ x xs b, us = x :: xs ∧ front eof buffer = .event x b ∧
      b ++ rest = records xs ++ (record e).take k := by
  cases us with
  | nil =>
    rw [records, List.flatMap_nil, List.nil_append] at h
    cases eof with
    | true =>
      obtain ⟨rfl, rfl⟩ := heof rfl
      rw [List.append_nil, List.take_zero] at h
      rw [h]
      exact .inr (.inl ⟨rfl, rfl, rfl, rfl⟩)
    | false =>
      refine .inl ⟨rfl, front_short (x := e) ?_ fun hp => ?_⟩
      · exact (List.prefix_append buffer rest).trans (h ▸ List.take_prefix ..)
      · have hlen := congrArg List.length h
        have := hp.length_le
        rw [List.length_append, List.length_take] at hlen
        omega
  | cons x xs =>
    have hx := hus x List.mem_cons_self
    rw [records_cons, List.append_assoc] at h
    have hxpre : record x <+: buffer ++ rest := h ▸ List.prefix_append ..
    by_cases hwhole : record x <+: buffer
    · obtain ⟨b, rfl⟩ := hwhole
      rw [List.append_assoc] at h
      have hb : b ++ rest = records xs ++ (record e).take k := List.append_cancel_left h
      have hnext : (b.take 2).map Prod.snd <+: [0, 1] := by
        refine List.IsPrefix.trans ?_ (next_records (fun y hy => hus y (List.mem_cons_of_mem _ hy)) e k)
        rw [← hb]
        exact ((List.prefix_append b rest).take 2).map _
      rw [front_whole hx hnext]
      by_cases hend : (decide (((b.take 2).map Prod.snd).length = 2) || eof) = true
      · rw [if_pos hend]
        exact .inr (.inr ⟨x, xs, b, rfl, rfl, hb⟩)
      · rw [if_neg hend]
        rw [Bool.or_eq_true, not_or] at hend
        exact .inl ⟨Bool.eq_false_iff.mpr hend.2, rfl⟩
    · have hpre : buffer <+: record x :=
        (List.prefix_or_prefix_of_prefix hxpre (List.prefix_append buffer rest)).resolve_left hwhole
      cases eof with
      | true =>
        rw [(heof rfl).1, List.append_nil] at hxpre
        exact absurd hxpre hwhole
      | false => exact .inl ⟨rfl, front_short hpre hwhole⟩

/-- What one call of an `eventwrite` on the file named `offline` does: behind the whole records is
what it has written, between the parts `L` and `R`, which are empty when it writes. -/
structure Written (e : ImEvent) (L R : ℕ → List Cell) (q q' : List ImEvent) (w w' : Writer)
    (f f' : Files) : Prop where
  total : (q' : Multiset ImEvent) + w'.waiting e = q + w.waiting e
  fresh : f'.Fresh
  renamed : f'.renamed = f.renamed
  queue : ∀ fd, f'.offline = some fd → f'.content fd = records q' ++ (L fd ++ w'.part e fd ++ R fd)
  noQueue : f'.offline = none → q' = []
  same : ∀ i, f.offline ≠ some i → i < f.fresh →
    f'.content i = f.content i ∧ f'.offline ≠ some i ∧ i < f'.fresh
  keep : ∀ fd, f.offline = some fd → f'.offline = some fd
  write : ∀ fd k, w' = .write fd k → k < (record e).length ∧ f'.offline = some fd

/-- A call that leaves the files and what was written as they are. -/
theorem Written.quiet {e : ImEvent} {L R : ℕ → List Cell} {q : List ImEvent} {w w' : Writer}
    {f f' : Files} (hf : f.Fresh)
    (hq : ∀ fd, f.offline = some fd → f.content fd = records q ++ (L fd ++ w.part e fd ++ R fd))
    (hno : f.offline = none → q = []) (hwait : w'.waiting e = w.waiting e)
    (hpart : ∀ fd, w'.part e fd = w.part e fd)
    (hoff : f'.offline = f.offline) (hren : f'.renamed = f.renamed) (hcon : f'.content = f.content)
    (hfresh : f'.fresh = f.fresh)
    (hwrite : ∀ fd k, w' = .write fd k → k < (record e).length ∧ f'.offline = some fd) :
    Written e L R q q w w' f f' where
  total := by rw [hwait]
  fresh i hi := by
    rw [hfresh]
    exact hf i (hoff ▸ hi)
  renamed := hren
  queue fd hfd := by
    rw [hcon, hpart]
    exact hq fd (hoff ▸ hfd)
  noQueue h := hno (hoff ▸ h)
  same i hi hlt := by
    rw [hcon, hoff, hfresh]
    exact ⟨rfl, hi, hlt⟩
  keep fd hfd := by rw [hoff, hfd]
  write := hwrite

theorem writerStep_spec {e : ImEvent} {L R : ℕ → List Cell} {q : List ImEvent} {w w' : Writer}
    {f f' : Files} {chunk : ℕ} (hstep : writerStep e chunk w f = (w', f')) (hf : f.Fresh)
    (he : e ∈ w.waiting e → 0 < (record e).length)
    (hq : ∀ fd, f.offline = some fd → f.content fd = records q ++ (L fd ++ w.part e fd ++ R fd))
    (hno : f.offline = none → q = []) (hnew : L f.fresh = [] ∧ R f.fresh = [])
    (hw : ∀ fd k, w = .write fd k → k < (record e).length ∧ f.offline = some fd ∧ L fd = [] ∧ R fd = []) :
    ∃ q', Written e L R q q' w w' f f' := by
  obtain rfl : (writerStep e chunk w f).1 = w' := congrArg Prod.fst hstep
  obtain rfl : (writerStep e chunk w f).2 = f' := congrArg Prod.snd hstep
  clear hstep
  cases w with
  | access n =>
    rw [writerStep]
    by_cases h : (f.lock && decide (n < 10)) = true
    · rw [if_pos h]
      exact ⟨q, .quiet hf hq hno rfl (fun _ => rfl) rfl rfl rfl rfl nofun⟩
    · rw [if_neg h]
      exact ⟨q, .quiet hf hq hno rfl (fun _ => rfl) rfl rfl rfl rfl nofun⟩
  | create => exact ⟨q, .quiet hf hq hno rfl (fun _ => rfl) rfl rfl rfl rfl nofun⟩
  | opening =>
    cases ho : f.offline with
    | some fd =>
      simp only [writerStep, ho]
      refine ⟨q, .quiet hf hq hno rfl (fun i => ?_) rfl rfl rfl rfl fun i k h => ?_⟩
      · by_cases hi : fd = i <;> simp [Writer.part, hi]
      · obtain ⟨rfl, rfl⟩ := Writer.write.inj h
        exact ⟨he List.mem_cons_self, ho⟩
    | none =>
      obtain rfl := hno ho
      simp only [writerStep, ho]
      refine ⟨[], rfl, ?_, rfl, fun fd h => ?_, fun _ => rfl, fun i _ hi => ?_, fun fd h => ?_,
        fun fd k h => ?_⟩
      · intro i hi
        obtain rfl := Option.some.inj hi
        exact Nat.lt_succ_self _
      · obtain rfl := Option.some.inj h
        simp [Writer.part, records, hnew.1, hnew.2]
      · have hne : i ≠ f.fresh := by omega
        exact ⟨Function.update_of_ne hne _ _, fun h => hne (Option.some.inj h).symm,
          Nat.lt_succ_of_lt hi⟩
      · exact absurd (ho.symm.trans h) nofun
      · obtain ⟨rfl, rfl⟩ := Writer.write.inj h
        exact ⟨he List.mem_cons_self, rfl⟩
  | write fd k =>
    obtain ⟨hk, ho, hL, hR⟩ := hw fd k rfl
    have hfile : f.content fd ++ ((record e).drop k).take (chunk + 1) =
        records q ++ (record e).take (k + (chunk + 1)) := by
      rw [hq fd ho, hL, hR, Writer.part, if_pos rfl, List.nil_append, List.append_nil,
        List.append_assoc, ← List.take_add]
    have hsame : ∀ i, f.offline ≠ some i → i < f.fresh →
        Function.update f.content fd (f.content fd ++ ((record e).drop k).take (chunk + 1)) i =
          f.content i ∧ f.offline ≠ some i ∧ i < f.fresh := by
      intro i hne hi
      have hi' : i ≠ fd := fun h => hne (by rw [ho, h])
      exact ⟨Function.update_of_ne hi' _ _, hne, hi⟩
    simp only [writerStep, hfile] at hsame ⊢
    by_cases hend : k + chunk + 1 < (record e).length
    · rw [if_pos hend]
      refine ⟨q, rfl, hf, rfl, fun i hi => ?_, fun h => absurd (ho.symm.trans h) nofun, hsame,
        fun _ h => h, fun i j h => ?_⟩
      · obtain rfl := Option.some.inj (ho.symm.trans hi)
        simp [hL, hR, Writer.part, Nat.add_assoc]
      · obtain ⟨rfl, rfl⟩ := Writer.write.inj h
        exact ⟨hend, ho⟩
    · rw [if_neg hend]
      refine ⟨q ++ [e], ?_, hf, rfl, fun i hi => ?_, fun h => absurd (ho.symm.trans h) nofun, hsame,
        fun _ h => h, nofun⟩
      · rw [← Multiset.coe_add]
        exact add_zero _
      · obtain rfl := Option.some.inj (ho.symm.trans hi)
        rw [List.take_of_length_le (by omega)]
        simp [hL, hR, Writer.part, records_append]
  | close => exact ⟨q, .quiet hf hq hno rfl (fun _ => rfl) rfl rfl rfl rfl nofun⟩
  | unlock => exact ⟨q, .quiet hf hq hno rfl (fun _ => rfl) rfl rfl rfl rfl nofun⟩
  | done => exact ⟨q, .quiet hf hq hno rfl (fun _ => rfl) rfl rfl rfl rfl nofun⟩

theorem part_eq_nil {e : ImEvent} {w : Writer} {fd : ℕ} (h : ∀ k, w = .write fd k → k = 0) :
    w.part e fd = [] := by
  cases w with
  | write fd' k =>
    rw [Writer.part]
    split_ifs with hfd
    · rw [h k (by rw [hfd]), List.take_zero]
    · rfl
  | _ => rfl

variable {ev} {old u q : List ImEvent}

/-- What `resend` has ahead of it does not change with files that it does not read. -/
theorem ahead_congr {m : Main} {f f' : Files} (hr : f'.renamed = f.renamed)
    (h : ∀ i, m.unread f = some i → f'.content i = f.content i) : m.ahead f' = m.ahead f := by
  cases m with
  | opening =>
    simp only [Main.ahead, hr]
    cases hn : f.renamed with
    | none => rfl
    | some i => simpa using h i hn
  | reading r =>
    simp only [Main.ahead]
    cases he : r.eof with
    | true => rfl
    | false => rw [h r.fd (by simp [Main.unread, he])]
  | _ => rfl

theorem unread_congr {m : Main} {f f' : Files} (hr : f'.renamed = f.renamed) :
    m.unread f' = m.unread f := by
  cases m <;> simp [Main.unread, hr]

namespace Good
variable {s : Sys}

theorem two_le (h : Good ev old u q s) {e : ImEvent}
    (he : e ∈ s.main.backing ∨ e ∈ u ∨ e ∈ s.other.waiting ev) : 2 ≤ (record e).length := by
  have hm : e ∈ (s.handed : Multiset ImEvent) + s.main.backing + u + q + s.other.waiting ev := by
    simp only [Multiset.mem_add, Multiset.mem_coe]
    tauto
  rw [h.total, Multiset.mem_add, Multiset.mem_coe, Multiset.mem_singleton] at hm
  refine h.typed e (List.mem_append.mpr (hm.imp_right fun h => ?_))
  rw [h]
  exact List.mem_singleton_self _

/-- The second process has written nothing to a file that is not there yet. -/
theorem part_fresh (h : Good ev old u q s) : s.other.part ev s.files.fresh = [] := by
  refine part_eq_nil fun k hk => absurd (h.other _ k hk).2 ?_
  rintro (ho | hu)
  · exact Nat.lt_irrefl _ (h.fresh _ ho)
  · exact Nat.lt_irrefl _ (h.apart _ hu).2

theorem main_part_fresh (h : Good ev old u q s) : s.main.part s.files.fresh = [] := by
  rw [Main.part]
  cases hb : s.main.back with
  | none => rfl
  | some b =>
    refine part_eq_nil fun k hk => ?_
    have ho := (h.back b.1 _ k (by rw [hb, ← hk])).2
    exact absurd (h.fresh _ ho) (Nat.lt_irrefl _)

/-- A second process that writes to the file named `offline`, or does not write. -/
theorem other_offline (h : Good ev old u q s) (chunk : ℕ)
    (hw : ∀ fd k, s.other = .write fd k → s.files.offline = some fd ∧ s.main.part fd = []) :
    ∃ q', Good ev old u q' (step ev s (.other chunk)) := by
  obtain ⟨w', f', hstep⟩ : ∃ w' f', writerStep ev chunk s.other s.files = (w', f') := ⟨_, _, rfl⟩
  obtain ⟨q', hq'⟩ := writerStep_spec (q := q) (L := fun _ => []) (R := s.main.part) hstep h.fresh
    (fun he => Nat.lt_of_lt_of_le Nat.zero_lt_two (h.two_le (.inr (.inr he)))) h.queue h.noQueue
    ⟨rfl, h.main_part_fresh⟩
    fun fd k hk => ⟨(h.other fd k hk).1, (hw fd k hk).1, rfl, (hw fd k hk).2⟩
  have hcontent : ∀ i, s.main.unread s.files = some i → f'.content i = s.files.content i :=
    fun i hi => (hq'.same i (h.apart i hi).1 (h.apart i hi).2).1
  have hpart : ((s.main.unread s.files).map fun fd => w'.part ev fd) =
      (s.main.unread s.files).map fun fd => s.other.part ev fd := by
    refine Option.map_congr fun i hi => ?_
    rw [part_eq_nil fun k hk => absurd (hw i k hk).1 (h.apart i hi).1,
      part_eq_nil fun k hk => absurd (hq'.write i k hk).2
        (hq'.same i (h.apart i hi).1 (h.apart i hi).2).2.1]
  simp only [step, hstep]
  refine ⟨q', h.typed, ?_, hq'.fresh, hq'.queue, hq'.noQueue, ?_,
    fun fd k hk => ⟨(hq'.write fd k hk).1, .inl (hq'.write fd k hk).2⟩,
    fun rev fd k hb => ⟨(h.back rev fd k hb).1, hq'.keep fd (h.back rev fd k hb).2⟩,
    fun i hi => ?_, fun r hm he => ?_⟩
  · rw [add_assoc, hq'.total, ← add_assoc]
    exact h.total
  · rw [ahead_congr hq'.renamed hcontent, unread_congr hq'.renamed, hpart]
    exact h.ahead
  · rw [unread_congr hq'.renamed] at hi
    exact (hq'.same i (h.apart i hi).1 (h.apart i hi).2).2
  · rw [hcontent r.fd (by simp [show s.main = .reading r from hm, Main.unread, he])]
    exact h.pos r hm he

end Good

/-- More is ahead of `resend` when a process writes to the file that it reads. -/
theorem ahead_write {m : Main} {f : Files} {fd : ℕ} (bs : List Cell) (hfd : m.unread f = some fd)
    (hpos : ∀ r, m = .reading r → r.eof = false → r.pos ≤ (f.content r.fd).length) :
    m.ahead { f with content := Function.update f.content fd (f.content fd ++ bs) } =
      m.ahead f ++ bs := by
  cases m with
  | opening =>
    have hr : f.renamed = some fd := hfd
    simp [Main.ahead, hr]
  | reading r =>
    have he : r.eof = false := by
      by_contra he
      simp [Main.unread, he] at hfd
    have hr : r.fd = fd := by simpa [Main.unread, he] using hfd
    have hle := hpos r rfl he
    simp only [Main.ahead, he, Bool.false_eq_true, if_false, hr, Function.update_self]
    rw [List.drop_append_of_le_length (by rwa [hr] at hle), List.append_assoc]
  | _ => simp [Main.unread] at hfd

/-- A second process that writes to the file that `resend` has renamed and still reads. -/
theorem Good.other_unread {s : Sys} (h : Good ev old u q s) {fd k : ℕ} (chunk : ℕ)
    (hw : s.other = .write fd k) (hfd : s.main.unread s.files = some fd) :
    ∃ u', Good ev old u' q (step ev s (.other chunk)) := by
  obtain ⟨hne, -⟩ := h.apart fd hfd
  have hahead := ahead_write (((record ev).drop k).take (chunk + 1)) hfd h.pos
  have hpart : ∀ w : Writer, (∀ i j, w = .write i j → i = fd) → ∀ i, s.files.offline = some i →
      w.part ev i = [] := fun w hw' i hi => part_eq_nil fun j hj => by
    rw [hw' i j hj] at hi
    exact absurd hi hne
  have hqueue : ∀ w : Writer, (∀ i j, w = .write i j → i = fd) → ∀ i, s.files.offline = some i →
      Function.update s.files.content fd
        (s.files.content fd ++ ((record ev).drop k).take (chunk + 1)) i =
      records q ++ (w.part ev i ++ s.main.part i) := by
    intro w hw' i hi
    have hi' : i ≠ fd := fun hi' => hne (by rw [hi, hi'])
    rw [Function.update_of_ne hi', h.queue i hi, hpart w hw' i hi, hw,
      hpart (.write fd k) (fun i j hij => (Writer.write.inj hij).1.symm) i hi]
  have hpos : ∀ r, s.main = .reading r → r.eof = false → r.pos ≤ (Function.update s.files.content fd
      (s.files.content fd ++ ((record ev).drop k).take (chunk + 1)) r.fd).length := by
    intro r hm he
    have hr : r.fd = fd := by simpa [hm, Main.unread, he] using hfd
    have hle := h.pos r hm he
    rw [hr] at hle ⊢
    rw [Function.update_self, List.length_append]
    omega
  have htotal := h.total
  have hold := h.ahead
  rw [hw] at htotal
  rw [hfd, hw, Option.map_some, Option.getD_some, Writer.part, if_pos rfl] at hold
  rw [hold, List.append_assoc, ← List.take_add] at hahead
  have hunread : s.main.unread { s.files with
      content := Function.update s.files.content fd
        (s.files.content fd ++ ((record ev).drop k).take (chunk + 1)) } = some fd :=
    (unread_congr rfl).trans hfd
  simp only [step, hw, writerStep]
  by_cases hend : k + chunk + 1 < (record ev).length
  · rw [if_pos hend]
    refine ⟨u, h.typed, htotal, h.fresh, hqueue _ (fun i j hij => (Writer.write.inj hij).1.symm),
      h.noQueue, ?_, fun i j hij => ?_, h.back, h.apart, hpos⟩
    · dsimp only
      rw [hahead, hunread, Option.map_some, Option.getD_some, Writer.part, if_pos rfl, Nat.add_assoc]
    · obtain ⟨rfl, rfl⟩ := Writer.write.inj hij
      exact ⟨hend, .inr hfd⟩
  · rw [if_neg hend]
    refine ⟨u ++ [ev], h.typed, ?_, h.fresh, hqueue _ nofun, h.noQueue, ?_, nofun, h.back, h.apart,
      hpos⟩
    · rw [← htotal, ← Multiset.coe_add]
      simp only [Writer.waiting, Multiset.coe_nil]
      abel
    · dsimp only
      rw [hahead, hunread, List.take_of_length_le (by omega), records_append, records_singleton]
      simp [Writer.part]

theorem records_eq_nil (hu : ∀ x ∈ u, 2 ≤ (record x).length) (h : records u = []) : u = [] := by
  cases u with
  | nil => rfl
  | cons x xs =>
    have hx := hu x List.mem_cons_self
    rw [records_cons, List.append_eq_nil_iff] at h
    rw [h.1, List.length_nil] at hx
    omega

/-- `resend` before it renames the file and after it has read it. -/
structure Main.Idle (m : Main) : Prop where
  unread : ∀ f, m.unread f = none
  ahead : ∀ f, m.ahead f = []
  back : m.back = none
  reading : ∀ r, m ≠ .reading r

theorem idle_rename : Main.rename.Idle :=
  ⟨fun _ => rfl, fun _ => rfl, rfl, fun _ h => Main.noConfusion h⟩

theorem idle_closing : Main.closing.Idle :=
  ⟨fun _ => rfl, fun _ => rfl, rfl, fun _ h => Main.noConfusion h⟩

theorem idle_unlink : Main.unlink.Idle :=
  ⟨fun _ => rfl, fun _ => rfl, rfl, fun _ h => Main.noConfusion h⟩

theorem idle_done : Main.done.Idle :=
  ⟨fun _ => rfl, fun _ => rfl, rfl, fun _ h => Main.noConfusion h⟩

theorem Main.Idle.backing {m : Main} (hm : m.Idle) : m.backing = [] := by
  rw [Main.backing, hm.back]

theorem Main.Idle.part {m : Main} (hm : m.Idle) (fd : ℕ) : m.part fd = [] := by
  rw [Main.part, hm.back]

namespace Good
variable {f f' : Files} {m m' : Main} {w : Writer} {handed : List ImEvent}

/-- `resend` stands still before a file is renamed or after it has been read. -/
theorem idle (h : Good ev old u q ⟨f, m, w, handed⟩) (hu : m.unread f = none) (ha : m.ahead f = [])
    (hb : m.back = none) (hm' : m'.Idle) (hoff : f'.offline = f.offline) (hcon : f'.content = f.content)
    (hfresh : f'.fresh = f.fresh) : Good ev old [] q ⟨f', m', w, handed⟩ := by
  have hahead := h.ahead
  simp only [ha, hu, Option.map_none, Option.getD_none, List.append_nil] at hahead
  obtain rfl := records_eq_nil (fun x hx => h.two_le (.inr (.inl hx))) hahead.symm
  have htotal := h.total
  have hbacking : m.backing = [] := by rw [Main.backing, hb]
  refine ⟨h.typed, ?_, fun i hi => ?_, fun fd hfd => ?_, fun hn => h.noQueue (hoff ▸ hn), ?_,
    fun fd k hk => ⟨(h.other fd k hk).1, .inl ?_⟩, fun rev fd k hk => ?_, fun i hi => ?_,
    fun r hr => absurd hr (hm'.reading r)⟩
  · simp only [hbacking, hm'.backing] at htotal ⊢
    exact htotal
  · rw [hfresh]
    exact h.fresh i (hoff ▸ hi)
  · have hpart : m.part fd = [] := by rw [Main.part, hb]
    have hq := h.queue fd (hoff ▸ hfd)
    simp only [hpart, hm'.part, hcon] at hq ⊢
    exact hq
  · simp [hm'.ahead, hm'.unread, records]
  · have ho := (h.other fd k hk).2
    rw [hu] at ho
    exact hoff.trans (ho.resolve_right nofun)
  · rw [hm'.back] at hk
    cases hk
  · rw [hm'.unread] at hi
    cases hi

/-- `resend` gives the file another name. -/
theorem rename (h : Good ev old u q ⟨f, m, w, handed⟩) (hm : m.Idle) {i : ℕ}
    (ho : f.offline = some i) :
    Good ev old q [] ⟨{ f with offline := none, renamed := some i }, .opening, w, handed⟩ := by
  obtain rfl := records_eq_nil (fun x hx => h.two_le (.inr (.inl hx)))
    (by simpa [hm.ahead, hm.unread] using h.ahead.symm)
  have htotal := h.total
  have hq := h.queue i ho
  simp only [hm.part, hm.backing, List.append_nil] at htotal hq
  refine ⟨h.typed, ?_, nofun, nofun, fun _ => rfl, hq, fun fd k hk => ⟨(h.other fd k hk).1, .inr ?_⟩,
    nofun, fun j hj => ⟨nofun, ?_⟩, fun r hr => Main.noConfusion hr⟩
  · rw [← htotal]
    simp only [Main.backing, Main.back, Multiset.coe_nil, add_zero]
  · have hfd := (h.other fd k hk).2
    simp only [hm.unread, reduceCtorEq, or_false] at hfd
    exact ho.symm.trans hfd
  · obtain rfl := Option.some.inj hj
    exact h.fresh i ho

theorem opening (h : Good ev old u q ⟨f, .opening, w, handed⟩) {i : ℕ} (hr : f.renamed = some i) :
    Good ev old u q ⟨f, .reading ⟨i, 0, [], false, none⟩, w, handed⟩ := by
  have hunread : (Main.reading ⟨i, 0, [], false, none⟩).unread f = Main.opening.unread f := hr.symm
  have hahead : (Main.reading ⟨i, 0, [], false, none⟩).ahead f = Main.opening.ahead f := by
    simp [Main.ahead, hr]
  refine ⟨h.typed, h.total, h.fresh, h.queue, h.noQueue, ?_, ?_, h.back, ?_, fun r hm _ => ?_⟩
  · simp only [hunread, hahead]
    exact h.ahead
  · simp only [hunread]
    exact h.other
  · simp only [hunread]
    exact h.apart
  · obtain rfl := Main.reading.inj hm
    exact Nat.zero_le _

/-- A step of the `eventwrite` with which `resend` puts an event back. -/
theorem back_step {r : Reader} (h : Good ev old u q ⟨f, .reading r, w, handed⟩) {rev : ImEvent}
    {v : Writer} (hb : r.back = some (rev, v)) (chunk : ℕ)
    (hok : ∀ fd k j, v = .write fd k → w = .write fd j → j = 0) :
    ∃ q', Good ev old u q' ⟨(writerStep rev chunk v f).2, .reading { r with
      back := if (writerStep rev chunk v f).1 = .done then none
        else some (rev, (writerStep rev chunk v f).1) }, w, handed⟩ := by
  obtain ⟨v', f', hstep⟩ : ∃ v' f', writerStep rev chunk v f = (v', f') := ⟨_, _, rfl⟩
  have hbacking : (Main.reading r).backing = v.waiting rev := by simp [Main.backing, Main.back, hb]
  have hpart : ∀ fd, (Main.reading r).part fd = v.part rev fd := by simp [Main.part, Main.back, hb]
  obtain ⟨q', hq'⟩ := writerStep_spec (q := q) (L := fun fd => w.part ev fd) (R := fun _ => []) hstep
    h.fresh (fun he => Nat.lt_of_lt_of_le Nat.zero_lt_two (h.two_le (.inl (by rw [hbacking]; exact he))))
    (fun fd hfd => by rw [h.queue fd hfd, hpart, List.append_nil]) h.noQueue ⟨h.part_fresh, rfl⟩
    fun fd k hk => ⟨(h.back rev fd k (by rw [← hk]; exact hb)).1,
      (h.back rev fd k (by rw [← hk]; exact hb)).2, part_eq_nil fun j hj => hok fd k j hk hj, rfl⟩
  have hcontent : ∀ i, (Main.reading r).unread f = some i → f'.content i = f.content i :=
    fun i hi => (hq'.same i (h.apart i hi).1 (h.apart i hi).2).1
  rw [hstep]
  dsimp only
  generalize hr' : ({ r with back := if v' = .done then none else some (rev, v') } : Reader) = r'
  have hunread : (Main.reading r').unread f' = (Main.reading r).unread f := by
    rw [← hr']
    rfl
  have hahead : (Main.reading r').ahead f' = (Main.reading r).ahead f := by
    rw [← ahead_congr hq'.renamed hcontent, ← hr']
    rfl
  have hback : (Main.reading r').back = if v' = .done then none else some (rev, v') := by
    rw [← hr']
    rfl
  refine ⟨q', h.typed, ?_, hq'.fresh, fun fd hfd => ?_, hq'.noQueue, ?_,
    fun fd k hk => ⟨(h.other fd k hk).1, ?_⟩, fun rev' fd k hk => ?_, fun i hi => ?_, fun r₁ hm he => ?_⟩
  · have hbacking' : (Main.reading r').backing = v'.waiting rev := by
      rw [Main.backing, hback]
      by_cases hv : v' = .done <;> simp [hv, Writer.waiting]
    have htotal := h.total
    simp only [hbacking, hbacking'] at htotal ⊢
    rw [← htotal]
    calc _ = (handed : Multiset ImEvent) + u + (q' + v'.waiting rev) + w.waiting ev := by abel
      _ = _ := by rw [hq'.total]; abel
  · have hpart' : (Main.reading r').part fd = v'.part rev fd := by
      rw [Main.part, hback]
      by_cases hv : v' = .done <;> simp [hv, Writer.part]
    have hq := hq'.queue fd hfd
    rw [List.append_nil] at hq
    simp only [hpart']
    exact hq
  · simp only [hunread, hahead]
    exact h.ahead
  · simp only [hunread]
    exact (h.other fd k hk).2.imp_left fun ho => hq'.keep fd ho
  · simp only [hback] at hk
    split_ifs at hk with hv
    obtain ⟨rfl, rfl⟩ := Prod.mk.inj (Option.some.inj hk)
    exact hq'.write fd k rfl
  · simp only [hunread] at hi
    exact (hq'.same i (h.apart i hi).1 (h.apart i hi).2).2
  · obtain rfl := Main.reading.inj hm
    have he' : r.eof = false := by
      rw [← hr'] at he
      exact he
    have hle := h.pos r rfl he'
    rw [← hcontent r.fd (by simp [Main.unread, he'])] at hle
    rw [← hr']
    exact hle

end Good

section Reading
variable {f : Files} {r : Reader} {w : Writer} {handed : List ImEvent}

/-- The part of a record that is behind what `resend` has ahead. -/
theorem Good.behind (h : Good ev old u q ⟨f, .reading r, w, handed⟩) :
    ∃ k < (record ev).length, r.buffer ++ (if r.eof then [] else (f.content r.fd).drop r.pos) =
      records u ++ (record ev).take k ∧ (r.eof = true → k = 0) := by
  have hev : 0 < (record ev).length :=
    Nat.lt_of_lt_of_le Nat.zero_lt_two (h.typed ev (List.mem_append_right _ List.mem_cons_self))
  have hahead := h.ahead
  simp only [Main.ahead, Main.unread] at hahead
  by_cases he : r.eof = true
  · refine ⟨0, hev, ?_, fun _ => rfl⟩
    rw [hahead, if_pos he]
    rfl
  · rw [if_neg he, if_neg he, Option.map_some, Option.getD_some] at hahead
    rw [if_neg he, hahead]
    by_cases hw : ∃ k, w = .write r.fd k
    · obtain ⟨k, hk⟩ := hw
      refine ⟨k, (h.other r.fd k hk).1, ?_, fun h => absurd h he⟩
      rw [hk, Writer.part, if_pos rfl]
    · refine ⟨0, hev, ?_, fun h => absurd h he⟩
      rw [part_eq_nil fun k hk => absurd ⟨k, hk⟩ hw, List.take_zero]

/-- `resend` has an event in hand, which goes to the hook or back. -/
theorem Good.deal (h : Good ev old u q ⟨f, .reading r, w, handed⟩) (hb : r.back = none)
    {x : ImEvent} {xs : List ImEvent} {b : List Cell} (hu : u = x :: xs)
    (hrest : b ++ (if r.eof then [] else (f.content r.fd).drop r.pos) =
      records xs ++ (((Main.reading r).unread f).map fun fd => w.part ev fd).getD []) (taken : Bool) :
    Good ev old xs q ⟨(r.deal taken x b f handed).2.1, (r.deal taken x b f handed).1, w,
      (r.deal taken x b f handed).2.2⟩ := by
  subst hu
  have htotal := h.total
  have hbacking : (Main.reading r).backing = [] := by simp [Main.backing, Main.back, hb]
  have hpart : ∀ fd, (Main.reading r).part fd = [] := by simp [Main.part, Main.back, hb]
  have hqueue := h.queue
  simp only [hbacking, hpart] at htotal hqueue
  cases taken with
  | true =>
    have hbacking' : (Main.reading { r with buffer := b }).backing = [] := hbacking
    refine ⟨h.typed, ?_, h.fresh, h.queue, h.noQueue, hrest, h.other, h.back, h.apart,
      fun r' hm he => ?_⟩
    · rw [← htotal]
      simp only [Reader.deal, if_true, hbacking', ← Multiset.coe_add, ← Multiset.cons_coe,
        ← Multiset.singleton_add, Multiset.coe_nil]
      abel
    · obtain rfl := Main.reading.inj hm
      exact h.pos r rfl he
  | false =>
    refine ⟨h.typed, ?_, h.fresh, hqueue, h.noQueue, hrest, h.other, fun rev fd k hk => ?_, h.apart,
      fun r' hm he => ?_⟩
    · rw [← htotal]
      simp only [Reader.deal, Bool.false_eq_true, if_false, Main.backing, Main.back, Writer.waiting,
        ← Multiset.cons_coe, ← Multiset.singleton_add, Multiset.coe_nil]
      abel
    · cases hk
    · obtain rfl := Main.reading.inj hm
      exact h.pos r rfl he

/-- `resend` reads on, or sees the end of the file. -/
theorem Good.read (h : Good ev old u q ⟨f, .reading r, w, handed⟩)
    (he : r.eof = false) {got : List Cell} (hgot : got <+: (f.content r.fd).drop r.pos)
    (hend : got = [] → (f.content r.fd).drop r.pos = []) :
    Inv ev old ⟨f, .reading { r with
      pos := r.pos + got.length, buffer := r.buffer ++ got, eof := got.isEmpty }, w, handed⟩ := by
  have hunread : (Main.reading r).unread f = some r.fd := by simp [Main.unread, he]
  obtain ⟨hne, hlt⟩ := h.apart r.fd hunread
  have hahead := h.ahead
  simp only [Main.ahead, he, Bool.false_eq_true, if_false, hunread, Option.map_some,
    Option.getD_some] at hahead
  obtain ⟨rest, hrest⟩ := hgot
  have hdrop : (f.content r.fd).drop (r.pos + got.length) = rest := by
    rw [← List.drop_drop, ← hrest, List.drop_left]
  cases got with
  | nil =>
    rw [hend rfl, List.append_nil] at hahead
    by_cases hw : ∃ k, w = .write r.fd k
    · obtain ⟨k, hk⟩ := hw
      exact .inr ⟨r.fd, k, hk, hne, hlt, rfl⟩
    · refine .inl ⟨u, q, h.typed, h.total, h.fresh, h.queue, h.noQueue, ?_,
        fun fd k hk => ⟨(h.other fd k hk).1, .inl ((h.other fd k hk).2.resolve_right fun hu => ?_)⟩,
        h.back, fun i hi => ?_, fun r' hm he' => ?_⟩
      · rw [part_eq_nil fun k hk => absurd ⟨k, hk⟩ hw] at hahead
        simpa [Main.ahead, Main.unread] using hahead
      · obtain rfl := Option.some.inj (hunread.symm.trans hu)
        exact hw ⟨k, hk⟩
      · simp [Main.unread] at hi
      · obtain rfl := Main.reading.inj hm
        cases he'
  | cons a t =>
    have hunread' : (Main.reading { r with
        pos := r.pos + (a :: t).length, buffer := r.buffer ++ a :: t, eof := (a :: t).isEmpty }).unread f =
        (Main.reading r).unread f := hunread.symm
    refine .inl ⟨u, q, h.typed, h.total, h.fresh, h.queue, h.noQueue, ?_, ?_, h.back, ?_,
      fun r' hm he' => ?_⟩
    · simp only [Main.ahead, List.isEmpty_cons, Bool.false_eq_true, if_false, hdrop]
      rw [List.append_assoc, hrest]
      exact hahead
    · simp only [hunread']
      exact h.other
    · simp only [hunread']
      exact h.apart
    · obtain rfl := Main.reading.inj hm
      have hlen := congrArg List.length hrest
      rw [List.length_append, List.length_drop] at hlen
      have hle : r.pos ≤ (f.content r.fd).length := h.pos r rfl he
      change r.pos + (a :: t).length ≤ (f.content r.fd).length
      omega

/-- The loop of `resend` keeps what it reads for later, hands it over, or puts it back. -/
theorem Good.reader (h : Good ev old u q ⟨f, .reading r, w, handed⟩) (chunk : ℕ) (taken : Bool)
    (garbled : Option ImEvent)
    (hok : InTime ⟨f, .reading r, w, handed⟩ (.main chunk taken garbled)) :
    Inv ev old (step ev ⟨f, .reading r, w, handed⟩ (.main chunk taken garbled)) := by
  cases hb : r.back with
  | some b =>
    obtain ⟨rev, v⟩ := b
    have hwriting : (Main.reading r).writing = v.writing := by simp [Main.writing, Main.back, hb]
    obtain ⟨q', hq'⟩ := h.back_step hb chunk fun fd k j hv hw =>
      hok (fd, k) (by rw [hwriting, hv]; rfl) (fd, j) (by rw [hw]; rfl) rfl
    simp only [step, mainStep, Reader.step, hb]
    exact .inl ⟨u, q', hq'⟩
  | none =>
    obtain ⟨fd, pos, buffer, eof, back⟩ := r
    obtain rfl : back = none := hb
    obtain ⟨k, hk, hahead, hkeof⟩ := h.behind
    simp only [step, mainStep, Reader.step]
    obtain ⟨heof, hfront⟩ | ⟨rfl, hbuf, heof, hfront⟩ | ⟨x, xs, b, hu, hfront, hrest⟩ :=
      front_of_records (fun x hx => h.two_le (.inr (.inl hx))) hk hahead
        fun he => ⟨by rw [if_pos he], hkeof he⟩
    · simp only [hfront]
      refine h.read heof (List.take_prefix ..) fun hnil => ?_
      rw [List.take_eq_nil_iff] at hnil
      exact hnil.resolve_left (Nat.succ_ne_zero _)
    · simp only [hfront]
      simp only at heof hbuf
      exact .inl ⟨[], q, h.idle (by simp [Main.unread, heof]) (by simp [Main.ahead, heof, hbuf]) rfl
        idle_closing rfl rfl rfl⟩
    · simp only [hfront]
      refine .inl ⟨xs, q, h.deal rfl hu ?_ taken⟩
      have hall := h.ahead
      simp only [Main.ahead] at hall
      rw [hahead] at hall
      rw [hrest]
      exact congrArg (records xs ++ ·) (List.append_cancel_left hall)

end Reading

theorem front_eof (buffer : List Cell) : front true buffer ≠ .more := by
  cases buffer with
  | nil => exact fun h => Front.noConfusion h
  | cons a b =>
    simp only [front, Bool.or_true, if_true, Bool.not_true, Bool.and_false, Bool.false_eq_true, if_false]
    split_ifs <;> exact fun h => Front.noConfusion h

/-- An `eventwrite` does not give a name to a file that has none. -/
theorem writerStep_offline {e : ImEvent} {chunk fd : ℕ} (w : Writer) {f : Files}
    (h : f.offline ≠ some fd ∧ fd < f.fresh) :
    (writerStep e chunk w f).2.offline ≠ some fd ∧ fd < (writerStep e chunk w f).2.fresh := by
  cases w with
  | access n =>
    rw [writerStep]
    split_ifs <;> exact h
  | opening =>
    cases ho : f.offline with
    | some i =>
      simp only [writerStep, ho]
      exact ⟨ho ▸ h.1, h.2⟩
    | none =>
      simp only [writerStep, ho]
      exact ⟨fun hfd => absurd (Option.some.inj hfd) (Nat.ne_of_gt h.2), Nat.lt_succ_of_lt h.2⟩
  | _ => exact h

/-- What the running program does with the renamed file read to its end. -/
theorem Stuck.main_step {s : Sys} (h : Stuck s) (chunk : ℕ) (taken : Bool) (garbled : Option ImEvent) :
    Stuck (step ev s (.main chunk taken garbled)) := by
  obtain ⟨f, m, w, handed⟩ := s
  obtain ⟨fd, k, hw, hne, hlt, hended⟩ := h
  have hfiles : ∀ {m' : Main} {handed' : List ImEvent}, m'.ended → Stuck ⟨f, m', w, handed'⟩ :=
    fun hm' => ⟨fd, k, hw, hne, hlt, hm'⟩
  cases m with
  | reading r =>
    have he : r.eof = true := hended
    have hdeal : ∀ rev rest, Stuck ⟨(r.deal taken rev rest f handed).2.1,
        (r.deal taken rev rest f handed).1, w, (r.deal taken rev rest f handed).2.2⟩ := by
      intro rev rest
      cases taken <;> exact hfiles he
    simp only [step, mainStep, Reader.step]
    cases hb : r.back with
    | some b => exact ⟨fd, k, hw, (writerStep_offline b.2 ⟨hne, hlt⟩).1,
        (writerStep_offline b.2 ⟨hne, hlt⟩).2, he⟩
    | none =>
      cases hfront : front r.eof r.buffer with
      | more => exact absurd (he ▸ hfront) (front_eof _)
      | nothing => exact hfiles trivial
      | event rev rest => exact hdeal rev rest
      | damaged =>
        cases garbled with
        | none => exact hfiles he
        | some rev => exact hdeal rev _
  | closing => exact hfiles trivial
  | unlink => exact ⟨fd, k, hw, hne, hlt, trivial⟩
  | done => exact hfiles trivial
  | _ => exact hended.elim

/-- A step of `resend` that is in time. -/
theorem Good.main_step {s : Sys} (h : Good ev old u q s) {chunk : ℕ} {taken : Bool}
    {garbled : Option ImEvent} (hok : InTime s (.main chunk taken garbled)) :
    Inv ev old (step ev s (.main chunk taken garbled)) := by
  obtain ⟨f, m, w, handed⟩ := s
  cases m with
  | access =>
    simp only [step, mainStep]
    by_cases ho : f.offline.isSome = true
    · rw [if_pos ho]
      exact .inl ⟨[], q, h.idle rfl rfl rfl idle_rename rfl rfl rfl⟩
    · rw [if_neg ho]
      exact .inl ⟨[], q, h.idle rfl rfl rfl idle_done rfl rfl rfl⟩
  | rename =>
    cases ho : f.offline with
    | none =>
      simp only [step, mainStep, ho]
      exact .inl ⟨[], q, h.idle rfl rfl rfl idle_done rfl rfl rfl⟩
    | some i =>
      simp only [step, mainStep, ho]
      exact .inl ⟨q, [], h.rename idle_rename ho⟩
  | opening =>
    cases hr : f.renamed with
    | none =>
      simp only [step, mainStep, hr]
      exact .inl ⟨[], q, h.idle hr (by simp [Main.ahead, hr]) rfl idle_unlink rfl rfl rfl⟩
    | some i =>
      simp only [step, mainStep, hr]
      exact .inl ⟨u, q, h.opening hr⟩
  | reading r => exact h.reader chunk taken garbled hok
  | closing => exact .inl ⟨[], q, h.idle rfl rfl rfl idle_unlink rfl rfl rfl⟩
  | unlink => exact .inl ⟨[], q, h.idle rfl rfl rfl idle_done rfl rfl rfl⟩
  | done => exact .inl ⟨[], q, h.idle rfl rfl rfl idle_done rfl rfl rfl⟩

theorem Good.other_step {s : Sys} (h : Good ev old u q s) {chunk : ℕ} (hok : InTime s (.other chunk)) :
    Inv ev old (step ev s (.other chunk)) := by
  by_cases hw : ∃ fd k, s.other = .write fd k ∧ s.main.unread s.files = some fd
  · obtain ⟨fd, k, hfd, hunread⟩ := hw
    obtain ⟨u', hu'⟩ := h.other_unread chunk hfd hunread
    exact .inl ⟨u', q, hu'⟩
  · obtain ⟨q', hq'⟩ := h.other_offline chunk fun fd k hk => by
      obtain ⟨hplace, halone⟩ := hok (fd, k) (by rw [hk]; rfl)
      refine ⟨hplace.resolve_right fun hu => hw ⟨fd, k, hk, hu⟩, ?_⟩
      rw [Main.part]
      cases hb : s.main.back with
      | none => rfl
      | some b =>
        refine part_eq_nil fun j hj => halone (fd, j) ?_ rfl
        rw [Main.writing, hb, Option.bind_some, hj]
        rfl
    exact .inl ⟨u, q', hq'⟩

/-- A second process that has a file open that nobody will read does not write in time. -/
theorem Stuck.other_step {s : Sys} (h : Stuck s) {chunk : ℕ} (hok : InTime s (.other chunk)) : False := by
  obtain ⟨fd, k, hw, hne, -, hended⟩ := h
  have hunread : s.main.unread s.files = none := by
    cases hm : s.main with
    | reading r =>
      rw [hm] at hended
      exact if_pos hended
    | opening =>
      rw [hm] at hended
      exact hended.elim
    | _ => rfl
  rcases (hok (fd, k) (by rw [hw]; rfl)).1 with ho | hu
  · exact hne ho
  · rw [hunread] at hu
    cases hu

theorem step_inv {s : Sys} (h : Inv ev old s) {a : Action} (hok : InTime s a) :
    Inv ev old (step ev s a) := by
  cases a with
  | main chunk taken garbled =>
    rcases h with ⟨u, q, hgood⟩ | hstuck
    · exact hgood.main_step hok
    · exact .inr (hstuck.main_step chunk taken garbled)
  | other chunk =>
    rcases h with ⟨u, q, hgood⟩ | hstuck
    · exact hgood.other_step hok
    · exact (hstuck.other_step hok).elim

theorem start_inv {f : Files} (hf : f.Fresh) (htyped : ∀ e ∈ old ++ [ev], e.gettype ≠ .imeventtype_size)
    (hold : f.queue = records old) {s : Sys} (h : Start f s) : Inv ev old s := by
  obtain rfl := h
  have hlen : ∀ e ∈ old ++ [ev], 2 ≤ (record e).length := fun e he => two_le_record (htyped e he)
  refine .inl ⟨[], old, hlen, by simp [Main.backing, Main.back, Writer.waiting], hf, fun fd hfd => ?_,
    fun hn => ?_, rfl, nofun, nofun, nofun, fun r hr => Main.noConfusion hr⟩
  · simpa [Files.queue, show f.offline = some fd from hfd, Writer.part, Main.part, Main.back] using hold
  · refine records_eq_nil (fun e he => hlen e (List.mem_append_left _ he)) ?_
    rw [← hold, Files.queue, show f.offline = none from hn]
    rfl

/-- The event of the second process is handed to the hook or in the offline file. -/
def Kept (ev : ImEvent) (s : Sys) : Prop :=
  ev ∈ s.handed ∨ ∃ evs, s.files.queue = records evs ∧ ev ∈ evs

/-- When the writes are in time, the event of the second process and the old ones are, after both
processes, each once among those handed over and those in the offline file. -/
theorem kept_of_inTime (ev : ImEvent) (old : List ImEvent)
    (htyped : ∀ e ∈ old ++ [ev], e.gettype ≠ .imeventtype_size) (f : Files) (hf : f.Fresh)
    (hold : f.queue = records old) (s : Sys)
    (h : Reached (Start f) (fun s a t => t = step ev s a) InTime s)
    (hmain : s.main = .done) (hother : s.other = .done) :
    Kept ev s ∧ ∃ evs, s.files.queue = records evs ∧ (s.handed ++ evs).Perm (old ++ [ev]) := by
  have hinv : Inv ev old s := by
    refine h.invariant (fun s => start_inv hf htyped hold) fun s a t hs hok ht => ?_
    rw [ht]
    exact step_inv hs hok
  rcases hinv with ⟨u, q, hgood⟩ | ⟨fd, k, hw, -⟩
  · have hfile : s.files.queue = records q := by
      cases ho : s.files.offline with
      | none => rw [Files.queue, ho, hgood.noQueue ho]; rfl
      | some fd =>
        rw [Files.queue, ho, Option.map_some, Option.getD_some, hgood.queue fd ho, hmain, hother,
          idle_done.part]
        exact List.append_nil _
    have hperm : (s.handed ++ q).Perm (old ++ [ev]) := by
      have htotal := hgood.total
      have hahead := hgood.ahead
      rw [hmain] at hahead
      obtain rfl := records_eq_nil (fun x hx => hgood.two_le (.inr (.inl hx)))
        ((hahead.trans (List.append_nil _)).symm)
      rw [hmain, hother, idle_done.backing] at htotal
      rw [← Multiset.coe_eq_coe, ← Multiset.coe_add, ← Multiset.coe_add]
      simpa [Writer.waiting] using htotal
    refine ⟨(List.mem_append.mp (hperm.mem_iff.mpr (by simp))).imp_right fun hm => ⟨q, hfile, hm⟩,
      q, hfile, hperm⟩
  · rw [hother] at hw
    cases hw

/-- Each step of a schedule meets a condition on the state before it. -/
def Meets (ev : ImEvent) (ok : Sys → Action → Prop) : List Action → Sys → Prop
  | [], _ => True
  | a :: as, s => ok s a ∧ Meets ev ok as (step ev s a)

instance (ev : ImEvent) (ok : Sys → Action → Prop) [∀ s a, Decidable (ok s a)] :
    ∀ as s, Decidable (Meets ev ok as s)
  | [], _ => isTrue trivial
  | a :: as, s =>
    have := instDecidableMeets ev ok as (step ev s a)
    inferInstanceAs (Decidable (ok s a ∧ Meets ev ok as (step ev s a)))

theorem reached_run {ok : Sys → Action → Prop} {init : Sys → Prop} {s : Sys} {as : List Action}
    (h : Reached init (fun s a t => t = step ev s a) ok s) (hm : Meets ev ok as s) :
    Reached init (fun s a t => t = step ev s a) ok (as.foldl (step ev) s) := by
  induction as generalizing s with
  | nil => exact h
  | cons a as ih => exact ih (.step h hm.1 rfl) hm.2

def earlier : ImEvent := ⟨ImContact.ofUin 42 .icq, .outgoing, 1000, 0, false, .immessage (bytes "hi")⟩

def sentByShell : ImEvent :=
  ⟨ImContact.ofUin 42 .icq, .outgoing, 2000, 0, false, .immessage (bytes "hello")⟩

def oneFile : Files := ⟨some 0, none, false, fun _ => record earlier, 1⟩

theorem oneFile_fresh : oneFile.Fresh := fun i hi => by
  obtain rfl := Option.some.inj hi
  exact Nat.zero_lt_one

/-- The second process writes the first line of its record, `resend` renames the file and takes
what is there, then come the other lines, and `resend` reads them, and puts the event back. -/
def inTimeRun : List Action :=
  [.other 0, .other 0, .other 0, .other 1, .main 0 true none, .main 0 true none, .main 0 true none,
    .main 99 true none, .main 0 true none, .other 3, .other 9, .other 99, .main 99 true none,
    .main 0 true none, .other 0, .other 0, .main 0 false none, .main 0 true none, .main 0 true none,
    .main 0 true none, .main 1 true none, .main 99 true none, .main 0 true none, .main 0 true none,
    .main 0 true none, .main 0 true none, .main 0 true none]

theorem kept_inTimeRun :
    Kept sentByShell (inTimeRun.foldl (step sentByShell) ⟨oneFile, .access, .access 0, []⟩) :=
  (kept_of_inTime sentByShell [earlier] (by decide) oneFile oneFile_fresh (by decide +kernel) _
    (reached_run (.init rfl) (by decide +kernel)) (by decide +kernel) (by decide +kernel)).1

/-- The second process opens the file, and `resend` is done with it before the writes. -/
def lateRun : List Action :=
  [.other 0, .other 0, .other 0, .main 0 true none, .main 0 true none, .main 0 true none,
    .main 99 true none, .main 0 true none, .main 0 true none, .main 0 true none, .main 0 true none,
    .main 0 true none, .other 1, .other 99, .other 0, .other 0]

theorem meets_all (as : List Action) (s : Sys) : Meets ev (fun _ _ => True) as s := by
  induction as generalizing s with
  | nil => trivial
  | cons a as ih => exact ⟨trivial, ih _⟩

/-- Not every interleaving keeps the event of the second process. -/
theorem not_kept_of_every_run :
    ¬∀ (ev : ImEvent) (old : List ImEvent), (∀ e ∈ old ++ [ev], e.gettype ≠ .imeventtype_size) →
      ∀ f : Files, f.Fresh → f.queue = records old → ∀ s : Sys,
      Reached (Start f) (fun s a t => t = step ev s a) (fun _ _ => True) s →
      s.main = .done → s.other = .done → Kept ev s := by
  intro h
  have hlate := h sentByShell [earlier] (by decide) oneFile oneFile_fresh (by decide +kernel) _
    (reached_run (.init rfl) (meets_all lateRun _)) (by decide +kernel) (by decide +kernel)
  have hhanded : (lateRun.foldl (step sentByShell) ⟨oneFile, .access, .access 0, []⟩).handed =
      [earlier] := by decide +kernel
  have hqueue : (lateRun.foldl (step sentByShell)
      ⟨oneFile, .access, .access 0, []⟩).files.queue = [] := by decide +kernel
  rw [Kept, hhanded, hqueue] at hlate
  rcases hlate with hin | ⟨evs, hevs, hin⟩
  · exact absurd (List.mem_singleton.mp hin) (by decide)
  · have hlen := two_le_record (e := sentByShell) (by decide)
    have hnil : record sentByShell = [] := List.flatMap_eq_nil_iff.mp hevs.symm _ hin
    rw [hnil, List.length_nil] at hlen
    omega

end CenterIM.SharedQueue

import CenterIM.FileTransfer
import CenterIM.JabberHook

/-!
# Sending files to a Jabber contact

`jabberhook` sends the files of an event one after another: the report that a file is through
starts the next one. The files are started in their order, each once; but the report about the
last file compares the index of that file with the number of files, not the one behind it, so
the entries of the transfer are never taken out of the maps.
-/
namespace CenterIM.FileSending
open ByteText StrText Event FileTransfer JabberHook OrderedMap

/-- `struct send_file`, as far as the hook looks at it. -/
structure SendFile where
  full_jid_name : Option Str
  deriving DecidableEq

/-- An entry of `srfiles`: the event, the pointer, and the index of the file that is sent. -/
structure Sending where
  event : ImFile
  file : Option SendFile
  index : ℕ
  deriving DecidableEq

structure FileSends where
  srfiles : OrderedMap Str Sending strLt := .empty
  back_srfiles : OrderedMap ImFile Str ImFile.lt := .empty

inductive TransferStatus
  | tsInit | tsProgress | tsFinish | tsError
  deriving DecidableEq

inductive Call
  | transferupdate (fname : Str) (fr : ImFile) (status : TransferStatus) (size bytes : ℤ)
  | jabber_send_file (fname : Str) (size : Int64) (rfile : Str)
  deriving DecidableEq

/-- `jabberhook::send_file(cjid)`. Looking for an entry that is not there makes an empty one. -/
def send_file (s : FileSends) (cjid : Str) : Except Fault (FileSends × List Call) :=
  match s.srfiles.find? cjid with
  | none =>
    .ok ({ s with srfiles := s.srfiles.set cjid ⟨⟨Contact.contactroot, [], []⟩, none, 0⟩ }, [])
  | some e =>
    match e.event.files[e.index]? with
    | none => .ok (s, [])
    | some r =>
      -- the pointer is followed for the address of the server that was started
      if e.file = none then .error .nullDeref
      else .ok (s, [.jabber_send_file r.fname r.size cjid])

/-- `jabberhook::clean_up_file(fr, 1, cjid)`, for files that are sent. -/
def clean_up_file (s : FileSends) (cjid : Str) : FileSends :=
  match s.srfiles.find? cjid with
  | none => s
  | some e =>
    let back :=
      match e.file with
      | some ⟨some _⟩ => s.back_srfiles.erase e.event
      | _ => s.back_srfiles
    ⟨s.srfiles.erase cjid, back⟩

def peer (m : ImFile) : Str := cstr (lo (jidtodisp m.contact.nickname))

/-- `jabberhook::send` of a file event. -/
def send (full_jids : Str → Str) (s : FileSends) (m : ImFile) :
    Except Fault (FileSends × List Call) :=
  let cjid := peer m
  let s : FileSends :=
    ⟨s.srfiles.set cjid ⟨m, some ⟨some (full_jids cjid)⟩, 0⟩, s.back_srfiles.set m cjid⟩
  match m.files with
  | [] => .error .pastEnd
  | r :: _ =>
    (send_file s cjid).map fun t =>
      (t.1, .transferupdate r.fname m .tsInit r.size.toInt 0 :: t.2)

/-- What a thread reports about the file that it sends. -/
structure Progress where
  jid : Str
  bytes : ℤ
  size : ℤ
  status : ℤ

/-- `jabberhook::progressbar`, for files that are sent. -/
def progressbar (s : FileSends) (p : Progress) : Except Fault (FileSends × List Call) :=
  match s.srfiles.find? p.jid with
  | none => .ok (s, [])
  | some e =>
    let fr := e.event
    let ir := e.index
    match fr.files[ir]? with
    | none => .ok (s, [])
    | some r =>
      if p.status = 0 then
        .ok (s, [.transferupdate r.fname fr .tsProgress p.size p.bytes])
      else if p.status = 1 then
        let s := { s with srfiles := s.srfiles.set p.jid { e with index := ir + 1 } }
        let next := if ir < fr.files.length then send_file s p.jid else .ok (clean_up_file s p.jid, [])
        next.map fun t => (t.1, .transferupdate r.fname fr .tsFinish p.size 0 :: t.2)
      else .ok (clean_up_file s p.jid, [.transferupdate r.fname fr .tsError 0 0])

def reports : FileSends → List Progress → Except Fault (FileSends × List Call)
  | s, [] => .ok (s, [])
  | s, p :: ps =>
    match progressbar s p with
    | .error e => .error e
    | .ok (s, calls) => (reports s ps).map fun t => (t.1, calls ++ t.2)

def transfer (full_jids : Str → Str) (s : FileSends) (m : ImFile) (ps : List Progress) :
    Except Fault (FileSends × List Call) :=
  match send full_jids s m with
  | .error e => .error e
  | .ok (s, calls) => (reports s ps).map fun t => (t.1, calls ++ t.2)

def started (cjid : Str) (calls : List Call) : List FileRecord :=
  calls.filterMap fun
    | .jabber_send_file fname size rfile => if rfile = cjid then some ⟨fname, size⟩ else none
    | _ => none

/-- How many files are reported to be through. -/
def finished (cjid : Str) (ps : List Progress) : ℕ :=
  (ps.filter fun p => p.jid = cjid && p.status = 1).length

/-- Each file was started once and in order, and the transfer is forgotten. -/
def Sent (full_jids : Str → Str) (s : FileSends) (m : ImFile) (ps : List Progress) : Prop :=
  ∃ t calls, transfer full_jids s m ps = .ok (t, calls) ∧ started (peer m) calls = m.files ∧
    t.srfiles.find? (peer m) = none ∧ t.back_srfiles.find? m = none

section Steps

variable {s t : FileSends} {m : ImFile} {cjid : Str} {calls : List Call} {file : SendFile} {k : ℕ}

/-- The entry of a transfer: the pointer is there, and so many files are through. -/
def At (s : FileSends) (cjid : Str) (m : ImFile) (k : ℕ) : Prop :=
  ∃ file : SendFile, s.srfiles.find? cjid = some ⟨m, some file, k⟩

theorem started_append (cjid : Str) (a b : List Call) :
    started cjid (a ++ b) = started cjid a ++ started cjid b := List.filterMap_append

theorem started_update (cjid fname : Str) (fr : ImFile) (status : TransferStatus) (size bytes : ℤ)
    (calls : List Call) :
    started cjid (.transferupdate fname fr status size bytes :: calls) = started cjid calls := rfl

theorem send_file_at (h : At s cjid m k) :
    ∃ calls, send_file s cjid = .ok (s, calls) ∧
      started cjid calls = (m.files.drop k).take 1 := by
  obtain ⟨file, hf⟩ := h
  rw [send_file, hf]
  cases hr : m.files[k]? with
  | none =>
    have hlen := List.getElem?_eq_none_iff.mp hr
    refine ⟨[], by simp [hr], ?_⟩
    rw [List.drop_eq_nil_of_le hlen]
    rfl
  | some r =>
    obtain ⟨hlt, hget⟩ := List.getElem?_eq_some_iff.mp hr
    refine ⟨[.jabber_send_file r.fname r.size cjid], by simp [hr], ?_⟩
    rw [List.drop_eq_getElem_cons hlt, hget]
    simp [started]

/-- A report that a file is through takes the transfer to the next one. -/
theorem progressbar_finish (h : At s cjid m k) (hk : k < m.files.length) {p : Progress}
    (hp : p.jid = cjid) (hstatus : p.status = 1) :
    ∃ t calls, progressbar s p = .ok (t, calls) ∧ At t cjid m (k + 1) ∧
      started cjid calls = (m.files.drop (k + 1)).take 1 := by
  obtain ⟨file, hf⟩ := h
  have hnext : At { s with srfiles := s.srfiles.set cjid ⟨m, some file, k + 1⟩ } cjid m (k + 1) :=
    ⟨file, find?_set_self ..⟩
  obtain ⟨calls, hsend, hstarted⟩ := send_file_at hnext
  have hget : m.files[k]? = some m.files[k] := List.getElem?_eq_getElem hk
  refine ⟨_, .transferupdate m.files[k].fname m .tsFinish p.size 0 :: calls, ?_, hnext, hstarted⟩
  subst hp
  simp only [progressbar, hf, hget, hstatus, one_ne_zero, if_false, if_true, if_pos hk, hsend]
  rfl

theorem progressbar_progress (h : At s cjid m k) {p : Progress} (hp : p.jid = cjid)
    (hstatus : p.status = 0) :
    ∃ calls, progressbar s p = .ok (s, calls) ∧ started cjid calls = [] := by
  obtain ⟨file, hf⟩ := h
  subst hp
  rw [progressbar, hf]
  cases hr : m.files[k]? with
  | none => exact ⟨[], by simp [hr], rfl⟩
  | some r => exact ⟨[.transferupdate r.fname m .tsProgress p.size p.bytes], by simp [hr, hstatus], rfl⟩

/-- What becomes of the map when the entry of another contact is set or erased. -/
theorem at_set {jid : Str} (h : At s cjid m k) (hne : jid ≠ cjid) (e : Sending)
    (back : OrderedMap ImFile Str ImFile.lt) : At ⟨s.srfiles.set jid e, back⟩ cjid m k := by
  obtain ⟨file, hf⟩ := h
  exact ⟨file, (find?_set_other _ _ (same_strLt_false hne)).trans hf⟩

theorem at_clean_up_file {jid : Str} (h : At s cjid m k) (hne : jid ≠ cjid) :
    At (clean_up_file s jid) cjid m k := by
  obtain ⟨file, hf⟩ := h
  unfold clean_up_file
  cases s.srfiles.find? jid with
  | none => exact ⟨file, hf⟩
  | some e => exact ⟨file, (find?_erase_other _ (same_strLt_false hne)).trans hf⟩

theorem send_file_other {jid : Str} (h : At s cjid m k) (hne : jid ≠ cjid)
    (hrun : send_file s jid = .ok (t, calls)) : At t cjid m k ∧ started cjid calls = [] := by
  unfold send_file at hrun
  cases hj : s.srfiles.find? jid with
  | none =>
    rw [hj] at hrun
    obtain ⟨rfl, rfl⟩ := Prod.mk.inj (Except.ok.inj hrun)
    exact ⟨at_set h hne _ _, rfl⟩
  | some e =>
    rw [hj] at hrun
    cases hr : e.event.files[e.index]? with
    | none =>
      simp only [hr] at hrun
      obtain ⟨rfl, rfl⟩ := Prod.mk.inj (Except.ok.inj hrun)
      exact ⟨h, rfl⟩
    | some r =>
      simp only [hr] at hrun
      split at hrun
      · cases hrun
      · obtain ⟨rfl, rfl⟩ := Prod.mk.inj (Except.ok.inj hrun)
        exact ⟨h, by simp [started, hne]⟩

theorem progressbar_other (h : At s cjid m k) {p : Progress} (hne : p.jid ≠ cjid)
    (hrun : progressbar s p = .ok (t, calls)) : At t cjid m k ∧ started cjid calls = [] := by
  unfold progressbar at hrun
  cases hj : s.srfiles.find? p.jid with
  | none =>
    rw [hj] at hrun
    obtain ⟨rfl, rfl⟩ := Prod.mk.inj (Except.ok.inj hrun)
    exact ⟨h, rfl⟩
  | some e =>
    rw [hj] at hrun
    cases hr : e.event.files[e.index]? with
    | none =>
      simp only [hr] at hrun
      obtain ⟨rfl, rfl⟩ := Prod.mk.inj (Except.ok.inj hrun)
      exact ⟨h, rfl⟩
    | some r =>
      obtain ⟨hlt, -⟩ := List.getElem?_eq_some_iff.mp hr
      simp only [hr, if_pos hlt] at hrun
      split at hrun
      · obtain ⟨rfl, rfl⟩ := Prod.mk.inj (Except.ok.inj hrun)
        exact ⟨h, rfl⟩
      · split at hrun
        · -- the next file of the other contact
          have hset := at_set h hne { e with index := e.index + 1 } s.back_srfiles
          cases hsend : send_file
            { s with srfiles := s.srfiles.set p.jid { e with index := e.index + 1 } } p.jid with
          | error f =>
            rw [hsend] at hrun
            cases hrun
          | ok u =>
            rw [hsend] at hrun
            obtain ⟨rfl, rfl⟩ := Prod.mk.inj (Except.ok.inj hrun)
            exact @send_file_other _ u.1 _ _ u.2 _ _ hset hne hsend
        · obtain ⟨rfl, rfl⟩ := Prod.mk.inj (Except.ok.inj hrun)
          exact ⟨at_clean_up_file h hne, rfl⟩

end Steps

section Reports

variable {full_jids : Str → Str} {s t : FileSends} {m : ImFile} {cjid : Str} {ps : List Progress}
  {calls : List Call} {k : ℕ}

theorem reports_cons {p : Progress} (hrun : reports s (p :: ps) = .ok (t, calls)) :
    ∃ u before after, progressbar s p = .ok (u, before) ∧ reports u ps = .ok (t, after) ∧
      calls = before ++ after := by
  rw [reports] at hrun
  cases hp : progressbar s p with
  | error e =>
    rw [hp] at hrun
    cases hrun
  | ok r =>
    obtain ⟨u, before⟩ := r
    simp only [hp] at hrun
    cases hr : reports u ps with
    | error e =>
      rw [hr] at hrun
      cases hrun
    | ok r =>
      rw [hr] at hrun
      obtain ⟨rfl, rfl⟩ := Prod.mk.inj (Except.ok.inj hrun)
      exact ⟨u, before, r.2, rfl, hr, rfl⟩

/-- Over any reports without an error, the index counts the files that are through, and the files
behind it are started in order. -/
theorem reports_at (h : At s cjid m k)
    (hok : ∀ p ∈ ps, p.jid = cjid → p.status = 0 ∨ p.status = 1)
    (hk : k + finished cjid ps ≤ m.files.length) (hrun : reports s ps = .ok (t, calls)) :
    At t cjid m (k + finished cjid ps) ∧
      started cjid calls = (m.files.drop (k + 1)).take (finished cjid ps) := by
  induction ps generalizing s k calls with
  | nil =>
    obtain ⟨rfl, rfl⟩ := Prod.mk.inj (Except.ok.inj hrun)
    exact ⟨h, rfl⟩
  | cons p ps ih =>
    obtain ⟨u, before, after, hp, hrest, rfl⟩ := reports_cons hrun
    have hok' : ∀ q ∈ ps, q.jid = cjid → q.status = 0 ∨ q.status = 1 :=
      fun q hq => hok q (List.mem_cons_of_mem _ hq)
    rw [started_append]
    by_cases hjid : p.jid = cjid
    · rcases hok p (List.mem_cons_self ..) hjid with hstatus | hstatus
      · -- the file goes on
        have hcount : finished cjid (p :: ps) = finished cjid ps := by
          simp [finished, hstatus]
        obtain ⟨calls, hrun', hnone⟩ := progressbar_progress h hjid hstatus
        obtain ⟨rfl, rfl⟩ := Prod.mk.inj (Except.ok.inj (hp.symm.trans hrun'))
        rw [hcount] at hk ⊢
        rw [hnone, List.nil_append]
        exact ih h hok' hk hrest
      · -- the file is through
        have hcount : finished cjid (p :: ps) = 1 + finished cjid ps := by
          simp [finished, hjid, hstatus, Nat.add_comm]
        rw [hcount] at hk ⊢
        obtain ⟨v, calls, hrun', hnext, hone⟩ := progressbar_finish h (by omega) hjid hstatus
        obtain ⟨rfl, rfl⟩ := Prod.mk.inj (Except.ok.inj (hp.symm.trans hrun'))
        obtain ⟨hat, hstarted⟩ := ih hnext hok' (by omega) hrest
        rw [hone, hstarted, List.take_add, List.drop_drop, ← Nat.add_assoc]
        exact ⟨hat, rfl⟩
    · have hcount : finished cjid (p :: ps) = finished cjid ps := by simp [finished, hjid]
      obtain ⟨hat, hnone⟩ := progressbar_other h hjid hp
      rw [hcount] at hk ⊢
      rw [hnone, List.nil_append]
      exact ih hat hok' hk hrest

theorem send_at (hrun : send full_jids s m = .ok (t, calls)) :
    At t (peer m) m 0 ∧ started (peer m) calls = m.files.take 1 := by
  unfold send at hrun
  cases hfiles : m.files with
  | nil =>
    simp only [hfiles] at hrun
    cases hrun
  | cons r rs =>
    simp only [hfiles] at hrun
    have hentry : At ⟨s.srfiles.set (peer m) ⟨m, some ⟨some (full_jids (peer m))⟩, 0⟩,
        s.back_srfiles.set m (peer m)⟩ (peer m) m 0 := ⟨_, find?_set_self ..⟩
    obtain ⟨calls', hsend, hstarted⟩ := send_file_at hentry
    rw [hsend] at hrun
    obtain ⟨rfl, rfl⟩ := Prod.mk.inj (Except.ok.inj hrun)
    refine ⟨hentry, ?_⟩
    rw [started_update, hstarted, hfiles]
    rfl

/-- In a run in which every file is reported to be through, each file is started once and in
order, and the entry of the transfer is still there in the end. -/
theorem transfer_at (hok : ∀ p ∈ ps, p.jid = peer m → p.status = 0 ∨ p.status = 1)
    (hall : finished (peer m) ps = m.files.length)
    (hrun : transfer full_jids s m ps = .ok (t, calls)) :
    started (peer m) calls = m.files ∧ At t (peer m) m m.files.length := by
  unfold transfer at hrun
  cases hsend : send full_jids s m with
  | error e =>
    rw [hsend] at hrun
    cases hrun
  | ok r =>
    obtain ⟨u, before⟩ := r
    simp only [hsend] at hrun
    obtain ⟨hat, hfirst⟩ := send_at hsend
    cases hr : reports u ps with
    | error e =>
      rw [hr] at hrun
      cases hrun
    | ok r =>
      rw [hr] at hrun
      obtain ⟨rfl, rfl⟩ := Prod.mk.inj (Except.ok.inj hrun)
      obtain ⟨hend, hrest⟩ := reports_at hat hok (by omega) hr
      rw [Nat.zero_add, hall] at hend
      refine ⟨?_, hend⟩
      rw [started_append, hfirst, hrest, hall, Nat.zero_add, ← List.take_add]
      exact List.take_of_length_le (Nat.le_add_left _ _)

/-- A transfer whose files are all through is never forgotten. -/
theorem not_sent (hok : ∀ p ∈ ps, p.jid = peer m → p.status = 0 ∨ p.status = 1)
    (hall : finished (peer m) ps = m.files.length) : ¬ Sent full_jids s m ps := by
  rintro ⟨t, calls, hrun, -, hgone, -⟩
  obtain ⟨-, file, hentry⟩ := transfer_at hok hall hrun
  rw [hentry] at hgone
  cases hgone

/-- Two files to one contact, and a report for each. -/
def twoFiles : ImFile :=
  ⟨Contact.ImContact.ofNick (bytes "Ann@host/home") .jabber, [],
    [⟨bytes "/tmp/a", 3⟩, ⟨bytes "/tmp/b", 4⟩]⟩

def bothThrough : List Progress :=
  [⟨bytes "ann@host", 2, 3, 0⟩, ⟨bytes "ann@host", 3, 3, 1⟩, ⟨bytes "ann@host", 4, 4, 1⟩]

theorem not_sent_two : ¬ Sent id {} twoFiles bothThrough :=
  not_sent (by decide) (by decide)

theorem bothThrough_run :
    (transfer id {} twoFiles bothThrough).map (fun t => (started (bytes "ann@host") t.2,
        (t.1.srfiles.find? (bytes "ann@host")).map Sending.index,
        t.1.back_srfiles.find? twoFiles)) =
      .ok (twoFiles.files, some 2, some (bytes "ann@host")) := by
  decide

/-- Both files are started, and the entries are there after the second report. -/
theorem entries_left : ¬ Sent id {} twoFiles bothThrough ∧
    ∃ t calls, transfer id {} twoFiles bothThrough = .ok (t, calls) ∧
      t.srfiles.find? (peer twoFiles) ≠ none ∧ t.back_srfiles.find? twoFiles ≠ none := by
  have hpeer : peer twoFiles = bytes "ann@host" := by decide
  have heval := bothThrough_run
  cases hrun : transfer id {} twoFiles bothThrough with
  | error e =>
    rw [hrun] at heval
    cases heval
  | ok r =>
    obtain ⟨t, calls⟩ := r
    rw [hrun] at heval
    obtain ⟨-, hrest⟩ := Prod.mk.inj (Except.ok.inj heval)
    obtain ⟨hindex, hback⟩ := Prod.mk.inj hrest
    have hentry : t.srfiles.find? (peer twoFiles) ≠ none := by
      rw [hpeer]
      intro hn
      rw [hn] at hindex
      cases hindex
    have hkept : t.back_srfiles.find? twoFiles ≠ none := by
      intro hn
      rw [hn] at hback
      cases hback
    refine ⟨?_, t, calls, rfl, hentry, hkept⟩
    rintro ⟨u, calls', hrun', -, hgone, -⟩
    obtain ⟨rfl, -⟩ := Prod.mk.inj (Except.ok.inj (hrun.symm.trans hrun'))
    exact hentry hgone

end Reports

end CenterIM.FileSending

import CenterIM.HistoryFastPath
import CenterIM.Runs

/-!
# Unread events

Storing incoming events of a contact, reading them in `readevents`, and restarts of the
program. When the contact has no unread events, has everything that was stored been shown?
It has in every run where no event gets the time of one that was read before and where
each scan with unread events left stops at the first of them.
-/
namespace CenterIM.UnreadDelivery
open ByteText Decimal StrText Contact Event EventReader RecordText EventFraming HistoryFile
  HistoryScan HistoryFastPath Runs

/-- A contact with its history file, and a log of what was stored and what was shown. -/
structure UnreadState where
  contact : HistoryContact
  file : Option Str
  stored : List ImEvent
  shown : List ImEvent

/-- `imeventmanager::store` of an incoming event for a contact of the list. -/
def store (s : UnreadState) (ev : ImEvent) : UnreadState :=
  { s with
    file := some (s.file.getD [] ++ ev.write)
    contact := { s.contact with fhasevents := true }
    stored := s.stored ++ [ev] }

/-- The loop of `readevents` over the events that it got. The user answers `views` of them
and cancels at the next one; the result says how many answers are left and whether there
was a cancel. -/
def viewEvents : UnreadState → ℕ → List ImEvent → UnreadState × ℕ × Bool
  | s, views, [] => (s, views, false)
  | s, views, ev :: evs =>
    let incoming := ev.direction == .incoming
    let fin := incoming && views == 0
    let s := { s with
      shown := if incoming then s.shown ++ [ev] else s.shown
      contact := setlastread s.file s.contact ev.timestamp }
    let views := if incoming then views - 1 else views
    if fin then (s, views, true) else viewEvents s views evs

/-- `while(c->hasevents() && !fin)` in `readevents`. -/
def readLoop : ℕ → UnreadState → ℕ → Except Fault UnreadState
  | 0, s, _ => .ok s
  | fuel + 1, s, views =>
    if s.contact.fhasevents then
      match getevents s.file s.contact s.contact.lastread with
      | .error e => .error e
      | .ok [] => .ok s
      | .ok events =>
        let (s, views, fin) := viewEvents s views events
        if fin then .ok s else readLoop fuel s views
    else .ok s

/-- `centerim::readevents`. -/
def readevents (s : UnreadState) (views : ℕ) : Except Fault UnreadState :=
  readLoop ((s.file.getD []).length + 1) s views

/-- A new object for the contact, with what `load` and `scanhistory` give it after `save`. -/
def restart (s : UnreadState) : UnreadState :=
  let saved := decimalInt s.contact.lastread.toInt
  { s with
    contact := scanhistory s.file ⟨s.contact.cdesc, (strtoul saved).toInt64, 0, false, [], []⟩ }

inductive Op where
  | store (ev : ImEvent)
  | read (views : ℕ)
  | restart

def step (s : UnreadState) : Op → Except Fault UnreadState
  | .store ev => .ok (store s ev)
  | .read views => readevents s views
  | .restart => .ok (restart s)

def fresh (cdesc : ImContact) : UnreadState := ⟨⟨cdesc, 0, 0, false, [], []⟩, none, [], []⟩

/-- What is stored is an incoming event with a time of a clock that does not go back. -/
def Valid (s : UnreadState) : Op → Prop
  | .store ev => ev.direction = .incoming ∧ 0 < ev.timestamp ∧
      ∀ e ∈ s.stored, e.timestamp ≤ ev.timestamp
  | _ => True

/-- The first `n` stored events are read and the others are not. None of them has the same
time as one that was read, and the scan stops at the first one. -/
def CutAt (s : UnreadState) (n : ℕ) : Prop :=
  (∀ d ∈ s.stored.take n, ∀ e ∈ s.stored.drop n, d.timestamp < e.timestamp) ∧
    (skipped s.stored).length = n

/-- The condition on a step. An event has a record that is read as one record, and it is newer than
what was read. A scan, at a restart or after an event was shown, stops at the start of a record;
and where unread events are left, at the first of them. -/
def Meets (s : UnreadState) : Op → Prop
  | .store ev => WellFormed ev ∧ s.contact.lastread < ev.timestamp
  | .read views => s.stored.length ≤ s.shown.length ∨ cut s.stored = [] ∧
      (s.stored.length ≤ s.shown.length + (views + 1) ∨ CutAt s (s.shown.length + (views + 1)))
  | .restart => cut s.stored = [] ∧ (s.contact.lastread = 0 ∨ s.stored.length ≤ s.shown.length ∨
      CutAt s s.shown.length)

/-- A state of a run in which the steps meet a condition. -/
abbrev Run (cdesc : ImContact) (ok : UnreadState → Op → Prop) : UnreadState → Prop :=
  Reached (· = fresh cdesc) (fun s op t => step s op = .ok t) ok

def asShown (cdesc : ImContact) (e : ImEvent) : ImEvent :=
  { readBack e with contact := cdesc, acknowledged := false }

/-- Without unread events, every event that was stored has been shown, as often as it was
stored. -/
def Delivered (s : UnreadState) : Prop :=
  s.contact.fhasevents = false → List.Subperm (s.stored.map (asShown s.contact.cdesc)) s.shown

def lastTime (es : List ImEvent) : Int64 := (es.getLast?.map (·.timestamp)).getD 0

/-- What holds in every state of a run that meets the condition. -/
structure Inv (s : UnreadState) : Prop where
  wellFormed : ∀ e ∈ s.stored, WellFormed e
  incoming : ∀ e ∈ s.stored, e.direction = .incoming
  positive : ∀ e ∈ s.stored, 0 < e.timestamp
  sorted : s.stored.Pairwise fun d e => d.timestamp ≤ e.timestamp
  file : s.file = some (writeAll s.stored) ∨ s.file = none ∧ s.stored = []
  shown : s.shown = (s.stored.take s.shown.length).map (asShown s.contact.cdesc)
  lastread : s.contact.lastread = lastTime (s.stored.take s.shown.length)
  unread : ∀ e ∈ s.stored.drop s.shown.length, s.contact.lastread < e.timestamp
  flag : s.contact.fhasevents = false → s.stored.length ≤ s.shown.length
  offset : s.contact.lastread ≠ 0 → ∃ pre rest, s.stored = pre ++ rest ∧
    s.contact.fhistoffset = (writeAll pre).length ∧ pre.length ≤ s.shown.length
  receivedAcks : s.contact.receivedAcks = []
  sentAcks : s.contact.sentAcks = []

theorem toUInt64_lt_iff {a b : Int64} (ha : 0 ≤ a) (hb : 0 ≤ b) :
    a.toUInt64 < b.toUInt64 ↔ a < b := by
  have hna := Int64.cast_toNatClampNeg a ha
  have hnb := Int64.cast_toNatClampNeg b hb
  rw [UInt64.lt_iff_toNat_lt, Int64.toNat_toUInt64_of_le ha, Int64.toNat_toUInt64_of_le hb,
    Int64.lt_iff_toInt_lt]
  omega

theorem lastTime_append {es fs : List ImEvent} (h : fs ≠ []) :
    lastTime (es ++ fs) = lastTime fs := by
  rw [lastTime, lastTime, List.getLast?_append_of_ne_nil _ h]

theorem lastTime_cons {e : ImEvent} {es : List ImEvent} (h : es ≠ []) :
    lastTime (e :: es) = lastTime es := by
  rw [← List.singleton_append, lastTime_append h]

theorem le_lastTime {es : List ImEvent}
    (h : es.Pairwise fun d e => d.timestamp ≤ e.timestamp) :
    ∀ e ∈ es, e.timestamp ≤ lastTime es := by
  induction es with
  | nil => simp
  | cons e es ih =>
    obtain ⟨hhead, htail⟩ := List.pairwise_cons.mp h
    intro d hd
    cases hes : es with
    | nil =>
      rw [hes, List.mem_singleton] at hd
      rw [hd]
      exact Int64.le_refl _
    | cons f fs =>
      have hne : es ≠ [] := by simp [hes]
      rw [← hes, lastTime_cons hne]
      rcases List.mem_cons.mp hd with rfl | hd
      · exact Int64.le_trans (hhead f (by simp [hes])) (ih htail f (by simp [hes]))
      · exact ih htail d hd

theorem lastTime_nonneg {es : List ImEvent} (h : ∀ e ∈ es, 0 < e.timestamp) : 0 ≤ lastTime es := by
  cases hl : es.getLast? with
  | none => simp [lastTime, hl]
  | some e =>
    have he := h e (List.mem_of_getLast? hl)
    simpa [lastTime, hl] using Int64.le_of_lt he

/-- With incoming events only, a scan that cuts no record stops at one. -/
theorem stop_some {es : List ImEvent} (hw : ∀ e ∈ es, WellFormed e)
    (hin : ∀ e ∈ es, e.direction = .incoming) (hcut : cut es = []) (hne : es ≠ []) :
    ∃ e suf, stop (writeAll es) = some (writeAll (skipped es)).length ∧
      es = skipped es ++ e :: suf := by
  obtain ⟨d, ds, rfl⟩ := List.exists_cons_of_ne_nil hne
  have hmark : MarkAt (writeAll (d :: ds)) 0 :=
    (mark_of_incoming (recorded (hw d (by simp)).stored) (writeAll ds)).mpr (hin d (by simp))
  rcases place_cases (writeAll (d :: ds)) with ⟨hnone, -⟩ | ⟨hstop, -⟩
  · exact absurd hmark (not_mark_of_stop hnone 0)
  · obtain ⟨hp, e, suf, hsplit⟩ := stop_uncut hcut hstop
    exact ⟨e, suf, hp ▸ hstop, hsplit⟩

theorem lastTime_mem {es : List ImEvent} (h : es ≠ []) : ∃ e ∈ es, lastTime es = e.timestamp :=
  ⟨es.getLast h, List.getLast_mem h, by rw [lastTime, List.getLast?_eq_some_getLast h]; rfl⟩

/-- What `setlastread` makes of a contact whose history is `es`. -/
def scanned (es : List ImEvent) (c : HistoryContact) (t : Int64) : HistoryContact :=
  { c with
    lastread := t
    fhasevents :=
      ((stop (writeAll es)).map fun p => newerThan ((writeAll es).drop (p + 2)) t).getD false
    fhistoffset := place (writeAll es) }

section
variable {es : List ImEvent} (hw : ∀ e ∈ es, WellFormed e)
include hw

theorem scanhistory_writeAll (c : HistoryContact) :
    scanhistory (some (writeAll es)) c = scanned es c c.lastread :=
  scanhistory_stop (nul_not_mem_writeAll fun e he => recorded (hw e he).stored) c

theorem setlastread_writeAll (c : HistoryContact) (t : Int64) :
    setlastread (some (writeAll es)) c t = scanned es c t := by
  rw [setlastread, scanhistory_writeAll hw]
  rfl

/-- The flag is off only if the record at which the scan stops is not newer. -/
theorem flag_scanned {c : HistoryContact} {t : Int64} (ht : 0 ≤ t)
    (hpos : ∀ e ∈ es, 0 < e.timestamp) (hin : ∀ e ∈ es, e.direction = .incoming)
    (hcut : cut es = []) (hflag : (scanned es c t).fhasevents = false) (hne : es ≠ []) :
    ∃ e suf, es = skipped es ++ e :: suf ∧ e.timestamp ≤ t := by
  obtain ⟨e, suf, hstop, hsplit⟩ := stop_some hw hin hcut hne
  refine ⟨e, suf, hsplit, ?_⟩
  have hmem : e ∈ es := by rw [hsplit]; simp
  have he : 0 ≤ e.timestamp := Int64.le_of_lt (hpos e hmem)
  have hnewer := newerThan_record (recorded (hw e hmem).stored) (skipped es) suf t
  rw [← hsplit] at hnewer
  simp only [scanned, hstop, Option.map_some, Option.getD_some, hnewer, decide_eq_false_iff_not,
    toUInt64_lt_iff ht he] at hflag
  grind

/-- After a scan that stops at the first unread event the flag is on. -/
theorem flag_cut {c : HistoryContact} {t : Int64} (ht : 0 ≤ t)
    (hpos : ∀ e ∈ es, 0 < e.timestamp) (hin : ∀ e ∈ es, e.direction = .incoming) {n : ℕ}
    (hcut : cut es = []) (hlen : (skipped es).length = n) (hunread : ∀ e ∈ es.drop n, t < e.timestamp)
    (hflag : (scanned es c t).fhasevents = false) : es.length ≤ n := by
  by_contra hlt
  have hne : es ≠ [] := List.ne_nil_of_length_pos (by omega)
  obtain ⟨e, suf, hsplit, hle⟩ := flag_scanned hw ht hpos hin hcut hflag hne
  have hmem : e ∈ es.drop n := by
    have hdrop := congrArg (List.drop (skipped es).length) hsplit
    rw [List.drop_left] at hdrop
    rw [← hlen, hdrop]
    exact List.mem_cons_self ..
  have hgt := hunread e hmem
  grind

/-- The loop over incoming events shows them up to the one where the user cancels, and
leaves the time of the last one that was shown. -/
theorem viewEvents_unread {s : UnreadState} (hf : s.file = some (writeAll es)) (cdesc : ImContact)
    {us : List ImEvent} (hin : ∀ e ∈ us, e.direction = .incoming) (hne : us ≠ []) (views : ℕ) :
    viewEvents s views (us.map (asShown cdesc)) =
      ({ s with
          shown := s.shown ++ (us.take (views + 1)).map (asShown cdesc)
          contact := scanned es s.contact (lastTime (us.take (views + 1))) },
        views - us.length, decide (views < us.length)) := by
  induction us generalizing s views with
  | nil => exact absurd rfl hne
  | cons u us ih =>
    have hdir : (asShown cdesc u).direction = .incoming := by
      rw [asShown, readBack_direction]
      exact hin u (by simp)
    have htime : (asShown cdesc u).timestamp = u.timestamp := readBack_timestamp u
    have hset : setlastread s.file s.contact (asShown cdesc u).timestamp =
        scanned es s.contact u.timestamp := by
      rw [hf, setlastread_writeAll hw, htime]
    rw [List.map_cons, viewEvents]
    simp only [hdir, hset, beq_self_eq_true, Bool.true_and, if_true]
    cases views with
    | zero => simp [lastTime]
    | succ views =>
      have hcont : (views + 1 == 0) = false := by simp
      simp only [hcont, Bool.false_eq_true, if_false, Nat.add_sub_cancel]
      cases hus : us with
      | nil => simp [viewEvents, lastTime]
      | cons v vs =>
        have hne' : us ≠ [] := by simp [hus]
        rw [← hus, ih (by exact hf) (fun e he => hin e (by simp [he])) hne']
        have htake : us.take (views + 1) ≠ [] := by simp [hus]
        rw [List.take_succ_cons, lastTime_cons htake]
        simp [scanned]

end

theorem deliver_readBack {c : HistoryContact} (hr : c.receivedAcks = []) (hs : c.sentAcks = [])
    (e : ImEvent) : deliver c (readBack e) = asShown c.cdesc e := by
  simp [deliver, asShown, hr, hs]

theorem Inv.read_le {s : UnreadState} (h : Inv s) :
    ∀ e ∈ s.stored.take s.shown.length, e.timestamp ≤ s.contact.lastread := by
  rw [h.lastread]
  exact le_lastTime (h.sorted.sublist (List.take_sublist _ _))

theorem Inv.lastread_nonneg {s : UnreadState} (h : Inv s) : 0 ≤ s.contact.lastread := by
  rw [h.lastread]
  exact lastTime_nonneg fun e he => h.positive e (List.mem_of_mem_take he)

/-- `getevents` gives the unread events. -/
theorem getevents_unread {s : UnreadState} (h : Inv s) (hf : s.file = some (writeAll s.stored)) :
    getevents s.file s.contact s.contact.lastread =
      .ok ((s.stored.drop s.shown.length).map (asShown s.contact.cdesc)) := by
  have hnewer : ∀ pre : List ImEvent, (∀ e ∈ pre, e ∈ s.stored.take s.shown.length) →
      newer s.contact s.contact.lastread (pre ++ s.stored.drop s.shown.length) =
        (s.stored.drop s.shown.length).map (asShown s.contact.cdesc) := by
    intro pre hpre
    have hold := (newer_eq_nil_iff s.contact s.contact.lastread pre).mpr fun e he =>
      h.read_le e (hpre e he)
    have hall : (s.stored.drop s.shown.length).filter
        (fun e => s.contact.lastread < e.timestamp) = s.stored.drop s.shown.length := by
      rw [List.filter_eq_self]
      exact fun e he => decide_eq_true (h.unread e he)
    rw [newer_append, hold, List.nil_append, newer, hall]
    simp only [deliver_readBack h.receivedAcks h.sentAcks]
  by_cases hl : s.contact.lastread = 0
  · have hsplit := List.take_append_drop s.shown.length s.stored
    have hclean : ∀ e ∈ s.stored, Persisted e ∧ Clean e := fun e he =>
      ⟨(h.wellFormed e he).stored, (h.wellFormed e he).clean⟩
    rw [hf, hl, getevents_zero hclean, ← hnewer _ fun e he => he, hsplit, hl]
  · obtain ⟨pre, rest, hsplit, hoff, hle⟩ := h.offset hl
    have hrest : rest = (s.stored.take s.shown.length).drop pre.length ++
        s.stored.drop s.shown.length := by
      have hdrop := congrArg (List.drop pre.length)
        (List.take_append_drop s.shown.length s.stored)
      rw [List.drop_append_of_le_length] at hdrop
      · rw [hdrop, hsplit, List.drop_left]
      · rw [List.length_take]
        have : pre.length ≤ s.stored.length := by rw [hsplit, List.length_append]; omega
        omega
    have hw : ∀ e ∈ rest, WellFormed e := fun e he => h.wellFormed e (by rw [hsplit]; simp [he])
    have hget := getevents_writeAll hw hoff hl
    rw [← hsplit] at hget
    rw [hf, hget, hrest, hnewer _ fun e he => List.mem_of_mem_drop he]

theorem store_inv {s : UnreadState} (h : Inv s) {ev : ImEvent} (hv : Valid s (.store ev))
    (hm : Meets s (.store ev)) : Inv (store s ev) := by
  obtain ⟨hin, hpos, hclock⟩ := hv
  obtain ⟨hwell, hnewer⟩ := hm
  have hle : s.shown.length ≤ s.stored.length := by
    rw [h.shown, List.length_map, List.length_take]
    omega
  have htake : (s.stored ++ [ev]).take s.shown.length = s.stored.take s.shown.length :=
    List.take_append_of_le_length hle
  refine ⟨?_, ?_, ?_, ?_, .inl ?_, ?_, ?_, ?_, by simp [store], ?_, h.receivedAcks, h.sentAcks⟩
  · simpa [store, or_imp, forall_and] using ⟨h.wellFormed, hwell⟩
  · simpa [store, or_imp, forall_and] using ⟨h.incoming, hin⟩
  · simpa [store, or_imp, forall_and] using ⟨h.positive, hpos⟩
  · simpa [store, List.pairwise_append] using ⟨h.sorted, hclock⟩
  · rcases h.file with hf | ⟨hf, hnil⟩
    · simp [store, hf, writeAll]
    · simp [store, hf, hnil, writeAll]
  · simp only [store, htake]
    exact h.shown
  · simp only [store, htake]
    exact h.lastread
  · simp only [store, List.drop_append_of_le_length hle, List.mem_append, List.mem_singleton]
    rintro e (he | rfl)
    · exact h.unread e he
    · exact hnewer
  · intro hl
    obtain ⟨pre, rest, hsplit, hoff, hlen⟩ := h.offset hl
    exact ⟨pre, rest ++ [ev], by simp [store, hsplit], hoff, hlen⟩

/-- The state after the user was shown `n` unread events. -/
def viewed (s : UnreadState) (n : ℕ) : UnreadState :=
  { s with
    shown := s.shown ++
      ((s.stored.drop s.shown.length).take n).map (asShown s.contact.cdesc)
    contact := scanned s.stored s.contact (lastTime ((s.stored.drop s.shown.length).take n)) }

theorem take_min_length {α : Type} (l : List α) (n : ℕ) : l.take (min n l.length) = l.take n := by
  rcases Nat.le_total n l.length with h | h
  · rw [Nat.min_eq_left h]
  · rw [Nat.min_eq_right h, List.take_length, List.take_of_length_le h]

theorem drop_min_length {α : Type} (l : List α) (n : ℕ) : l.drop (min n l.length) = l.drop n := by
  rcases Nat.le_total n l.length with h | h
  · rw [Nat.min_eq_left h]
  · rw [Nat.min_eq_right h, List.drop_length, List.drop_eq_nil_of_le h]

theorem viewed_inv {s : UnreadState} (h : Inv s) {n : ℕ} (hn : 0 < n)
    (hne : s.shown.length < s.stored.length) (hcut : cut s.stored = [])
    (hm : s.stored.length ≤ s.shown.length + n ∨ CutAt s (s.shown.length + n)) :
    Inv (viewed s n) := by
  have hlen : (viewed s n).shown.length = min (s.shown.length + n) s.stored.length := by
    simp only [viewed, List.length_append, List.length_map, List.length_take, List.length_drop]
    omega
  have hstored : (viewed s n).stored = s.stored := rfl
  have htake : (viewed s n).stored.take (viewed s n).shown.length =
      s.stored.take s.shown.length ++ (s.stored.drop s.shown.length).take n := by
    rw [hlen, hstored, take_min_length, List.take_add]
  have hdrop : (viewed s n).stored.drop (viewed s n).shown.length =
      s.stored.drop (s.shown.length + n) := by
    rw [hlen, hstored, drop_min_length]
  have hnew : (s.stored.drop s.shown.length).take n ≠ [] := by
    apply List.ne_nil_of_length_pos
    rw [List.length_take, List.length_drop]
    omega
  have hlast : (viewed s n).contact.lastread =
      lastTime ((s.stored.drop s.shown.length).take n) := rfl
  have hread : (viewed s n).contact.lastread = lastTime (s.stored.take (s.shown.length + n)) := by
    rw [hlast, List.take_add, lastTime_append hnew]
  have hnonneg : 0 ≤ (viewed s n).contact.lastread := by
    rw [hread]
    exact lastTime_nonneg fun e he => h.positive e (List.mem_of_mem_take he)
  have hunread : ∀ e ∈ s.stored.drop (s.shown.length + n),
      (viewed s n).contact.lastread < e.timestamp := by
    intro e he
    rcases hm with hm | ⟨hm, -⟩
    · rw [List.drop_eq_nil_of_le hm] at he
      exact absurd he List.not_mem_nil
    · rw [hread]
      have hne : s.stored.take (s.shown.length + n) ≠ [] := by
        rw [List.take_add]
        simp [hnew]
      obtain ⟨d, hd, heq⟩ := lastTime_mem hne
      rw [heq]
      exact hm d hd e he
  refine ⟨h.wellFormed, h.incoming, h.positive, h.sorted, ?_, ?_, ?_, ?_, ?_, ?_,
    h.receivedAcks, h.sentAcks⟩
  · exact h.file
  · rw [htake, List.map_append]
    have hs := h.shown
    simp only [viewed, scanned]
    rw [← hs]
  · rw [htake, hlast, lastTime_append hnew]
  · rw [hdrop]
    exact hunread
  · intro hflag
    rw [hlen, hstored]
    rcases hm with hm | ⟨-, hlen⟩
    · omega
    · have hall := flag_cut h.wellFormed hnonneg h.positive h.incoming hcut hlen hunread hflag
      omega
  · intro _
    obtain ⟨rest, hrest⟩ := skipped_isPrefix s.stored
    refine ⟨skipped s.stored, rest, hrest.symm, place_uncut hcut, ?_⟩
    have hle := congrArg List.length hrest
    rw [List.length_append] at hle
    rw [hlen]
    rcases hm with hm | ⟨-, hskip⟩ <;> omega

theorem readLoop_done {s : UnreadState} (h : Inv s) (hall : s.stored.length ≤ s.shown.length)
    (fuel views : ℕ) : readLoop fuel s views = .ok s := by
  cases fuel with
  | zero => rfl
  | succ fuel =>
    rw [readLoop]
    split_ifs with hflag
    · rcases h.file with hf | ⟨hf, hnil⟩
      · rw [getevents_unread h hf, List.drop_eq_nil_of_le hall]
        rfl
      · rw [hf, getevents]
    · rfl

/-- One call of `readevents` shows up to `views + 1` unread events and then stops. -/
theorem readevents_viewed {s : UnreadState} (h : Inv s) (views : ℕ)
    (hne : s.shown.length < s.stored.length) (hm : Meets s (.read views)) :
    readevents s views = .ok (viewed s (views + 1)) ∧ Inv (viewed s (views + 1)) := by
  obtain ⟨hcut, hleft⟩ := hm.resolve_left (not_le.mpr hne)
  have hv := viewed_inv h (Nat.succ_pos views) hne hcut hleft
  refine ⟨?_, hv⟩
  have hf : s.file = some (writeAll s.stored) := h.file.resolve_right fun hnone => by
    rw [hnone.2] at hne
    exact absurd hne (Nat.not_lt_zero _)
  have hflag : s.contact.fhasevents = true := by
    by_contra hoff
    have := h.flag (by simpa using hoff)
    omega
  have hunread : s.stored.drop s.shown.length ≠ [] := by
    apply List.ne_nil_of_length_pos
    rw [List.length_drop]
    omega
  have hview := viewEvents_unread h.wellFormed hf s.contact.cdesc
    (fun e he => h.incoming e (List.mem_of_mem_drop he)) hunread views
  have hmap : (s.stored.drop s.shown.length).map (asShown s.contact.cdesc) ≠ [] := by
    simpa using hunread
  rw [readevents, readLoop, if_pos hflag, getevents_unread h hf]
  obtain ⟨ev, evs, hcons⟩ := List.exists_cons_of_ne_nil hmap
  rw [hcons] at hview ⊢
  simp only [hview]
  split_ifs with hfin
  · rfl
  · -- everything was shown, so the loop stops
    apply readLoop_done hv
    simp only [viewed, List.length_append, List.length_map, List.length_take, List.length_drop]
    rw [decide_eq_true_eq, List.length_drop] at hfin
    omega

theorem read_inv {s : UnreadState} (h : Inv s) (views : ℕ) (hm : Meets s (.read views)) :
    ∃ t, readevents s views = .ok t ∧ Inv t := by
  rcases Nat.lt_or_ge s.shown.length s.stored.length with hne | hall
  · exact ⟨_, readevents_viewed h views hne hm⟩
  · exact ⟨s, readLoop_done h hall _ _, h⟩

theorem viewEvents_stored (s : UnreadState) (views : ℕ) (evs : List ImEvent) :
    (viewEvents s views evs).1.stored = s.stored := by
  induction evs generalizing s views with
  | nil => rfl
  | cons ev evs ih =>
    rw [viewEvents]
    split_ifs <;> first
      | rfl
      | exact ih _ _

theorem readevents_stored {s t : UnreadState} {views : ℕ} (h : readevents s views = .ok t) :
    t.stored = s.stored := by
  rw [readevents] at h
  generalize (s.file.getD []).length + 1 = fuel at h
  induction fuel generalizing s views with
  | zero =>
    obtain rfl := Except.ok.inj h
    rfl
  | succ fuel ih =>
    rw [readLoop] at h
    split_ifs at h
    · split at h
      · cases h
      · obtain rfl := Except.ok.inj h
        rfl
      · rename_i events _ _
        dsimp only at h
        split_ifs at h
        · obtain rfl := Except.ok.inj h
          exact viewEvents_stored s views events
        · exact (ih h).trans (viewEvents_stored s views events)
    · obtain rfl := Except.ok.inj h
      rfl

theorem scanhistory_frame (file : Option Str) (c : HistoryContact) :
    scanhistory file c = { c with
      fhasevents := (scanhistory file c).fhasevents
      fhistoffset := (scanhistory file c).fhistoffset } := by
  cases file with
  | none => rfl
  | some content =>
    rw [scanhistory]
    split <;> rfl

/-- After a restart the contact is as before, but for what the scan gives. -/
theorem restart_eq {s : UnreadState} :
    restart s = { s with
      contact := scanhistory s.file ⟨s.contact.cdesc, s.contact.lastread, 0, false, [], []⟩ } := by
  have hsaved : (strtoul (decimalInt s.contact.lastread.toInt)).toInt64 = s.contact.lastread := by
    rw [strtoul_decimalInt]
    rfl
  rw [restart, hsaved]

theorem restart_flag {s : UnreadState} (h : Inv s) (hm : Meets s .restart)
    (hflag : (restart s).contact.fhasevents = false) : s.stored.length ≤ s.shown.length := by
  rcases h.file with hf | ⟨-, hnil⟩
  · rw [restart_eq, hf, scanhistory_writeAll h.wellFormed] at hflag
    obtain ⟨hcut, hl | hall | ⟨-, hlen⟩⟩ := hm
    · -- nothing was read yet, so every event is newer
      by_contra hlt
      have hne : s.stored ≠ [] := List.ne_nil_of_length_pos (by omega)
      obtain ⟨e, suf, hsplit, hle⟩ :=
        flag_scanned h.wellFormed h.lastread_nonneg h.positive h.incoming hcut hflag hne
      have hpos := h.positive e (by rw [hsplit]; simp)
      rw [hl] at hle
      exact absurd hle (Int64.not_le.mpr hpos)
    · exact hall
    · exact flag_cut h.wellFormed h.lastread_nonneg h.positive h.incoming hcut hlen h.unread hflag
  · simp [hnil]

theorem restart_offset {s : UnreadState} (h : Inv s) (hm : Meets s .restart)
    (hl : s.contact.lastread ≠ 0) : ∃ pre rest, s.stored = pre ++ rest ∧
      (restart s).contact.fhistoffset = (writeAll pre).length ∧ pre.length ≤ s.shown.length := by
  rcases h.file with hf | ⟨hf, hnil⟩
  · obtain ⟨hcut, hleft⟩ := hm
    obtain ⟨rest, hrest⟩ := skipped_isPrefix s.stored
    refine ⟨skipped s.stored, rest, hrest.symm, ?_, ?_⟩
    · rw [restart_eq, hf, scanhistory_writeAll h.wellFormed]
      exact place_uncut hcut
    · have hle := congrArg List.length hrest
      rw [List.length_append] at hle
      rcases hleft with hzero | hall | ⟨-, hlen⟩
      · exact absurd hzero hl
      · omega
      · omega
  · refine ⟨[], [], hnil, ?_, Nat.zero_le _⟩
    rw [restart_eq, hf]
    rfl

theorem restart_inv {s : UnreadState} (h : Inv s) (hm : Meets s .restart) : Inv (restart s) := by
  have hflag := restart_flag h hm
  have hoffset := restart_offset h hm
  rw [restart_eq, scanhistory_frame] at hflag hoffset ⊢
  exact ⟨h.wellFormed, h.incoming, h.positive, h.sorted, h.file, h.shown, h.lastread, h.unread,
    hflag, hoffset, rfl, rfl⟩

theorem fresh_inv (cdesc : ImContact) : Inv (fresh cdesc) := by
  constructor <;> simp [fresh, lastTime]

theorem run_inv {cdesc : ImContact} {s : UnreadState}
    (h : Run cdesc (fun s op => Valid s op ∧ Meets s op) s) : Inv s := by
  have hfresh : ∀ t, t = fresh cdesc → Inv t := by
    rintro t rfl
    exact fresh_inv cdesc
  refine h.invariant hfresh ?_
  rintro s op t hs ⟨hv, hm⟩ hstep
  cases op with
  | store ev =>
    obtain rfl := Except.ok.inj hstep
    exact store_inv hs hv hm
  | read views =>
    obtain ⟨t', ht, hinv⟩ := read_inv hs views hm
    obtain rfl := Except.ok.inj (ht.symm.trans hstep)
    exact hinv
  | restart =>
    obtain rfl := Except.ok.inj hstep
    exact restart_inv hs hm

/-- In every state of a run that meets the condition, either there are unread events or
everything stored has been shown. -/
theorem unread_delivery (cdesc : ImContact) (s : UnreadState)
    (h : Run cdesc (fun s op => Valid s op ∧ Meets s op) s) : Delivered s := by
  intro hflag
  have hs := run_inv h
  have hshown := hs.shown
  rw [List.take_of_length_le (hs.flag hflag)] at hshown
  rw [hshown]

def first : ImEvent := message 1 (longText ++ bytes "\n\nand more")

def second : ImEvent := message 2 (bytes "two\nlines")

def bothStored : UnreadState := store (store (fresh contactroot) first) second

theorem first_wellFormed : WellFormed first := message_wellFormed (by decide) (by decide +kernel)

theorem second_wellFormed : WellFormed second := message_wellFormed (by decide) (by decide)

theorem bothStored_run : Run contactroot (fun s op => Valid s op ∧ Meets s op) bothStored := by
  have hfirst : Valid (fresh contactroot) (.store first) ∧ Meets (fresh contactroot) (.store first) :=
    ⟨⟨rfl, by decide, by simp [fresh]⟩, first_wellFormed, by decide⟩
  have hsecond : Valid (store (fresh contactroot) first) (.store second) ∧
      Meets (store (fresh contactroot) first) (.store second) :=
    ⟨⟨rfl, by decide, by decide⟩, second_wellFormed, by decide⟩
  exact .step (.step (.init rfl) hfirst rfl) hsecond rfl

/-- The user sees the first one and cancels, the program is restarted, and the user sees the
other one. -/
def bothShown : UnreadState := viewed (restart (viewed bothStored 1)) 2

theorem unread_delivery_both : bothShown.contact.fhasevents = false ∧ bothShown.shown.length = 2 ∧
    Delivered bothShown := by
  have hcancel : Meets bothStored (.read 0) :=
    .inr ⟨by decide +kernel, .inr ⟨by decide, by decide +kernel⟩⟩
  have hread := (readevents_viewed (run_inv bothStored_run) 0 (by decide) hcancel).1
  have hrun : Run contactroot (fun s op => Valid s op ∧ Meets s op) (viewed bothStored 1) :=
    .step bothStored_run (show Valid bothStored (.read 0) ∧ Meets bothStored (.read 0) from
      ⟨trivial, hcancel⟩) hread
  have hcut : Meets (viewed bothStored 1) .restart :=
    ⟨by decide +kernel, .inr (.inr ⟨by decide, by decide +kernel⟩)⟩
  have hagain : Run contactroot (fun s op => Valid s op ∧ Meets s op) (restart (viewed bothStored 1)) :=
    .step hrun (show Valid (viewed bothStored 1) .restart ∧ Meets (viewed bothStored 1) .restart from
      ⟨trivial, hcut⟩) rfl
  have hrest : Meets (restart (viewed bothStored 1)) (.read 1) :=
    .inr ⟨by decide +kernel, .inl (by decide)⟩
  have hlast := (readevents_viewed (run_inv hagain) 1 (by decide) hrest).1
  exact ⟨by decide +kernel, by decide, unread_delivery contactroot bothShown
    (.step hagain (show Valid (restart (viewed bothStored 1)) (.read 1) ∧
      Meets (restart (viewed bothStored 1)) (.read 1) from ⟨trivial, hrest⟩) hlast)⟩

/-- A message is stored and shown, two more are stored, and the program is restarted. -/
def restarted : UnreadState :=
  restart (store (store (viewed (store (fresh contactroot) (message 1 (bytes "hi"))) 1)
    (message 5 longText)) (message 6 []))

theorem restarted_run : Run contactroot Valid restarted ∧ ∀ e ∈ restarted.stored, WellFormed e := by
  have hhi : WellFormed (message 1 (bytes "hi")) := message_wellFormed (by decide) (by decide)
  have hone : Run contactroot (fun s op => Valid s op ∧ Meets s op)
      (store (fresh contactroot) (message 1 (bytes "hi"))) :=
    .step (.init rfl) (show Valid (fresh contactroot) (.store _) ∧ Meets (fresh contactroot) (.store _) from
      ⟨⟨rfl, by decide, by simp [fresh]⟩, hhi, by decide⟩) rfl
  have hshown := (readevents_viewed (run_inv hone) 0 (by decide)
    (.inr ⟨by decide, .inl (by decide)⟩)).1
  have hstore : Run contactroot Valid (store (fresh contactroot) (message 1 (bytes "hi"))) :=
    .step (.init rfl) (show Valid (fresh contactroot) (.store _) from
      ⟨rfl, by decide, by simp [fresh]⟩) rfl
  have hread : Run contactroot Valid (viewed (store (fresh contactroot) (message 1 (bytes "hi"))) 1) :=
    .step hstore (show Valid (store (fresh contactroot) (message 1 (bytes "hi"))) (.read 0) from trivial)
      hshown
  have hlong : Run contactroot Valid (store (viewed (store (fresh contactroot) (message 1 (bytes "hi"))) 1)
      (message 5 longText)) :=
    .step hread (show Valid _ (.store (message 5 longText)) from ⟨rfl, by decide, by decide⟩) rfl
  have hlast : Run contactroot Valid (store (store (viewed (store (fresh contactroot)
      (message 1 (bytes "hi"))) 1) (message 5 longText)) (message 6 [])) :=
    .step hlong (show Valid _ (.store (message 6 [])) from ⟨rfl, by decide, by decide⟩) rfl
  refine ⟨.step hlast (show Valid _ .restart from trivial) rfl, ?_⟩
  have hstored : restarted.stored = [message 1 (bytes "hi"), message 5 longText, message 6 []] := rfl
  rw [hstored]
  simp only [List.mem_cons, List.not_mem_nil, or_false, forall_eq_or_imp, forall_eq]
  exact ⟨hhi, two_wellFormed _ (by simp), two_wellFormed _ (by simp)⟩

/-- The scan of the restart goes past the first of the two events; reading the other one
ends with no unread events. -/
theorem unread_not_delivered : ∃ s, Run contactroot Valid s ∧ (∀ e ∈ s.stored, WellFormed e) ∧
    ¬ Delivered s := by
  have hrun : ((readevents restarted 1).toOption.map fun t =>
      (t.contact.fhasevents, t.shown.length, t.stored.map (·.timestamp))) =
        some (false, 2, [1, 5, 6]) := by
    decide +kernel
  cases ht : readevents restarted 1 with
  | error e =>
    rw [ht] at hrun
    simp [Except.toOption] at hrun
  | ok t =>
    rw [ht] at hrun
    simp only [Except.toOption, Option.map_some, Option.some.injEq, Prod.mk.injEq] at hrun
    refine ⟨t, .step restarted_run.1 (show Valid restarted (.read 1) from trivial) ht, ?_, fun h => ?_⟩
    · rw [readevents_stored ht]
      exact restarted_run.2
    · have hlen := (h hrun.1).length_le
      have hstored := congrArg List.length hrun.2.2
      simp only [List.length_map] at hlen hstored
      simp only [List.length_cons, List.length_nil] at hstored
      omega

end CenterIM.UnreadDelivery

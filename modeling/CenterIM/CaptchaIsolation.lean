import CenterIM.Captcha
import CenterIM.Runs

/-!
# Captcha answers of one contact

The table of asked contacts has one entry at most, whoever it is looked up for. As long as
no contact uses it while a question of another one is open, each contact gets the answers
that it would get alone, and is let through only for its own correct answer.
-/
namespace CenterIM.CaptchaIsolation
open ByteText StrText Contact Event Captcha Runs OrderedMap

variable {qs : Questions}

def OwnedBy (m : Captchas) (c : ImContact) : Prop := ∀ e ∈ m.entries, e.1.eq c = true

instance (m : Captchas) (c : ImContact) : Decidable (OwnedBy m c) :=
  inferInstanceAs (Decidable (∀ e ∈ m.entries, e.1.eq c = true))

/-- No operation of the sequence finds a question of another contact open. -/
def NoOtherOpen (m : Captchas) : List (ImContact × Op qs) → Prop
  | [] => True
  | (c, op) :: ops => OwnedBy m c ∧ NoOtherOpen (step m c op).2 ops

def answersOf (b : ImContact) (answers : List (ImContact × Answer)) : List Answer :=
  (answers.filter fun r => r.1.eq b).map Prod.snd

/-- The contact is answered as if the operations of the others were left out. -/
def Isolated (b : ImContact) (ops : List (ImContact × Op qs)) : Prop :=
  answersOf b (run OrderedMap.empty ops) =
    answersOf b (run OrderedMap.empty (ops.filter fun r => r.1.eq b))

theorem captchas_ext {m m' : Captchas} (h : m.entries = m'.entries) : m = m' := by
  cases m
  cases m'
  cases h
  rfl

theorem OwnedBy.congr {m : Captchas} {c d : ImContact} (h : OwnedBy m c) (hcd : c.eq d = true) :
    OwnedBy m d := fun e he => eq_trans (h e he) hcd

theorem OwnedBy.erase {m : Captchas} {c : ImContact} (h : OwnedBy m c) (d : ImContact) :
    OwnedBy (m.erase d) c := fun e he => h e (List.mem_of_mem_filter he)

theorem OwnedBy.set {m : Captchas} {c : ImContact} (h : OwnedBy m c) (ca : Asked) :
    OwnedBy (m.set c ca) c := by
  intro e he
  rcases mem_setEntries he with hc | ⟨d, hd, hed⟩
  · rw [hc]
    exact eq_refl c
  · rw [hed]
    exact h d hd

/-- After an operation of a contact that owns the table it still does. -/
theorem OwnedBy.step {m : Captchas} {c : ImContact} (h : OwnedBy m c) (op : Op qs) :
    OwnedBy (step m c op).2 c := by
  cases op with
  | docaptcha => exact h
  | checkcaptcha answer now =>
    simp only [Captcha.step, checkcaptcha]
    split
    · split_ifs
      · exact h.erase c
      · exact h
    · exact h
  | getcaptchaquestion choice now => exact h.set _
  | donecaptcha => exact h.erase c

/-- The table that the operations of `b` alone would leave. -/
def restrict (b : ImContact) (m : Captchas) : Captchas :=
  ⟨m.entries.filter fun e => e.1.eq b, m.sorted.sublist List.filter_sublist⟩

theorem restrict_own {m : Captchas} {b : ImContact} (h : OwnedBy m b) : restrict b m = m :=
  captchas_ext (List.filter_eq_self.mpr h)

theorem restrict_other {m : Captchas} {b c : ImContact} (h : OwnedBy m c)
    (hne : c.eq b = false) : restrict b m = OrderedMap.empty := by
  apply captchas_ext
  refine List.filter_eq_nil_iff.mpr fun e he hb => ?_
  rw [eq_congr (h e he) b, hne] at hb
  exact absurd hb (by decide)

theorem run_restrict (b : ImContact) {m : Captchas} {ops : List (ImContact × Op qs)}
    (h : NoOtherOpen m ops) :
    answersOf b (run m ops) =
      answersOf b (run (restrict b m) (ops.filter fun r => r.1.eq b)) := by
  induction ops generalizing m with
  | nil => rfl
  | cons r ops ih =>
    obtain ⟨c, op⟩ := r
    obtain ⟨hown, hrest⟩ := h
    have hrun := ih hrest
    by_cases hb : c.eq b = true
    · -- the table is the one that `b` would have alone
      have hm := hown.congr hb
      have hm' := (hown.step op).congr hb
      have hf : ((c, op) :: ops).filter (fun r => r.1.eq b) =
          (c, op) :: ops.filter fun r => r.1.eq b := List.filter_cons_of_pos hb
      rw [hf, restrict_own hm]
      rw [restrict_own hm'] at hrun
      simp only [run, answersOf, List.filter_cons_of_pos, hb, List.map_cons] at hrun ⊢
      rw [hrun]
    · -- the other contact leaves nothing behind that `b` sees
      have hne : c.eq b = false := by simpa using hb
      have hf : ((c, op) :: ops).filter (fun r => r.1.eq b) = ops.filter fun r => r.1.eq b :=
        List.filter_cons_of_neg hb
      rw [restrict_other (hown.step op) hne] at hrun
      rw [hf, restrict_other hown hne, ← hrun]
      simp [run, answersOf, hne]

theorem isolated_of_noOtherOpen {b : ImContact} {ops : List (ImContact × Op qs)}
    (h : NoOtherOpen OrderedMap.empty ops) : Isolated b ops := by
  have hrun := run_restrict b h
  rw [restrict_own fun e he => absurd he List.not_mem_nil] at hrun
  exact hrun

/-- An event of an unknown contact, with what `rand` and the clock give. -/
structure Arrival (qs : Questions) where
  ev : ImEvent
  choice : qs.Choice
  now : Int64
  later : Int64

/-- The table, with a log of the questions asked, the last one first, and of the events
that were let through with the question last asked of their contact. -/
structure GateState (qs : Questions) where
  captchas : Captchas
  asked : List (ImContact × qs.Choice)
  admitted : List (ImEvent × Option qs.Choice)

def lastAsked (asked : List (ImContact × qs.Choice)) (c : ImContact) : Option qs.Choice :=
  (asked.find? fun r => r.1.eq c).map Prod.snd

def gateStep (conf : Admission) (s : GateState qs) (a : Arrival qs) : GateState qs :=
  let r := storeUnknown qs conf s.captchas a.ev a.choice a.now a.later
  { captchas := r.2.1
    asked := (r.2.2.map fun q => (a.ev.contact, q)).toList ++ s.asked
    admitted :=
      if r.1 then (a.ev, lastAsked s.asked a.ev.contact) :: s.admitted else s.admitted }

def gated (conf : Admission) (ev : ImEvent) : Bool :=
  conf.usingcaptcha && ev.contact.pname != .irc

/-- Events that the captcha decides about come while no question of another contact is open. -/
def Meets (conf : Admission) (s : GateState qs) (a : Arrival qs) : Prop :=
  gated conf a.ev = true → OwnedBy s.captchas a.ev.contact

abbrev GateRun (qs : Questions) (conf : Admission) (ok : GateState qs → Arrival qs → Prop) :
    GateState qs → Prop :=
  Reached (· = ⟨OrderedMap.empty, [], []⟩) (fun s a t => gateStep conf s a = t) ok

/-- Whatever the captcha let through was a correct answer to the question last asked of
that contact. -/
def Earned (conf : Admission) (s : GateState qs) : Prop :=
  ∀ r ∈ s.admitted, gated conf r.1 = true →
    ∃ q, r.2 = some q ∧ lo r.1.gettext ∈ (qs.questions.get q).answers

def Tracked (s : GateState qs) : Prop :=
  ∀ e ∈ s.captchas.entries, ∃ q, lastAsked s.asked e.1 = some q ∧
    e.2.answers = (qs.questions.get q).answers

structure GateInv (conf : Admission) (s : GateState qs) : Prop where
  tracked : Tracked s
  earned : Earned conf s

theorem lastAsked_congr (asked : List (ImContact × qs.Choice)) {c d : ImContact}
    (h : c.eq d = true) : lastAsked asked c = lastAsked asked d := by
  unfold lastAsked
  congr 2
  funext r
  rw [eq_comm' r.1 c, eq_comm' r.1 d, eq_congr h]

theorem entries_set {m : Captchas} {c : ImContact} (h : OwnedBy m c) (ca : Asked) :
    ∀ e ∈ (m.set c ca).entries, e.1.eq c = true ∧ e.2 = ca := by
  have hlen := length_le_one (fun _ _ => rfl) m
  intro e he
  refine ⟨h.set ca e he, ?_⟩
  have he' : e ∈ setEntries ImContact.lt c ca m.entries := he
  cases hm : m.entries with
  | nil =>
    rw [hm] at he'
    simp only [setEntries, List.mem_singleton] at he'
    rw [he']
  | cons d es =>
    rw [hm] at hlen he'
    have hes : es = [] := List.length_eq_zero_iff.mp (by simpa using hlen)
    simp only [setEntries, ImContact.lt, hes, Bool.false_eq_true, if_false,
      List.mem_singleton] at he'
    rw [he']

theorem tracked_ask {m : Captchas} {c : ImContact} (h : OwnedBy m c) (choice : qs.Choice)
    (now : Int64) (asked : List (ImContact × qs.Choice))
    (admitted : List (ImEvent × Option qs.Choice)) :
    Tracked ⟨(getcaptchaquestion qs m c choice now).2, (c, choice) :: asked, admitted⟩ := by
  intro e he
  obtain ⟨hc, hca⟩ := entries_set h _ e he
  refine ⟨choice, ?_, by rw [hca]⟩
  rw [lastAsked_congr _ hc]
  simp [lastAsked]

theorem checkcaptcha_entries (m : Captchas) (c : ImContact) (answer : Str) (now : Int64) :
    ∀ e ∈ (checkcaptcha m c answer now).2.entries, e ∈ m.entries := by
  intro e he
  unfold checkcaptcha at he
  split at he
  · split_ifs at he
    · exact List.mem_of_mem_filter he
    · exact he
  · exact he

theorem checkcaptcha_true {m : Captchas} {c : ImContact} {answer : Str} {now : Int64}
    (h : (checkcaptcha m c answer now).1 = true) :
    ∃ e ∈ m.entries, lo answer ∈ e.2.answers := by
  unfold checkcaptcha at h
  split at h
  next ca hfind =>
    obtain ⟨k, -, hmem⟩ := exists_mem_of_find? hfind
    split_ifs at h
    exact ⟨(k, ca), hmem, of_decide_eq_true h⟩
  · exact absurd h Bool.false_ne_true

/-- What `storeUnknown` does for an event that the captcha decides about. -/
theorem storeUnknown_gated {conf : Admission} {m : Captchas} {a : Arrival qs}
    (h : gated conf a.ev = true) :
    (storeUnknown qs conf m a.ev a.choice a.now a.later = (true,
        donecaptcha (checkcaptcha m a.ev.contact a.ev.gettext a.now).2 a.ev.contact, none) ∧
      (checkcaptcha m a.ev.contact a.ev.gettext a.now).1 = true) ∨
    ∃ m' : Captchas, (∀ e ∈ m'.entries, e ∈ m.entries) ∧
      storeUnknown qs conf m a.ev a.choice a.now a.later = (false,
        (getcaptchaquestion qs m' a.ev.contact a.choice a.later).2, some a.choice) := by
  obtain ⟨huse, hirc⟩ := Bool.and_eq_true_iff.mp h
  unfold storeUnknown
  simp only [huse, hirc, Bool.or_true, Bool.and_self, if_true]
  split_ifs with hdo hcheck
  · exact .inr ⟨m, fun e he => he, rfl⟩
  · exact .inl ⟨rfl, hcheck⟩
  · exact .inr ⟨_, checkcaptcha_entries m _ _ _, rfl⟩

/-- An event that the captcha does not decide about leaves the table alone. -/
theorem storeUnknown_free {conf : Admission} {m : Captchas} {a : Arrival qs}
    (h : gated conf a.ev = false) :
    ∃ r, storeUnknown qs conf m a.ev a.choice a.now a.later = (r, m, none) := by
  unfold gated at h
  unfold storeUnknown
  simp only [h, Bool.false_eq_true, if_false]
  split_ifs
  · exact ⟨true, rfl⟩
  · exact ⟨false, rfl⟩

theorem gateStep_inv {conf : Admission} {s : GateState qs} {a : Arrival qs}
    (h : GateInv conf s) (hm : Meets conf s a) : GateInv conf (gateStep conf s a) := by
  obtain ⟨htrack, hearned⟩ := h
  by_cases hg : gated conf a.ev = true
  · have hown := hm hg
    rcases storeUnknown_gated (m := s.captchas) hg with ⟨hstore, hcheck⟩ | ⟨m', hsub, hstore⟩
    · rw [gateStep, hstore]
      constructor
      · intro e he
        exact htrack e (checkcaptcha_entries _ _ _ _ e (List.mem_of_mem_filter he))
      · intro r hr hgr
        rcases List.mem_cons.mp hr with rfl | hr
        · -- the question found is the one last asked of this contact
          obtain ⟨e, he, hlo⟩ := checkcaptcha_true hcheck
          obtain ⟨q, hq, hans⟩ := htrack e he
          refine ⟨q, ?_, by rwa [← hans]⟩
          rw [← hq]
          exact (lastAsked_congr _ (hown e he)).symm
        · exact hearned r hr hgr
    · rw [gateStep, hstore]
      exact ⟨tracked_ask (fun e he => hown e (hsub e he)) _ _ _ _, hearned⟩
  · have hfree : gated conf a.ev = false := by simpa using hg
    obtain ⟨r, hstore⟩ := storeUnknown_free (m := s.captchas) (a := a) hfree
    rw [gateStep, hstore]
    refine ⟨htrack, ?_⟩
    intro d hd hgd
    simp only at hd
    split_ifs at hd
    · rcases List.mem_cons.mp hd with rfl | hd
      · exact absurd hgd hg
      · exact hearned d hd hgd
    · exact hearned d hd hgd

theorem earned_of_run {conf : Admission} {s : GateState qs}
    (h : GateRun qs conf (Meets conf) s) : Earned conf s := by
  have hinv : GateInv conf s := by
    refine h.invariant ?_ ?_
    · rintro t rfl
      exact ⟨by simp [Tracked, OrderedMap.empty], by simp [Earned]⟩
    · rintro t a u ht hm rfl
      exact gateStep_inv ht hm
  exact hinv.earned

/-- While no contact uses the table when a question of another one is open, what a contact
is answered does not depend on the others, and it is let through for its own answers. -/
theorem captcha_isolation (qs : Questions) :
    (∀ (b : ImContact) (ops : List (ImContact × Op qs)),
      NoOtherOpen OrderedMap.empty ops → Isolated b ops) ∧
    ∀ (conf : Admission) (s : GateState qs), GateRun qs conf (Meets conf) s → Earned conf s :=
  ⟨fun _ _ h => isolated_of_noOtherOpen h, fun _ _ h => earned_of_run h⟩

def alice : ImContact := ImContact.ofUin 1 .icq
def bob : ImContact := ImContact.ofUin 2 .icq

def oneQuestion : Questions := ⟨[⟨bytes "2+2?", [bytes "4"]⟩], 5⟩

def arrival (c : ImContact) (text : Str) : Arrival oneQuestion :=
  ⟨⟨c, .incoming, 0, 0, false, .immessage text⟩, ⟨0, by decide⟩, 0, 0⟩

def captchaOn : Admission := ⟨true, true, true⟩

/-- Bob asks and answers before Alice is asked. -/
def bobFirst : List (ImContact × Op oneQuestion) :=
  [(bob, .getcaptchaquestion ⟨0, by decide⟩ 0), (bob, .checkcaptcha (bytes "4") 0),
    (bob, .donecaptcha), (alice, .getcaptchaquestion ⟨0, by decide⟩ 0)]

theorem bobFirst_noOtherOpen : NoOtherOpen OrderedMap.empty bobFirst := by
  refine ⟨?_, ?_, ?_, ?_, trivial⟩ <;> decide

/-- Bob is asked, and let through for his answer. -/
def bobAdmitted : GateState oneQuestion :=
  gateStep captchaOn (gateStep captchaOn ⟨OrderedMap.empty, [], []⟩ (arrival bob (bytes "hi")))
    (arrival bob (bytes "4"))

theorem bobAdmitted_run : GateRun oneQuestion captchaOn (Meets captchaOn) bobAdmitted :=
  .step (.step (.init rfl) (fun _ => by decide) rfl)
    (fun _ => by decide) rfl

theorem captcha_isolation_bob : Isolated bob bobFirst ∧ Earned captchaOn bobAdmitted :=
  ⟨(captcha_isolation oneQuestion).1 bob bobFirst bobFirst_noOtherOpen,
    (captcha_isolation oneQuestion).2 captchaOn bobAdmitted bobAdmitted_run⟩

def aliceAsked : List (ImContact × Op oneQuestion) :=
  [(alice, .getcaptchaquestion ⟨0, by decide⟩ 0), (bob, .docaptcha)]

def bobUnasked : GateState oneQuestion :=
  gateStep captchaOn (gateStep captchaOn ⟨OrderedMap.empty, [], []⟩ (arrival alice (bytes "hi")))
    (arrival bob (bytes "4"))

/-- Bob is taken for a contact that was asked, and let through for an answer to a question
that was not his. -/
theorem captcha_shared : alice.eq bob = false ∧ ¬ Isolated bob aliceAsked ∧
    ∃ s, GateRun oneQuestion captchaOn (fun _ _ => True) s ∧ ¬ Earned captchaOn s := by
  refine ⟨by decide, by unfold Isolated; decide, bobUnasked,
    .step (.step (.init rfl) trivial rfl) trivial rfl, fun h => ?_⟩
  have hmem : ((arrival bob (bytes "4")).ev, none) ∈ bobUnasked.admitted := List.mem_cons_self
  obtain ⟨q, hq, -⟩ := h _ hmem rfl
  exact absurd hq (by simp)

end CenterIM.CaptchaIsolation

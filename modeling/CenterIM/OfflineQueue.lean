import CenterIM.ContactDirectory
import CenterIM.Event

/-!
# Resending the offline queues

In the directory of a contact there is a file of events that could not be sent. `resend` takes
the files of the contacts in turn and hands their events to the hooks again; what a hook does not
take goes back to the end of a file, in the order of the old one. Contacts with one directory have
one file.
-/
namespace CenterIM.OfflineQueue
open ByteText Contact ContactDirectory Event

abbrev PERIOD_RESEND : Int64 := 20
abbrev PERIOD_ATONCE : Int64 := 5
abbrev MAX_ATONCE : ℕ := 10

structure Throttle where
  lastevent : Int64
  recentlysent : ℕ

/-- What the clock, the hooks and the file system answer while one event is sent. -/
structure Outcome where
  now : Int64
  logged : ProtocolName → Bool
  sent : Bool
  later : Int64
  append : Bool

/-- Does `store` get an outgoing event sent? -/
def hookTakes (ev : ImEvent) (x : Outcome) (t : Throttle) : Bool × Throttle :=
  let hook := if ev.gettype = .sms then .icq else ev.contact.pname
  let t := if x.now - t.lastevent > PERIOD_ATONCE then { t with recentlysent := 0 } else t
  if (x.logged hook || ev.contact.pname == .rss) && decide (t.recentlysent < MAX_ATONCE) then
    if x.sent then (true, ⟨x.later, t.recentlysent + 1⟩) else (false, t)
  else (false, t)

/-- The offline files by the names of their directories, the members of the event manager, and a
log of the events that the hooks took. -/
structure Queues where
  offline : Str → Option (List ImEvent)
  unsent : ℕ
  throttle : Throttle
  handed : List ImEvent

/-- The events in the offline file of a directory. -/
def Queues.queue (s : Queues) (d : Str) : List ImEvent := (s.offline d).getD []

/-- Whether the file of each entry of the list can be opened, and what happens to each event. -/
structure Pattern where
  opens : ℕ → Bool
  outcome : ℕ → ℕ → Outcome

variable (clist : List ImContact)

/-- The directory of the entry that is found for a contact. -/
def home (c : ImContact) : Option Str := (get clist c).bind fun j => clist[j]?.map getdirname

/-- `eventwrite(ev, offline)`. -/
def eventwrite (s : Queues) (ev : ImEvent) (append : Bool) : Queues :=
  match home clist ev.contact with
  | none => s
  | some d =>
    { s with
      unsent := s.unsent + 1
      offline := if append then Function.update s.offline d (some (s.queue d ++ [ev]))
        else s.offline }

/-- `store` for an outgoing event. -/
def store (s : Queues) (ev : ImEvent) (x : Outcome) : Queues :=
  let (taken, throttle) := hookTakes ev x s.throttle
  let s := { s with throttle := throttle }
  if taken then { s with handed := s.handed ++ [ev] } else eventwrite clist s ev x.append

/-- The loop of `resend` over the events of one file, from the `k`-th event on. -/
def resendEvents (outcome : ℕ → Outcome) : ℕ → List ImEvent → Queues → Queues
  | _, [], s => s
  | k, rev :: revs, s =>
    resendEvents outcome (k + 1) revs
      (if rev.timestamp > PERIOD_RESEND then store clist s rev (outcome k)
      else eventwrite clist s rev (outcome k).append)

/-- What is done for one contact. The renamed file is unlinked whether it was opened or
not. -/
def resendContact (o : Pattern) (i : ℕ) (c : ImContact) (s : Queues) : Queues :=
  match s.offline (getdirname c) with
  | none => s
  | some evs =>
    let s := { s with offline := Function.update s.offline (getdirname c) none }
    if o.opens i then
      resendEvents clist (o.outcome i) 0 (evs.map fun rev => { rev with contact := c }) s
    else s

def resendFrom (o : Pattern) : ℕ → List ImContact → Queues → Queues
  | _, [], s => s
  | i, c :: cs, s => resendFrom o (i + 1) cs (resendContact clist o i c s)

/-- `imeventmanager::resend`. -/
def resend (o : Pattern) (s : Queues) : Queues :=
  resendFrom clist o 0 clist { s with unsent := 0, handed := [] }

/-- The events of a queue that the hook takes, the others with what an append gives, and the
state of the throttle after them. -/
structure Pass where
  taken : List ImEvent
  left : List (ImEvent × Bool)
  throttle : Throttle

/-- An event that is not past the waiting time does not get to the hook. -/
def offer (ev : ImEvent) (x : Outcome) (t : Throttle) : Bool × Throttle :=
  if ev.timestamp > PERIOD_RESEND then hookTakes ev x t else (false, t)

def pass (outcome : ℕ → Outcome) : ℕ → List ImEvent → Throttle → Pass
  | _, [], t => ⟨[], [], t⟩
  | k, ev :: evs, t =>
    let r := offer ev (outcome k) t
    let p := pass outcome (k + 1) evs r.2
    if r.1 then { p with taken := ev :: p.taken }
    else { p with left := (ev, (outcome k).append) :: p.left }

def Pass.kept (p : Pass) : List ImEvent := (p.left.filter Prod.snd).map Prod.fst

/-- The pass over one contact's queue; no event is looked at when the file does not open. -/
def passOf (o : Pattern) (i : ℕ) (c : ImContact) (evs : List ImEvent) (t : Throttle) : Pass :=
  if o.opens i then pass (o.outcome i) 0 (evs.map fun rev => { rev with contact := c }) t
  else ⟨[], [], t⟩

/-- What is done for an entry of the list: the events of its file, whether it opens, and the pass
over them. -/
structure Row where
  contact : ImContact
  events : List ImEvent
  opened : Bool
  pass : Pass

abbrev Row.dir (r : Row) : Str := getdirname r.contact

/-- The rows of some entries; of the directories that were seen before nothing is left to read. -/
def rowsFrom (o : Pattern) (old : Str → List ImEvent) :
    List Str → ℕ → List ImContact → Throttle → List Row
  | _, _, [], _ => []
  | seen, i, c :: cs, t =>
    let evs := if getdirname c ∈ seen then [] else old (getdirname c)
    let p := passOf o i c evs t
    ⟨c, evs, o.opens i, p⟩ :: rowsFrom o old (getdirname c :: seen) (i + 1) cs p.throttle

/-- The rows of a run of `resend` in which no event is read twice. -/
def rows (o : Pattern) (s : Queues) : List Row := rowsFrom o s.queue [] 0 clist s.throttle

/-- An event as a file holds it, which does not say whose it is. -/
def bare (ev : ImEvent) : ImEvent := { ev with contact := contactroot }

def Queues.handedFor (s : Queues) (d : Str) : List ImEvent :=
  s.handed.filter fun ev => decide (getdirname ev.contact = d)

/-- Each contact has the events of its queue once, as taken by the hook or in its file, in the
file in the old order, and the unsent events are counted right. -/
def Conserved (s s' : Queues) : Prop :=
  (∀ d ∈ clist.map getdirname,
    ((s'.handedFor d ++ s'.queue d).map bare).Perm ((s.queue d).map bare) ∧
      ((s'.queue d).map bare).Sublist ((s.queue d).map bare)) ∧
  s'.unsent = ∑ d ∈ (clist.map getdirname).toFinset, (s'.queue d).length

/-- A file with events opens, and each event that the hook does not take is appended, to the file
that it came from. -/
def Row.Smooth (r : Row) : Prop :=
  r.events ≠ [] → r.opened = true ∧ (∀ e ∈ r.pass.left, e.2 = true) ∧
    (r.pass.left ≠ [] → home clist r.contact = some r.dir)

/-- Every entry is dealt with so, and a file to which events went back is not that of a later
entry too. -/
def Smooth (o : Pattern) (s : Queues) : Prop :=
  (∀ r ∈ rows clist o s, r.Smooth clist) ∧
    (rows clist o s).Pairwise fun r r' => r.pass.left ≠ [] → r'.dir ≠ r.dir

theorem pass_perm (outcome : ℕ → Outcome) (k : ℕ) (evs : List ImEvent) (t : Throttle) :
    ((pass outcome k evs t).taken ++ (pass outcome k evs t).left.map Prod.fst).Perm evs := by
  induction evs generalizing k t with
  | nil => exact .refl _
  | cons ev evs ih =>
    rw [pass]
    by_cases h : (offer ev (outcome k) t).1 = true
    · rw [if_pos h]
      exact (ih _ _).cons ev
    · rw [if_neg h]
      exact List.perm_middle.trans ((ih _ _).cons ev)

theorem pass_sublist (outcome : ℕ → Outcome) (k : ℕ) (evs : List ImEvent) (t : Throttle) :
    ((pass outcome k evs t).left.map Prod.fst).Sublist evs := by
  induction evs generalizing k t with
  | nil => exact .slnil
  | cons ev evs ih =>
    rw [pass]
    by_cases h : (offer ev (outcome k) t).1 = true
    · rw [if_pos h]
      exact (ih _ _).cons ev
    · rw [if_neg h]
      exact (ih _ _).cons_cons ev

theorem eventwrite_spec {s : Queues} {ev : ImEvent} {b : Str} (append : Bool)
    (hb : home clist ev.contact = some b) :
    (∀ m, (eventwrite clist s ev append).queue m =
      s.queue m ++ if b = m ∧ append = true then [ev] else []) ∧
    (eventwrite clist s ev append).handed = s.handed ∧
    (eventwrite clist s ev append).unsent = s.unsent + 1 ∧
    (eventwrite clist s ev append).throttle = s.throttle := by
  simp only [eventwrite, hb, and_self, and_true]
  intro m
  cases append with
  | false => simp [Queues.queue]
  | true =>
    by_cases hm : m = b
    · subst hm
      simp [Queues.queue]
    · have hm' : b ≠ m := fun h => hm h.symm
      simp [Queues.queue, hm, hm']

/-- One step of the loop of `resend`: the hook takes the event or it goes back. -/
theorem resendEvents_cons (outcome : ℕ → Outcome) (k : ℕ) (ev : ImEvent) (evs : List ImEvent)
    (s : Queues) :
    resendEvents clist outcome k (ev :: evs) s = resendEvents clist outcome (k + 1) evs
      (let r := offer ev (outcome k) s.throttle
      if r.1 then { s with throttle := r.2, handed := s.handed ++ [ev] }
      else eventwrite clist { s with throttle := r.2 } ev (outcome k).append) := by
  rw [resendEvents]
  congr 1
  by_cases ht : ev.timestamp > PERIOD_RESEND
  · simp only [ht, if_true, store, offer]
  · simp [ht, offer]

theorem resendEvents_spec {b : Str} (outcome : ℕ → Outcome) (k : ℕ) {evs : List ImEvent}
    (s : Queues) (hb : ∀ ev ∈ evs, home clist ev.contact = some b) :
    let s' := resendEvents clist outcome k evs s
    let p := pass outcome k evs s.throttle
    (∀ m, s'.queue m = s.queue m ++ if b = m then p.kept else []) ∧
    s'.handed = s.handed ++ p.taken ∧
    s'.unsent = s.unsent + p.left.length ∧ s'.throttle = p.throttle := by
  induction evs generalizing k s with
  | nil => simp [resendEvents, pass, Pass.kept]
  | cons ev evs ih =>
    have hbs : ∀ e ∈ evs, home clist e.contact = some b := fun e he => hb e (List.mem_cons_of_mem _ he)
    rw [resendEvents_cons]
    simp only [pass]
    by_cases h : (offer ev (outcome k) s.throttle).1 = true
    · simp only [h, if_true]
      obtain ⟨hq, hh, hu, ht⟩ := ih (k + 1) _ hbs
      exact ⟨hq, by simp [hh], hu, ht⟩
    · simp only [h, Bool.false_eq_true, if_false]
      obtain ⟨wq, wh, wu, wt⟩ := eventwrite_spec clist
        (s := { s with throttle := (offer ev (outcome k) s.throttle).2 }) (outcome k).append
        (hb ev List.mem_cons_self)
      obtain ⟨hq, hh, hu, ht⟩ := ih (k + 1) _ hbs
      rw [wt] at hq hh hu ht
      refine ⟨fun m => ?_, by rw [hh, wh], ?_, ht⟩
      · rw [hq m, wq m]
        by_cases hm : b = m
        · cases (outcome k).append <;> simp [hm, Pass.kept, Queues.queue]
        · simp [hm, Queues.queue]
      · rw [hu, wu]
        simp only [List.length_cons]
        omega

theorem home_of_get {c : ImContact} {i : ℕ} (hc : clist[i]? = some c) :
    ∃ j d, j ≤ i ∧ clist[j]? = some d ∧ home clist c = some (getdirname d) := by
  obtain ⟨hi, rfl⟩ := List.getElem?_eq_some_iff.mp hc
  have hsome : (get clist clist[i]).isSome := by
    rw [ContactDirectory.get, List.findIdx?_isSome]
    exact List.any_eq_true.mpr ⟨clist[i], List.getElem_mem hi, eq_refl _⟩
  obtain ⟨j, hj⟩ := Option.isSome_iff_exists.mp hsome
  obtain ⟨hjlen, -, hno⟩ := List.findIdx?_eq_some_iff_getElem.mp hj
  refine ⟨j, clist[j], ?_, List.getElem?_eq_getElem hjlen, by simp [home, hj, hjlen]⟩
  by_contra hlt
  exact hno i (by omega) (eq_refl _)

@[simp] theorem passOf_nil (o : Pattern) (i : ℕ) (c : ImContact) (t : Throttle) :
    passOf o i c [] t = ⟨[], [], t⟩ := by
  rw [passOf]
  split_ifs <;> rfl

/-- Nothing but the contact's own file loses events, and what goes back goes to one file. -/
theorem resendContact_spec {o : Pattern} {i : ℕ} {c : ImContact} {b : Str} (s : Queues)
    (hb : home clist c = some b) :
    let s' := resendContact clist o i c s
    let p := passOf o i c (s.queue (getdirname c)) s.throttle
    (∀ m, s'.queue m =
      (if getdirname c = m then [] else s.queue m) ++ if b = m then p.kept else []) ∧
    s'.handed = s.handed ++ p.taken ∧
    s'.unsent = s.unsent + p.left.length ∧ s'.throttle = p.throttle := by
  have hgone : ∀ m, { s with offline := Function.update s.offline (getdirname c) none }.queue m =
      if getdirname c = m then [] else s.queue m := by
    intro m
    by_cases hm : getdirname c = m
    · subst hm
      simp [Queues.queue]
    · have hm' : m ≠ getdirname c := fun e => hm e.symm
      simp [Queues.queue, Function.update, hm, hm']
  cases hoff : s.offline (getdirname c) with
  | none =>
    have hq : s.queue (getdirname c) = [] := by simp [Queues.queue, hoff]
    have hm : ∀ m, s.queue m = if getdirname c = m then [] else s.queue m := by
      intro m
      by_cases hm : getdirname c = m
      · subst hm
        simp [hq]
      · simp [hm]
    simp only [resendContact, hoff, hq, passOf_nil, Pass.kept, List.filter_nil, List.map_nil, ite_self,
      List.append_nil, List.length_nil, Nat.add_zero, and_self, and_true]
    exact hm
  | some evs =>
    have hq : s.queue (getdirname c) = evs := by simp [Queues.queue, hoff]
    by_cases hopen : o.opens i = true
    · simp only [resendContact, passOf, hoff, hopen, if_true, hq]
      have htarget : ∀ ev ∈ evs.map (fun rev => { rev with contact := c }),
          home clist ev.contact = some b := by simp [hb]
      obtain ⟨eq, eh, eu, et⟩ := resendEvents_spec clist (o.outcome i) 0
        { s with offline := Function.update s.offline (getdirname c) none } htarget
      refine ⟨fun m => ?_, eh, eu, et⟩
      rw [eq m, hgone m]
    · simp only [resendContact, passOf, hoff, hopen, Bool.false_eq_true, if_false, Pass.kept, List.filter_nil,
        List.map_nil, ite_self, List.append_nil, List.length_nil, Nat.add_zero, and_self, and_true]
      exact hgone

theorem kept_eq {p : Pass} (h : ∀ e ∈ p.left, e.2 = true) : p.kept = p.left.map Prod.fst := by
  rw [Pass.kept, List.filter_eq_self.mpr h]

theorem kept_length (p : Pass) : p.kept.length ≤ p.left.length := by
  rw [Pass.kept, List.length_map]
  exact List.filter_sublist.length_le

theorem passOf_spec (o : Pattern) (i : ℕ) (c : ImContact) (evs : List ImEvent) (t : Throttle) :
    let p := passOf o i c evs t
    let old := evs.map fun rev => { rev with contact := c }
    (p.left.map Prod.fst).Sublist old ∧
    (o.opens i = true → (p.taken ++ p.left.map Prod.fst).Perm old) ∧
    (o.opens i ≠ true → p.taken = [] ∧ p.left = []) := by
  by_cases h : o.opens i = true
  · simp only [passOf, h, if_true, ne_eq, not_true_eq_false, false_implies, and_true, true_implies]
    exact ⟨pass_sublist _ _ _ _, pass_perm _ _ _ _⟩
  · simp [passOf, h]

section Rows
variable {o : Pattern} {old : Str → List ImEvent}

/-- The row of an entry, and what it says about the entries before it. -/
theorem rowsFrom_get {seen : List Str} {i : ℕ} {cs : List ImContact} {t : Throttle} {k : ℕ} {r : Row}
    (h : (rowsFrom o old seen i cs t)[k]? = some r) :
    cs[k]? = some r.contact ∧ r.opened = o.opens (i + k) ∧
      (∃ t', r.pass = passOf o (i + k) r.contact r.events t') ∧
      (r.events ≠ [] → r.events = old r.dir ∧ r.dir ∉ seen ∧
        ∀ j < k, ∀ c, cs[j]? = some c → getdirname c ≠ r.dir) := by
  induction cs generalizing seen i t k with
  | nil => simp [rowsFrom] at h
  | cons c cs ih =>
    cases k with
    | zero =>
      obtain rfl := Option.some.inj h
      refine ⟨rfl, rfl, ⟨t, rfl⟩, fun hne => ?_⟩
      have hseen : getdirname c ∉ seen := fun hs => hne (if_pos hs)
      exact ⟨if_neg hseen, hseen, fun j hj => absurd hj (Nat.not_lt_zero j)⟩
    | succ k =>
      obtain ⟨hc, ho, hp, hev⟩ := ih (i := i + 1) h
      rw [Nat.add_right_comm, Nat.add_assoc] at ho hp
      refine ⟨hc, ho, hp, fun hne => ?_⟩
      obtain ⟨hold, hseen, hfirst⟩ := hev hne
      rw [List.mem_cons, not_or] at hseen
      refine ⟨hold, hseen.2, fun j hj d hd => ?_⟩
      cases j with
      | zero =>
        obtain rfl := Option.some.inj hd
        exact fun he => hseen.1 he.symm
      | succ j => exact hfirst j (by omega) d hd

theorem rowsFrom_length (o : Pattern) (old : Str → List ImEvent) (seen : List Str) (i : ℕ)
    (cs : List ImContact) (t : Throttle) : (rowsFrom o old seen i cs t).length = cs.length := by
  induction cs generalizing seen i t with
  | nil => rfl
  | cons c cs ih => simp [rowsFrom, ih]

theorem row_spec {seen : List Str} {i : ℕ} {cs : List ImContact} {t : Throttle} {r : Row}
    (h : r ∈ rowsFrom o old seen i cs t) :
    let old := r.events.map fun rev => { rev with contact := r.contact }
    (r.pass.left.map Prod.fst).Sublist old ∧
    (r.opened = true → (r.pass.taken ++ r.pass.left.map Prod.fst).Perm old) ∧
    (r.opened ≠ true → r.pass.taken = [] ∧ r.pass.left = []) := by
  obtain ⟨k, hk⟩ := List.mem_iff_getElem?.mp h
  obtain ⟨-, ho, ⟨t', hp⟩, -⟩ := rowsFrom_get hk
  rw [ho, hp]
  exact passOf_spec o (i + k) r.contact r.events t'

theorem row_empty {seen : List Str} {i : ℕ} {cs : List ImContact} {t : Throttle} {r : Row}
    (h : r ∈ rowsFrom o old seen i cs t) (hev : r.events = []) :
    r.pass.taken = [] ∧ r.pass.left = [] := by
  obtain ⟨k, hk⟩ := List.mem_iff_getElem?.mp h
  obtain ⟨-, -, ⟨t', hp⟩, -⟩ := rowsFrom_get hk
  rw [hp, hev, passOf_nil]
  exact ⟨rfl, rfl⟩

theorem taken_contact {seen : List Str} {i : ℕ} {cs : List ImContact} {t : Throttle} {r : Row}
    (h : r ∈ rowsFrom o old seen i cs t) : ∀ e ∈ r.pass.taken, e.contact = r.contact := by
  intro e he
  obtain ⟨-, hperm, hno⟩ := row_spec h
  by_cases ho : r.opened = true
  · have hm := (hperm ho).mem_iff.mp (List.mem_append_left _ he)
    obtain ⟨rev, -, rfl⟩ := List.mem_map.mp hm
    rfl
  · rw [(hno ho).1] at he
    exact absurd he List.not_mem_nil

theorem exists_row {seen : List Str} {i : ℕ} {cs : List ImContact} {t : Throttle} {d : Str}
    (hd : d ∈ cs.map getdirname) (hseen : d ∉ seen) :
    ∃ r ∈ rowsFrom o old seen i cs t, r.dir = d ∧ r.events = old d ∧
      ∀ f : Pass → List ImEvent, (∀ t, f ⟨[], [], t⟩ = []) →
        ((rowsFrom o old seen i cs t).flatMap fun r => if r.dir = d then f r.pass else []) = f r.pass := by
  have hlater : ∀ (cs : List ImContact) (seen : List Str) (i : ℕ) (t : Throttle), d ∈ seen →
      ∀ f : Pass → List ImEvent, (∀ t, f ⟨[], [], t⟩ = []) →
        ((rowsFrom o old seen i cs t).flatMap fun r => if r.dir = d then f r.pass else []) = [] := by
    intro cs
    induction cs with
    | nil => exact fun _ _ _ _ _ _ => rfl
    | cons c cs ih =>
      intro seen i t hs f hf
      rw [rowsFrom, List.flatMap_cons, ih _ _ _ (List.mem_cons_of_mem _ hs) f hf, List.append_nil]
      by_cases hc : getdirname c = d
      · have hc' : getdirname c ∈ seen := by rwa [hc]
        simp only [if_pos hc', passOf_nil, hf, ite_self]
      · exact if_neg hc
  induction cs generalizing seen i t with
  | nil => simp at hd
  | cons c cs ih =>
    by_cases hc : getdirname c = d
    · subst hc
      refine ⟨_, List.mem_cons_self, rfl, if_neg hseen, fun f hf => ?_⟩
      rw [rowsFrom, List.flatMap_cons, hlater _ _ _ _ List.mem_cons_self f hf, List.append_nil, if_pos rfl]
    · have hd' : d ∈ cs.map getdirname := by
        rcases List.mem_cons.mp hd with h | h
        · exact absurd h.symm hc
        · exact h
      have hseen' : d ∉ getdirname c :: seen := by
        rw [List.mem_cons, not_or]
        exact ⟨fun h => hc h.symm, hseen⟩
      obtain ⟨r, hr, hdir, hev, hsum⟩ := ih (i := i + 1)
        (t := (passOf o i c (if getdirname c ∈ seen then [] else old (getdirname c)) t).throttle) hd' hseen'
      refine ⟨r, List.mem_cons_of_mem _ hr, hdir, hev, fun f hf => ?_⟩
      rw [rowsFrom, List.flatMap_cons]
      have hne : ¬Row.dir ⟨c, (if getdirname c ∈ seen then [] else old (getdirname c)), o.opens i,
          passOf o i c (if getdirname c ∈ seen then [] else old (getdirname c)) t⟩ = d := hc
      rw [if_neg hne, List.nil_append]
      exact hsum f hf

theorem handed_rows {rs : List Row} (h : ∀ r ∈ rs, ∀ e ∈ r.pass.taken, e.contact = r.contact) (d : Str) :
    (rs.flatMap fun r => r.pass.taken).filter (fun ev => decide (getdirname ev.contact = d)) =
      rs.flatMap fun r => if r.dir = d then r.pass.taken else [] := by
  induction rs with
  | nil => rfl
  | cons r rs ih =>
    rw [List.flatMap_cons, List.filter_append, ih fun r' hr' => h r' (List.mem_cons_of_mem _ hr'),
      List.flatMap_cons]
    refine congrArg (· ++ _) ?_
    have hr := h r List.mem_cons_self
    split_ifs with hd
    · exact List.filter_eq_self.mpr fun e he => decide_eq_true (by rw [hr e he]; exact hd)
    · exact List.filter_eq_nil_iff.mpr fun e he => by simpa [hr e he] using hd

end Rows

variable {clist}

/-- Where a run stands in the list: at the entries `cs` from the `i`-th on, after those of the
directories `seen`. -/
structure At (clist : List ImContact) (i : ℕ) (cs : List ImContact) (seen : List Str) : Prop where
  next : ∀ k c, cs[k]? = some c → clist[i + k]? = some c
  seen : ∀ j < i, ∀ c, clist[j]? = some c → getdirname c ∈ seen

theorem At.tail {i : ℕ} {c : ImContact} {cs : List ImContact} {seen : List Str}
    (h : At clist i (c :: cs) seen) : At clist (i + 1) cs (getdirname c :: seen) := by
  refine ⟨fun k d hd => ?_, fun j hj d hd => ?_⟩
  · rw [Nat.add_right_comm]
    exact h.next (k + 1) d hd
  · rcases Nat.lt_succ_iff_lt_or_eq.mp hj with hlt | rfl
    · exact List.mem_cons_of_mem _ (h.seen j hlt d hd)
    · have hc : clist[j]? = some c := h.next 0 c rfl
      rw [Option.some.inj (hd.symm.trans hc)]
      exact List.mem_cons_self

theorem At.home {i : ℕ} {c : ImContact} {cs : List ImContact} {seen : List Str}
    (h : At clist i (c :: cs) seen) :
    ∃ b ∈ getdirname c :: seen, OfflineQueue.home clist c = some b := by
  have hc : clist[i]? = some c := h.next 0 c rfl
  obtain ⟨j, d, hj, hd, hb⟩ := home_of_get clist hc
  rcases Nat.lt_or_eq_of_le hj with hlt | rfl
  · exact ⟨_, List.mem_cons_of_mem _ (h.seen j hlt d hd), hb⟩
  · rw [hd] at hc
    rw [Option.some.inj hc] at hb
    exact ⟨_, List.mem_cons_self, hb⟩

/-- The number of events in the files of some directories. -/
def Queues.held (s : Queues) (S : Finset Str) : ℕ := ∑ d ∈ S, (s.queue d).length

/-- The files that were read hold what went back, less what is read again. -/
theorem resendContact_held {o : Pattern} {i : ℕ} {c : ImContact} {b : Str} {seen : List Str} (s : Queues)
    (hb : home clist c = some b) (hmem : b ∈ getdirname c :: seen) :
    (resendContact clist o i c s).held (getdirname c :: seen).toFinset +
        (if getdirname c ∈ seen then (s.queue (getdirname c)).length else 0) =
      s.held seen.toFinset + (passOf o i c (s.queue (getdirname c)) s.throttle).kept.length := by
  obtain ⟨cq, -, -, -⟩ := resendContact_spec clist (o := o) (i := i) s hb
  generalize passOf o i c (s.queue (getdirname c)) s.throttle = p at *
  have hb' : b ∈ (getdirname c :: seen).toFinset := List.mem_toFinset.mpr hmem
  have hlen : ∀ m, ((resendContact clist o i c s).queue m).length =
      (if getdirname c = m then 0 else (s.queue m).length) + if b = m then p.kept.length else 0 := by
    intro m
    rw [cq m, List.length_append, apply_ite List.length, apply_ite List.length]
    rfl
  have hother : ∀ T : Finset Str, (∑ m ∈ T, if getdirname c = m then 0 else (s.queue m).length) +
      (if getdirname c ∈ T then (s.queue (getdirname c)).length else 0) = s.held T := by
    intro T
    rw [← Finset.sum_ite_eq T (getdirname c) fun m => (s.queue m).length, ← Finset.sum_add_distrib]
    refine Finset.sum_congr rfl fun m _ => ?_
    split_ifs <;> simp
  have hsplit := hother seen.toFinset
  simp only [List.mem_toFinset] at hsplit
  have hfirst : (∑ m ∈ (getdirname c :: seen).toFinset,
      if getdirname c = m then 0 else (s.queue m).length) =
      ∑ m ∈ seen.toFinset, if getdirname c = m then 0 else (s.queue m).length := by
    rw [List.toFinset_cons]
    by_cases hs : getdirname c ∈ seen.toFinset
    · rw [Finset.insert_eq_of_mem hs]
    · rw [Finset.sum_insert hs, if_pos rfl, Nat.zero_add]
  rw [Queues.held, Finset.sum_congr rfl fun m _ => hlen m, Finset.sum_add_distrib, Finset.sum_ite_eq,
    if_pos hb', hfirst, ← hsplit]
  omega

/-- The files that were read never hold more events than were counted. -/
theorem resendFrom_held_le {o : Pattern} {i : ℕ} {cs : List ImContact} {seen : List Str} (s : Queues)
    (hat : At clist i cs seen) :
    s.unsent + (resendFrom clist o i cs s).held ((cs.map getdirname).reverse ++ seen).toFinset ≤
      s.held seen.toFinset + (resendFrom clist o i cs s).unsent := by
  induction cs generalizing i seen s with
  | nil => simp [resendFrom, Nat.add_comm]
  | cons c cs ih =>
    obtain ⟨b, hmem, hb⟩ := hat.home
    have hstep := resendContact_held (o := o) (i := i) s hb hmem
    have hu := (resendContact_spec clist (o := o) (i := i) s hb).2.2.1
    have hk := kept_length (passOf o i c (s.queue (getdirname c)) s.throttle)
    have hrun := ih (resendContact clist o i c s) hat.tail
    rw [resendFrom, List.map_cons, List.reverse_cons, List.append_assoc, List.singleton_append]
    omega

/-- The numbers agree: nothing that went back was lost, and nothing is counted twice. -/
def Even (clist : List ImContact) (o : Pattern) (i : ℕ) (cs : List ImContact) (seen : List Str)
    (s : Queues) : Prop :=
  s.unsent + (resendFrom clist o i cs s).held ((cs.map getdirname).reverse ++ seen).toFinset =
    s.held seen.toFinset + (resendFrom clist o i cs s).unsent

/-- When the numbers agree at the end, they agree at every entry. -/
theorem Even.step {o : Pattern} {i : ℕ} {c : ImContact} {cs : List ImContact} {seen : List Str}
    {s : Queues} (hat : At clist i (c :: cs) seen) (h : Even clist o i (c :: cs) seen s) :
    (getdirname c ∈ seen → s.queue (getdirname c) = []) ∧
    (∀ e ∈ (passOf o i c (s.queue (getdirname c)) s.throttle).left, e.2 = true) ∧
    Even clist o (i + 1) cs (getdirname c :: seen) (resendContact clist o i c s) := by
  obtain ⟨b, hmem, hb⟩ := hat.home
  have hstep := resendContact_held (o := o) (i := i) s hb hmem
  have hu := (resendContact_spec clist (o := o) (i := i) s hb).2.2.1
  have hk := kept_length (passOf o i c (s.queue (getdirname c)) s.throttle)
  have hrun := resendFrom_held_le (o := o) (resendContact clist o i c s) hat.tail
  rw [Even, resendFrom, List.map_cons, List.reverse_cons, List.append_assoc, List.singleton_append] at h
  have hlen : (passOf o i c (s.queue (getdirname c)) s.throttle).kept.length =
      (passOf o i c (s.queue (getdirname c)) s.throttle).left.length := by omega
  refine ⟨fun hs => ?_, ?_, ?_⟩
  · rw [if_pos hs] at hstep
    exact List.eq_nil_of_length_eq_zero (by omega)
  · rw [Pass.kept, List.length_map] at hlen
    exact List.filter_eq_self.mp (List.filter_sublist.eq_of_length hlen)
  · rw [Even]
    omega

/-- Of a directory that was seen nothing is left when an entry comes to it. -/
theorem Even.seen {o : Pattern} {i : ℕ} {cs : List ImContact} {seen : List Str} {s : Queues}
    (hat : At clist i cs seen) (h : Even clist o i cs seen s) {m : Str} (hm : m ∈ cs.map getdirname)
    (hs : m ∈ seen) : s.queue m = [] := by
  induction cs generalizing i seen s with
  | nil => simp at hm
  | cons c cs ih =>
    obtain ⟨hown, -, htail⟩ := h.step hat
    by_cases hc : getdirname c = m
    · rw [← hc] at hs ⊢
      exact hown hs
    · have hm' : m ∈ cs.map getdirname :=
        (List.mem_cons.mp hm).resolve_left fun h => hc h.symm
      obtain ⟨b, -, hb⟩ := hat.home
      have hq := (resendContact_spec clist (o := o) (i := i) s hb).1 m
      rw [ih hat.tail htail hm' (List.mem_cons_of_mem _ hs), if_neg hc] at hq
      exact (List.append_eq_nil_iff.mp hq.symm).1

structure Unread (old : Str → List ImEvent) (cs : List ImContact) (seen : List Str) (s : Queues) :
    Prop where
  fresh : ∀ c ∈ cs, getdirname c ∉ seen → s.queue (getdirname c) = old (getdirname c)
  done : ∀ c ∈ cs, getdirname c ∈ seen → s.queue (getdirname c) = []

theorem Unread.head {old : Str → List ImEvent} {c : ImContact} {cs : List ImContact} {seen : List Str}
    {s : Queues} (h : Unread old (c :: cs) seen s) :
    s.queue (getdirname c) = if getdirname c ∈ seen then [] else old (getdirname c) := by
  split_ifs with hs
  · exact h.done c List.mem_cons_self hs
  · exact h.fresh c List.mem_cons_self hs

/-- After an entry whose events did not go to the file of a later one. -/
theorem Unread.tail {o : Pattern} {old : Str → List ImEvent} {i : ℕ} {c : ImContact}
    {cs : List ImContact} {seen : List Str} {s : Queues} {b : Str} (h : Unread old (c :: cs) seen s)
    (hb : home clist c = some b)
    (hback : b ∈ cs.map getdirname → (passOf o i c (s.queue (getdirname c)) s.throttle).kept = []) :
    Unread old cs (getdirname c :: seen) (resendContact clist o i c s) := by
  obtain ⟨cq, -, -, -⟩ := resendContact_spec clist (o := o) (i := i) s hb
  have hq : ∀ c' ∈ cs, (resendContact clist o i c s).queue (getdirname c') =
      if getdirname c = getdirname c' then [] else s.queue (getdirname c') := by
    intro c' hc'
    rw [cq]
    split_ifs with h1 h2 h2
    · exact hback (h2 ▸ List.mem_map_of_mem hc')
    · rfl
    · rw [hback (h2 ▸ List.mem_map_of_mem hc'), List.append_nil]
    · rw [List.append_nil]
  refine ⟨fun c' hc' hs => ?_, fun c' hc' hs => ?_⟩
  · rw [List.mem_cons, not_or] at hs
    rw [hq c' hc', if_neg fun he => hs.1 he.symm]
    exact h.fresh c' (List.mem_cons_of_mem _ hc') hs.2
  · rw [hq c' hc']
    split_ifs with he
    · rfl
    · exact h.done c' (List.mem_cons_of_mem _ hc')
        ((List.mem_cons.mp hs).resolve_left fun h => he h.symm)

structure Settled (clist : List ImContact) (rs : List Row) : Prop where
  append : ∀ r ∈ rs, ∀ e ∈ r.pass.left, e.2 = true
  once : rs.Pairwise fun r r' => r.pass.left ≠ [] → home clist r.contact ≠ some r'.dir

theorem exists_dir {o : Pattern} {old : Str → List ImEvent} {seen : List Str} {i : ℕ}
    {cs : List ImContact} {t : Throttle} {m : Str} (h : m ∈ cs.map getdirname) :
    ∃ r ∈ rowsFrom o old seen i cs t, r.dir = m := by
  obtain ⟨c, hc, rfl⟩ := List.mem_map.mp h
  obtain ⟨k, hk⟩ := List.mem_iff_getElem?.mp hc
  obtain ⟨hlt, -⟩ := List.getElem?_eq_some_iff.mp hk
  rw [← rowsFrom_length o old seen i cs t] at hlt
  have hget := List.getElem?_eq_getElem hlt
  obtain ⟨hcon, -⟩ := rowsFrom_get hget
  refine ⟨_, List.getElem_mem hlt, ?_⟩
  rw [Row.dir, ← Option.some.inj (hk.symm.trans hcon)]

theorem Even.settled {o : Pattern} {old : Str → List ImEvent} {i : ℕ} {cs : List ImContact}
    {seen : List Str} {s : Queues} (hat : At clist i cs seen) (hun : Unread old cs seen s)
    (h : Even clist o i cs seen s) : Settled clist (rowsFrom o old seen i cs s.throttle) := by
  induction cs generalizing i seen s with
  | nil => exact ⟨fun _ hr => absurd hr List.not_mem_nil, .nil⟩
  | cons c cs ih =>
    obtain ⟨-, hall, htail⟩ := h.step hat
    obtain ⟨b, hmem, hb⟩ := hat.home
    obtain ⟨cq, -, -, ct⟩ := resendContact_spec clist (o := o) (i := i) s hb
    have hback : b ∈ cs.map getdirname →
        (passOf o i c (s.queue (getdirname c)) s.throttle).kept = [] := by
      intro hbm
      have hq := cq b
      rw [htail.seen hat.tail hbm hmem, if_pos rfl] at hq
      exact (List.append_eq_nil_iff.mp hq.symm).2
    obtain ⟨happend, honce⟩ := ih hat.tail (hun.tail hb hback) htail
    rw [ct] at happend honce
    rw [rowsFrom, ← hun.head]
    refine ⟨fun r hr => ?_, List.pairwise_cons.mpr ⟨fun r hr hne he => ?_, honce⟩⟩
    · rcases List.mem_cons.mp hr with rfl | hr
      · exact hall
      · exact happend r hr
    · have hrb : r.dir = b := Option.some.inj (he.symm.trans hb)
      obtain ⟨k, hk⟩ := List.mem_iff_getElem?.mp hr
      have hcon := List.mem_of_getElem? (rowsFrom_get hk).1
      have hkept := hback (hrb ▸ List.mem_map_of_mem hcon)
      rw [kept_eq hall, List.map_eq_nil_iff] at hkept
      exact hne hkept

theorem resendFrom_settled {o : Pattern} {old : Str → List ImEvent} {i : ℕ} {cs : List ImContact}
    {seen : List Str} (s : Queues) (hat : At clist i cs seen) (hun : Unread old cs seen s)
    (h : Settled clist (rowsFrom o old seen i cs s.throttle)) :
    let s' := resendFrom clist o i cs s
    let rs := rowsFrom o old seen i cs s.throttle
    (∀ m, s'.queue m = (if m ∈ cs.map getdirname then [] else s.queue m) ++
      rs.flatMap fun r => if home clist r.contact = some m then r.pass.kept else []) ∧
    s'.handed = s.handed ++ rs.flatMap (fun r => r.pass.taken) ∧ Even clist o i cs seen s := by
  induction cs generalizing i seen s with
  | nil => simp [resendFrom, rowsFrom, Even, Nat.add_comm]
  | cons c cs ih =>
    obtain ⟨b, hmem, hb⟩ := hat.home
    have hheld := resendContact_held (o := o) (i := i) s hb hmem
    obtain ⟨cq, ch, cu, ct⟩ := resendContact_spec clist (o := o) (i := i) s hb
    rw [rowsFrom, ← hun.head] at h
    have hall : ∀ e ∈ (passOf o i c (s.queue (getdirname c)) s.throttle).left, e.2 = true :=
      h.append _ List.mem_cons_self
    obtain ⟨hfirst, honce⟩ := List.pairwise_cons.mp h.once
    have hback : b ∈ cs.map getdirname →
        (passOf o i c (s.queue (getdirname c)) s.throttle).kept = [] := by
      intro hbm
      rw [kept_eq hall, List.map_eq_nil_iff]
      by_contra hne
      obtain ⟨r, hr, hrb⟩ := exists_dir hbm
      exact hfirst r hr hne (by rw [hrb]; exact hb)
    obtain ⟨rq, rh, re⟩ := ih (resendContact clist o i c s) hat.tail (hun.tail hb hback)
      (by rw [ct]; exact ⟨fun r hr => h.append r (List.mem_cons_of_mem _ hr), honce⟩)
    rw [ct] at rq rh
    dsimp only
    rw [resendFrom, rowsFrom, ← hun.head]
    generalize hp : passOf o i c (s.queue (getdirname c)) s.throttle = p at *
    refine ⟨fun m => ?_, ?_, ?_⟩
    · have hhead : (if home clist c = some m then p.kept else []) = if b = m then p.kept else [] := by
        simp only [hb, Option.some.injEq]
      rw [rq m, cq m, List.flatMap_cons, hhead, List.map_cons]
      by_cases hm : m ∈ cs.map getdirname
      · rw [if_pos hm, if_pos (List.mem_cons_of_mem _ hm), List.nil_append, List.nil_append]
        by_cases hbm : b = m
        · rw [if_pos hbm, hback (hbm ▸ hm), List.nil_append]
        · rw [if_neg hbm, List.nil_append]
      · rw [if_neg hm, List.append_assoc]
        refine congrArg (· ++ _) ?_
        simp only [List.mem_cons, hm, or_false, eq_comm]
    · rw [rh, ch, List.append_assoc, List.flatMap_cons]
    · rw [Even] at re ⊢
      rw [resendFrom, List.map_cons, List.reverse_cons, List.append_assoc, List.singleton_append]
      have hkl : p.kept.length = p.left.length := by rw [kept_eq hall, List.length_map]
      have hzero : (if getdirname c ∈ seen then (s.queue (getdirname c)).length else 0) = 0 := by
        split_ifs with hs
        · rw [hun.done c List.mem_cons_self hs, List.length_nil]
        · rfl
      omega

theorem at_start : At clist 0 clist [] :=
  ⟨fun k c h => by rwa [Nat.zero_add], fun _ hj => absurd hj (Nat.not_lt_zero _)⟩

/-- At the start of `resend` every file is unread. -/
theorem unread_start (s : Queues) :
    Unread s.queue clist [] { s with unsent := 0, handed := [] } :=
  ⟨fun _ _ _ => rfl, fun _ _ hs => absurd hs List.not_mem_nil⟩

/-- The count of the unsent events is right in the runs whose numbers agree, and in no other. -/
theorem unsent_iff (o : Pattern) (s : Queues) :
    Even clist o 0 clist [] { s with unsent := 0, handed := [] } ↔
      (resend clist o s).unsent =
        ∑ d ∈ (clist.map getdirname).toFinset, ((resend clist o s).queue d).length := by
  rw [Even, List.append_nil, List.toFinset_reverse, ← resend, Queues.held, Queues.held]
  simp only [List.toFinset_nil, Finset.sum_empty, Nat.zero_add]
  exact eq_comm

theorem exists_row_start (o : Pattern) (s : Queues) {d : Str} (hd : d ∈ clist.map getdirname) :
    ∃ r ∈ rows clist o s, r.dir = d ∧ r.events = s.queue d ∧
      ∀ f : Pass → List ImEvent, (∀ t, f ⟨[], [], t⟩ = []) →
        ((rows clist o s).flatMap fun r => if r.dir = d then f r.pass else []) = f r.pass :=
  exists_row hd List.not_mem_nil

/-- What a settled run leaves in the files of the list, and what it hands over. -/
theorem resend_settled {o : Pattern} {s : Queues} (h : Settled clist (rows clist o s)) {r : Row}
    (hr : r ∈ rows clist o s)
    (hsum : ∀ f : Pass → List ImEvent, (∀ t, f ⟨[], [], t⟩ = []) →
      ((rows clist o s).flatMap fun r' => if r'.dir = r.dir then f r'.pass else []) = f r.pass) :
    ((resend clist o s).handedFor r.dir) = r.pass.taken ∧
    (resend clist o s).queue r.dir =
      (rows clist o s).flatMap fun r' => if home clist r'.contact = some r.dir then r'.pass.kept else [] := by
  obtain ⟨hq, hh, -⟩ := resendFrom_settled { s with unsent := 0, handed := [] } at_start
    (unread_start s) h
  obtain ⟨k, hk⟩ := List.mem_iff_getElem?.mp hr
  have hm : r.dir ∈ clist.map getdirname := List.mem_map_of_mem (List.mem_of_getElem? (rowsFrom_get hk).1)
  refine ⟨?_, ?_⟩
  · rw [Queues.handedFor, resend, hh, List.nil_append, handed_rows fun r' hr' => taken_contact hr']
    exact hsum Pass.taken fun _ => rfl
  · rw [resend, hq, if_pos hm, List.nil_append]
    rfl

theorem Smooth.settled {o : Pattern} {s : Queues} (h : Smooth clist o s) :
    Settled clist (rows clist o s) := by
  have hne : ∀ r ∈ rows clist o s, r.pass.left ≠ [] → r.events ≠ [] :=
    fun r hr hl hev => hl (row_empty hr hev).2
  refine ⟨fun r hr e he => ?_, h.2.imp_of_mem fun hr _ hp hl he => ?_⟩
  · exact (h.1 r hr (hne r hr (List.ne_nil_of_mem he))).2.1 e he
  · have hown := (h.1 _ hr (hne _ hr hl)).2.2 hl
    exact hp hl (Option.some.inj (he.symm.trans hown))

theorem bare_events (evs : List ImEvent) (c : ImContact) :
    (evs.map fun rev => { rev with contact := c }).map bare = evs.map bare := by
  rw [List.map_map]
  exact List.map_congr_left fun _ _ => rfl

theorem conserved_of_smooth {o : Pattern} {s : Queues} (h : Smooth clist o s) :
    Conserved clist s (resend clist o s) := by
  have hset := h.settled
  refine ⟨fun d hd => ?_, ?_⟩
  · obtain ⟨r, hr, rfl, hev, hsum⟩ := exists_row_start o s hd
    obtain ⟨hhand, hqueue⟩ := resend_settled hset hr hsum
    have hfile : (resend clist o s).queue r.dir = r.pass.kept := by
      rw [hqueue, ← hsum Pass.kept fun _ => rfl]
      refine List.flatMap_congr fun r' hr' => ?_
      by_cases hl : r'.pass.left = []
      · have hk : r'.pass.kept = [] := by rw [Pass.kept, hl]; rfl
        rw [hk, ite_self, ite_self]
      · have hown := (h.1 r' hr' fun hev' => hl (row_empty hr' hev').2).2.2 hl
        rw [hown]
        simp only [Option.some.injEq]
    rw [hhand, hfile, kept_eq (hset.append r hr), ← hev, ← bare_events r.events r.contact]
    obtain ⟨hsub, hperm, -⟩ := row_spec hr
    by_cases he : r.events = []
    · obtain ⟨ht, hl⟩ := row_empty hr he
      rw [he, ht, hl]
      exact ⟨.refl _, .slnil⟩
    · exact ⟨(hperm (h.1 r hr he).1).map _, hsub.map _⟩
  · obtain ⟨-, -, heven⟩ := resendFrom_settled { s with unsent := 0, handed := [] } at_start
      (unread_start s) hset
    exact (unsent_iff o s).mp heven

/-- A row whose file is lost or whose events go to the file of another directory. -/
def Row.Astray (clist : List ImContact) (r : Row) : Prop :=
  r.events ≠ [] ∧ (r.opened = true → r.pass.left ≠ [] ∧ home clist r.contact ≠ some r.dir)

/-- Only one row of a directory has events. -/
theorem row_unique {o : Pattern} {s : Queues} {k k' : ℕ} {r r' : Row}
    (hk : (rows clist o s)[k]? = some r) (hne : r.events ≠ [])
    (hk' : (rows clist o s)[k']? = some r') (hdir : r'.dir = r.dir) (hne' : r'.events ≠ []) :
    k' = k := by
  obtain ⟨hcon, -, -, hfresh⟩ := rowsFrom_get hk
  obtain ⟨hcon', -, -, hfresh'⟩ := rowsFrom_get hk'
  rcases Nat.lt_trichotomy k' k with hlt | heq | hlt
  · exact absurd hdir ((hfresh hne).2.2 k' hlt _ hcon')
  · exact heq
  · exact absurd hdir.symm ((hfresh' hne').2.2 k hlt _ hcon)

/-- The pass of such a row takes fewer events than there are. -/
theorem Row.Astray.taken_lt {o : Pattern} {s : Queues} {r : Row} (h : r.Astray clist)
    (hr : r ∈ rows clist o s) : r.pass.taken.length < r.events.length := by
  obtain ⟨-, hperm, hno⟩ := row_spec hr
  by_cases ho : r.opened = true
  · have hp := (hperm ho).length_eq
    rw [List.length_append, List.length_map, List.length_map] at hp
    have := List.length_pos_iff.mpr (h.2 ho).1
    omega
  · rw [(hno ho).1]
    exact List.length_pos_iff.mpr h.1

/-- Its file holds events afterwards all the same, so a later row went astray. -/
theorem later_astray {o : Pattern} {s : Queues} (hset : Settled clist (rows clist o s))
    (hc : Conserved clist s (resend clist o s)) {k : ℕ} {r : Row} (hk : (rows clist o s)[k]? = some r)
    (hr : r.Astray clist) : ∃ k' > k, ∃ r', (rows clist o s)[k']? = some r' ∧ r'.Astray clist := by
  obtain ⟨hcon, hopen, -, hfresh⟩ := rowsFrom_get hk
  obtain ⟨hold, -, hfirst⟩ := hfresh hr.1
  have hmem := List.mem_of_getElem? hk
  have hd : r.dir ∈ clist.map getdirname := List.mem_map_of_mem (List.mem_of_getElem? hcon)
  obtain ⟨r₁, hr₁, hdir, hev₁, hsum⟩ := exists_row_start o s hd
  obtain ⟨k₁, hk₁⟩ := List.mem_iff_getElem?.mp hr₁
  -- the row of the directory is this one
  obtain rfl := row_unique hk hr.1 hk₁ hdir (by rw [hev₁, ← hold]; exact hr.1)
  obtain rfl := Option.some.inj (hk₁.symm.trans hk)
  obtain ⟨hhand, hqueue⟩ := resend_settled hset hr₁ hsum
  have hlen := (hc.1 _ hd).1.length_eq
  rw [hhand, List.length_map, List.length_map, List.length_append, ← hev₁] at hlen
  have htaken := hr.taken_lt hr₁
  have hne : (resend clist o s).queue r₁.dir ≠ [] := by
    intro he
    rw [he, List.length_nil] at hlen
    omega
  -- so another row's events came back to its file
  rw [hqueue] at hne
  obtain ⟨e, he⟩ := List.exists_mem_of_ne_nil _ hne
  obtain ⟨r₂, hr₂, he₂⟩ := List.mem_flatMap.mp he
  have hhome : home clist r₂.contact = some r₁.dir := by
    by_contra hn
    rw [if_neg hn] at he₂
    exact List.not_mem_nil he₂
  rw [if_pos hhome, kept_eq (hset.append r₂ hr₂)] at he₂
  have hleft : r₂.pass.left ≠ [] := fun h => by
    rw [h] at he₂
    exact List.not_mem_nil he₂
  have hev₂ : r₂.events ≠ [] := fun h => hleft (row_empty hr₂ h).2
  obtain ⟨k₂, hk₂⟩ := List.mem_iff_getElem?.mp hr₂
  have hother : r₂.dir ≠ r₁.dir := by
    intro hsame
    obtain rfl := row_unique hk hr.1 hk₂ hsame hev₂
    obtain rfl := Option.some.inj (hk₁.symm.trans hk₂)
    by_cases ho : r₁.opened = true
    · exact (hr.2 ho).2 hhome
    · exact hleft ((row_spec hr₁).2.2 ho).2
  obtain ⟨j, c, hj, hcj, hhome'⟩ := home_of_get clist (rowsFrom_get hk₂).1
  have hcdir : getdirname c = r₁.dir := Option.some.inj (hhome'.symm.trans hhome)
  refine ⟨k₂, ?_, r₂, hk₂, hev₂, fun _ => ⟨hleft, fun h => hother ?_⟩⟩
  · by_contra hle
    rcases Nat.lt_or_eq_of_le (show k₂ ≤ k₁ by omega) with hlt | rfl
    · exact hfirst j (by omega) c hcj hcdir
    · exact hother (by rw [Option.some.inj (hk₁.symm.trans hk₂)])
  · exact Option.some.inj (h.symm.trans hhome)

theorem no_astray {o : Pattern} {s : Queues} (hset : Settled clist (rows clist o s))
    (hc : Conserved clist s (resend clist o s)) {r : Row} (hr : r ∈ rows clist o s) :
    ¬r.Astray clist := by
  intro ha
  have hend : ∀ n : ℕ, ∃ k : ℕ, k ≥ n ∧
      ∃ r' : Row, (rows clist o s)[k]? = some r' ∧ r'.Astray clist := by
    intro n
    induction n with
    | zero =>
      obtain ⟨k, hk⟩ := List.mem_iff_getElem?.mp hr
      exact ⟨k, Nat.zero_le k, r, hk, ha⟩
    | succ n ih =>
      obtain ⟨k, hn, r', hk, ha'⟩ := ih
      obtain ⟨k', hlt, r'', hk', ha''⟩ := later_astray hset hc hk ha'
      exact ⟨k', by omega, r'', hk', ha''⟩
  obtain ⟨k, hk, r', hr', -⟩ := hend (rows clist o s).length
  obtain ⟨hlt, -⟩ := List.getElem?_eq_some_iff.mp hr'
  omega

def bob : ImContact := ImContact.ofUin 42 .icq

def unsentMessage : ImEvent := ⟨bob, .outgoing, 1000, 0, false, .immessage (bytes "hi")⟩

def oneUnsent : Queues where
  offline := Function.update (fun _ => none) (getdirname bob) (some [unsentMessage])
  unsent := 1
  throttle := ⟨0, 0⟩
  handed := []

def notOpening : Pattern where
  opens := fun _ => false
  outcome := fun _ _ => ⟨2000, fun _ => false, false, 2000, true⟩

end CenterIM.OfflineQueue

import CenterIM.ByteText

/-!
# The cache of pending replies

Messages and requests that wait for a reply are kept in a list in the order in which they time
out, and a poll gives up those whose time is over. Every operation is told the time, which need
not go forward. What expires and what is removed is kept in two logs.
-/
namespace CenterIM.ExpiryCache

variable {Key Value : Type*}

structure CacheItem (Key Value : Type*) where
  timeout : ℕ
  timestamp : ℤ
  key : Key
  value : Value
  deriving DecidableEq

def CacheItem.getExpiryTime (t : CacheItem Key Value) : ℤ := t.timestamp + t.timeout

structure Cache (Key Value : Type*) where
  timeout : ℕ := 60
  list : List (CacheItem Key Value) := []
  /-- The values that were put in, and those that were given up and taken out. -/
  inserted : List Value := []
  expired : List Value := []
  removed : List Value := []

namespace Cache

section
variable [DecidableEq Key] (c : Cache Key Value)

def lookup (k : Key) : Option (CacheItem Key Value) := c.list.find? fun t => t.key = k

def erase (k : Key) : List (CacheItem Key Value) := c.list.eraseP fun t => t.key = k

/-- The place of an item is looked for from the end of the list: behind the last item that
expires before it. -/
def place (t : CacheItem Key Value) (l : List (CacheItem Key Value)) : List (CacheItem Key Value) :=
  l.rdropWhile (fun x => ¬ x.getExpiryTime < t.getExpiryTime) ++
    t :: l.rtakeWhile (fun x => ¬ x.getExpiryTime < t.getExpiryTime)

def insert (now : ℤ) (k : Key) (v : Value) : Cache Key Value :=
  { c with list := place ⟨c.timeout, now, k, v⟩ c.list, inserted := c.inserted ++ [v] }

/-- `operator[]`, which puts a default value where there is none. -/
def index [Inhabited Value] (now : ℤ) (k : Key) : Value × Cache Key Value :=
  match c.lookup k with
  | some t => (t.value, c)
  | none => (default, c.insert now k default)

def remove (k : Key) : Cache Key Value :=
  match c.lookup k with
  | some t => { c with list := c.erase k, removed := c.removed ++ [t.value] }
  | none => c

/-- The item is put back as it was, with the time stamp that it had. -/
def refresh (k : Key) : Cache Key Value :=
  match c.lookup k with
  | some t => { c with list := place t (c.erase k) }
  | none => c

def setTimeout (k : Key) (s : ℕ) : Cache Key Value :=
  match c.lookup k with
  | some t => { c with list := place { t with timeout := s } (c.erase k) }
  | none => c

end

variable (c : Cache Key Value)

def setDefaultTimeout (s : ℕ) : Cache Key Value := { c with timeout := s }

def clearout (now : ℤ) : List (CacheItem Key Value) → List Value → List (CacheItem Key Value) × List Value
  | [], log => ([], log)
  | t :: l, log =>
    if t.getExpiryTime < now then clearout now l (log ++ [t.value]) else (t :: l, log)

def clearoutPoll (now : ℤ) : Cache Key Value :=
  let r := clearout now c.list c.expired
  { c with list := r.1, expired := r.2 }

def expireAll : Cache Key Value :=
  { c with list := [], expired := c.expired ++ c.list.map CacheItem.value }

def removeAll : Cache Key Value :=
  { c with list := [], removed := c.removed ++ c.list.map CacheItem.value }

end Cache

/-- The item that expires first is at the front. -/
def Ordered (l : List (CacheItem Key Value)) : Prop :=
  l.Pairwise fun a b => a.getExpiryTime ≤ b.getExpiryTime

theorem place_perm (t : CacheItem Key Value) (l : List (CacheItem Key Value)) :
    (Cache.place t l).Perm (t :: l) := by
  have h := List.rdropWhile_append_rtakeWhile
    (p := fun x : CacheItem Key Value => decide (¬ x.getExpiryTime < t.getExpiryTime)) (l := l)
  have hmid := @List.perm_middle _ t
    (l.rdropWhile fun x => decide (¬ x.getExpiryTime < t.getExpiryTime))
    (l.rtakeWhile fun x => decide (¬ x.getExpiryTime < t.getExpiryTime))
  rw [h] at hmid
  exact hmid

theorem place_ordered (t : CacheItem Key Value) {l : List (CacheItem Key Value)} (h : Ordered l) :
    Ordered (Cache.place t l) := by
  have hl := List.rdropWhile_append_rtakeWhile
    (p := fun x : CacheItem Key Value => decide (¬ x.getExpiryTime < t.getExpiryTime)) (l := l)
  unfold Cache.place
  generalize hA : (l.rdropWhile fun x => decide (¬ x.getExpiryTime < t.getExpiryTime)) = A at hl
  generalize hB : (l.rtakeWhile fun x => decide (¬ x.getExpiryTime < t.getExpiryTime)) = B at hl
  rw [← hl] at h
  obtain ⟨ha, hb, hab⟩ := List.pairwise_append.mp h
  have hbt : ∀ b ∈ B, t.getExpiryTime ≤ b.getExpiryTime := by
    intro b hmem
    rw [← hB] at hmem
    have hp := List.mem_rtakeWhile_imp hmem
    rw [decide_eq_true_iff] at hp
    omega
  have hat : ∀ a ∈ A, a.getExpiryTime ≤ t.getExpiryTime := by
    intro a hmem
    have hne : A ≠ [] := List.ne_nil_of_mem hmem
    have hlast : ¬ (decide (¬ (A.getLast hne).getExpiryTime < t.getExpiryTime)) = true := by
      subst hA
      exact List.rdropWhile_last_not _ l hne
    rw [decide_eq_true_iff, not_not] at hlast
    rw [← List.dropLast_append_getLast hne] at ha hmem
    rcases List.mem_append.mp hmem with hin | hin
    · have hle := (List.pairwise_append.mp ha).2.2 a hin (A.getLast hne) (by simp)
      omega
    · rw [List.mem_singleton.mp hin]
      omega
  refine List.pairwise_append.mpr ⟨ha, List.pairwise_cons.mpr ⟨hbt, hb⟩, ?_⟩
  intro a hamem x hx
  rcases List.mem_cons.mp hx with rfl | hx
  · exact hat a hamem
  · exact hab a hamem x hx

theorem clearout_eq (now : ℤ) (l : List (CacheItem Key Value)) (log : List Value) :
    Cache.clearout now l log =
      (l.dropWhile (fun t => t.getExpiryTime < now),
        log ++ (l.takeWhile fun t => t.getExpiryTime < now).map CacheItem.value) := by
  induction l generalizing log with
  | nil => simp [Cache.clearout]
  | cons t l ih =>
    by_cases h : t.getExpiryTime < now
    · simp [Cache.clearout, h, ih]
    · simp [Cache.clearout, h]

/-- In a list in order, the items whose time is over are those at the front. -/
theorem takeWhile_of_ordered (now : ℤ) {l : List (CacheItem Key Value)} (h : Ordered l) :
    (l.takeWhile fun t => t.getExpiryTime < now) = l.filter (fun t => t.getExpiryTime < now) ∧
      (l.dropWhile fun t => t.getExpiryTime < now) = l.filter (fun t => now ≤ t.getExpiryTime) := by
  induction l with
  | nil => exact ⟨rfl, rfl⟩
  | cons t l ih =>
    obtain ⟨ht, hl⟩ := List.pairwise_cons.mp h
    obtain ⟨h1, h2⟩ := ih hl
    by_cases hlt : t.getExpiryTime < now
    · have hge : ¬ now ≤ t.getExpiryTime := by omega
      simp [hlt, hge, h1, h2]
    · have hge : now ≤ t.getExpiryTime := by omega
      have hno : l.filter (fun x => x.getExpiryTime < now) = [] := by
        apply List.filter_eq_nil_iff.mpr
        intro x hx
        have hle := ht x hx
        simp only [decide_eq_true_eq]
        omega
      have hall : l.filter (fun x => now ≤ x.getExpiryTime) = l := by
        apply List.filter_eq_self.mpr
        intro x hx
        have hle := ht x hx
        simp only [decide_eq_true_eq]
        omega
      simp [hlt, hge, hno, hall]

/-- The list is in order, and every value that was put in is in it, or given up, or taken out. -/
structure Sound (c : Cache Key Value) : Prop where
  ordered : Ordered c.list
  accounts : (c.list.map CacheItem.value ++ c.expired ++ c.removed).Perm c.inserted

section
variable {c : Cache Key Value}

theorem empty_sound : Sound ({} : Cache Key Value) := ⟨List.Pairwise.nil, List.Perm.nil⟩

theorem insert_sound (h : Sound c) (now : ℤ) (k : Key) (v : Value) : Sound (c.insert now k v) := by
  refine ⟨place_ordered _ h.ordered, ?_⟩
  have h1 := (place_perm (⟨c.timeout, now, k, v⟩ : CacheItem Key Value) c.list).map CacheItem.value
  have h2 := (h1.append_right c.expired).append_right c.removed
  have h3 : (v :: (c.list.map CacheItem.value ++ c.expired ++ c.removed)).Perm (c.inserted ++ [v]) :=
    (h.accounts.cons v).trans (List.perm_append_singleton v c.inserted).symm
  exact h2.trans h3

theorem clearoutPoll_sound (h : Sound c) (now : ℤ) : Sound (c.clearoutPoll now) := by
  unfold Cache.clearoutPoll
  rw [clearout_eq]
  refine ⟨h.ordered.sublist (List.dropWhile_sublist _), List.Perm.trans ?_ h.accounts⟩
  apply List.Perm.append_right
  have hsplit := List.takeWhile_append_dropWhile (p := fun t => decide (t.getExpiryTime < now))
    (l := c.list)
  have hmap := congrArg (List.map CacheItem.value) hsplit
  rw [List.map_append] at hmap
  rw [← hmap, ← List.append_assoc]
  have hcomm := @List.perm_append_comm _
    ((c.list.dropWhile fun t => t.getExpiryTime < now).map CacheItem.value)
    (c.expired ++ (c.list.takeWhile fun t => t.getExpiryTime < now).map CacheItem.value)
  rw [List.append_assoc] at hcomm
  rw [List.append_assoc]
  exact hcomm.trans List.perm_append_comm

theorem expireAll_sound (h : Sound c) : Sound c.expireAll := by
  refine ⟨List.Pairwise.nil, List.Perm.trans ?_ h.accounts⟩
  exact (@List.perm_append_comm _ c.expired (c.list.map CacheItem.value)).append_right c.removed

theorem removeAll_sound (h : Sound c) : Sound c.removeAll := by
  refine ⟨List.Pairwise.nil, List.Perm.trans ?_ h.accounts⟩
  have hcomm := @List.perm_append_comm _ c.expired (c.removed ++ c.list.map CacheItem.value)
  rw [List.append_assoc] at hcomm
  exact hcomm.trans List.perm_append_comm

variable {k : Key} {t u : CacheItem Key Value}

theorem perm_eraseP (p : CacheItem Key Value → Bool) {l : List (CacheItem Key Value)}
    (h : l.find? p = some t) : (t :: l.eraseP p).Perm l := by
  induction l with
  | nil => cases h
  | cons x l ih =>
    by_cases hx : p x
    · rw [List.find?_cons_of_pos hx] at h
      cases h
      rw [List.eraseP_cons_of_pos hx]
    · rw [List.find?_cons_of_neg hx] at h
      rw [List.eraseP_cons_of_neg hx]
      exact (List.Perm.swap x t _).trans ((ih h).cons x)

variable [DecidableEq Key]

theorem erase_perm (h : c.lookup k = some t) : (t :: c.erase k).Perm c.list := perm_eraseP _ h

theorem erase_ordered (h : Sound c) (k : Key) : Ordered (c.erase k) :=
  h.ordered.sublist List.eraseP_sublist

/-- Putting an item back in another place changes nothing in the accounts. -/
theorem place_values (h : c.lookup k = some t) (hu : u.value = t.value) :
    ((Cache.place u (c.erase k)).map CacheItem.value).Perm (c.list.map CacheItem.value) := by
  have h1 := (place_perm u (c.erase k)).map CacheItem.value
  have h2 := (erase_perm h).map CacheItem.value
  rw [List.map_cons, hu] at h1
  exact h1.trans h2

theorem reinsert_sound (h : Sound c) (hk : c.lookup k = some t) (hu : u.value = t.value) :
    Sound { c with list := Cache.place u (c.erase k) } :=
  ⟨place_ordered u (erase_ordered h k),
    (((place_values hk hu).append_right c.expired).append_right c.removed).trans h.accounts⟩

theorem remove_sound (h : Sound c) (k : Key) : Sound (c.remove k) := by
  unfold Cache.remove
  rcases hk : c.lookup k with _ | t
  · exact h
  · refine ⟨erase_ordered h k, List.Perm.trans ?_ h.accounts⟩
    have h1 := (erase_perm hk).map CacheItem.value
    have h2 := (h1.append_right c.expired).append_right c.removed
    refine List.Perm.trans ?_ h2
    simp only [List.map_cons, ← List.append_assoc]
    exact List.perm_append_singleton _ _

theorem refresh_sound (h : Sound c) (k : Key) : Sound (c.refresh k) := by
  unfold Cache.refresh
  rcases hk : c.lookup k with _ | t
  · exact h
  · exact reinsert_sound h hk rfl

theorem setTimeout_sound (h : Sound c) (k : Key) (s : ℕ) : Sound (c.setTimeout k s) := by
  unfold Cache.setTimeout
  rcases hk : c.lookup k with _ | t
  · exact h
  · exact reinsert_sound h hk rfl

end

inductive Op (Key Value : Type*)
  | insert (k : Key) (v : Value) | index (k : Key) | remove (k : Key) | refresh (k : Key)
  | setTimeout (k : Key) (s : ℕ) | setDefaultTimeout (s : ℕ) | clearoutPoll | expireAll | removeAll

variable [DecidableEq Key] [Inhabited Value]

def Cache.step (c : Cache Key Value) (now : ℤ) : Op Key Value → Cache Key Value
  | .insert k v => c.insert now k v
  | .index k => (c.index now k).2
  | .remove k => c.remove k
  | .refresh k => c.refresh k
  | .setTimeout k s => c.setTimeout k s
  | .setDefaultTimeout s => c.setDefaultTimeout s
  | .clearoutPoll => c.clearoutPoll now
  | .expireAll => c.expireAll
  | .removeAll => c.removeAll

def Cache.run (c : Cache Key Value) (ops : List (ℤ × Op Key Value)) : Cache Key Value :=
  ops.foldl (fun c op => c.step op.1 op.2) c

theorem step_sound {c : Cache Key Value} (h : Sound c) (now : ℤ) (op : Op Key Value) :
    Sound (c.step now op) := by
  cases op with
  | insert k v => exact insert_sound h now k v
  | index k =>
    have hindex : c.step now (.index k) = (c.index now k).2 := rfl
    rw [hindex, Cache.index]
    rcases c.lookup k with _ | t
    · exact insert_sound h now k default
    · exact h
  | remove k => exact remove_sound h k
  | refresh k => exact refresh_sound h k
  | setTimeout k s => exact setTimeout_sound h k s
  | setDefaultTimeout s => exact ⟨h.ordered, h.accounts⟩
  | clearoutPoll => exact clearoutPoll_sound h now
  | expireAll => exact expireAll_sound h
  | removeAll => exact removeAll_sound h

theorem run_sound {c : Cache Key Value} (h : Sound c) (ops : List (ℤ × Op Key Value)) :
    Sound (c.run ops) := by
  induction ops generalizing c with
  | nil => exact h
  | cons op ops ih => exact ih (step_sound h op.1 op.2)

/-- After any run of operations, however the clock went, a poll gives up exactly the values whose
time is over, in the order in which they expire, and no value was lost or counted twice. -/
theorem run_clearoutPoll (ops : List (ℤ × Op Key Value)) (now : ℤ) (c : Cache Key Value)
    (hc : c = Cache.run {} ops) :
    Ordered c.list ∧
      (c.clearoutPoll now).expired =
        c.expired ++ (c.list.filter fun t => t.getExpiryTime < now).map CacheItem.value ∧
      (c.clearoutPoll now).list = c.list.filter (fun t => now ≤ t.getExpiryTime) ∧
      ((c.clearoutPoll now).list.map CacheItem.value ++ (c.clearoutPoll now).expired ++
        (c.clearoutPoll now).removed).Perm c.inserted := by
  have hs : Sound c := hc ▸ run_sound empty_sound ops
  obtain ⟨h1, h2⟩ := takeWhile_of_ordered now hs.ordered
  have hpoll : c.clearoutPoll now = { c with
      list := c.list.filter fun t => now ≤ t.getExpiryTime
      expired := c.expired ++ (c.list.filter fun t => t.getExpiryTime < now).map CacheItem.value } := by
    rw [← h1, ← h2, Cache.clearoutPoll, clearout_eq]
  have hacc := (clearoutPoll_sound hs now).accounts
  rw [hpoll] at hacc ⊢
  exact ⟨hs.ordered, rfl, rfl, hacc⟩

/-- After any run of operations, the item that is found under a key is the one that expires
first of all that have the key. -/
theorem run_lookup (ops : List (ℤ × Op Key Value)) (k : Key) (t : CacheItem Key Value)
    (h : (Cache.run {} ops).lookup k = some t) :
    t.key = k ∧ t ∈ (Cache.run {} ops).list ∧
      ∀ u ∈ (Cache.run {} ops).list, u.key = k → t.getExpiryTime ≤ u.getExpiryTime := by
  have hs : Sound (Cache.run ({} : Cache Key Value) ops) := run_sound empty_sound ops
  generalize Cache.run ({} : Cache Key Value) ops = c at h hs
  have hkey : t.key = k := by simpa using List.find?_some h
  refine ⟨hkey, List.mem_of_find?_eq_some h, ?_⟩
  intro u hu huk
  obtain ⟨-, as, bs, hl, has⟩ := List.find?_eq_some_iff_append.mp h
  have hord := hs.ordered
  rw [hl] at hu hord
  rcases List.mem_append.mp hu with hu | hu
  · have hno := has u hu
    simp [huk] at hno
  · rcases List.mem_cons.mp hu with rfl | hu
    · exact le_rfl
    · exact (List.pairwise_cons.mp (List.pairwise_append.mp hord).2.1).1 u hu

/-- Of three replies that are awaited two are given up, and first the one that was put in last. -/
theorem run_clearoutPoll_three :
    ((Cache.run ({} : Cache ℕ ℕ) [(5, .insert 1 10), (6, .setDefaultTimeout 40), (7, .insert 2 20),
      (8, .setDefaultTimeout 30), (9, .insert 3 30)]).clearoutPoll 50).expired = [30, 20] :=
  (run_clearoutPoll [(5, .insert 1 10), (6, .setDefaultTimeout 40), (7, .insert 2 20),
    (8, .setDefaultTimeout 30), (9, .insert 3 30)] 50 _ rfl).2.1.trans (by decide)

/-- Of two items with one key the later one is found, when it is to expire first. -/
theorem run_lookup_two :
    (⟨30, 7, 1, 20⟩ : CacheItem ℕ ℕ) ∈ (Cache.run ({} : Cache ℕ ℕ) [(5, .insert 1 10),
        (6, .setDefaultTimeout 30), (7, .insert 1 20)]).list ∧
      ∀ u ∈ (Cache.run ({} : Cache ℕ ℕ) [(5, .insert 1 10), (6, .setDefaultTimeout 30),
        (7, .insert 1 20)]).list, u.key = 1 → 37 ≤ u.getExpiryTime :=
  (run_lookup [(5, .insert 1 10), (6, .setDefaultTimeout 30), (7, .insert 1 20)] 1
    ⟨30, 7, 1, 20⟩ (by decide)).2

end CenterIM.ExpiryCache

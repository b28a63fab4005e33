import CenterIM.ExchangeSort

/-!
# The linked list of kkconsui

`linkedlist` over a heap of nodes: each operation follows the pointers of the chain as the
class does, and is `none` where it follows a null pointer or one to a deleted node. A list
`Holds` a sequence when its nodes are linked from the first to the last and counted.
-/
namespace CenterIM.LinkedList

abbrev Addr := ℕ

/-- `flinkedlist`. -/
structure Node (α : Type) where
  data : α
  next : Option Addr

/-- The nodes in memory; `none` where there is no node, or no more. -/
abbrev Heap (α : Type) := Addr → Option (Node α)

/-- `linkedlist`. `fresh` is the next address that `new` gives: no address is given twice. -/
structure State (α : Type) where
  heap : Heap α
  fresh : Addr
  flist : Option Addr
  count : ℕ

variable {α σ : Type}

/-- `linkedlist::linkedlist`. -/
def init : State α := ⟨fun _ => none, 0, none, 0⟩

def deref (h : Heap α) (l : Option Addr) : Option (Node α) := l.bind h

def modify (h : Heap α) (l : Option Addr) (f : Node α → Node α) : Option (Heap α) :=
  l.bind fun a => (h a).map fun node => Function.update h a (some (f node))

/-- `delete`. -/
def free (h : Heap α) (l : Option Addr) : Option (Heap α) :=
  l.bind fun a => (h a).map fun _ => Function.update h a none

/-- `for(i = 0; i < n; i++, l = l->next);`. -/
def walk (h : Heap α) : ℕ → Option Addr → Option (Option Addr)
  | 0, l => some l
  | n + 1, l => do
    let node ← deref h l
    walk h n node.next

/-- `linkedlist::add`. -/
def add (s : State α) (p : α) : Option (State α) :=
  let k := s.fresh
  let heap := Function.update s.heap k (some ⟨p, none⟩)
  if s.count = 0 then some ⟨heap, k + 1, some k, s.count + 1⟩
  else do
    let l ← walk heap (s.count - 1) s.flist
    let heap ← modify heap l fun node => { node with next := some k }
    some ⟨heap, k + 1, s.flist, s.count + 1⟩

/-- `linkedlist::insert`. -/
def insert (s : State α) (n : ℤ) (p : α) : Option (State α) :=
  if n ≤ s.count then do
    let k := s.fresh
    let l ← walk s.heap (n - 1).toNat s.flist
    let node ← deref s.heap l
    let heap ← modify (Function.update s.heap k (some node)) l fun _ => ⟨p, some k⟩
    some ⟨heap, k + 1, s.flist, s.count + 1⟩
  else add s p

/-- The loop of `remove`: `n` more steps with `l`, after the last but one of which `pr` is set. -/
def trail (h : Heap α) : ℕ → Option Addr → Option Addr → Option (Option Addr × Option Addr)
  | 0, pr, l => some (pr, l)
  | n + 1, pr, l => do
    let node ← deref h l
    trail h n (if n = 0 then l else pr) node.next

/-- `linkedlist::remove`. -/
def remove (s : State α) (n : ℤ) : Option (State α) :=
  if n < s.count ∧ 0 ≤ n then
    if n = 0 then do
      let node ← deref s.heap s.flist
      let heap ← free s.heap s.flist
      some { s with heap, flist := node.next, count := s.count - 1 }
    else do
      let (pr, l) ← trail s.heap n.toNat none s.flist
      if pr.isSome then do
        let node ← deref s.heap l
        let heap ← modify s.heap pr fun m => { m with next := node.next }
        let heap ← free heap l
        some { s with heap, count := s.count - 1 }
      else some { s with count := s.count - 1 }
  else some s

/-- The loop of `empty`. -/
def emptyLoop : ℕ → Option Addr → Heap α → Option (Heap α)
  | 0, _, h => some h
  | _ + 1, none, h => some h
  | n + 1, some a, h => do
    let node ← h a
    let h ← free h (some a)
    emptyLoop n node.next h

/-- `linkedlist::empty`: `flist` is not touched. -/
def empty (s : State α) : Option (State α) := do
  let heap ← emptyLoop s.count s.flist s.heap
  some { s with heap, count := 0 }

/-- `linkedlist::at`; `null` is the pointer 0. -/
def itemAt (null : α) (s : State α) (n : ℤ) : Option α :=
  if n < s.count ∧ 0 ≤ n ∧ s.flist.isSome then do
    let l ← walk s.heap n.toNat s.flist
    let node ← deref s.heap l
    some node.data
  else some null

/-- One pass of `sort`, with `f` on the chain. -/
def sortPass (compare : α → α → ℤ) : ℕ → Option Addr → Heap α → Option (Heap α)
  | 0, _, _ => none
  | _ + 1, none, h => some h
  | fuel + 1, some f, h => do
    let node ← h f
    match node.next with
    | none => some h
    | some g => do
      let next ← h g
      if 0 < compare next.data node.data then
        let h := Function.update h f (some { node with data := next.data })
        let h := Function.update h g (some { next with data := node.data })
        sortPass compare fuel (some g) h
      else sortPass compare fuel (some g) h

/-- The passes of `sort`. -/
def sortPasses (compare : α → α → ℤ) (s : State α) : ℕ → Heap α → Option (Heap α)
  | 0, h => some h
  | n + 1, h => do
    let h ← sortPass compare (s.fresh + 1) s.flist h
    sortPasses compare s n h

/-- `linkedlist::sort`. -/
def sort (s : State α) (compare : α → α → ℤ) : Option (State α) := do
  let heap ← sortPasses compare s s.count s.heap
  some { s with heap }

section
variable [DecidableEq α]

/-- `linkedlist::replace`. -/
def replace (s : State α) (n : ℤ) (p : α) : Option (State α) :=
  if n < s.count then do
    let l ← walk s.heap n.toNat s.flist
    let node ← deref s.heap l
    if node.data ≠ p then do
      let heap ← modify s.heap l fun node => { node with data := p }
      some { s with heap }
    else some s
  else add s p

/-- The loop of `foreach`; what `exec` does to its argument is passed on. -/
def foreachLoop (null : α) (exec : α → σ → α × σ) (h : Heap α) :
    ℕ → Option Addr → α → σ → Option (α × σ)
  | 0, _, _, _ => none
  | fuel + 1, l, ret, arg =>
    if ret ≠ null then some (ret, arg)
    else
      match l with
      | none => some (ret, arg)
      | some a => do
        let node ← h a
        let r := exec node.data arg
        foreachLoop null exec h fuel node.next r.1 r.2

/-- `linkedlist::foreach`. -/
def foreach (null : α) (s : State α) (exec : α → σ → α × σ) (arg : σ) : Option (α × σ) :=
  foreachLoop null exec s.heap (s.fresh + 1) s.flist null arg

end

/-- The test of `sort` for an exchange. -/
def exchanged (compare : α → α → ℤ) (next cur : α) : Bool := decide (0 < compare next cur)

/-- `exec` applied to the elements until it returns something. -/
def seqForeach [DecidableEq α] (null : α) (exec : α → σ → α × σ) : List α → σ → α × σ
  | [], arg => (null, arg)
  | x :: xs, arg =>
    let r := exec x arg
    if r.1 ≠ null then r else seqForeach null exec xs r.2

/-- The nodes at `as`, with the data `xs`, are linked from `l` to `r`. -/
def Seg (h : Heap α) : Option Addr → List Addr → List α → Option Addr → Prop
  | l, [], [], r => l = r
  | l, a :: as, x :: xs, r => l = some a ∧ ∃ next, h a = some ⟨x, next⟩ ∧ Seg h next as xs r
  | _, _, _, _ => False

variable {h h' : Heap α} {l m r : Option Addr} {as bs : List Addr} {us xs vs : List α}

theorem Seg.length_eq (hs : Seg h l as xs r) : as.length = xs.length := by
  induction as generalizing l xs with
  | nil =>
    cases xs with
    | nil => rfl
    | cons x xs => exact absurd hs (by simp [Seg])
  | cons a as ih =>
    cases xs with
    | nil => exact absurd hs (by simp [Seg])
    | cons x xs =>
      obtain ⟨-, next, -, hrest⟩ := hs
      rw [List.length_cons, List.length_cons, ih hrest]

theorem Seg.frame (hs : Seg h l as xs r) (hf : ∀ a ∈ as, h' a = h a) : Seg h' l as xs r := by
  induction as generalizing l xs with
  | nil =>
    cases xs with
    | nil => exact hs
    | cons x xs => exact absurd hs (by simp [Seg])
  | cons a as ih =>
    cases xs with
    | nil => exact absurd hs (by simp [Seg])
    | cons x xs =>
      obtain ⟨hl, next, ha, hrest⟩ := hs
      refine ⟨hl, next, ?_, ih hrest fun b hb => hf b (by simp [hb])⟩
      rw [hf a (by simp), ha]

theorem Seg.update (hs : Seg h l as xs r) {a : Addr} (ha : a ∉ as) (v : Option (Node α)) :
    Seg (Function.update h a v) l as xs r := by
  apply hs.frame
  intro b hb
  have hne : b ≠ a := fun he => ha (he ▸ hb)
  exact Function.update_of_ne hne ..

theorem Seg.append (hu : Seg h l as us m) (hv : Seg h m bs vs r) :
    Seg h l (as ++ bs) (us ++ vs) r := by
  induction as generalizing l us with
  | nil =>
    cases us with
    | nil =>
      obtain rfl : l = m := hu
      exact hv
    | cons x us => exact absurd hu (by simp [Seg])
  | cons a as ih =>
    cases us with
    | nil => exact absurd hu (by simp [Seg])
    | cons x us =>
      obtain ⟨hl, next, ha, hrest⟩ := hu
      exact ⟨hl, next, ha, ih hrest⟩

theorem Seg.split (hs : Seg h l as (us ++ vs) r) :
    ∃ bs cs m, as = bs ++ cs ∧ Seg h l bs us m ∧ Seg h m cs vs r := by
  induction us generalizing l as with
  | nil => exact ⟨[], as, l, rfl, rfl, hs⟩
  | cons x us ih =>
    cases as with
    | nil => exact absurd hs (by simp [Seg])
    | cons a as =>
      obtain ⟨hl, next, ha, hrest⟩ := hs
      obtain ⟨bs, cs, m, rfl, hu, hv⟩ := ih hrest
      exact ⟨a :: bs, cs, m, rfl, ⟨hl, next, ha, hu⟩, hv⟩

theorem Seg.split_at {x : α} (hs : Seg h l as (us ++ x :: vs) r) :
    ∃ bs a cs next, as = bs ++ a :: cs ∧ Seg h l bs us (some a) ∧ h a = some ⟨x, next⟩ ∧
      Seg h next cs vs r := by
  obtain ⟨bs, cs, m, rfl, hu, hv⟩ := hs.split
  cases cs with
  | nil => exact absurd hv (by simp [Seg])
  | cons a cs =>
    obtain ⟨rfl, next, ha, hrest⟩ := hv
    exact ⟨bs, a, cs, next, rfl, hu, ha, hrest⟩

theorem Seg.live (hs : Seg h l as xs r) {a : Addr} (ha : a ∈ as) : h a ≠ none := by
  induction as generalizing l xs with
  | nil => exact absurd ha (List.not_mem_nil)
  | cons b as ih =>
    cases xs with
    | nil => exact absurd hs (by simp [Seg])
    | cons x xs =>
      obtain ⟨-, next, hb, hrest⟩ := hs
      rcases List.mem_cons.mp ha with rfl | ha
      · simp [hb]
      · exact ih hrest ha

theorem Seg.walk (hs : Seg h l as xs r) : walk h as.length l = some r := by
  induction as generalizing l xs with
  | nil =>
    cases xs with
    | nil => exact congrArg some hs
    | cons x xs => exact absurd hs (by simp [Seg])
  | cons a as ih =>
    cases xs with
    | nil => exact absurd hs (by simp [Seg])
    | cons x xs =>
      obtain ⟨rfl, next, ha, hrest⟩ := hs
      have hd : deref h (some a) = some ⟨x, next⟩ := ha
      rw [List.length_cons, LinkedList.walk, hd]
      exact ih hrest

/-- The loop of `remove` ends with the last node that it has passed. -/
theorem Seg.trail {b : Addr} {pr : Option Addr} (hs : Seg h l (as ++ [b]) xs r) :
    trail h (as.length + 1) pr l = some (some b, r) := by
  induction as generalizing l xs pr with
  | nil =>
    cases xs with
    | nil => exact absurd hs (by simp [Seg])
    | cons x xs =>
      cases xs with
      | cons y xs => exact absurd hs (by simp [Seg])
      | nil =>
        obtain ⟨rfl, next, hb, rfl⟩ := hs
        have hd : deref h (some b) = some ⟨x, next⟩ := hb
        simp [LinkedList.trail, hd]
  | cons a as ih =>
    cases xs with
    | nil => exact absurd hs (by simp [Seg])
    | cons x xs =>
      obtain ⟨rfl, next, ha, hrest⟩ := hs
      have hd : deref h (some a) = some ⟨x, next⟩ := ha
      have hi := @ih _ _ pr hrest
      rw [List.length_cons, LinkedList.trail, hd]
      simpa using hi

theorem modify_some {a : Addr} {node : Node α} (ha : h a = some node) (f : Node α → Node α) :
    modify h (some a) f = some (Function.update h a (some (f node))) := by
  simp [modify, ha]

theorem free_some {a : Addr} {node : Node α} (ha : h a = some node) :
    free h (some a) = some (Function.update h a none) := by
  simp [free, ha]

/-- The chain of nodes from the first one has `count` nodes, and holds `xs`. -/
def Chain (s : State α) (xs : List α) : Prop :=
  s.count = xs.length ∧ ∃ as : List Addr, as.Nodup ∧ Seg s.heap s.flist as xs none

def Bounded (s : State α) : Prop := ∀ a, s.fresh ≤ a → s.heap a = none

/-- `empty` has deleted the first node, and `flist` still points to it. -/
structure Emptied (s : State α) : Prop where
  count : s.count = 0
  bounded : Bounded s
  flist : ∃ a, s.flist = some a ∧ s.heap a = none

structure Holds (s : State α) (xs : List α) : Prop where
  bounded : Bounded s
  chain : Chain s xs

variable {s : State α}

theorem init_holds : Holds (init : State α) [] := ⟨fun _ _ => rfl, rfl, [], List.nodup_nil, rfl⟩

theorem Bounded.lt (hb : Bounded s) {a : Addr} {node : Node α} (ha : s.heap a = some node) :
    a < s.fresh := by
  by_contra hlt
  have hnone := hb a (not_lt.mp hlt)
  rw [ha] at hnone
  exact absurd hnone (by simp)

theorem Bounded.fresh_not_mem (hb : Bounded s) (hs : Seg s.heap l as xs r) : s.fresh ∉ as :=
  fun hm => hs.live hm (hb _ le_rfl)

theorem Bounded.update (hb : Bounded s) {s' : State α} {a : Addr} {v : Option (Node α)}
    (hheap : s'.heap = Function.update s.heap a v) (hfresh : s.fresh ≤ s'.fresh)
    (ha : a < s'.fresh) : Bounded s' := by
  intro b hle
  rw [hheap, Function.update_of_ne (ne_of_gt (lt_of_lt_of_le ha hle))]
  exact hb b (le_trans hfresh hle)

theorem add_zero (hb : Bounded s) (hc : s.count = 0) (p : α) :
    ∃ s', add s p = some s' ∧ Holds s' [p] := by
  refine ⟨_, if_pos hc, ?_, by simp [hc], [s.fresh], List.nodup_singleton _, ?_⟩
  · exact hb.update rfl (Nat.le_succ _) (Nat.lt_succ_self _)
  · exact ⟨rfl, none, Function.update_self .., rfl⟩

theorem add_holds (hs : Holds s xs) (p : α) : ∃ s', add s p = some s' ∧ Holds s' (xs ++ [p]) := by
  obtain ⟨hb, hcount, as, hnd, hseg⟩ := hs
  rcases xs.eq_nil_or_concat' with rfl | ⟨us, x, rfl⟩
  · exact add_zero hb hcount p
  · obtain ⟨bs, a, cs, next, rfl, hu, ha, hnext⟩ := hseg.split_at
    have hcs : cs = [] := List.length_eq_zero_iff.mp hnext.length_eq
    subst hcs
    obtain rfl : next = none := hnext
    have hk := hb.fresh_not_mem hseg
    have hka : a ≠ s.fresh := fun he => hk (by simp [he])
    have hkb : s.fresh ∉ bs := fun hm => hk (by simp [hm])
    have hab : a ∉ bs := by simpa using (List.nodup_cons.mp (List.nodup_middle.mp hnd)).1
    let heap := Function.update s.heap s.fresh (some ⟨p, none⟩)
    have hu' : Seg heap s.flist bs us (some a) := hu.update hkb _
    have ha' : heap a = some ⟨x, none⟩ := (Function.update_of_ne hka ..).trans ha
    have hlen : s.count - 1 = bs.length := by
      rw [hcount, hu.length_eq]
      simp
    have hadd : add s p = some ⟨Function.update heap a (some ⟨x, some s.fresh⟩), s.fresh + 1,
        s.flist, s.count + 1⟩ := by
      rw [add, if_neg (by simp [hcount]), hlen]
      simp only [hu'.walk, modify_some ha', heap, Option.bind_eq_bind, Option.bind_some]
    have hlast : Function.update heap a (some ⟨x, some s.fresh⟩) s.fresh = some ⟨p, none⟩ :=
      (Function.update_of_ne (Ne.symm hka) ..).trans (Function.update_self ..)
    have hb' : Bounded (⟨heap, s.fresh + 1, s.flist, s.count⟩ : State α) :=
      hb.update rfl (Nat.le_succ _) (Nat.lt_succ_self _)
    refine ⟨_, hadd, hb'.update rfl le_rfl (hb'.lt ha'), by simp [hcount],
      bs ++ a :: [s.fresh], ?_, ?_⟩
    · rw [← List.singleton_append, ← List.append_assoc, List.nodup_middle, List.append_nil]
      exact List.nodup_cons.mpr ⟨hk, hnd⟩
    · rw [List.append_assoc]
      refine (hu'.update hab _).append ⟨rfl, some s.fresh, Function.update_self .., ?_⟩
      exact ⟨rfl, none, hlast, rfl⟩

theorem exists_split {i : ℕ} (hi : i < xs.length) :
    ∃ us x vs, xs = us ++ x :: vs ∧ us.length = i := by
  refine ⟨xs.take i, xs[i], xs.drop (i + 1), by simp, ?_⟩
  rw [List.length_take]
  omega

theorem insertIdx_append (us : List α) (p x : α) (vs : List α) :
    (us ++ x :: vs).insertIdx us.length p = us ++ p :: x :: vs := by
  induction us with
  | nil => rfl
  | cons y us ih => simpa using ih

/-- `insert` before the element `x`: its node gets the new data, and a new node its own. -/
theorem insert_at {x : α} (hs : Holds s (us ++ x :: vs)) (p : α) :
    ∃ s', insert s (us.length + 1) p = some s' ∧ Holds s' (us ++ p :: x :: vs) := by
  obtain ⟨hb, hcount, as, hnd, hseg⟩ := hs
  obtain ⟨bs, a, cs, next, rfl, hu, ha, hv⟩ := hseg.split_at
  have hk := hb.fresh_not_mem hseg
  have hka : a ≠ s.fresh := fun he => hk (by simp [he])
  have hab : a ∉ bs ++ cs := (List.nodup_cons.mp (List.nodup_middle.mp hnd)).1
  have hbk : s.fresh ∉ bs := fun hm => hk (by simp [hm])
  have hck : s.fresh ∉ cs := fun hm => hk (by simp [hm])
  let heap := Function.update s.heap s.fresh (some ⟨x, next⟩)
  have hd : deref s.heap (some a) = some ⟨x, next⟩ := ha
  have ha' : heap a = some ⟨x, next⟩ := (Function.update_of_ne hka ..).trans ha
  have hle : (us.length + 1 : ℤ) ≤ s.count := by
    rw [hcount, List.length_append, List.length_cons]
    omega
  have hsteps : (us.length + 1 - 1 : ℤ).toNat = bs.length := by
    rw [hu.length_eq]
    omega
  have hins : insert s (us.length + 1) p = some ⟨Function.update heap a (some ⟨p, some s.fresh⟩),
      s.fresh + 1, s.flist, s.count + 1⟩ := by
    rw [insert, if_pos hle, hsteps]
    simp only [hu.walk, hd, modify_some ha', heap, Option.bind_eq_bind, Option.bind_some]
  have hnew : Function.update heap a (some ⟨p, some s.fresh⟩) s.fresh = some ⟨x, next⟩ :=
    (Function.update_of_ne (Ne.symm hka) ..).trans (Function.update_self ..)
  have hb' : Bounded (⟨heap, s.fresh + 1, s.flist, s.count⟩ : State α) :=
    hb.update rfl (Nat.le_succ _) (Nat.lt_succ_self _)
  refine ⟨_, hins, hb'.update rfl le_rfl (hb'.lt ha'), ?_, bs ++ a :: s.fresh :: cs, ?_, ?_⟩
  · simp only [hcount, List.length_append, List.length_cons]
    omega
  · have hperm : (bs ++ a :: s.fresh :: cs).Perm (s.fresh :: (bs ++ a :: cs)) := by
      have hmiddle := @List.perm_middle Addr s.fresh (bs ++ [a]) cs
      rwa [List.append_assoc, List.append_assoc] at hmiddle
    exact hperm.nodup_iff.mpr (List.nodup_cons.mpr ⟨hk, hnd⟩)
  · refine ((hu.update hbk _).update (fun hm => hab (by simp [hm])) _).append
      ⟨rfl, some s.fresh, Function.update_self .., rfl, next, hnew, ?_⟩
    exact (hv.update hck _).update (fun hm => hab (by simp [hm])) _

theorem insert_holds (hs : Holds s xs) {n : ℤ} (hn : 1 ≤ n) (p : α) :
    ∃ s', insert s n p = some s' ∧ Holds s' (xs.insertIdx (min (n.toNat - 1) xs.length) p) := by
  have hcount := hs.chain.1
  by_cases hle : n ≤ s.count
  · obtain ⟨us, x, vs, rfl, hlen⟩ := @exists_split α xs (n.toNat - 1) (by omega)
    have hmin : min (n.toNat - 1) (us ++ x :: vs).length = us.length := by
      rw [hlen, List.length_append, List.length_cons]
      omega
    obtain rfl : n = us.length + 1 := by omega
    rw [hmin, insertIdx_append]
    exact insert_at hs p
  · obtain ⟨s', hadd, hs'⟩ := add_holds hs p
    have hmin : min (n.toNat - 1) xs.length = xs.length := by omega
    rw [hmin, List.insertIdx_length_self]
    exact ⟨s', by rw [insert, if_neg hle, hadd], hs'⟩

theorem remove_first {x : α} (hs : Holds s (x :: xs)) :
    ∃ s', remove s 0 = some s' ∧ Holds s' xs := by
  obtain ⟨hb, hcount, as, hnd, hseg⟩ := hs
  cases as with
  | nil => exact absurd hseg (by simp [Seg])
  | cons a as =>
    obtain ⟨hl, next, ha, hrest⟩ := hseg
    have hd : deref s.heap (some a) = some ⟨x, next⟩ := ha
    have hna := List.nodup_cons.mp hnd
    have hrem : remove s 0 = some ⟨Function.update s.heap a none, s.fresh, next, s.count - 1⟩ := by
      rw [remove, if_pos (by simp [hcount]), if_pos rfl, hl]
      simp only [hd, free_some ha, Option.bind_eq_bind, Option.bind_some]
    refine ⟨_, hrem, hb.update rfl le_rfl (hb.lt ha), by simp [hcount], as, hna.2, ?_⟩
    exact hrest.update hna.1 _

/-- `remove` of the element `x`: the node before it is linked to the node after it. -/
theorem remove_at {y x : α} (hs : Holds s (us ++ y :: x :: vs)) :
    ∃ s', remove s (us.length + 1) = some s' ∧ Holds s' (us ++ y :: vs) := by
  obtain ⟨hb, hcount, as, hnd, hseg⟩ := hs
  obtain ⟨bs, b, ds, m, rfl, hu, hbn, hrest⟩ := hseg.split_at
  cases ds with
  | nil => exact absurd hrest (by simp [Seg])
  | cons a cs =>
    obtain ⟨rfl, next, ha, hv⟩ := hrest
    have hnb := List.nodup_cons.mp (List.nodup_middle.mp hnd)
    have hna := List.nodup_cons.mp (List.nodup_middle.mp hnb.2)
    have hba : b ≠ a := fun he => hnb.1 (by simp [he])
    have hbs : b ∉ bs ∧ b ∉ cs := by
      simpa [hba] using hnb.1
    have has : a ∉ bs ∧ a ∉ cs := by simpa using hna.1
    have hpr : Seg s.heap s.flist (bs ++ [b]) (us ++ [y]) (some a) :=
      hu.append ⟨rfl, some a, hbn, rfl⟩
    have hin : (us.length + 1 : ℤ) < s.count ∧ (0 : ℤ) ≤ us.length + 1 := by
      rw [hcount, List.length_append, List.length_cons, List.length_cons]
      omega
    have hsteps : (us.length + 1 : ℤ).toNat = bs.length + 1 := by
      rw [hu.length_eq]
      omega
    have hd : deref s.heap (some a) = some ⟨x, next⟩ := ha
    let heap := Function.update s.heap b (some ⟨y, next⟩)
    have ha' : heap a = some ⟨x, next⟩ := (Function.update_of_ne (Ne.symm hba) ..).trans ha
    have hb₂ : Function.update heap a none b = some ⟨y, next⟩ :=
      (Function.update_of_ne hba ..).trans (Function.update_self ..)
    have hrem : remove s (us.length + 1) = some ⟨Function.update heap a none, s.fresh, s.flist,
        s.count - 1⟩ := by
      rw [remove, if_pos hin, if_neg (by omega), hsteps, hpr.trail]
      simp only [hd, modify_some hbn, free_some ha', heap, Option.bind_eq_bind, Option.bind_some,
        Option.isSome_some, if_true]
    have hb' : Bounded (⟨heap, s.fresh, s.flist, s.count⟩ : State α) :=
      hb.update rfl le_rfl (hb.lt hbn)
    refine ⟨_, hrem, hb'.update rfl le_rfl (hb'.lt ha'), by simp [hcount], bs ++ b :: cs, ?_, ?_⟩
    · exact List.nodup_middle.mpr (List.nodup_cons.mpr ⟨by simpa using hbs, hna.2⟩)
    · refine ((hu.update hbs.1 _).update has.1 _).append ⟨rfl, next, hb₂, ?_⟩
      exact (hv.update hbs.2 _).update has.2 _

theorem remove_holds (hs : Holds s xs) (n : ℤ) :
    ∃ s', remove s n = some s' ∧ Holds s' (if 0 ≤ n then xs.eraseIdx n.toNat else xs) := by
  have hcount := hs.chain.1
  by_cases hn : n < s.count ∧ 0 ≤ n
  · rw [if_pos hn.2]
    obtain ⟨us, x, vs, rfl, hlen⟩ := @exists_split α xs n.toNat (by omega)
    have herase : (us ++ x :: vs).eraseIdx n.toNat = us ++ vs := by
      rw [← hlen, List.eraseIdx_append_of_length_le le_rfl]
      simp
    rw [herase]
    rcases us.eq_nil_or_concat' with rfl | ⟨us, y, rfl⟩
    · obtain rfl : n = 0 := by simp at hlen; omega
      exact remove_first hs
    · obtain rfl : n = us.length + 1 := by simp at hlen; omega
      rw [List.append_assoc] at hs ⊢
      exact remove_at hs
  · refine ⟨s, by rw [remove, if_neg hn], ?_⟩
    have hsame : (if 0 ≤ n then xs.eraseIdx n.toNat else xs) = xs := by
      split_ifs with h0
      · exact List.eraseIdx_of_length_le (by omega)
      · rfl
    rwa [hsame]

theorem Seg.emptyLoop (hs : Seg h l as xs r) (hnd : as.Nodup) :
    ∃ h', emptyLoop as.length l h = some h' ∧ (∀ a ∈ as, h' a = none) ∧ ∀ a ∉ as, h' a = h a := by
  induction as generalizing h l xs with
  | nil => exact ⟨h, rfl, by simp, fun _ _ => rfl⟩
  | cons a as ih =>
    cases xs with
    | nil => exact absurd hs (by simp [Seg])
    | cons x xs =>
      obtain ⟨rfl, next, ha, hrest⟩ := hs
      have hna := List.nodup_cons.mp hnd
      obtain ⟨h', hloop, hnone, hsame⟩ := ih (hrest.update hna.1 none) hna.2
      refine ⟨h', ?_, ?_, ?_⟩
      · simp only [List.length_cons, LinkedList.emptyLoop, ha, free_some ha, hloop,
          Option.bind_eq_bind, Option.bind_some]
      · intro b hb
        rcases List.mem_cons.mp hb with rfl | hb
        · rw [hsame _ hna.1, Function.update_self]
        · exact hnone b hb
      · intro b hb
        simp only [List.mem_cons, not_or] at hb
        rw [hsame b hb.2, Function.update_of_ne hb.1]

/-- `empty` deletes the nodes, and leaves the pointer to the first one. -/
theorem empty_holds (hs : Holds s xs) :
    ∃ s', empty s = some s' ∧ (xs = [] → Holds s' []) ∧ (xs ≠ [] → Emptied s') := by
  obtain ⟨hb, hcount, as, hnd, hseg⟩ := hs
  obtain ⟨heap, hloop, hnone, hsame⟩ := hseg.emptyLoop hnd
  have hempty : empty s = some ⟨heap, s.fresh, s.flist, 0⟩ := by
    rw [empty, hcount, ← hseg.length_eq, hloop]
    rfl
  have hb' : Bounded (⟨heap, s.fresh, s.flist, 0⟩ : State α) := by
    intro a ha
    by_cases hm : a ∈ as
    · exact hnone a hm
    · exact (hsame a hm).trans (hb a ha)
  refine ⟨_, hempty, ?_, ?_⟩
  · rintro rfl
    obtain rfl : as = [] := List.length_eq_zero_iff.mp hseg.length_eq
    exact ⟨hb', rfl, [], List.nodup_nil, hseg⟩
  · intro hne
    cases as with
    | nil => exact absurd (List.length_eq_zero_iff.mp hseg.length_eq.symm) hne
    | cons a as =>
      cases xs with
      | nil => exact absurd rfl hne
      | cons x xs => exact ⟨rfl, hb', a, hseg.1, hnone a (by simp)⟩

theorem itemAt_holds (null : α) (hs : Holds s xs) (n : ℤ) :
    itemAt null s n = some (if 0 ≤ n then xs.getD n.toNat null else null) := by
  obtain ⟨-, hcount, as, -, hseg⟩ := hs
  by_cases hn : n < s.count ∧ 0 ≤ n
  · obtain ⟨us, x, vs, rfl, hlen⟩ := @exists_split α xs n.toNat (by omega)
    obtain ⟨bs, a, cs, next, rfl, hu, ha, -⟩ := hseg.split_at
    have hd : deref s.heap (some a) = some ⟨x, next⟩ := ha
    have hfirst : s.flist.isSome := by
      cases bs with
      | nil =>
        cases us with
        | nil =>
          have hl : s.flist = some a := hu
          rw [hl]
          rfl
        | cons y us => exact absurd hu (by simp [Seg])
      | cons b bs =>
        cases us with
        | nil => exact absurd hu (by simp [Seg])
        | cons y us =>
          rw [hu.1]
          rfl
    have hget : (us ++ x :: vs).getD n.toNat null = x := by
      rw [← hlen, List.getD_eq_getElem?_getD]
      simp
    rw [itemAt, if_pos ⟨hn.1, hn.2, hfirst⟩, if_pos hn.2, hget, ← hlen, ← hu.length_eq]
    simp only [hu.walk, hd, Option.bind_eq_bind, Option.bind_some]
  · rw [itemAt, if_neg fun hc => hn ⟨hc.1, hc.2.1⟩]
    split_ifs with h0
    · rw [List.getD_eq_default _ _ (by omega)]
    · rfl

theorem Bounded.length_le (hb : Bounded s) (hs : Seg s.heap l as xs r) (hnd : as.Nodup) :
    as.length ≤ s.fresh := by
  have hsub : as.toFinset ⊆ Finset.range s.fresh := by
    intro a ha
    apply Finset.mem_range.mpr
    by_contra hlt
    exact hs.live (List.mem_toFinset.mp ha) (hb a (not_lt.mp hlt))
  have hcard := Finset.card_le_card hsub
  rwa [List.toFinset_card_of_nodup hnd, Finset.card_range] at hcard

theorem Seg.sortPass (compare : α → α → ℤ) {a : Addr} {x : α} {fuel : ℕ}
    (hs : Seg h (some a) (a :: as) (x :: xs) none) (hnd : (a :: as).Nodup)
    (hf : as.length < fuel) :
    ∃ h', sortPass compare fuel (some a) h = some h' ∧
      Seg h' (some a) (a :: as) (ExchangeSort.passFrom (exchanged compare) x xs) none ∧
      ∀ b ∉ a :: as, h' b = h b := by
  induction as generalizing a x xs h fuel with
  | nil =>
    obtain ⟨fuel, rfl⟩ : ∃ m, fuel = m + 1 := ⟨fuel - 1, by simp at hf; omega⟩
    obtain ⟨-, next, ha, hrest⟩ := hs
    cases xs with
    | cons y xs => exact absurd hrest (by simp [Seg])
    | nil =>
      obtain rfl : next = none := hrest
      refine ⟨h, ?_, ⟨rfl, none, ha, rfl⟩, fun _ _ => rfl⟩
      simp only [LinkedList.sortPass, ha, Option.bind_eq_bind, Option.bind_some]
  | cons b as ih =>
    obtain ⟨fuel, rfl⟩ : ∃ m, fuel = m + 1 := ⟨fuel - 1, by simp at hf; omega⟩
    obtain ⟨-, next, ha, hrest⟩ := hs
    cases xs with
    | nil => exact absurd hrest (by simp [Seg])
    | cons y xs =>
      obtain ⟨rfl, next, hb, hrest⟩ := hrest
      obtain ⟨hna, hndb⟩ := List.nodup_cons.mp hnd
      have hnb := (List.nodup_cons.mp hndb).1
      have hab : a ≠ b := fun he => hna (by simp [he])
      by_cases hc : 0 < compare y x
      · -- the data of the two nodes is exchanged, and `x` is carried on
        let h₁ := Function.update h a (some ⟨y, some b⟩)
        let h₂ := Function.update h₁ b (some ⟨x, next⟩)
        have hseg : Seg h₂ (some b) (b :: as) (x :: xs) none := by
          refine ⟨rfl, next, Function.update_self .., ?_⟩
          exact (hrest.update (fun hm => hna (by simp [hm])) _).update hnb _
        obtain ⟨h', hpass, hseg', hsame⟩ := ih hseg hndb (by simpa using hf)
        have ha' : h' a = some ⟨y, some b⟩ := by
          rw [hsame a hna]
          exact (Function.update_of_ne hab ..).trans (Function.update_self ..)
        refine ⟨h', ?_, ?_, ?_⟩
        · simp only [LinkedList.sortPass, ha, hb, hc, if_true, Option.bind_eq_bind,
            Option.bind_some]
          exact hpass
        · have hex : exchanged compare y x = true := decide_eq_true hc
          rw [ExchangeSort.passFrom, if_pos hex]
          exact ⟨rfl, some b, ha', hseg'⟩
        · intro c hm
          simp only [List.mem_cons, not_or] at hm
          rw [hsame c (by simp [hm.2.1, hm.2.2])]
          exact (Function.update_of_ne hm.2.1 ..).trans (Function.update_of_ne hm.1 ..)
      · obtain ⟨h', hpass, hseg', hsame⟩ := ih ⟨rfl, next, hb, hrest⟩ hndb (by simpa using hf)
        refine ⟨h', ?_, ?_, ?_⟩
        · simp only [LinkedList.sortPass, ha, hb, hc, if_false, Option.bind_eq_bind,
            Option.bind_some]
          exact hpass
        · rw [ExchangeSort.passFrom, if_neg (by simpa [exchanged] using hc)]
          exact ⟨rfl, some b, (hsame a hna).trans ha, hseg'⟩
        · intro c hm
          exact hsame c fun hc => hm (List.mem_cons_of_mem _ hc)

theorem Seg.pass (compare : α → α → ℤ) {fuel : ℕ} (hs : Seg h l as xs none) (hnd : as.Nodup)
    (hf : as.length < fuel) :
    ∃ h', LinkedList.sortPass compare fuel l h = some h' ∧
      Seg h' l as (ExchangeSort.pass (exchanged compare) xs) none ∧ ∀ b ∉ as, h' b = h b := by
  cases as with
  | nil =>
    obtain ⟨fuel, rfl⟩ : ∃ m, fuel = m + 1 := ⟨fuel - 1, by simp at hf; omega⟩
    cases xs with
    | cons x xs => exact absurd hs (by simp [Seg])
    | nil =>
      obtain rfl : l = none := hs
      exact ⟨h, rfl, rfl, fun _ _ => rfl⟩
  | cons a as =>
    cases xs with
    | nil => exact absurd hs (by simp [Seg])
    | cons x xs =>
      obtain rfl : l = some a := hs.1
      exact hs.sortPass compare hnd (by simp at hf; omega)

theorem sortPasses_holds (compare : α → α → ℤ) (s : State α) (n : ℕ)
    (hs : Seg h s.flist as xs none) (hnd : as.Nodup) (hf : as.length ≤ s.fresh) :
    ∃ h', sortPasses compare s n h = some h' ∧
      Seg h' s.flist as ((ExchangeSort.pass (exchanged compare))^[n] xs) none ∧
      ∀ b ∉ as, h' b = h b := by
  induction n generalizing h xs with
  | zero => exact ⟨h, rfl, hs, fun _ _ => rfl⟩
  | succ n ih =>
    obtain ⟨h₁, hpass, hseg, hsame⟩ := hs.pass compare hnd (Nat.lt_succ_of_le hf)
    obtain ⟨h₂, hpasses, hseg', hsame'⟩ := ih hseg
    refine ⟨h₂, ?_, hseg', fun b hb => (hsame' b hb).trans (hsame b hb)⟩
    simp only [sortPasses, hpass, hpasses, Option.bind_eq_bind, Option.bind_some]

theorem sort_holds (hs : Holds s xs) (compare : α → α → ℤ) :
    ∃ s', sort s compare = some s' ∧
      Holds s' (ExchangeSort.sort (exchanged compare) xs) := by
  obtain ⟨hb, hcount, as, hnd, hseg⟩ := hs
  have hle := hb.length_le hseg hnd
  obtain ⟨heap, hpasses, hseg', hsame⟩ := sortPasses_holds compare s s.count hseg hnd hle
  have hsort : sort s compare = some { s with heap } := by
    simp only [sort, hpasses, Option.bind_eq_bind, Option.bind_some]
  have hperm := ExchangeSort.sort_perm (exchanged compare) xs
  refine ⟨_, hsort, ?_, hcount.trans hperm.length_eq.symm, as, hnd, ?_⟩
  · intro a ha
    have hna : a ∉ as := fun hm => hseg.live hm (hb a ha)
    exact (hsame a hna).trans (hb a ha)
  · rw [ExchangeSort.sort, ← hcount]
    exact hseg'

section
variable [DecidableEq α]

theorem replace_at {x : α} (hs : Holds s (us ++ x :: vs)) {n : ℤ} (hn : n < s.count)
    (hlen : us.length = n.toNat) (p : α) :
    ∃ s', replace s n p = some s' ∧ Holds s' (us ++ p :: vs) := by
  obtain ⟨hb, hcount, as, hnd, hseg⟩ := hs
  obtain ⟨bs, a, cs, next, rfl, hu, ha, hv⟩ := hseg.split_at
  have hab := (List.nodup_cons.mp (List.nodup_middle.mp hnd)).1
  have hd : deref s.heap (some a) = some ⟨x, next⟩ := ha
  have hwalk : walk s.heap n.toNat s.flist = some (some a) := by
    rw [← hlen, ← hu.length_eq, hu.walk]
  by_cases hp : x = p
  · subst hp
    refine ⟨s, ?_, hb, hcount, _, hnd, hseg⟩
    simp [replace, hn, hwalk, hd]
  · have hrep : replace s n p = some { s with
        heap := Function.update s.heap a (some ⟨p, next⟩) } := by
      simp [replace, hn, hwalk, hd, hp, modify_some ha]
    refine ⟨_, hrep, hb.update rfl le_rfl (hb.lt ha), by simp [hcount], _, hnd, ?_⟩
    refine (hu.update (fun hm => hab (by simp [hm])) _).append
      ⟨rfl, next, Function.update_self .., ?_⟩
    exact hv.update (fun hm => hab (by simp [hm])) _

theorem replace_holds (hs : Holds s xs) {n : ℤ} (hn : 0 ≤ n ∨ xs ≠ []) (p : α) :
    ∃ s', replace s n p = some s' ∧
      Holds s' (if n < xs.length then xs.set n.toNat p else xs ++ [p]) := by
  have hcount := hs.chain.1
  by_cases hlt : n < s.count
  · have hi : n.toNat < xs.length := by
      rcases hn with h0 | hne
      · omega
      · have hpos := List.length_pos_iff.mpr hne
        omega
    obtain ⟨us, x, vs, rfl, hlen⟩ := @exists_split α xs n.toNat hi
    have hset : (us ++ x :: vs).set n.toNat p = us ++ p :: vs := by
      rw [← hlen, List.set_append_right _ _ le_rfl]
      simp
    rw [← hcount, if_pos hlt, hset]
    exact replace_at hs hlt hlen p
  · obtain ⟨s', hadd, hs'⟩ := add_holds hs p
    rw [← hcount, if_neg hlt]
    exact ⟨s', by rw [replace, if_neg hlt, hadd], hs'⟩

theorem Seg.foreachLoop (null : α) (exec : α → σ → α × σ) {fuel : ℕ} (hs : Seg h l as xs none)
    (hf : as.length < fuel) (arg : σ) :
    foreachLoop null exec h fuel l null arg = some (seqForeach null exec xs arg) := by
  induction as generalizing l xs fuel arg with
  | nil =>
    obtain ⟨fuel, rfl⟩ : ∃ m, fuel = m + 1 := ⟨fuel - 1, by simp at hf; omega⟩
    cases xs with
    | nil =>
      obtain rfl : l = none := hs
      simp [LinkedList.foreachLoop, seqForeach]
    | cons x xs => exact absurd hs (by simp [Seg])
  | cons a as ih =>
    obtain ⟨fuel, rfl⟩ : ∃ m, fuel = m + 2 := ⟨fuel - 2, by simp at hf; omega⟩
    cases xs with
    | nil => exact absurd hs (by simp [Seg])
    | cons x xs =>
      obtain ⟨rfl, next, ha, hrest⟩ := hs
      rw [seqForeach, LinkedList.foreachLoop, if_neg (by simp)]
      simp only [ha, Option.bind_eq_bind, Option.bind_some]
      by_cases hr : (exec x arg).1 = null
      · rw [if_neg (by simp [hr]), hr]
        exact ih hrest (by simpa using hf) _
      · rw [if_pos hr, LinkedList.foreachLoop.eq_def]
        exact if_pos hr

theorem foreach_holds (null : α) (hs : Holds s xs) (exec : α → σ → α × σ) (arg : σ) :
    foreach null s exec arg = some (seqForeach null exec xs arg) := by
  obtain ⟨hb, -, as, hnd, hseg⟩ := hs
  exact hseg.foreachLoop null exec (Nat.lt_succ_of_le (hb.length_le hseg hnd)) arg

end

theorem Emptied.sort (he : Emptied s) (compare : α → α → ℤ) : sort s compare = some s := by
  obtain ⟨heap, fresh, flist, count⟩ := s
  obtain rfl : count = 0 := he.count
  rfl

theorem Emptied.empty (he : Emptied s) : empty s = some s := by
  obtain ⟨heap, fresh, flist, count⟩ := s
  obtain rfl : count = 0 := he.count
  rfl

theorem Emptied.not_chain (he : Emptied s) : ¬ Chain s [] := by
  rintro ⟨-, as, -, hseg⟩
  obtain rfl : as = [] := List.length_eq_zero_iff.mp hseg.length_eq
  obtain ⟨a, hl, -⟩ := he.flist
  have hnone : s.flist = none := hseg
  rw [hl] at hnone
  exact absurd hnone (by simp)

/-- What the state is for the sequence: its chain, or the deleted nodes of an emptied list. -/
def Rep (s : State α) (xs : List α) : Bool → Prop
  | false => Holds s xs
  | true => Emptied s ∧ xs = []

/-- `sort` is a stable sorting function. -/
theorem sort_stable {compare : α → α → ℤ}
    (hanti : ∀ a b, (compare a b).sign = -(compare b a).sign)
    (htrans : ∀ a b c, compare a b ≤ 0 → compare b c ≤ 0 → compare a c ≤ 0)
    {emptied : Bool} (hs : Rep s xs emptied) :
    ∃ s' ys, sort s compare = some s' ∧ Rep s' ys emptied ∧ ys.Perm xs ∧
      ys.Pairwise (fun x y => compare y x ≤ 0) ∧
      ∀ x, ys.filter (fun y => compare x y = 0) = xs.filter (fun y => compare x y = 0) := by
  cases emptied with
  | true =>
    obtain ⟨hempty, rfl⟩ := hs
    exact ⟨s, [], hempty.sort compare, ⟨hempty, rfl⟩, .refl _, .nil, fun _ => rfl⟩
  | false =>
    have hflip : ∀ a b, 0 < compare a b ↔ compare b a < 0 := by
      intro a b
      rw [← Int.sign_eq_one_iff_pos, ← Int.sign_eq_neg_one_iff_neg, hanti a b]
      omega
    have hpre : ExchangeSort.Preordered (exchanged compare) := by
      constructor
      · intro a b h
        have hlt := (hflip b a).mp (of_decide_eq_true h)
        exact decide_eq_false (by omega)
      · intro a b c hba hcb
        have hle := htrans c b a (by simpa [exchanged] using hcb) (by simpa [exchanged] using hba)
        exact decide_eq_false (by omega)
    obtain ⟨s', hsort, hs'⟩ := sort_holds hs compare
    refine ⟨s', _, hsort, hs', ExchangeSort.sort_perm _ _, ?_, ?_⟩
    · apply (ExchangeSort.sort_sorted hpre xs).imp
      intro a b hab
      simpa [exchanged] using hab
    · intro x
      apply ExchangeSort.sort_filter
      intro a b ha hb
      -- elements equal to the same one are equal to each other
      have hxa : compare x a = 0 := of_decide_eq_true ha
      have hxb : compare x b = 0 := of_decide_eq_true hb
      have hax : compare a x ≤ 0 := by
        have h := hflip a x
        omega
      have hle := htrans a x b hax (by omega)
      exact decide_eq_false (by omega)

theorem sort_stable_three :
    ∃ s s' : State ℤ, ∃ ys, sort s (fun a b => b % 10 - a % 10) = some s' ∧ Rep s' ys false ∧
      ys.Perm [12, 1, 22] ∧ ys.Pairwise (fun x y => x % 10 - y % 10 ≤ 0) ∧
      ∀ x, ys.filter (fun y => y % 10 - x % 10 = 0) =
        [12, 1, 22].filter (fun y : ℤ => y % 10 - x % 10 = 0) := by
  obtain ⟨s₁, -, h₁⟩ := add_holds (init_holds : Holds (init : State ℤ) []) 12
  obtain ⟨s₂, -, h₂⟩ := add_holds h₁ 1
  obtain ⟨s₃, -, h₃⟩ := add_holds h₂ 22
  have hrep : Rep s₃ [12, 1, 22] false := h₃
  have hanti : ∀ a b : ℤ, (b % 10 - a % 10).sign = -(a % 10 - b % 10).sign := by
    intro a b
    rw [← Int.sign_neg, neg_sub]
  have htrans : ∀ a b c : ℤ, b % 10 - a % 10 ≤ 0 → c % 10 - b % 10 ≤ 0 → c % 10 - a % 10 ≤ 0 := by
    intro a b c hab hbc
    omega
  exact ⟨s₃, sort_stable hanti htrans hrep⟩

end CenterIM.LinkedList

import Mathlib

/-!
# Exchange sort

A sort that makes as many passes as there are elements, each of which exchanges neighbours
that stand the wrong way round. Where "not to be exchanged" is a total preorder the result is
in order, and sorting it again changes nothing.
-/
namespace CenterIM.ExchangeSort

variable {α : Type*}

/-- The rest of a pass that stands at `cur`; `swap next cur` says that the two are exchanged. -/
def passFrom (swap : α → α → Bool) : α → List α → List α
  | cur, [] => [cur]
  | cur, next :: l =>
    if swap next cur then next :: passFrom swap cur l else cur :: passFrom swap next l

def pass (swap : α → α → Bool) : List α → List α
  | [] => []
  | cur :: l => passFrom swap cur l

def sort (swap : α → α → Bool) (l : List α) : List α := (pass swap)^[l.length] l

/-- `swap` exchanges what a total preorder puts the other way round. -/
structure Preordered (swap : α → α → Bool) : Prop where
  total : ∀ a b, swap b a = true → swap a b = false
  trans : ∀ a b c, swap b a = false → swap c b = false → swap c a = false

def Sorted (swap : α → α → Bool) (l : List α) : Prop := l.Pairwise fun a b => swap b a = false

variable {swap swap' : α → α → Bool}

theorem passFrom_perm (swap : α → α → Bool) (cur : α) (l : List α) :
    (passFrom swap cur l).Perm (cur :: l) := by
  fun_induction passFrom swap cur l with
  | case1 => exact .refl _
  | case2 cur next l _ ih => exact (ih.cons next).trans (.swap ..)
  | case3 cur next l _ ih => exact ih.cons cur

theorem pass_perm (swap : α → α → Bool) (l : List α) : (pass swap l).Perm l := by
  cases l with
  | nil => exact .refl _
  | cons cur l => exact passFrom_perm swap cur l

theorem passes_perm (swap : α → α → Bool) (k : ℕ) (l : List α) : ((pass swap)^[k] l).Perm l := by
  induction k with
  | zero => exact .refl _
  | succ k ih =>
    rw [Function.iterate_succ_apply']
    exact (pass_perm swap _).trans ih

theorem sort_perm (swap : α → α → Bool) (l : List α) : (sort swap l).Perm l :=
  passes_perm swap l.length l

theorem passFrom_sorted {cur : α} {l : List α} (h : Sorted swap (cur :: l)) :
    passFrom swap cur l = cur :: l := by
  fun_induction passFrom swap cur l with
  | case1 => rfl
  | case2 cur next l hs _ =>
    have hcur := (List.pairwise_cons.mp h).1 next (by simp)
    simp [hcur] at hs
  | case3 cur next l _ ih => rw [ih (List.pairwise_cons.mp h).2]

theorem pass_sorted {l : List α} (h : Sorted swap l) : pass swap l = l := by
  cases l with
  | nil => rfl
  | cons cur l => exact passFrom_sorted h

theorem Preordered.irrefl (hp : Preordered swap) (a : α) : swap a a = false := by
  cases h : swap a a with
  | false => rfl
  | true => exact absurd (hp.total a a h) (by simp [h])

theorem passFrom_last (hp : Preordered swap) (cur : α) (l : List α) :
    ∃ u m, passFrom swap cur l = u ++ [m] ∧ ∀ x ∈ cur :: l, swap m x = false := by
  fun_induction passFrom swap cur l with
  | case1 cur => exact ⟨[], cur, rfl, by simp [hp.irrefl]⟩
  | case2 cur next l hs ih =>
    obtain ⟨u, m, heq, hm⟩ := ih
    refine ⟨next :: u, m, by rw [heq, List.cons_append], ?_⟩
    -- the element that goes to the front is not behind the one that is carried on
    have hnext := hp.trans _ _ _ (hp.total _ _ hs) (hm cur (by simp))
    simpa [hnext] using hm
  | case3 cur next l hs ih =>
    obtain ⟨u, m, heq, hm⟩ := ih
    refine ⟨cur :: u, m, by rw [heq, List.cons_append], ?_⟩
    have hcur := hp.trans _ _ _ (by simpa using hs) (hm next (by simp))
    simpa [hcur] using hm

theorem passFrom_append {cur : α} {u v : List α} (hv : Sorted swap v)
    (huv : ∀ x ∈ cur :: u, ∀ y ∈ v, swap y x = false) :
    passFrom swap cur (u ++ v) = passFrom swap cur u ++ v := by
  fun_induction passFrom swap cur u with
  | case1 cur => exact passFrom_sorted (List.pairwise_cons.mpr ⟨huv cur (by simp), hv⟩)
  | case2 cur next l hs ih =>
    have hrest : ∀ x ∈ cur :: l, ∀ y ∈ v, swap y x = false := by
      intro x hx
      rcases List.mem_cons.mp hx with rfl | hx
      · exact huv x (by simp)
      · exact huv x (by simp [hx])
    rw [List.cons_append, passFrom, if_pos hs, ih hrest, List.cons_append]
  | case3 cur next l hs ih =>
    rw [List.cons_append, passFrom, if_neg hs, ih fun x hx => huv x (List.mem_cons_of_mem _ hx),
      List.cons_append]

/-- After `k` passes the last `k` elements are in order and come last. -/
theorem passes_spec (hp : Preordered swap) (l : List α) {k : ℕ} (hk : k ≤ l.length) :
    ∃ u v, (pass swap)^[k] l = u ++ v ∧ v.length = k ∧ Sorted swap v ∧
      ∀ x ∈ u, ∀ y ∈ v, swap y x = false := by
  induction k with
  | zero => exact ⟨l, [], by simp, rfl, .nil, by simp⟩
  | succ k ih =>
    obtain ⟨u, v, heq, hlen, hv, huv⟩ := ih (by omega)
    have hu : u ≠ [] := by
      rintro rfl
      have h := (passes_perm swap k l).length_eq
      rw [heq, List.nil_append] at h
      omega
    obtain ⟨cur, u, rfl⟩ := List.exists_cons_of_ne_nil hu
    obtain ⟨w, m, hpass, hm⟩ := passFrom_last hp cur u
    have hmem : ∀ x ∈ w ++ [m], x ∈ cur :: u := fun x hx => by
      rw [← hpass] at hx
      exact (passFrom_perm swap cur u).mem_iff.mp hx
    refine ⟨w, m :: v, ?_, by simp [hlen], List.pairwise_cons.mpr ⟨?_, hv⟩, ?_⟩
    · rw [Function.iterate_succ_apply', heq, List.cons_append, pass, passFrom_append hv huv, hpass]
      simp
    · exact huv m (hmem m (by simp))
    · intro x hx y hy
      have hxu := hmem x (by simp [hx])
      rcases List.mem_cons.mp hy with rfl | hy
      · exact hm x hxu
      · exact huv x hxu y hy

theorem sort_sorted (hp : Preordered swap) (l : List α) : Sorted swap (sort swap l) := by
  obtain ⟨u, v, heq, hlen, hv, -⟩ := passes_spec hp l le_rfl
  have h := (sort_perm swap l).length_eq
  rw [sort, heq, List.length_append] at h
  have hu : u = [] := List.length_eq_zero_iff.mp (by omega)
  rw [sort, heq, hu, List.nil_append]
  exact hv

theorem sort_of_sorted {l : List α} (h : Sorted swap l) : sort swap l = l := by
  rw [sort]
  induction l.length with
  | zero => rfl
  | succ k ih => rw [Function.iterate_succ_apply', ih, pass_sorted h]

theorem sort_sort (hp : Preordered swap) (l : List α) : sort swap (sort swap l) = sort swap l :=
  sort_of_sorted (sort_sorted hp l)

/-- Elements that are never exchanged with one another keep their order. -/
theorem passFrom_filter {p : α → Bool}
    (h : ∀ a b, p a = true → p b = true → swap a b = false) (cur : α) (l : List α) :
    (passFrom swap cur l).filter p = (cur :: l).filter p := by
  fun_induction passFrom swap cur l with
  | case1 => rfl
  | case2 cur next l hs ih =>
    rw [List.filter_cons, ih]
    by_cases hn : p next = true
    · have hc : p cur = false := by
        by_contra hc
        have hno := h next cur hn (by simpa using hc)
        simp [hno] at hs
      simp [hn, hc]
    · simp [hn, List.filter_cons]
  | case3 cur next l hs ih => rw [List.filter_cons, ih, ← List.filter_cons]

theorem pass_filter {p : α → Bool} (h : ∀ a b, p a = true → p b = true → swap a b = false)
    (l : List α) : (pass swap l).filter p = l.filter p := by
  cases l with
  | nil => rfl
  | cons cur l => exact passFrom_filter h cur l

theorem sort_filter {p : α → Bool} (h : ∀ a b, p a = true → p b = true → swap a b = false)
    (l : List α) : (sort swap l).filter p = l.filter p := by
  rw [sort]
  induction l.length with
  | zero => rfl
  | succ k ih => rw [Function.iterate_succ_apply', pass_filter h, ih]

end CenterIM.ExchangeSort

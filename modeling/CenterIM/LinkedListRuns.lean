import CenterIM.LinkedList

/-!
# Runs of a linked list

What the calls on a `linkedlist` mean for a sequence, and which runs refine it: `empty`
deletes the nodes and leaves the pointer to the first one, so only the runs that do not
follow it do.
-/
namespace CenterIM.LinkedListRuns
open LinkedList

variable {α σ : Type}

/-- A call of one of the operations; `insert` counts from 1. -/
inductive Op (α σ : Type) where
  | add (p : α)
  | insert (n : ℤ) (hn : 1 ≤ n) (p : α)
  | remove (n : ℤ)
  | replace (n : ℤ) (p : α)
  | empty
  | sort (compare : α → α → ℤ)
  | itemAt (n : ℤ)
  | foreach (exec : α → σ → α × σ) (arg : σ)

inductive Answer (α σ : Type) where
  | done
  | item (p : α)
  | ret (p : α) (arg : σ)

variable [DecidableEq α] (null : α)

def step (s : State α) : Op α σ → Option (State α × Answer α σ)
  | .add p => (add s p).map (·, .done)
  | .insert n _ p => (insert s n p).map (·, .done)
  | .remove n => (remove s n).map (·, .done)
  | .replace n p => (replace s n p).map (·, .done)
  | .empty => (empty s).map (·, .done)
  | .sort compare => (sort s compare).map (·, .done)
  | .itemAt n => (itemAt null s n).map fun p => (s, .item p)
  | .foreach exec arg => (foreach null s exec arg).map fun r => (s, .ret r.1 r.2)

def seqStep (xs : List α) : Op α σ → List α × Answer α σ
  | .add p => (xs ++ [p], .done)
  | .insert n _ p => (xs.insertIdx (min (n.toNat - 1) xs.length) p, .done)
  | .remove n => (if 0 ≤ n then xs.eraseIdx n.toNat else xs, .done)
  | .replace n p => (if n < xs.length then xs.set n.toNat p else xs ++ [p], .done)
  | .empty => ([], .done)
  | .sort compare => (ExchangeSort.sort (exchanged compare) xs, .done)
  | .itemAt n => (xs, .item (if 0 ≤ n then xs.getD n.toNat null else null))
  | .foreach exec arg => (xs, .ret (seqForeach null exec xs arg).1 (seqForeach null exec xs arg).2)

variable {s : State α} {xs : List α}

/-- A call is clean if it does not empty a list that has elements, and gives `replace` no
negative index on a list that has none. -/
def Op.Clean (xs : List α) : Op α σ → Prop
  | .empty => xs = []
  | .replace n _ => 0 ≤ n ∨ xs ≠ []
  | _ => True

def CleanRun : List α → List (Op α σ) → Prop
  | _, [] => True
  | xs, op :: ops => op.Clean xs ∧ CleanRun (seqStep null xs op).1 ops

/-- In every state of the run the chain holds the sequence, and every call returns what it
returns on the sequence. -/
def Refines : State α → List α → List (Op α σ) → Prop
  | s, xs, [] => Chain s xs
  | s, xs, op :: ops => Chain s xs ∧ ∃ s', step null s op = some (s', (seqStep null xs op).2) ∧
      Refines s' (seqStep null xs op).1 ops

def emptiedAfter (emptied : Bool) (xs : List α) (op : Op α σ) : Bool :=
  match op with
  | .empty => emptied || !xs.isEmpty
  | op => emptied && (seqStep null xs op).1.isEmpty

/-- A call is safe if it is no `foreach` on an emptied list, and gives `replace` no negative
index on a list without elements. -/
def Op.Safe (xs : List α) (emptied : Bool) : Op α σ → Prop
  | .foreach _ _ => emptied = false
  | .replace n _ => 0 ≤ n ∨ xs ≠ []
  | _ => True

def SafeRun : List α → Bool → List (Op α σ) → Prop
  | _, _, [] => True
  | xs, emptied, op :: ops => op.Safe xs emptied ∧
      SafeRun (seqStep null xs op).1 (emptiedAfter null emptied xs op) ops

/-- What the calls return; `none` if one of them follows a bad pointer. -/
def run : State α → List (Op α σ) → Option (List (Answer α σ))
  | _, [] => some []
  | s, op :: ops => do
    let (s, answer) ← step null s op
    let answers ← run s ops
    some (answer :: answers)

def seqRun : List α → List (Op α σ) → List (Answer α σ)
  | _, [] => []
  | xs, op :: ops => (seqStep null xs op).2 :: seqRun (seqStep null xs op).1 ops

theorem step_holds (hs : Holds s xs) (op : Op α σ) (hop : op.Safe xs false) :
    ∃ s', step null s op = some (s', (seqStep null xs op).2) ∧
      Rep s' (seqStep null xs op).1 (emptiedAfter null false xs op) := by
  cases op with
  | add p =>
    obtain ⟨s', hadd, hs'⟩ := add_holds hs p
    exact ⟨s', by simp [step, hadd, seqStep], hs'⟩
  | insert n hn p =>
    obtain ⟨s', hins, hs'⟩ := insert_holds hs hn p
    exact ⟨s', by simp [step, hins, seqStep], hs'⟩
  | remove n =>
    obtain ⟨s', hrem, hs'⟩ := remove_holds hs n
    exact ⟨s', by simp [step, hrem, seqStep], hs'⟩
  | replace n p =>
    obtain ⟨s', hrep, hs'⟩ := replace_holds hs hop p
    exact ⟨s', by simp [step, hrep, seqStep], hs'⟩
  | empty =>
    obtain ⟨s', hempty, hnil, hcons⟩ := empty_holds hs
    refine ⟨s', by simp [step, hempty, seqStep], ?_⟩
    cases xs with
    | nil => exact hnil rfl
    | cons x xs => exact ⟨hcons (by simp), rfl⟩
  | sort compare =>
    obtain ⟨s', hsort, hs'⟩ := sort_holds hs compare
    exact ⟨s', by simp [step, hsort, seqStep], hs'⟩
  | itemAt n => exact ⟨s, by simp [step, itemAt_holds null hs, seqStep], hs⟩
  | foreach exec arg => exact ⟨s, by simp [step, foreach_holds null hs, seqStep], hs⟩

theorem step_emptied (he : Emptied s) (op : Op α σ) (hop : op.Safe [] true) :
    ∃ s', step null s op = some (s', (seqStep null [] op).2) ∧
      Rep s' (seqStep null [] op).1 (emptiedAfter null true [] op) := by
  have hc := he.count
  cases op with
  | add p =>
    obtain ⟨s', hadd, hs'⟩ := add_zero he.bounded hc p
    exact ⟨s', by simp [step, hadd, seqStep], hs'⟩
  | insert n hn p =>
    obtain ⟨s', hadd, hs'⟩ := add_zero he.bounded hc p
    have hins : insert s n p = some s' := by rw [LinkedList.insert, if_neg (by omega), hadd]
    have hseq : ([] : List α).insertIdx (min (n.toNat - 1) 0) p = [p] := by
      rw [Nat.min_zero, List.insertIdx_zero]
    refine ⟨s', by simp [step, hins, seqStep], ?_⟩
    simp only [seqStep, emptiedAfter, List.length_nil, hseq]
    exact hs'
  | remove n =>
    have hrem : remove s n = some s := by rw [remove, if_neg (by omega)]
    refine ⟨s, by simp [step, hrem, seqStep], ?_⟩
    simp only [seqStep, emptiedAfter, List.eraseIdx_nil, ite_self]
    exact ⟨he, rfl⟩
  | replace n p =>
    obtain ⟨s', hadd, hs'⟩ := add_zero he.bounded hc p
    have h0 : 0 ≤ n := hop.resolve_right (by simp)
    have hrep : replace s n p = some s' := by rw [replace, if_neg (by omega), hadd]
    refine ⟨s', by simp [step, hrep, seqStep], ?_⟩
    simp only [seqStep, emptiedAfter, List.length_nil, if_neg (by omega : ¬ n < ((0 : ℕ) : ℤ))]
    exact hs'
  | empty =>
    exact ⟨s, by simp [step, he.empty, seqStep], he, rfl⟩
  | sort compare => exact ⟨s, by simp [step, he.sort compare, seqStep], he, rfl⟩
  | itemAt n =>
    have hitem : itemAt null s n = some null := by rw [itemAt, if_neg (by omega)]
    exact ⟨s, by simp [step, hitem, seqStep], he, rfl⟩
  | foreach exec arg => exact absurd hop (by simp [Op.Safe])

theorem step_rep {emptied : Bool} (hs : Rep s xs emptied) (op : Op α σ)
    (hop : op.Safe xs emptied) :
    ∃ s', step null s op = some (s', (seqStep null xs op).2) ∧
      Rep s' (seqStep null xs op).1 (emptiedAfter null emptied xs op) := by
  cases emptied with
  | false => exact step_holds null hs op hop
  | true =>
    obtain ⟨he, rfl⟩ := hs
    exact step_emptied null he op hop

/-- A negative index leads to the first node even where there is none. -/
theorem replace_negative {n : ℤ} (hn : n < 0) (hbad : deref s.heap s.flist = none) (p : α) :
    replace s n p = none := by
  have hsteps : n.toNat = 0 := by omega
  rw [replace, if_pos (by omega), hsteps]
  simp only [walk, hbad, Option.bind_eq_bind, Option.bind_some, Option.bind_none]

theorem step_bad {emptied : Bool} (hs : Rep s xs emptied) (op : Op α σ)
    (hop : ¬ op.Safe xs emptied) : step null s op = none := by
  cases op with
  | replace n p =>
    simp only [Op.Safe, not_or, not_le, not_not] at hop
    obtain ⟨hn, rfl⟩ := hop
    have hbad : deref s.heap s.flist = none := by
      cases emptied with
      | false =>
        obtain ⟨-, -, as, -, hseg⟩ := hs
        obtain rfl : as = [] := List.length_eq_zero_iff.mp hseg.length_eq
        have hl : s.flist = none := hseg
        rw [hl]
        rfl
      | true =>
        obtain ⟨a, hl, ha⟩ := hs.1.flist
        rw [hl]
        exact ha
    simp [step, replace_negative hn hbad p]
  | foreach exec arg =>
    obtain rfl : emptied = true := by simpa [Op.Safe] using hop
    obtain ⟨a, hl, ha⟩ := hs.1.flist
    have hbad : foreach null s exec arg = none := by
      rw [foreach, hl, foreachLoop, if_neg (by simp)]
      simp only [ha, Option.bind_eq_bind, Option.bind_none]
    simp [step, hbad]
  | add | insert | remove | empty | sort | itemAt => exact absurd trivial hop

theorem run_rep {emptied : Bool} (hs : Rep s xs emptied) (ops : List (Op α σ)) :
    run null s ops = some (seqRun null xs ops) ↔ SafeRun null xs emptied ops := by
  induction ops generalizing s xs emptied with
  | nil => simp [run, seqRun, SafeRun]
  | cons op ops ih =>
    by_cases hop : op.Safe xs emptied
    · obtain ⟨s', hstep, hs'⟩ := step_rep null hs op hop
      rw [SafeRun, ← ih hs', run, hstep, seqRun]
      cases h : run null s' ops with
      | none => simp [h, hop]
      | some answers => simp [h, hop]
    · simp [run, step_bad null hs op hop, SafeRun, hop]

theorem Refines.chain {ops : List (Op α σ)} (h : Refines null s xs ops) : Chain s xs := by
  cases ops with
  | nil => exact h
  | cons op ops => exact h.1

theorem refines_holds (hs : Holds s xs) (ops : List (Op α σ)) :
    Refines null s xs ops ↔ CleanRun null xs ops := by
  induction ops generalizing s xs with
  | nil => simp [Refines, CleanRun, hs.chain]
  | cons op ops ih =>
    by_cases hop : op.Safe xs false
    · obtain ⟨s', hstep, hs'⟩ := step_holds null hs op hop
      rw [Refines, CleanRun, hstep]
      cases he : emptiedAfter null false xs op with
      | false =>
        rw [he] at hs'
        have hclean : op.Clean xs := by
          cases op <;> simp_all [Op.Safe, Op.Clean, emptiedAfter]
        simp [hs.chain, hclean, ih hs']
      | true =>
        rw [he] at hs'
        have hclean : ¬ op.Clean xs := by
          cases op <;> simp_all [Op.Clean, emptiedAfter]
        obtain ⟨hemptied, hnil⟩ := hs'
        have hno : ¬ Refines null s' (seqStep null xs op).1 ops := by
          intro hr
          have hchain := hr.chain
          rw [hnil] at hchain
          exact hemptied.not_chain hchain
        simp [hclean, hno]
    · have hclean : ¬ op.Clean xs := by
        cases op <;> simp_all [Op.Safe, Op.Clean]
      have hrep : Rep s xs false := hs
      simp [Refines, CleanRun, step_bad null hrep op hop, hclean]

/-- Exactly the runs that empty no list with elements refine a sequence in every state, and
exactly the runs that do not look at an emptied list return what the sequence does. -/
theorem refines_iff (ops : List (Op α σ)) :
    (Refines null init [] ops ↔ CleanRun null [] ops) ∧
      (run null init ops = some (seqRun null [] ops) ↔ SafeRun null [] false ops) := by
  have hrep : Rep (init : State α) [] false := init_holds
  exact ⟨refines_holds null init_holds ops, run_rep null hrep ops⟩

/-- `foreach` on a list that has just been emptied. -/
theorem foreach_after_empty :
    run (0 : ℕ) init [.add 5, .empty, .foreach (fun _ (arg : ℕ) => (0, arg)) 0] = none := by
  rfl

end CenterIM.LinkedListRuns

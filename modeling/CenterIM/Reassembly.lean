import Mathlib.Data.List.Basic
import Mathlib.Order.Basic

/-!
# Reassembly

A reader takes its input from a buffer, one move at a time, and a network delivers that input in
pieces of any size. When a move is not undone by what arrives after it, the pieces do not
matter: the reader ends where it would end had everything arrived at once.
-/
namespace CenterIM.Reassembly

/-- A move takes something off the front of the buffer, or there is no move yet. -/
structure Reader (σ α : Type*) where
  move : σ → List α → Option (σ × List α)
  shrinks : ∀ {s b s' b'}, move s b = some (s', b') → b'.length < b.length
  stable : ∀ {s b s' b'}, move s b = some (s', b') → ∀ t, move s (b ++ t) = some (s', b' ++ t)

namespace Reader

variable {σ α : Type*} (R : Reader σ α)

/-- At most `n` moves. -/
def moves : ℕ → σ → List α → σ × List α
  | 0, s, b => (s, b)
  | n + 1, s, b =>
    match R.move s b with
    | none => (s, b)
    | some (s', b') => moves n s' b'

def drain (s : σ) (b : List α) : σ × List α := R.moves b.length s b

variable {R} {s s' : σ} {b b' : List α}

theorem moves_of_idle (h : R.move s b = none) (n : ℕ) : R.moves n s b = (s, b) := by
  cases n with
  | zero => rfl
  | succ n => simp only [moves, h]

theorem moves_of_length_le {n : ℕ} (hn : b.length ≤ n) : R.moves n s b = R.drain s b := by
  induction n using Nat.strongRecOn generalizing s b with
  | ind n ih =>
    rcases hb : R.move s b with _ | ⟨s', b'⟩
    · rw [drain, moves_of_idle hb, moves_of_idle hb]
    · have hlt := R.shrinks hb
      obtain ⟨m, hm⟩ : ∃ m, b.length = m + 1 := ⟨b.length - 1, by omega⟩
      obtain ⟨k, rfl⟩ : ∃ k, n = k + 1 := ⟨n - 1, by omega⟩
      have h1 : R.moves (k + 1) s b = R.moves k s' b' := by simp only [moves, hb]
      have h2 : R.drain s b = R.moves m s' b' := by simp only [drain, hm, moves, hb]
      rw [h1, h2, ih k (by omega) (by omega), ih m (by omega) (by omega)]

theorem drain_of_idle (h : R.move s b = none) : R.drain s b = (s, b) := moves_of_idle h _

theorem drain_of_move (h : R.move s b = some (s', b')) : R.drain s b = R.drain s' b' := by
  have hlt := R.shrinks h
  obtain ⟨m, hm⟩ : ∃ m, b.length = m + 1 := ⟨b.length - 1, by omega⟩
  have h1 : R.drain s b = R.moves m s' b' := by simp only [drain, hm, moves, h]
  rw [h1, moves_of_length_le (by omega)]

theorem drain_idle (s : σ) (b : List α) : R.move (R.drain s b).1 (R.drain s b).2 = none := by
  induction hn : b.length using Nat.strongRecOn generalizing s b with
  | ind n ih =>
    rcases hb : R.move s b with _ | ⟨s', b'⟩
    · rw [drain_of_idle hb]
      exact hb
    · rw [drain_of_move hb]
      have hlt := R.shrinks hb
      exact ih b'.length (by omega) _ _ rfl

/-- Reading on after more has arrived is reading all of it at once. -/
theorem drain_append (s : σ) (b t : List α) :
    R.drain s (b ++ t) = R.drain (R.drain s b).1 ((R.drain s b).2 ++ t) := by
  induction hn : b.length using Nat.strongRecOn generalizing s b with
  | ind n ih =>
    rcases hb : R.move s b with _ | ⟨s', b'⟩
    · rw [drain_of_idle hb]
    · have hlt := R.shrinks hb
      rw [drain_of_move (R.stable hb t), drain_of_move hb]
      exact ih b'.length (by omega) _ _ rfl

end Reader

structure Cutter (β α : Type*) where
  cut : List α → Option (β × List α)
  shrinks : ∀ {b f b'}, cut b = some (f, b') → b'.length < b.length
  stable : ∀ {b f b'}, cut b = some (f, b') → ∀ t, cut (b ++ t) = some (f, b' ++ t)

namespace Cutter

variable {α β : Type*} (K : Cutter β α)

def reader : Reader (List β) α where
  move fs b := (K.cut b).map fun p => (fs ++ [p.1], p.2)
  shrinks h := by
    obtain ⟨p, hp, he⟩ := Option.map_eq_some_iff.mp h
    cases he
    exact K.shrinks hp
  stable h t := by
    obtain ⟨p, hp, he⟩ := Option.map_eq_some_iff.mp h
    cases he
    simp [K.stable hp t]

/-- The frames of a text and what is left of it. -/
def frames (b : List α) : List β × List α := K.reader.drain [] b

variable {K} {f : β} {fs : List β} {b b' : List α}

theorem reader_move_of_some (h : K.cut b = some (f, b')) :
    K.reader.move fs b = some (fs ++ [f], b') := by
  simp [reader, h]

theorem reader_move_of_none (h : K.cut b = none) : K.reader.move fs b = none := by
  simp [reader, h]

theorem frames_of_none (h : K.cut b = none) : K.frames b = ([], b) :=
  Reader.drain_of_idle (reader_move_of_none h)

theorem drain_eq (fs : List β) (b : List α) :
    K.reader.drain fs b = (fs ++ (K.frames b).1, (K.frames b).2) := by
  induction hn : b.length using Nat.strongRecOn generalizing fs b with
  | ind n ih =>
    rcases hb : K.cut b with _ | ⟨f, b'⟩
    · rw [frames_of_none hb, Reader.drain_of_idle (reader_move_of_none hb), List.append_nil]
    · have hlt := K.shrinks hb
      have h1 := Reader.drain_of_move (@reader_move_of_some _ _ K f fs b b' hb)
      have h2 := Reader.drain_of_move (@reader_move_of_some _ _ K f [] b b' hb)
      rw [frames, h1, h2, ih b'.length (by omega) (fs ++ [f]) b' rfl,
        ih b'.length (by omega) ([] ++ [f]) b' rfl]
      simp

theorem frames_of_some (h : K.cut b = some (f, b')) :
    K.frames b = (f :: (K.frames b').1, (K.frames b').2) := by
  rw [frames, Reader.drain_of_move (reader_move_of_some h), drain_eq]
  rfl

theorem cut_frames (b : List α) : K.cut (K.frames b).2 = none := by
  have h := Reader.drain_idle (R := K.reader) [] b
  simpa [reader, frames] using h

theorem frames_append (b t : List α) :
    K.frames (b ++ t) =
      ((K.frames b).1 ++ (K.frames ((K.frames b).2 ++ t)).1, (K.frames ((K.frames b).2 ++ t)).2) := by
  rw [frames, Reader.drain_append, drain_eq]
  rfl

/-- Frames that are written one after the other are cut at their seams. -/
theorem frames_flatMap {γ : Type*} (enc : γ → List α) (dec : γ → β) (xs : List γ)
    (h : ∀ x ∈ xs, ∀ t, K.cut (enc x ++ t) = some (dec x, t)) (hnil : K.cut [] = none) :
    K.frames (xs.flatMap enc) = (xs.map dec, []) := by
  induction xs with
  | nil => exact frames_of_none hnil
  | cons x xs ih =>
    rw [List.flatMap_cons, frames_of_some (h x (by simp) _), ih fun y hy => h y (by simp [hy])]
    rfl

end Cutter

end CenterIM.Reassembly

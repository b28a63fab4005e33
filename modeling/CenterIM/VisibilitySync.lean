import CenterIM.ModeList

/-!
# Keeping the visibility lists of the ICQ library

`sendinvisible` compares the entries of the mode list with those of the call before, and tells
the library what was added and removed. An entry that was there several times is removed as
soon as one of its copies is gone.
-/
namespace CenterIM.VisibilitySync
open Contact ModeList ContactStatus

/-- `visInfo`: an account number of the library, and the kind of list. -/
abbrev VisInfo := UInt32 × ContactStatus

structure Library where
  visible : Finset UInt32 := ∅
  invisible : Finset UInt32 := ∅

namespace Library

/-- `addVisible` or `addInvisible`. -/
def add (cli : Library) (v : VisInfo) : Library :=
  if v.2 = csvisible then { cli with visible := insert v.1 cli.visible }
  else if v.2 = csinvisible then { cli with invisible := insert v.1 cli.invisible }
  else cli

/-- `removeVisible` or `removeInvisible`. -/
def remove (cli : Library) (v : VisInfo) : Library :=
  if v.2 = csvisible then { cli with visible := cli.visible.erase v.1 }
  else if v.2 = csinvisible then { cli with invisible := cli.invisible.erase v.1 }
  else cli

def has (cli : Library) (v : VisInfo) : Prop :=
  if v.2 = csvisible then v.1 ∈ cli.visible
  else if v.2 = csinvisible then v.1 ∈ cli.invisible
  else False

end Library

structure IcqHook where
  vislist : List VisInfo := []
  cli : Library := {}

def entries (lst : List ModeListItem) : List VisInfo :=
  lst.filterMap fun i =>
    if i.cdesc.pname = .icq then
      if i.cs = csvisible ∨ i.cs = csinvisible then some (i.cdesc.uin.toUInt32, i.cs) else none
    else none

/-- The loop over the entries of the call before: one that is found is done, and one that is not
is removed. -/
def removeLoop : List VisInfo → List VisInfo → Library → List VisInfo × Library
  | [], todo, cli => (todo, cli)
  | iv :: vislist, todo, cli =>
    if iv ∈ todo then removeLoop vislist (todo.erase iv) cli
    else removeLoop vislist todo (cli.remove iv)

/-- `icqhook::sendinvisible`. -/
def IcqHook.sendinvisible (h : IcqHook) (lst : List ModeListItem) : IcqHook :=
  let nvislist := entries lst
  let (todo, cli) := removeLoop h.vislist nvislist h.cli
  ⟨nvislist, todo.foldl Library.add cli⟩

def Synced (lst : List ModeListItem) (cli : Library) : Prop :=
  ∀ n : UInt32,
    (n ∈ cli.visible ↔
      ∃ i ∈ lst, i.cdesc.pname = .icq ∧ i.cs = csvisible ∧ i.cdesc.uin.toUInt32 = n) ∧
    (n ∈ cli.invisible ↔
      ∃ i ∈ lst, i.cdesc.pname = .icq ∧ i.cs = csinvisible ∧ i.cdesc.uin.toUInt32 = n)

/-- The lists of the library are right after each call, for these contents of the mode list. -/
def AlwaysSynced : IcqHook → List (List ModeListItem) → Prop
  | _, [] => True
  | h, lst :: rest =>
    Synced lst (h.sendinvisible lst).cli ∧ AlwaysSynced (h.sendinvisible lst) rest

/-- An entry of the list was there more often before. -/
def Thinned (old new : List ModeListItem) : Prop :=
  ∃ v ∈ entries new, (entries new).count v < (entries old).count v

section Call

variable {cli : Library} {v u : VisInfo}

theorem has_remove : (cli.remove v).has u ↔ cli.has u ∧ u ≠ v := by
  obtain ⟨n, a⟩ := u
  obtain ⟨m, b⟩ := v
  simp only [Library.remove, Library.has]
  by_cases hv : b = csvisible
  · subst hv
    by_cases ha : a = csvisible
    · subst ha
      simp [and_comm]
    · simp [ha]
  · by_cases hi : b = csinvisible
    · subst hi
      by_cases ha : a = csvisible
      · subst ha
        simp [hv, Ne.symm hv]
      · by_cases ha' : a = csinvisible
        · subst ha'
          simp [hv, and_comm]
        · simp [ha, ha']
    · by_cases ha : a = csvisible
      · subst ha
        simp [hv, hi, Ne.symm hv]
      · by_cases ha' : a = csinvisible
        · subst ha'
          simp [hv, hi, ha, Ne.symm hi]
        · simp [ha, ha']

theorem has_add (hu : u.2 = csvisible ∨ u.2 = csinvisible) :
    (cli.add v).has u ↔ cli.has u ∨ u = v := by
  obtain ⟨n, a⟩ := u
  obtain ⟨m, b⟩ := v
  simp only [Library.add, Library.has] at hu ⊢
  have hne : csinvisible ≠ csvisible := by decide
  obtain rfl | rfl := hu
  · by_cases hv : b = csvisible
    · subst hv
      simp [or_comm]
    · by_cases hi : b = csinvisible
      · subst hi
        simp [hv, Ne.symm hv]
      · simp [hv, hi, Ne.symm hv]
  · by_cases hv : b = csvisible
    · subst hv
      simp [hne]
    · by_cases hi : b = csinvisible
      · subst hi
        simp [hv, or_comm]
      · simp [hv, hi, Ne.symm hi]

theorem has_addAll (hu : u.2 = csvisible ∨ u.2 = csinvisible) (todo : List VisInfo) :
    (todo.foldl Library.add cli).has u ↔ cli.has u ∨ u ∈ todo := by
  induction todo generalizing cli with
  | nil => simp
  | cons v todo ih => rw [List.foldl_cons, ih, has_add hu, List.mem_cons, or_assoc]

theorem removeLoop_spec (vislist todo : List VisInfo) (cli : Library) (u : VisInfo) :
    (removeLoop vislist todo cli).1.count u = todo.count u - vislist.count u ∧
      ((removeLoop vislist todo cli).2.has u ↔ cli.has u ∧ vislist.count u ≤ todo.count u) := by
  induction vislist generalizing todo cli with
  | nil => simp [removeLoop]
  | cons iv vislist ih =>
    rw [removeLoop]
    by_cases hu : u = iv
    · subst hu
      rw [List.count_cons_self]
      split_ifs with hmem
      · have hpos := List.count_pos_iff.mpr hmem
        obtain ⟨hcount, hhas⟩ := ih (todo.erase u) cli
        rw [hcount, hhas, List.count_erase_self]
        exact ⟨by omega, and_congr_right fun _ => by omega⟩
      · have hzero := List.count_eq_zero.mpr hmem
        obtain ⟨hcount, hhas⟩ := ih todo (cli.remove u)
        rw [hcount, hhas, has_remove]
        exact ⟨by omega, fun h => absurd rfl h.1.2, fun h => by omega⟩
    · rw [List.count_cons_of_ne (Ne.symm hu)]
      split_ifs with hmem
      · obtain ⟨hcount, hhas⟩ := ih (todo.erase iv) cli
        rw [hcount, hhas, List.count_erase_of_ne hu]
        exact ⟨rfl, Iff.rfl⟩
      · obtain ⟨hcount, hhas⟩ := ih todo (cli.remove iv)
        rw [hcount, hhas, has_remove, and_iff_left hu]
        exact ⟨rfl, Iff.rfl⟩

theorem mem_entries {lst : List ModeListItem} :
    v ∈ entries lst ↔ ∃ i ∈ lst, i.cdesc.pname = .icq ∧ (i.cs = csvisible ∨ i.cs = csinvisible) ∧
      (i.cdesc.uin.toUInt32, i.cs) = v := by
  rw [entries, List.mem_filterMap]
  constructor
  · intro ⟨i, hi, h⟩
    split_ifs at h with hicq hkind
    exact ⟨i, hi, hicq, hkind, Option.some.inj h⟩
  · intro ⟨i, hi, hicq, hkind, h⟩
    exact ⟨i, hi, by rw [if_pos hicq, if_pos hkind, h]⟩

theorem entries_kind {lst : List ModeListItem} (h : v ∈ entries lst) :
    v.2 = csvisible ∨ v.2 = csinvisible := by
  obtain ⟨i, -, -, hkind, rfl⟩ := mem_entries.mp h
  exact hkind

theorem synced_iff {lst : List ModeListItem} :
    Synced lst cli ↔
      ∀ v : VisInfo, v.2 = csvisible ∨ v.2 = csinvisible → (cli.has v ↔ v ∈ entries lst) := by
  have hne : csinvisible ≠ csvisible := by decide
  have hentry : ∀ (n : UInt32) (k : ContactStatus), k = csvisible ∨ k = csinvisible →
      ((n, k) ∈ entries lst ↔
        ∃ i ∈ lst, i.cdesc.pname = .icq ∧ i.cs = k ∧ i.cdesc.uin.toUInt32 = n) := by
    intro n k hk
    rw [mem_entries]
    refine exists_congr fun i => and_congr_right fun _ => and_congr_right fun _ => ?_
    rw [Prod.mk.injEq]
    constructor
    · intro ⟨_, hn, hc⟩
      exact ⟨hc, hn⟩
    · intro ⟨hc, hn⟩
      exact ⟨hc.symm ▸ hk, hn, hc⟩
  constructor
  · intro h ⟨n, k⟩ hk
    rw [hentry n k hk, Library.has]
    obtain rfl | rfl := hk
    · rw [if_pos rfl]
      exact (h n).1
    · rw [if_neg hne, if_pos rfl]
      exact (h n).2
  · intro h n
    have hv := h (n, csvisible) (Or.inl rfl)
    have hi := h (n, csinvisible) (Or.inr rfl)
    rw [hentry n _ (Or.inl rfl), Library.has, if_pos rfl] at hv
    rw [hentry n _ (Or.inr rfl), Library.has, if_neg hne, if_pos rfl] at hi
    exact ⟨hv, hi⟩

/-- From right lists a call makes right lists just when no entry got fewer copies. -/
theorem synced_sendinvisible {h : IcqHook} {old : List ModeListItem} (new : List ModeListItem)
    (hvis : h.vislist = entries old) (hold : Synced old h.cli) :
    Synced new (h.sendinvisible new).cli ↔ ¬ Thinned old new := by
  have hhas : ∀ v : VisInfo, v.2 = csvisible ∨ v.2 = csinvisible →
      ((h.sendinvisible new).cli.has v ↔
        (0 < (entries old).count v ∧ (entries old).count v ≤ (entries new).count v) ∨
          (entries old).count v < (entries new).count v) := by
    intro v hv
    obtain ⟨hcount, hkept⟩ := removeLoop_spec (entries old) (entries new) h.cli v
    have hdone : (h.sendinvisible new).cli =
        (removeLoop (entries old) (entries new) h.cli).1.foldl Library.add
          (removeLoop (entries old) (entries new) h.cli).2 := by
      rw [IcqHook.sendinvisible, hvis]
    rw [hdone, has_addAll hv, hkept, synced_iff.mp hold v hv, ← List.count_pos_iff,
      ← List.count_pos_iff, hcount]
    refine or_congr_right ?_
    omega
  rw [synced_iff]
  constructor
  · intro hall ⟨v, hmem, hless⟩
    have hv := (hall v (entries_kind hmem)).mpr hmem
    rw [hhas v (entries_kind hmem)] at hv
    omega
  · intro hno v hv
    rw [hhas v hv, ← List.count_pos_iff]
    have hle : 0 < (entries new).count v → (entries old).count v ≤ (entries new).count v := by
      intro hpos
      by_contra hlt
      exact hno ⟨v, List.count_pos_iff.mp hpos, not_le.mp hlt⟩
    omega

end Call

theorem alwaysSynced_from {h : IcqHook} {old : List ModeListItem} (lists : List (List ModeListItem))
    (hvis : h.vislist = entries old) (hold : Synced old h.cli) :
    AlwaysSynced h lists ↔ (old :: lists).IsChain fun old new => ¬ Thinned old new := by
  induction lists generalizing h old with
  | nil => simp [AlwaysSynced]
  | cons new lists ih =>
    rw [AlwaysSynced, List.isChain_cons_cons, synced_sendinvisible new hvis hold]
    refine and_congr_right fun hthin => ?_
    exact ih rfl ((synced_sendinvisible new hvis hold).mpr hthin)

/-- The library is right after every call just when no entry that stays in the list loses one of
its copies. -/
theorem alwaysSynced_iff (lists : List (List ModeListItem)) :
    AlwaysSynced {} lists ↔ lists.IsChain fun old new => ¬ Thinned old new := by
  have hempty : Synced [] ({} : IcqHook).cli := fun n => by simp
  have hfirst : ∀ new, ¬ Thinned [] new := fun new ⟨v, _, hlt⟩ => by simp [entries] at hlt
  rw [alwaysSynced_from lists rfl hempty]
  cases lists with
  | nil => simp
  | cons new lists => rw [List.isChain_cons_cons, and_iff_right (hfirst new)]

def ann : ModeListItem := ⟨ByteText.bytes "ann", ImContact.ofUin 5 .icq, csvisible⟩

/-- When one of the copies is deleted the other one counts no more. -/
theorem copy_removed : ¬ ∀ lists : List (List ModeListItem), AlwaysSynced {} lists := by
  intro h
  obtain ⟨-, hone, -⟩ := h [[ann, ann], [ann]]
  have hmem := (hone 5).1.mpr ⟨ann, List.mem_cons_self, rfl, rfl, rfl⟩
  revert hmem
  decide

end CenterIM.VisibilitySync

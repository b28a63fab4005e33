import CenterIM.Groups

/-!
# Moving groups

The place of a group in the list is its number: to move it, `icqgroup` exchanges numbers with
the next group up or down, and the contacts of both follow. Seen from outside the exchange is a
renaming of the numbers, the same for groups and contacts. The loops count their turns; no
result means that the turns were not enough or a number left the range of `int`.
-/
namespace CenterIM.GroupMoves
open ByteText ContactFile Groups

/-- The vector `groups` and the contact list. -/
structure Lists where
  groups : List IcqGroup
  clist : List IcqContact

def Lists.ids (s : Lists) : List Int32 := s.groups.map (·.id)

/-- `c->setgroupid(agroupid, false)`. -/
def setgroupid (agroupid : Int32) (c : IcqContact) : IcqContact :=
  { c with groupid := agroupid, modified := true }

/-- `icqgroup::exchange(nid)` for the group at place `i` of the vector. -/
def exchange (s : Lists) (i : ℕ) (nid : Int32) : Lists :=
  match s.groups[i]?, s.groups.findIdx? (·.id = nid) with
  | some g, some ig =>
    { groups := (s.groups.modify ig fun h => { h with id := g.id }).modify i fun h =>
        { h with id := nid }
      clist := s.clist.map fun c =>
        if c.groupid = g.id then setgroupid nid c
        else if c.groupid = nid then setgroupid g.id c else c }
  | _, _ => s

/-- `nid-1` and `nid+1`; there is no result outside the range of `int`. -/
def dec (nid : Int32) : Option Int32 := if nid = Int32.minValue then none else some (nid - 1)
def inc (nid : Int32) : Option Int32 := if nid = Int32.maxValue then none else some (nid + 1)

/-- The loop of `moveup`. -/
def upLoop (ids : List Int32) : ℕ → Int32 → Option Int32
  | 0, _ => none
  | n + 1, nid =>
    if 0 < nid then
      if nid ∈ ids then some nid else (dec nid).bind (upLoop ids n)
    else some nid

/-- `icqgroup::moveup`. -/
def moveup (s : Lists) (i n : ℕ) : Option Lists := do
  let g ← s.groups[i]?
  let nid ← upLoop s.ids n (← dec g.id)
  some (if 0 < nid then exchange s i nid else s)

/-- The loop of `movedown`, up to the number `fid` of the last group of the vector. -/
def downLoop (ids : List Int32) (fid : Int32) : ℕ → Int32 → Option Int32
  | 0, _ => none
  | n + 1, nid =>
    if nid ≤ fid then
      if nid ∈ ids then some nid else (inc nid).bind (downLoop ids fid n)
    else some nid

/-- `icqgroup::movedown`. -/
def movedown (s : Lists) (i n : ℕ) : Option Lists := do
  let g ← s.groups[i]?
  let fid ← s.ids.getLast?
  let nid ← downLoop s.ids fid n (← inc g.id)
  some (if nid ≤ fid then exchange s i nid else s)

structure SameGroups (s s' : Lists) : Prop where
  ids : s'.ids.Perm s.ids
  names : s'.clist.map (fun c => getname s'.groups c.groupid) =
    s.clist.map fun c => getname s.groups c.groupid

/-- The group with the nearest smaller number, and the one with the nearest larger number. -/
def Above (s : Lists) (a b : Int32) : Prop := b ∈ s.ids ∧ b < a ∧ ∀ k ∈ s.ids, k < a → k ≤ b
def Below (s : Lists) (a b : Int32) : Prop := b ∈ s.ids ∧ a < b ∧ ∀ k ∈ s.ids, a < k → b ≤ k

structure Exchanged (s : Lists) (a b : Int32) (s' : Lists) : Prop where
  groups : s'.groups = s.groups.map fun g => { g with id := Equiv.swap a b g.id }
  clist : s'.clist.map (·.groupid) = s.clist.map fun c => Equiv.swap a b c.groupid

/-- Moving the group at place `i` up, or down, does what it should. -/
def MovesUp (s : Lists) (i : ℕ) (a : Int32) : Prop :=
  ∃ n s', moveup s i n = some s' ∧ SameGroups s s' ∧
    ((∃ b, Above s a b ∧ Exchanged s a b s') ∨ (∀ b ∈ s.ids, ¬ b < a) ∧ s' = s)

def MovesDown (s : Lists) (i : ℕ) (a : Int32) : Prop :=
  ∃ n s', movedown s i n = some s' ∧ SameGroups s s' ∧
    ((∃ b, Below s a b ∧ Exchanged s a b s') ∨ (∀ b ∈ s.ids, ¬ a < b) ∧ s' = s)

section Renaming

variable {s s' : Lists} {a b : Int32}

theorem getname_swap (groups : List IcqGroup) (σ : Equiv.Perm Int32) (gid : Int32) :
    getname (groups.map fun g => { g with id := σ g.id }) (σ gid) = getname groups gid := by
  have hp : ((fun g : IcqGroup => decide (g.id = σ gid)) ∘ fun g : IcqGroup =>
      { g with id := σ g.id }) = fun g => decide (g.id = gid) := by
    funext g
    simp
  rw [getname, getname, List.find?_map, hp]
  cases groups.find? fun g => decide (g.id = gid) <;> rfl

/-- Exchanging two members of a list without repetitions permutes it. -/
theorem map_swap_perm {α : Type*} [DecidableEq α] {l : List α} {a b : α} (hd : l.Nodup) (ha : a ∈ l)
    (hb : b ∈ l) : (l.map (Equiv.swap a b)).Perm l := by
  have hmem : ∀ x ∈ l, Equiv.swap a b x ∈ l := by
    intro x hx
    rw [Equiv.swap_apply_def]
    split_ifs
    · exact hb
    · exact ha
    · exact hx
  refine (List.perm_ext_iff_of_nodup (hd.map (Equiv.swap a b).injective) hd).mpr fun x => ?_
  constructor
  · intro hx
    obtain ⟨y, hy, rfl⟩ := List.mem_map.mp hx
    exact hmem y hy
  · intro hx
    exact List.mem_map.mpr ⟨_, hmem x hx, Equiv.swap_apply_self a b x⟩

theorem sameGroups_of_exchanged (hd : s.ids.Nodup) (ha : a ∈ s.ids) (hb : b ∈ s.ids)
    (h : Exchanged s a b s') : SameGroups s s' := by
  constructor
  · have hids : s'.ids = s.ids.map (Equiv.swap a b) := by
      rw [Lists.ids, Lists.ids, h.groups]
      simp
    rw [hids]
    exact map_swap_perm hd ha hb
  · have hnames := congrArg (List.map (getname s'.groups)) h.clist
    rw [List.map_map, List.map_map] at hnames
    have hname : getname s'.groups ∘ (fun c : IcqContact => Equiv.swap a b c.groupid) =
        fun c => getname s.groups c.groupid := by
      funext c
      rw [h.groups]
      exact getname_swap s.groups (Equiv.swap a b) c.groupid
    rw [hname] at hnames
    exact hnames

theorem sameGroups_refl (s : Lists) : SameGroups s s := ⟨.refl _, rfl⟩

theorem exchanged_ids (h : Exchanged s a b s') : s'.ids = s.ids.map (Equiv.swap a b) := by
  rw [Lists.ids, Lists.ids, h.groups]
  simp

/-- What `exchange` does is a renaming. -/
theorem exchange_exchanged {i : ℕ} {g : IcqGroup} (hd : s.ids.Nodup) (hi : s.groups[i]? = some g)
    (hb : b ∈ s.ids) (hne : b ≠ g.id) : Exchanged s g.id b (exchange s i b) := by
  obtain ⟨h, hh, rfl⟩ := List.mem_map.mp hb
  obtain ⟨ig, hig⟩ : ∃ ig, s.groups.findIdx? (·.id = h.id) = some ig := by
    rw [← Option.isSome_iff_exists, List.findIdx?_isSome]
    exact List.any_eq_true.mpr ⟨h, hh, by simp⟩
  obtain ⟨y, hy, hyid⟩ : ∃ y, s.groups[ig]? = some y ∧ y.id = h.id := by
    obtain ⟨hlt, hget, -⟩ := List.findIdx?_eq_some_iff_getElem.mp hig
    exact ⟨_, List.getElem?_eq_getElem hlt, by simpa using hget⟩
  have hsame : ∀ (j k : ℕ) (x y : IcqGroup), s.groups[j]? = some x → s.groups[k]? = some y →
      x.id = y.id → j = k := by
    intro j k x y hj hk hxy
    have hlt : j < s.ids.length := by
      rw [Lists.ids, List.length_map]
      exact (List.getElem?_eq_some_iff.mp hj).1
    refine (List.getElem?_inj hlt hd).mp ?_
    rw [Lists.ids, List.getElem?_map, List.getElem?_map, hj, hk]
    exact congrArg some hxy
  rw [exchange, hi, hig]
  constructor
  · apply List.ext_getElem?
    intro k
    rw [List.getElem?_modify, List.getElem?_modify, List.getElem?_map]
    cases hk : s.groups[k]? with
    | none => rfl
    | some x =>
      simp only [Option.map_some, Option.map_eq_map, Equiv.swap_apply_def]
      by_cases hik : i = k
      · obtain rfl : g = x := by
          rw [hik, hk] at hi
          exact (Option.some.inj hi).symm
        have hgk : ¬ ig = k := by
          rintro rfl
          rw [hk] at hy
          obtain rfl := Option.some.inj hy
          exact hne hyid.symm
        simp [hik, hgk]
      · have hxg : x.id ≠ g.id := fun he => hik (hsame k i x g hk hi he).symm
        by_cases hgk : ig = k
        · obtain rfl : y = x := by
            rw [hgk, hk] at hy
            exact (Option.some.inj hy).symm
          rw [hyid] at hxg
          simp [hik, hgk, hyid, hxg]
        · have hxh : x.id ≠ h.id := fun he => hgk (hsame k ig x y hk hy (he.trans hyid.symm)).symm
          simp [hik, hgk, hxg, hxh]
  · rw [List.map_map]
    refine List.map_congr_left fun c _ => ?_
    simp only [Function.comp_apply, Equiv.swap_apply_def]
    split_ifs <;> rfl

end Renaming

section Searching

variable {ids : List Int32}

theorem toInt_dec {nid r : Int32} (h : dec nid = some r) : r.toInt = nid.toInt - 1 := by
  rw [dec] at h
  split_ifs at h with hmin
  obtain rfl := Option.some.inj h
  have hne : nid.toInt ≠ -2 ^ 31 := fun he => hmin (Int32.toInt_inj.mp he)
  have hlo := nid.le_toInt
  have hhi := nid.toInt_lt
  rw [Int32.toInt_sub, Int32.toInt_one]
  exact Int.bmod_eq_of_le (by omega) (by omega)

theorem toInt_inc {nid r : Int32} (h : inc nid = some r) : r.toInt = nid.toInt + 1 := by
  rw [inc] at h
  split_ifs at h with hmax
  obtain rfl := Option.some.inj h
  have hne : nid.toInt ≠ 2 ^ 31 - 1 := fun he => hmax (Int32.toInt_inj.mp he)
  have hlo := nid.le_toInt
  have hhi := nid.toInt_lt
  rw [Int32.toInt_add, Int32.toInt_one]
  exact Int.bmod_eq_of_le (by omega) (by omega)

/-- Where the loop of `moveup` stops. -/
theorem upLoop_spec {n : ℕ} {nid r : Int32} (h : upLoop ids n nid = some r) :
    r ≤ nid ∧ (0 < r → r ∈ ids) ∧ ∀ j, 0 < j → r < j → j ≤ nid → j ∉ ids := by
  induction n generalizing nid with
  | zero => simp [upLoop] at h
  | succ n ih =>
    rw [upLoop] at h
    split_ifs at h with hpos hin
    · obtain rfl := Option.some.inj h
      refine ⟨Int32.le_refl _, fun _ => hin, fun j _ hr hn => ?_⟩
      exact absurd hn (Int32.not_le.mpr hr)
    · obtain ⟨m, hm, hr⟩ := Option.bind_eq_some_iff.mp h
      obtain ⟨hle, hmem, hnone⟩ := ih hr
      have hdec := toInt_dec hm
      simp only [Int32.le_iff_toInt_le, Int32.lt_iff_toInt_lt] at hle hnone ⊢
      refine ⟨by omega, fun h0 => hmem (Int32.lt_iff_toInt_lt.mpr h0), fun j h0 hrj hjn => ?_⟩
      by_cases hj : j = nid
      · rwa [hj]
      · have hne : j.toInt ≠ nid.toInt := fun he => hj (Int32.toInt_inj.mp he)
        exact hnone j h0 hrj (by omega)
    · obtain rfl := Option.some.inj h
      refine ⟨Int32.le_refl _, fun h0 => absurd h0 hpos, fun j _ hr hn => ?_⟩
      exact absurd hn (Int32.not_le.mpr hr)

theorem upLoop_total {n : ℕ} {nid : Int32} (h : nid.toInt < n) (h0 : 0 ≤ nid.toInt) :
    ∃ r, upLoop ids n nid = some r := by
  induction n generalizing nid with
  | zero => omega
  | succ n ih =>
    rw [upLoop]
    split_ifs with hpos hin
    · exact ⟨nid, rfl⟩
    · have hp : (0 : ℤ) < nid.toInt := Int32.lt_iff_toInt_lt.mp hpos
      have hdec : dec nid = some (nid - 1) := by
        rw [dec, if_neg]
        rintro rfl
        exact absurd hp (by decide)
      have hint := toInt_dec hdec
      rw [hdec, Option.bind_some]
      exact ih (by omega) (by omega)
    · exact ⟨nid, rfl⟩

/-- Where the loop of `movedown` stops. -/
theorem downLoop_spec {fid : Int32} {n : ℕ} {nid r : Int32} (h : downLoop ids fid n nid = some r) :
    nid ≤ r ∧ (r ≤ fid → r ∈ ids) ∧ ∀ j, nid ≤ j → j < r → j ∉ ids := by
  induction n generalizing nid with
  | zero => simp [downLoop] at h
  | succ n ih =>
    rw [downLoop] at h
    split_ifs at h with hle hin
    · obtain rfl := Option.some.inj h
      refine ⟨Int32.le_refl _, fun _ => hin, fun j hn hr => ?_⟩
      exact absurd hn (Int32.not_le.mpr hr)
    · obtain ⟨m, hm, hr⟩ := Option.bind_eq_some_iff.mp h
      obtain ⟨hle, hmem, hnone⟩ := ih hr
      have hinc := toInt_inc hm
      simp only [Int32.le_iff_toInt_le, Int32.lt_iff_toInt_lt] at hle hnone ⊢
      refine ⟨by omega, fun hl => hmem (Int32.le_iff_toInt_le.mpr hl), fun j hnj hjr => ?_⟩
      by_cases hj : j = nid
      · rwa [hj]
      · have hne : j.toInt ≠ nid.toInt := fun he => hj (Int32.toInt_inj.mp he)
        exact hnone j (by omega) hjr
    · obtain rfl := Option.some.inj h
      refine ⟨Int32.le_refl _, fun h0 => absurd h0 hle, fun j hn hr => ?_⟩
      exact absurd hn (Int32.not_le.mpr hr)

theorem downLoop_total {fid : Int32} (hfid : fid ∈ ids) {n : ℕ} {nid : Int32}
    (h : fid.toInt - nid.toInt + 1 < n) (h0 : 0 < n) : ∃ r, downLoop ids fid n nid = some r := by
  induction n generalizing nid with
  | zero => omega
  | succ n ih =>
    rw [downLoop]
    split_ifs with hle hin
    · exact ⟨nid, rfl⟩
    · have hl : nid.toInt ≤ fid.toInt := Int32.le_iff_toInt_le.mp hle
      have hne : nid.toInt ≠ fid.toInt := fun he => hin (Int32.toInt_inj.mp he ▸ hfid)
      have hhi := fid.toInt_lt
      have hinc : inc nid = some (nid + 1) := by
        rw [inc, if_neg]
        rintro rfl
        rw [Int32.toInt_maxValue] at hl hne
        omega
      have hint := toInt_inc hinc
      rw [hinc, Option.bind_some]
      exact ih (by omega) (by omega)
    · exact ⟨nid, rfl⟩

end Searching

section Moves

variable {s : Lists} {i : ℕ} {g : IcqGroup}

theorem mem_ids (hi : s.groups[i]? = some g) : g.id ∈ s.ids :=
  List.mem_map_of_mem (List.mem_of_getElem? hi)

theorem movesUp (hd : s.ids.Nodup) (hpos : ∀ k ∈ s.ids, 0 < k) (hi : s.groups[i]? = some g) :
    MovesUp s i g.id := by
  have hg := hpos g.id (mem_ids hi)
  have hg0 : (0 : ℤ) < g.id.toInt := Int32.lt_iff_toInt_lt.mp hg
  have hdec : dec g.id = some (g.id - 1) := by
    rw [dec, if_neg]
    intro hmin
    rw [hmin] at hg
    exact absurd hg (by decide)
  have hint := toInt_dec hdec
  obtain ⟨r, hr⟩ : ∃ r, upLoop s.ids g.id.toInt.toNat (g.id - 1) = some r :=
    upLoop_total (by omega) (by omega)
  obtain ⟨hle, hmem, hnone⟩ := upLoop_spec hr
  have hrun : moveup s i g.id.toInt.toNat = some (if 0 < r then exchange s i r else s) := by
    simp only [moveup, hi, hdec, hr, Option.bind_eq_bind, Option.bind_some]
  rw [Int32.le_iff_toInt_le] at hle
  have hbetween : ∀ k ∈ s.ids, k < g.id → ¬ r < k := by
    intro k hk hkg hrk
    refine hnone k (hpos k hk) hrk ?_ hk
    rw [Int32.le_iff_toInt_le, hint]
    have hlt := Int32.lt_iff_toInt_lt.mp hkg
    omega
  by_cases h0 : 0 < r
  · have hrg : r < g.id := by
      rw [Int32.lt_iff_toInt_lt]
      omega
    have hex := exchange_exchanged hd hi (hmem h0) (Int32.ne_of_lt hrg)
    rw [if_pos h0] at hrun
    refine ⟨_, _, hrun, sameGroups_of_exchanged hd (mem_ids hi) (hmem h0) hex, Or.inl ⟨r, ?_, hex⟩⟩
    exact ⟨hmem h0, hrg, fun k hk hkg => Int32.not_lt.mp (hbetween k hk hkg)⟩
  · rw [if_neg h0] at hrun
    refine ⟨_, _, hrun, sameGroups_refl s, Or.inr ⟨fun b hb hbg => ?_, rfl⟩⟩
    exact hbetween b hb hbg (Int32.lt_of_le_of_lt (Int32.not_lt.mp h0) (hpos b hb))

theorem not_exchanged_self {b : Int32} (hi : s.groups[i]? = some g) (hne : g.id ≠ b) :
    ¬ Exchanged s g.id b s := by
  intro h
  have hids := congrArg (·[i]?) (exchanged_ids h)
  simp only [Lists.ids, List.getElem?_map, hi, Option.map_some, Equiv.swap_apply_left] at hids
  exact hne (Option.some.inj hids)

theorem exists_below {a b : Int32} (hb : b ∈ s.ids) (hab : a < b) : ∃ c, Below s a c := by
  obtain ⟨c, hc, hmin⟩ := (s.ids.toFinset.filter (a < ·)).exists_min_image (·.toInt)
    ⟨b, by simp [hb, hab]⟩
  simp only [Finset.mem_filter, List.mem_toFinset] at hc hmin
  exact ⟨c, hc.1, hc.2, fun k hk hak => Int32.le_iff_toInt_le.mpr (hmin k ⟨hk, hak⟩)⟩

/-- The last group of the vector has no number below the nearest larger one. -/
def InReach (s : Lists) (a : Int32) : Prop :=
  ∀ b, Below s a b → ∀ fid ∈ s.ids.getLast?, b ≤ fid

theorem movesDown_iff (hd : s.ids.Nodup) (hi : s.groups[i]? = some g) :
    MovesDown s i g.id ↔ g.id ≠ Int32.maxValue ∧ InReach s g.id := by
  have hlast : ∃ fid, s.ids.getLast? = some fid ∧ fid ∈ s.ids := by
    have hne : s.ids ≠ [] := List.ne_nil_of_mem (mem_ids hi)
    exact ⟨_, List.getLast?_eq_some_getLast hne, List.getLast_mem hne⟩
  obtain ⟨fid, hfid, hfmem⟩ := hlast
  constructor
  · rintro ⟨n, s', hrun, -, hres⟩
    simp only [movedown, hi, hfid, Option.bind_eq_bind, Option.bind_some] at hrun
    obtain ⟨nid, hinc, hrun⟩ := Option.bind_eq_some_iff.mp hrun
    obtain ⟨r, hr, hrun⟩ := Option.bind_eq_some_iff.mp hrun
    obtain rfl := Option.some.inj hrun
    obtain ⟨hle, hmem, -⟩ := downLoop_spec hr
    have hint := toInt_inc hinc
    have hgr : g.id < r := by
      rw [Int32.le_iff_toInt_le] at hle
      rw [Int32.lt_iff_toInt_lt]
      omega
    refine ⟨fun hmax => ?_, fun b hb f hf => ?_⟩
    · rw [inc, if_pos hmax] at hinc
      cases hinc
    · obtain rfl : fid = f := Option.some.inj (hfid.symm.trans hf)
      by_contra hbf
      have hout : ¬ r ≤ fid := fun hrf => hbf (Int32.le_trans (hb.2.2 r (hmem hrf) hgr) hrf)
      rw [if_neg hout] at hres
      rcases hres with ⟨c, hc, hex⟩ | ⟨hnone, -⟩
      · exact not_exchanged_self hi (Int32.ne_of_lt hc.2.1) hex
      · exact hnone b hb.1 hb.2.1
  · rintro ⟨hmax, hreach⟩
    have hinc : inc g.id = some (g.id + 1) := if_neg hmax
    have hint := toInt_inc hinc
    obtain ⟨r, hr⟩ : ∃ r, downLoop s.ids fid ((fid.toInt - g.id.toInt).toNat + 1) (g.id + 1) =
        some r := downLoop_total hfmem (by omega) (by omega)
    obtain ⟨hle, hmem, hnone⟩ := downLoop_spec hr
    have hrun : movedown s i ((fid.toInt - g.id.toInt).toNat + 1) =
        some (if r ≤ fid then exchange s i r else s) := by
      simp only [movedown, hi, hfid, hinc, hr, Option.bind_eq_bind, Option.bind_some]
    rw [Int32.le_iff_toInt_le] at hle
    have hrg : g.id < r := by
      rw [Int32.lt_iff_toInt_lt]
      omega
    have hbetween : ∀ k ∈ s.ids, g.id < k → ¬ k < r := by
      intro k hk hgk hkr
      refine hnone k ?_ hkr hk
      rw [Int32.le_iff_toInt_le, hint]
      have hlt := Int32.lt_iff_toInt_lt.mp hgk
      omega
    by_cases hrf : r ≤ fid
    · have hex := exchange_exchanged hd hi (hmem hrf) (Int32.ne_of_lt hrg).symm
      rw [if_pos hrf] at hrun
      refine ⟨_, _, hrun, sameGroups_of_exchanged hd (mem_ids hi) (hmem hrf) hex,
        Or.inl ⟨r, ?_, hex⟩⟩
      exact ⟨hmem hrf, hrg, fun k hk hgk => Int32.not_lt.mp (hbetween k hk hgk)⟩
    · rw [if_neg hrf] at hrun
      refine ⟨_, _, hrun, sameGroups_refl s, Or.inr ⟨fun b hb hgb => ?_, rfl⟩⟩
      obtain ⟨c, hc⟩ := exists_below hb hgb
      have hcf := hreach c hc fid hfid
      exact hbetween c hc.1 hc.2.1 (Int32.lt_of_le_of_lt hcf (Int32.not_le.mp hrf))

end Moves

/-- Both moves of a group do what they should if and only if `movedown` can count on from its
number and the last group of the vector is not short of the next number. -/
theorem group_moves_iff (s : Lists) (i : ℕ) (g : IcqGroup) (hd : s.ids.Nodup)
    (hpos : ∀ k ∈ s.ids, 0 < k) (hi : s.groups[i]? = some g) :
    MovesUp s i g.id ∧ MovesDown s i g.id ↔ g.id ≠ Int32.maxValue ∧ InReach s g.id := by
  rw [movesDown_iff hd hi]
  exact and_iff_right (movesUp hd hpos hi)

theorem inReach_of_sorted {s : Lists} (h : s.ids.Pairwise (· ≤ ·)) (a : Int32) : InReach s a := by
  intro b hb fid hfid
  obtain ⟨ids, hids⟩ := List.getLast?_eq_some_iff.mp hfid
  rw [Below, hids] at hb
  rw [hids, List.pairwise_append] at h
  rcases List.mem_append.mp hb.1 with hm | hm
  · exact h.2.2 b hm fid (by simp)
  · rw [List.mem_singleton.mp hm]
    exact Int32.le_refl _

def friends : IcqContact := { cdesc := Contact.contactroot, groupid := 5 }

def ordered : Lists where
  groups := [⟨1, bytes "General", false⟩, ⟨5, bytes "Friends", true⟩]
  clist := [friends]

theorem group_moves_ordered : MovesUp ordered 1 5 ∧ MovesDown ordered 1 5 :=
  (group_moves_iff ordered 1 ⟨5, bytes "Friends", true⟩ (by decide)
    (by simp [ordered, Lists.ids]) rfl).mpr
    ⟨by decide, inReach_of_sorted (by simp [ordered, Lists.ids]) 5⟩

/-- A group added while the dialog is open stands last, with a small number. -/
def added : Lists where
  groups := [⟨1, bytes "General", false⟩, ⟨2, bytes "Work", false⟩, ⟨5, bytes "Friends", false⟩,
    ⟨9, bytes "Family", false⟩, ⟨3, bytes "Roster", false⟩]
  clist := [friends]

theorem group_not_moved : ¬ MovesDown added 2 5 ∧ movedown added 2 1 = some added := by
  refine ⟨?_, rfl⟩
  have hi : added.groups[2]? = some ⟨5, bytes "Friends", false⟩ := rfl
  rw [movesDown_iff (by decide) hi]
  rintro ⟨-, hreach⟩
  have hbelow : Below added 5 9 := by
    refine ⟨by decide, by decide, ?_⟩
    simp [added, Lists.ids]
  exact absurd (hreach 9 hbelow 3 rfl) (by decide)

end CenterIM.GroupMoves

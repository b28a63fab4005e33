import CenterIM.ContactFile

/-!
# The groups file

`icqgroups` writes each group as its number and its name, and then once more the number of
each group that is collapsed. A name that begins with a blank or a tab loses it when it is
read back, since the number is split off as a word.
-/
namespace CenterIM.Groups
open ByteText Decimal LineStream StrText
open ContactFile (eachLine overLines eachLine_lines eachLine_inv overLines_append)

structure IcqGroup where
  id : Int32
  name : Str
  collapsed : Bool := false
  deriving DecidableEq

def general : IcqGroup := { id := 1, name := bytes "General" }

def groupLine (g : IcqGroup) : Str := i2str g.id ++ tab :: g.name

/-- `icqgroups::save`. -/
def save (enoughdiskspace : Bool) (f : Option Str) (groups : List IcqGroup) : Option Str :=
  if enoughdiskspace then
    some (unlines (groups.map groupLine ++ (groups.filter (·.collapsed)).map fun g => i2str g.id))
  else f

/-- `changecollapsed` of the first group with this number. -/
def changecollapsed (gid : Int32) : List IcqGroup → List IcqGroup
  | [] => []
  | g :: groups =>
    if g.id = gid then { g with collapsed := !g.collapsed } :: groups
    else g :: changecollapsed gid groups

/-- What the loop of `icqgroups::load` does with a line. -/
def loadLine (_ : ℕ) (buf : Str) (groups : List IcqGroup) : List IcqGroup :=
  let (word, buf) := getword buf wordDelim
  let gid := atoi word
  if gid ≠ 0 then
    if buf ≠ [] then groups ++ [{ id := gid, name := buf }] else changecollapsed gid groups
  else groups

/-- `icqgroups::load`. -/
def load (f : Option Str) : List IcqGroup :=
  let groups := (f.map fun content => eachLine loadLine content []).getD []
  if 1 ∈ groups.map (·.id) then groups else groups ++ [general]

/-- `icqgroups::getname`. -/
def getname (groups : List IcqGroup) (gid : Int32) : Str :=
  ((groups.find? (·.id = gid)).map (·.name)).getD []

/-- Saved and loaded, the groups are as they were, with the one of number 1 if it was missing. -/
def RoundTrip (f : Option Str) (groups : List IcqGroup) : Prop :=
  load (save true f groups) =
    if 1 ∈ groups.map (·.id) then groups else groups ++ [general]

section Loading

theorem changecollapsed_names (gid : Int32) (groups : List IcqGroup) :
    (changecollapsed gid groups).map (·.name) = groups.map (·.name) := by
  induction groups with
  | nil => rfl
  | cons g groups ih =>
    rw [changecollapsed]
    split_ifs
    · rfl
    · rw [List.map_cons, ih, List.map_cons]

theorem loadLine_kept (i : ℕ) (buf : Str) (groups : List IcqGroup) (hb : nul ∉ buf)
    (h : ∀ n ∈ groups.map (·.name), Kept n) :
    ∀ n ∈ (loadLine i buf groups).map (·.name), Kept n := by
  simp only [loadLine]
  split_ifs
  · intro n hn
    rw [List.map_append, List.mem_append] at hn
    rcases hn with hn | hn
    · exact h n hn
    · rw [List.mem_singleton.mp hn]
      exact getword_kept hb
  · rwa [changecollapsed_names]
  · exact h

theorem load_kept (f : Option Str) : ∀ n ∈ (load f).map (·.name), Kept n := by
  have hgroups : ∀ n ∈ ((f.map fun content => eachLine loadLine content []).getD []).map (·.name),
      Kept n := by
    have hnil : ∀ n ∈ ([] : List IcqGroup).map (·.name), Kept n := by simp
    cases f with
    | none => exact hnil
    | some content =>
      exact eachLine_inv (P := fun groups : List IcqGroup => ∀ n ∈ groups.map (·.name), Kept n)
        loadLine_kept content hnil
  have hgeneral : Kept general.name := by
    refine ⟨by decide, fun c hc => ?_⟩
    obtain rfl : 71 = c := Option.some.inj hc
    decide
  rw [load]
  split_ifs
  · exact hgroups
  · intro n hn
    rw [List.map_append, List.mem_append] at hn
    rcases hn with hn | hn
    · exact hgroups n hn
    · rwa [List.mem_singleton.mp hn]

end Loading

section Saved

variable {groups : List IcqGroup}

theorem groupLine_load (i : ℕ) {g : IcqGroup} (hid : g.id ≠ 0) (hne : g.name ≠ [])
    (hk : Kept g.name) : loadLine i (groupLine g) groups = groups ++ [{ g with collapsed := false }] := by
  have hword := getword_word (r := g.name) (decimalInt_inWord g.id.toInt)
    (decimalInt_ne_nil g.id.toInt) (show tab ∈ wordDelim by decide)
  rw [leadcut_kept hk] at hword
  rw [groupLine, i2str, loadLine, hword]
  simp [atoi_decimalInt, hid, hne]

theorem idLine_load (i : ℕ) {gid : Int32} (hid : gid ≠ 0) :
    loadLine i (i2str gid) groups = changecollapsed gid groups := by
  have hword := getword_last (decimalInt_inWord gid.toInt) (decimalInt_ne_nil gid.toInt)
  rw [i2str, loadLine, hword]
  simp [atoi_decimalInt, hid]

theorem groupLines_load (i : ℕ) (done : List IcqGroup)
    (h : ∀ g ∈ groups, g.id ≠ 0 ∧ g.name ≠ [] ∧ Kept g.name) :
    overLines loadLine i (groups.map groupLine) done =
      done ++ groups.map fun g => { g with collapsed := false } := by
  induction groups generalizing i done with
  | nil => simp [overLines]
  | cons g groups ih =>
    obtain ⟨hid, hne, hk⟩ := h g (by simp)
    rw [List.map_cons, overLines, groupLine_load i hid hne hk,
      ih _ _ fun g hg => h g (by simp [hg])]
    simp

theorem changecollapsed_at (done rest : List IcqGroup) {g : IcqGroup}
    (h : g.id ∉ done.map (·.id)) :
    changecollapsed g.id (done ++ g :: rest) = done ++ { g with collapsed := !g.collapsed } :: rest := by
  induction done with
  | nil => simp [changecollapsed]
  | cons d done ih =>
    simp only [List.map_cons, List.mem_cons, not_or] at h
    rw [List.cons_append, changecollapsed, if_neg (Ne.symm h.1), ih h.2, List.cons_append]

theorem collapsedLines_load (i : ℕ) (done : List IcqGroup) (hid : ∀ g ∈ groups, g.id ≠ 0)
    (hd : ((done ++ groups).map (·.id)).Nodup) :
    overLines loadLine i ((groups.filter (·.collapsed)).map fun g => i2str g.id)
      (done ++ groups.map fun g => { g with collapsed := false }) = done ++ groups := by
  induction groups generalizing i done with
  | nil => simp [overLines]
  | cons g groups ih =>
    have hnext : ((done ++ [g] ++ groups).map (·.id)).Nodup := by simpa using hd
    have hrest := fun j => ih j (done ++ [g]) (fun h hh => hid h (by simp [hh])) hnext
    by_cases hc : g.collapsed
    · have hnot : g.id ∉ done.map (·.id) := by
        rw [List.map_append, List.nodup_append] at hd
        intro hm
        exact hd.2.2 _ hm _ (by simp) rfl
      have hat := changecollapsed_at (g := { g with collapsed := false }) done
        (groups.map fun g => { g with collapsed := false }) hnot
      have hg : ({ g with collapsed := true } : IcqGroup) = g := by
        cases g
        simp_all
      rw [List.filter_cons_of_pos (by simpa using hc), List.map_cons, overLines,
        idLine_load i (hid g (by simp)), List.map_cons, hat]
      simpa [hg] using hrest (i + 1)
    · have hg : ({ g with collapsed := false } : IcqGroup) = g := by
        cases g
        simp_all
      rw [List.filter_cons_of_neg (by simpa using hc), List.map_cons, hg]
      simpa using hrest i

theorem load_save (f : Option Str) (hd : (groups.map (·.id)).Nodup)
    (h : ∀ g ∈ groups, g.id ≠ 0 ∧ g.name ≠ [] ∧ lf ∉ g.name ∧ Kept g.name) : RoundTrip f groups := by
  have hlf : ∀ l ∈ groups.map groupLine ++ (groups.filter (·.collapsed)).map fun g => i2str g.id,
      lf ∉ l ∧ nul ∉ l := by
    intro l hl
    rcases List.mem_append.mp hl with hl | hl
    · obtain ⟨g, hg, rfl⟩ := List.mem_map.mp hl
      obtain ⟨-, -, hn, hk, -⟩ := h g hg
      have hp := decimalInt_plain g.id.toInt
      simp [groupLine, i2str, hp.1, hp.2, hn, hk, tab, lf, nul]
    · obtain ⟨g, -, rfl⟩ := List.mem_map.mp hl
      exact decimalInt_plain g.id.toInt
  have hnul : nul ∉ unlines (groups.map groupLine ++
      (groups.filter (·.collapsed)).map fun g => i2str g.id) := by
    intro hm
    obtain ⟨l, hl, hc⟩ := List.mem_flatMap.mp hm
    rcases List.mem_append.mp hc with hc | hc
    · exact (hlf l hl).2 hc
    · exact absurd (List.mem_singleton.mp hc) (by decide)
  have hlast : ∀ (i : ℕ) (gs : List IcqGroup), overLines loadLine i [[]] gs = gs := by
    intro i gs
    rfl
  have hload : eachLine loadLine (unlines (groups.map groupLine ++
      (groups.filter (·.collapsed)).map fun g => i2str g.id)) [] = groups := by
    have hgroup := groupLines_load 0 [] fun g hg => ⟨(h g hg).1, (h g hg).2.1, (h g hg).2.2.2⟩
    have hflag := fun i => collapsedLines_load i [] (fun g hg => (h g hg).1) hd
    simp only [List.nil_append] at hgroup hflag
    rw [eachLine_lines _ hnul, lines_unlines fun l hl => (hlf l hl).1, overLines_append,
      overLines_append, hgroup, hflag, hlast]
  rw [RoundTrip, save, if_pos rfl, load]
  simp only [Option.map_some, Option.getD_some, hload]

end Saved

/-- The file gives the groups back if and only if no name has a NUL or begins with a delimiter. -/
theorem groups_round_trip (f : Option Str) (groups : List IcqGroup)
    (hd : (groups.map (·.id)).Nodup) (hpos : ∀ g ∈ groups, 0 < g.id)
    (hname : ∀ g ∈ groups, g.name ≠ [] ∧ lf ∉ g.name) :
    RoundTrip f groups ↔ ∀ g ∈ groups, Kept g.name := by
  constructor
  · intro h g hg
    have hkept := load_kept (save true f groups) g.name
    rw [h] at hkept
    apply hkept
    split_ifs
    · exact List.mem_map_of_mem hg
    · simp [List.mem_map_of_mem hg]
  · intro h
    refine load_save f hd fun g hg => ⟨?_, (hname g hg).1, (hname g hg).2, h g hg⟩
    rintro h0
    have hp := hpos g hg
    rw [h0] at hp
    exact absurd hp (by decide)

theorem groups_round_trip_plain :
    RoundTrip none [⟨2, bytes "work and play", true⟩, ⟨7, bytes "b", false⟩] :=
  (groups_round_trip none _ (by decide) (by decide) (by decide)).mpr (by
    unfold Kept
    simp [bytes, nul, wordDelim, tab, lf, cr, blank])

theorem groups_not_round_trip :
    ¬ RoundTrip none [⟨1, bytes "General", false⟩, ⟨2, bytes " Friends", true⟩] ∧
      load (save true none [⟨1, bytes "General", false⟩, ⟨2, bytes " Friends", true⟩]) =
        [⟨1, bytes "General", false⟩, ⟨2, bytes "Friends", true⟩] := by
  have hload : load (save true none [⟨1, bytes "General", false⟩, ⟨2, bytes " Friends", true⟩]) =
      [⟨1, bytes "General", false⟩, ⟨2, bytes "Friends", true⟩] := by
    decide +kernel
  refine ⟨?_, hload⟩
  rw [RoundTrip, hload]
  decide

end CenterIM.Groups

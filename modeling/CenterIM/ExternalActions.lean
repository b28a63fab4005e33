import CenterIM.Contact

/-!
# Manual external actions

The menu of external actions has the manual ones for the protocol of a contact, each with its
place in the list of all actions. What is executed is found by the place in the menu. Running a
script is the system's and a parameter: it gives the return code and the output.
-/
namespace CenterIM.ExternalActions
open ByteText Decimal StrText Contact

abbrev aostdin : UInt32 := 2
abbrev aostdout : UInt32 := 4
abbrev aoprereceive : UInt32 := 8
abbrev aopresend : UInt32 := 16
abbrev aomanual : UInt32 := 32
abbrev aonowait : UInt32 := 64

structure Action where
  proto : List ProtocolName
  options : UInt32 := 0
  enabled : Bool := true
  name : Str := []
  code : Str := []

/-- `imexternal::action::matches`. -/
def Action.matches (a : Action) (aoptions : UInt32) (apname : ProtocolName) : Bool :=
  decide (a.options &&& aoptions ≠ 0 ∧ apname ∈ a.proto)

def Action.script (a : Action) : Str :=
  (if a.code.take 2 ≠ bytes "#!" then bytes "#!/bin/sh\n\n" else []) ++ a.code ++ [lf]

/-- The execution of an action: its place in the list, the contact, what was logged, and the
output. -/
structure Execution where
  index : ℕ
  contact : ImContact
  log : Str
  output : Str

/-- `imexternal::action::exec(ic, outbuf)`, for the action at a place. -/
def Action.exec (execscript : Str → ImContact → Int32 × Str) (a : Action) (index : ℕ)
    (ic : ImContact) : Option Execution :=
  if a.enabled then
    if a.options &&& aomanual ≠ 0 then
      let (result, output) := execscript a.script ic
      let buf := snprintf 512 (bytes "executed external manual action " ++ cstr a.name ++
        bytes ", return code = " ++ decimalInt result.toInt)
      some ⟨index, ic, buf, output⟩
    else none
  else none

/-- `imexternal::execmanual(ic, id, outbuf)`. -/
def execmanual (execscript : Str → ImContact → Int32 × Str) (actions : List Action)
    (ic : ImContact) (id : ℤ) : Option Execution :=
  if id < actions.length ∧ 0 ≤ id then
    actions[id.toNat]?.bind fun a => a.exec execscript id.toNat ic
  else none

/-- The loop of `getlist`, from a place on. -/
def listFrom (options : UInt32) (pname : ProtocolName) : ℕ → List Action → List (ℕ × Str)
  | _, [] => []
  | i, a :: as =>
    if a.matches options pname then (i, a.name) :: listFrom options pname (i + 1) as
    else listFrom options pname (i + 1) as

/-- `imexternal::getlist(options, pname)`. -/
def getlist (actions : List Action) (options : UInt32) (pname : ProtocolName) : List (ℕ × Str) :=
  listFrom options pname 0 actions

structure Outcome where
  executed : Option Execution := none
  shown : Option Str := none

/-- `icqface::userinfoexternal(ic)`, where the menu returns `i`: the number of the entry that is
chosen, or nothing. -/
def userinfoexternal (execscript : Str → ImContact → Int32 × Str) (actions : List Action)
    (ic : ImContact) (i : ℕ) : Outcome :=
  let r := getlist actions aomanual ic.pname
  if r = [] then {}
  else if i = 0 then {}
  else
    let cbuf := snprintf 512 (bytes "Result of the external action " ++
      cstr ((r[i - 1]?.map Prod.snd).getD []) ++ bytes ":")
    let executed := execmanual execscript actions ic ((i : ℤ) - 1)
    let buf := (executed.map Execution.output).getD []
    ⟨executed, if buf = [] then none else some (cbuf ++ bytes "\n\n" ++ buf)⟩

variable {options : UInt32} {pname : ProtocolName} {as : List Action} {i k : ℕ} {e : ℕ × Str}

/-- An entry of the menu stands for an action that matches, at or behind its own place, and at
its own place when all actions up to there match. -/
theorem listFrom_entry (h : (listFrom options pname i as)[k]? = some e) :
    (∃ a, as[e.1 - i]? = some a ∧ a.matches options pname = true ∧ e.2 = a.name) ∧ i + k ≤ e.1 ∧
      (e.1 = i + k ↔ ∀ a ∈ as.take (k + 1), a.matches options pname = true) := by
  induction as generalizing i k with
  | nil => cases h
  | cons a as ih =>
    rw [listFrom] at h
    rw [List.take_succ_cons, List.forall_mem_cons]
    by_cases ha : a.matches options pname = true
    · rw [if_pos ha] at h
      cases k with
      | zero =>
        obtain rfl := Option.some.inj h
        refine ⟨⟨a, by simp, ha, rfl⟩, le_rfl, fun _ => ⟨ha, by simp⟩, fun _ => rfl⟩
      | succ k =>
        obtain ⟨⟨b, hb, hmatch, hname⟩, hle, hiff⟩ := ih h
        have hsub : e.1 - i = (e.1 - (i + 1)) + 1 := by omega
        refine ⟨⟨b, ?_, hmatch, hname⟩, by omega, ?_⟩
        · rw [hsub, List.getElem?_cons_succ]
          exact hb
        · rw [show i + (k + 1) = i + 1 + k by omega, hiff, and_iff_right ha]
    · rw [if_neg ha] at h
      obtain ⟨⟨b, hb, hmatch, hname⟩, hle, -⟩ := ih h
      have hsub : e.1 - i = (e.1 - (i + 1)) + 1 := by omega
      refine ⟨⟨b, ?_, hmatch, hname⟩, by omega, fun heq => by omega, fun hall => absurd hall.1 ha⟩
      rw [hsub, List.getElem?_cons_succ]
      exact hb

theorem execmanual_index (execscript : Str → ImContact → Int32 × Str) (actions : List Action)
    (ic : ImContact) (k j : ℕ) :
    (execmanual execscript actions ic k).map Execution.index = some j ↔
      j = k ∧ ∃ a, actions[k]? = some a ∧ a.enabled = true ∧ a.options &&& aomanual ≠ 0 := by
  rw [execmanual]
  cases ha : actions[k]? with
  | none =>
    have hlen := List.getElem?_eq_none_iff.mp ha
    rw [if_neg (by omega)]
    simp
  | some a =>
    have hlen := (List.getElem?_eq_some_iff.mp ha).1
    rw [if_pos (by omega), Int.toNat_natCast, ha, Option.bind_some, Action.exec]
    split_ifs with he hm
    · constructor
      · intro h
        exact ⟨(Option.some.inj h).symm, a, rfl, he, hm⟩
      · intro ⟨h, _⟩
        rw [h]
        rfl
    · simp [hm]
    · simp [he]

/-- The action that an entry stands for is executed just when all actions up to its place in the
list match, and it is enabled. -/
theorem chosen_iff (execscript : Str → ImContact → Int32 × Str) (actions : List Action)
    (ic : ImContact) (k : ℕ) (e : ℕ × Str)
    (h : (getlist actions aomanual ic.pname)[k]? = some e) :
    (userinfoexternal execscript actions ic (k + 1)).executed.map Execution.index = some e.1 ↔
      (∀ a ∈ actions.take (k + 1), a.matches aomanual ic.pname = true) ∧
        ∃ a, actions[k]? = some a ∧ a.enabled = true := by
  obtain ⟨⟨a, ha, hmatch, -⟩, -, hiff⟩ := listFrom_entry h
  rw [Nat.zero_add] at hiff
  rw [Nat.sub_zero] at ha
  have hne : getlist actions aomanual ic.pname ≠ [] := by
    intro hnil
    rw [hnil] at h
    cases h
  have hexec : (userinfoexternal execscript actions ic (k + 1)).executed =
      execmanual execscript actions ic k := by
    rw [userinfoexternal]
    dsimp only
    rw [if_neg hne, if_neg (Nat.succ_ne_zero k)]
    simp
  rw [hexec, execmanual_index, hiff]
  constructor
  · intro ⟨hall, b, hb, hen, _⟩
    exact ⟨hall, b, hb, hen⟩
  · intro ⟨hall, b, hb, hen⟩
    have hman : a.options &&& aomanual ≠ 0 := (of_decide_eq_true hmatch).1
    rw [hiff.mpr hall, hb] at ha
    obtain rfl := Option.some.inj ha
    exact ⟨hall, b, hb, hen, hman⟩

/-- An action for one protocol that is run by hand. -/
def manual (name : Str) (pname : ProtocolName) : Action :=
  { proto := [pname], options := aomanual, name := name }

def twoActions : List Action := [manual (bytes "ping") .icq, manual (bytes "whois") .msn]

/-- The second entry of the menu for an ICQ contact, where a third action is for others. -/
theorem chosen_ping :
    (userinfoexternal (fun _ _ => (0, bytes "pong"))
      [manual (bytes "trace") .icq, manual (bytes "ping") .icq, manual (bytes "whois") .msn]
      (ImContact.ofUin 5 .icq) 2).executed.map Execution.index = some 1 :=
  (chosen_iff _ _ (ImContact.ofUin 5 .icq) 1 (1, bytes "ping") rfl).mpr
    ⟨by decide, manual (bytes "ping") .icq, rfl, rfl⟩

/-- The only entry of the menu for an MSN contact executes the action for ICQ. -/
theorem other_action : ¬ ∀ (execscript : Str → ImContact → Int32 × Str) (actions : List Action)
    (ic : ImContact) (k : ℕ) (e : ℕ × Str), (∀ a ∈ actions, a.enabled = true) →
    (getlist actions aomanual ic.pname)[k]? = some e →
      (userinfoexternal execscript actions ic (k + 1)).executed.map Execution.index =
        some e.1 := by
  intro h
  have hone := h (fun _ _ => (0, [])) twoActions (ImContact.ofNick (bytes "bob") .msn) 0
    (1, bytes "whois") (by decide) rfl
  exact absurd hone (by decide)

end CenterIM.ExternalActions

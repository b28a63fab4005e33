import CenterIM.Accounts
import CenterIM.ExternalActions

/-!
# The file of external actions

Sections of the file are found by header lines. `getconf` gives the next line of interest and
keeps the header in a static variable; `action::load` goes on until a parameter line comes
behind code, and seeks back to the end of the code. So a section ends where the next one begins
only when a line of its code was given.
-/
namespace CenterIM.ExternalFile
open ByteText LineStream StrText Contact Event ExternalActions

structure Action extends ExternalActions.Action where
  event : List ImEventType := []
  status : List ImStatus := []
  proto := []

/-- Does `getconf` skip the line as a comment? A line with `#!` is none. -/
def isComment (buf : Str) : Bool := decide (buf.head? = some 35 ∧ buf[1]? ≠ some 33)

/-- `getconf(st, buf, f, passemptylines)`: the line that is left in `buf` if it returns true,
and the static variable `sect`, which is also put into `st`. -/
def getconf : ℕ → Bool → Str → IStream → Option Str × Str × IStream
  | 0, _, sect, f => (none, sect, f)
  | fuel + 1, passemptylines, sect, f =>
    if f.eof then (none, sect, f)
    else
      let (_, buf, f) := getstring f []
      if buf = [] then
        if passemptylines then (some buf, sect, f) else getconf fuel passemptylines sect f
      else if buf.head? = some 37 then getconf fuel passemptylines (buf.drop 1) f
      else if isComment buf then getconf fuel passemptylines sect f
      else (some buf, sect, f)

/-- The kinds of actions with a flag of their own. -/
def actions : List (Str × UInt32) :=
  [(bytes "pre-receive", aoprereceive), (bytes "pre-send", aopresend), (bytes "manual", aomanual)]

/-- `npos`: the first blank of a header, or its end. -/
def npos (sect : Str) : ℕ := sect.findIdx fun c => c = blank ∨ c = tab

/-- `aname`. -/
def sectionKind (sect : Str) : Str := sect.take (npos sect)

/-- `action`: is the section that of an action's parameters? -/
def isAction (aname : Str) : Bool := decide (aname = bytes "action" ∨ aname ∈ actions.map Prod.fst)

def geteventname : ImEventType → Str
  | .message => bytes "msg"
  | .url => bytes "url"
  | .sms => bytes "sms"
  | .online => bytes "online"
  | .offline => bytes "offline"
  | .notification => bytes "notification"
  | .authorization => bytes "auth"
  | .contacts => bytes "contacts"
  | .file => bytes "file"
  | _ => []

/-- The event types from `message` up to `imeventtype_size`, with their names. -/
def events : List (Str × ImEventType) :=
  [.message, .url, .sms, .authorization, .online, .offline, .email, .notification, .contacts,
    .file, .xml].map fun et => (geteventname et, et)

/-- The protocols up to `protocolname_size`, with their names. -/
def protocolnames : List (Str × ProtocolName) :=
  Accounts.protocols.map fun pname => (Accounts.getprotocolname pname, pname)

def statuses : List (Str × ImStatus) :=
  [(bytes "online", .available), (bytes "away", .away), (bytes "dnd", .dontdisturb),
    (bytes "na", .notavail), (bytes "ofl", .outforlunch), (bytes "occupied", .occupied),
    (bytes "ffc", .freeforchat), (bytes "invisible", .invisible)]

/-- The words that a loop `while(!(param = getword(buf)).empty())` goes through. -/
def words (buf : Str) : List Str := wordsLoop (buf.length + 1) buf

section
variable {α : Type} [DecidableEq α]

def insertNamed (table : List (Str × α)) (s : List α) (param : Str) : List α :=
  table.foldl (fun s e => if param = e.1 ∨ param = bytes "all" then s.insert e.2 else s) s

end

def addOption (options : UInt32) (param : Str) : UInt32 :=
  if param = bytes "stdin" then options ||| aostdin
  else if param = bytes "stdout" then options ||| aostdout
  else if param = bytes "nowait" then options ||| aonowait
  else options

/-- What a line of the section sets by the header alone: the name and the kind. -/
def Action.header (a : Action) (sect : Str) : Action :=
  let name :=
    if npos sect ≠ sect.length ∧ a.name = [] then leadcut (sect.drop (npos sect + 1)) wordDelim
    else a.name
  let options := match actions.find? fun e => sectionKind sect = e.1 with
    | some e => if a.options &&& e.2 = 0 then a.options ||| e.2 else a.options
    | none => a.options
  { a with name := name, options := options }

def Action.param (a : Action) (buf : Str) : Action :=
  let (param, buf) := getword buf wordDelim
  if param = bytes "event" then
    { a with event := (words buf).foldl (insertNamed events) a.event }
  else if param = bytes "proto" then
    { a with proto := (words buf).foldl (insertNamed protocolnames) a.proto }
  else if param = bytes "status" then
    { a with status := (words buf).foldl (insertNamed statuses) a.status }
  else if param = bytes "options" then
    { a with options := (words buf).foldl addOption a.options }
  else a

def Action.addCode (a : Action) (buf : Str) : Action :=
  { a with code := (if a.code ≠ [] then a.code ++ [lf] else a.code) ++ buf }

/-- The body of the loop of `action::load`: the action and `wasexec`, or nothing when it seeks
back and breaks. -/
def Action.line (a : Action) (wasexec : Bool) (sect buf : Str) : Option (Action × Bool) :=
  if isAction (sectionKind sect) then
    if wasexec then none else some ((a.header sect).param buf, wasexec)
  else if sect = bytes "exec" then some (a.addCode buf, true)
  else some (a, wasexec)

/-- What `action::load` leaves: the action, what it returns, the static variable of `getconf`,
and the stream. -/
structure Result where
  action : Action
  wasexec : Bool
  sect : Str
  f : IStream

/-- The loop of `action::load`. Its own `sect` and the static variable differ at first; `pos` is
what is left of the stream behind the last line. -/
def loadLoop : ℕ → Action → Str → Bool → IStream → Str → IStream → Result
  | 0, a, _, wasexec, _, static, f => ⟨a, wasexec, static, f⟩
  | fuel + 1, a, sect, wasexec, pos, static, f =>
    match getconf (f.size + 1) (sect = bytes "exec") static f with
    | (none, static, f) => ⟨a, wasexec, static, f⟩
    | (some buf, sect, f) =>
      match a.line wasexec sect buf with
      | none => ⟨a, wasexec, sect, pos⟩
      | some (a, wasexec) => loadLoop fuel a sect wasexec f sect f

/-- The options at the end: a manual action shows its output. -/
def Action.finish (a : Action) : Action :=
  if a.options &&& aomanual ≠ 0 then
    if a.options &&& aostdout = 0 then { a with options := a.options ||| aostdout } else a
  else a

/-- `action::load(f)`, for an action just made. -/
def loadAction (static : Str) (f : IStream) : Result :=
  let r := loadLoop (f.size + 1) {} [] false f static f
  { r with action := r.action.finish }

/-- The loop of `imexternal::load`: the actions, and the static variable. -/
def loadActions : ℕ → Str → IStream → List Action × Str
  | 0, static, _ => ([], static)
  | fuel + 1, static, f =>
    if f.eof then ([], static)
    else
      let r := loadAction static f
      let rest := loadActions fuel r.sect r.f
      (if r.wasexec then r.action :: rest.1 else rest.1, rest.2)

/-- The list of actions, and the static variable of `getconf`. -/
structure State where
  actions : List Action
  sect : Str

/-- `imexternal::load()`; the file is there or not. -/
def load (st : State) (file : Option Str) : State :=
  match file with
  | none => ⟨[], st.sect⟩
  | some s =>
    let r := loadActions (s.length + 2) st.sect (.ofContent s)
    ⟨r.1, r.2⟩

def fields (l : Str) : List Str := (l.splitOnP (· ∈ wordDelim)).filter (· ≠ [])

def lineValues (param l : Str) : List Str :=
  if (fields l).head? = some param then (fields l).tail else []

def kindOption (kind : Str) : UInt32 := ((actions.find? (kind = ·.1)).map Prod.snd).getD 0

def flags (stdin stdout nowait : Bool) : UInt32 :=
  (if stdin then aostdin else 0) ||| (if stdout then aostdout else 0) |||
    (if nowait then aonowait else 0)

def isRead (l : Str) : Bool := decide (l ≠ []) && !isComment l

/-- A line that says nothing where no code is read. -/
def Noise (l : Str) : Prop := Plain l ∧ (l = [] ∨ isComment l = true)

structure Section where
  kind : Str
  blanks : Str
  name : Str
  params : List Str
  code : List Str
  kind_mem : isAction kind = true
  blanks_ne : blanks ≠ []
  blanks_mem : ∀ c ∈ blanks, c = blank ∨ c = tab
  name_head : ∃ c ∈ name.head?, c ∉ wordDelim
  plain : ∀ l ∈ name :: (params ++ code), Plain l
  no_header : ∀ l ∈ params ++ code, l.head? ≠ some 37
  params_read : ∃ l ∈ params, isRead l = true
  code_ne : code ≠ []

namespace Section
variable (x : Section)

def header : Str := x.kind ++ (x.blanks ++ x.name)

def lines : List Str := (37 :: x.header) :: (x.params ++ bytes "%exec" :: x.code)

def values (param : Str) : List Str := (x.params.filter isRead).flatMap (lineValues param)

def Names (param value : Str) : Prop :=
  value ∈ x.values param ∨ bytes "all" ∈ x.values param

/-- The code without comments, from its first line that is not empty. -/
def text : Str := [lf].intercalate ((x.code.filter fun l => !isComment l).dropWhile (· = []))

def options : UInt32 :=
  kindOption x.kind |||
    flags (bytes "stdin" ∈ x.values (bytes "options"))
      (bytes "stdout" ∈ x.values (bytes "options") ∨ x.kind = bytes "manual")
      (bytes "nowait" ∈ x.values (bytes "options"))

/-- A line of the code is neither empty nor a comment. -/
def Coded : Prop := ∃ l ∈ x.code, isRead l = true

instance : Decidable x.Coded := inferInstanceAs (Decidable (∃ l ∈ x.code, isRead l = true))

/-- The action is what the section says, and nothing else. -/
structure Loaded (a : Action) : Prop where
  name : a.name = x.name
  enabled : a.enabled = true
  event : ∀ et, et ∈ a.event ↔ ∃ s, (s, et) ∈ events ∧ x.Names (bytes "event") s
  proto : ∀ p, p ∈ a.proto ↔ ∃ s, (s, p) ∈ protocolnames ∧ x.Names (bytes "proto") s
  status : ∀ st, st ∈ a.status ↔ ∃ s, (s, st) ∈ statuses ∧ x.Names (bytes "status") s
  options : a.options = x.options
  code : a.code = x.text

end Section

theorem fields_delim {c : Byte} (hc : c ∈ wordDelim) (s : Str) : fields (c :: s) = fields s := by
  have h : (c :: s).splitOnP (· ∈ wordDelim) = [] :: s.splitOnP (· ∈ wordDelim) := by
    have hsep : (fun c => decide (c ∈ wordDelim)) c = true := by simpa using hc
    simpa using List.splitOnP_append_cons [] s hsep
  rw [fields, h, List.filter_cons_of_neg (by simp)]
  rfl

theorem fields_leadcut (s : Str) : fields (leadcut s wordDelim) = fields s := by
  induction s with
  | nil => rfl
  | cons c s ih =>
    by_cases hc : c ∈ wordDelim
    · rw [leadcut, List.dropWhile_cons_of_pos (by simpa using hc), fields_delim hc]
      exact ih
    · rw [leadcut, List.dropWhile_cons_of_neg (by simpa using hc)]

theorem fields_last {w : Str} (hw : ∀ c ∈ w, decide (c ∈ wordDelim) = false) (hne : w ≠ []) :
    fields w = [w] := by
  rw [fields, List.splitOnP_eq_singleton hw, List.filter_cons_of_pos (by simpa using hne)]
  rfl

theorem fields_word {w : Str} (hw : ∀ c ∈ w, decide (c ∈ wordDelim) = false) (hne : w ≠ [])
    {d : Byte} (hd : d ∈ wordDelim) (t : Str) : fields (w ++ d :: t) = w :: fields t := by
  have h := List.splitOnP_append_cons_of_forall_mem hw d (by simpa using hd) t
  rw [fields, h, List.filter_cons_of_pos (by simpa using hne)]
  rfl

/-- A line without words is used up; else `getword` takes the first one. -/
theorem fields_getword {s : Str} (hs : nul ∉ s) :
    ((getword s wordDelim).1 = [] ∧ fields s = []) ∨
      ((getword s wordDelim).1 ≠ [] ∧
        fields s = (getword s wordDelim).1 :: fields (getword s wordDelim).2 ∧
        (getword s wordDelim).2.length < s.length ∧ nul ∉ (getword s wordDelim).2) := by
  have hlen : (leadcut s wordDelim).length ≤ s.length := List.length_dropWhile_le _ _
  have hnul : nul ∉ leadcut s wordDelim := fun hm => hs (leadcut_subset _ _ hm)
  have hhead := leadcut_head s wordDelim
  rw [← getword_leadcut, ← fields_leadcut s]
  generalize leadcut s wordDelim = b at hlen hnul hhead ⊢
  -- the word and what is behind it
  have hsplit := List.takeWhile_append_dropWhile (p := inWord wordDelim) (l := b)
  have hw : ∀ c ∈ b.takeWhile (inWord wordDelim), inWord wordDelim c = true :=
    fun c hc => List.mem_takeWhile_imp hc
  generalize b.takeWhile (inWord wordDelim) = w at hsplit hw
  have hword : ∀ c ∈ w, decide (c ∈ wordDelim) = false := by
    intro c hc
    have hin := hw c hc
    simp only [inWord, decide_eq_true_eq] at hin
    simpa using hin.1
  cases hr : b.dropWhile (inWord wordDelim) with
  | nil =>
    rw [hr, List.append_nil] at hsplit
    subst hsplit
    by_cases hne : w = []
    · subst hne
      exact Or.inl ⟨rfl, rfl⟩
    · have hpos := List.length_pos_iff.mpr hne
      rw [getword_last hw hne, fields_last hword hne]
      exact Or.inr ⟨hne, rfl, hpos.trans_le hlen, List.not_mem_nil⟩
  | cons d t =>
    rw [hr] at hsplit
    subst hsplit
    have hd : inWord wordDelim d = false := by
      have h := List.head?_dropWhile_not (inWord wordDelim) (w ++ d :: t)
      rw [hr] at h
      simpa using h
    have hdelim : d ∈ wordDelim := by
      by_contra hnot
      have hzero : d ≠ nul := fun h => hnul (by simp [h])
      simp [inWord, hnot, hzero] at hd
    have hne : w ≠ [] := by
      intro h
      subst h
      exact hhead d rfl hdelim
    have hle : (leadcut t wordDelim).length ≤ t.length := List.length_dropWhile_le _ _
    rw [getword_word hw hne hdelim, fields_word hword hne hdelim, fields_leadcut]
    refine Or.inr ⟨hne, rfl, ?_, fun hm => hnul ?_⟩
    · rw [List.length_append, List.length_cons] at hlen
      change (leadcut t wordDelim).length < s.length
      omega
    · exact List.mem_append_right _ (List.mem_cons_of_mem _ (leadcut_subset _ _ hm))

theorem wordsLoop_eq {fuel : ℕ} {s : Str} (hs : nul ∉ s) (hf : s.length < fuel) :
    wordsLoop fuel s = fields s := by
  induction fuel generalizing s with
  | zero => omega
  | succ fuel ih =>
    rw [wordsLoop]
    rcases fields_getword hs with ⟨hw, hnone⟩ | ⟨hw, hfields, hlen, hnul⟩
    · simp only [hw, if_true, hnone]
    · simp only [hw, if_false, hfields, ih hnul (by omega)]

theorem words_eq {s : Str} (hs : nul ∉ s) : words s = fields s :=
  wordsLoop_eq hs (Nat.lt_succ_self _)

theorem getword_lineValues {s : Str} (hs : nul ∉ s) {param : Str} (hp : param ≠ []) :
    (if (getword s wordDelim).1 = param then words (getword s wordDelim).2 else []) =
      lineValues param s := by
  rw [lineValues]
  rcases fields_getword hs with ⟨hw, hnone⟩ | ⟨hw, hfields, -, hnul⟩
  · rw [hw, hnone, if_neg hp.symm]
    rfl
  · rw [hfields, words_eq hnul]
    simp only [List.head?_cons, Option.some.injEq, List.tail_cons]

/-- A line's words go to the parameter that it names; the name and the code stay. -/
theorem param_eq {l : Str} (hl : nul ∉ l) (a : Action) :
    a.param l = { a with
      event := (lineValues (bytes "event") l).foldl (insertNamed events) a.event
      proto := (lineValues (bytes "proto") l).foldl (insertNamed protocolnames) a.proto
      status := (lineValues (bytes "status") l).foldl (insertNamed statuses) a.status
      options := (lineValues (bytes "options") l).foldl addOption a.options } := by
  have hep : bytes "event" ≠ bytes "proto" := by decide
  have hes : bytes "event" ≠ bytes "status" := by decide
  have heo : bytes "event" ≠ bytes "options" := by decide
  have hps : bytes "proto" ≠ bytes "status" := by decide
  have hpo : bytes "proto" ≠ bytes "options" := by decide
  have hso : bytes "status" ≠ bytes "options" := by decide
  have hnil (w : Str) (h : w ∈ [bytes "event", bytes "proto", bytes "status", bytes "options"]) :
      w ≠ [] := by
    revert w
    decide
  rw [← getword_lineValues hl (hnil (bytes "event") (by simp)),
    ← getword_lineValues hl (hnil (bytes "proto") (by simp)),
    ← getword_lineValues hl (hnil (bytes "status") (by simp)),
    ← getword_lineValues hl (hnil (bytes "options") (by simp))]
  simp only [Action.param]
  generalize (getword l wordDelim).1 = w
  by_cases hevent : w = bytes "event"
  · simp only [hevent, hep, hes, heo, if_true, if_false, List.foldl_nil]
  by_cases hproto : w = bytes "proto"
  · simp only [hproto, hep.symm, hps, hpo, if_true, if_false, List.foldl_nil]
  by_cases hstatus : w = bytes "status"
  · simp only [hstatus, hes.symm, hps.symm, hso, if_true, if_false, List.foldl_nil]
  by_cases hoptions : w = bytes "options"
  · simp only [hoptions, heo.symm, hpo.symm, hso.symm, if_true, if_false, List.foldl_nil]
  · simp only [hevent, hproto, hstatus, hoptions, if_false, List.foldl_nil]

section
variable {α : Type} [DecidableEq α]

theorem mem_insertNamed {table : List (Str × α)} {s : List α} {param : Str} {v : α} :
    v ∈ insertNamed table s param ↔
      v ∈ s ∨ ∃ w, (w, v) ∈ table ∧ (w = param ∨ param = bytes "all") := by
  induction table generalizing s with
  | nil => simp [insertNamed]
  | cons e table ih =>
    have hstep : insertNamed (e :: table) s param = insertNamed table
        (if param = e.1 ∨ param = bytes "all" then s.insert e.2 else s) param := rfl
    rw [hstep, ih]
    obtain ⟨w, u⟩ := e
    by_cases hc : param = w ∨ param = bytes "all"
    · rw [if_pos hc, List.mem_insert_iff]
      grind
    · rw [if_neg hc]
      grind

theorem mem_foldl_insertNamed {table : List (Str × α)} {ws : List Str} {s : List α} {v : α} :
    v ∈ ws.foldl (insertNamed table) s ↔
      v ∈ s ∨ ∃ w, (w, v) ∈ table ∧ (w ∈ ws ∨ bytes "all" ∈ ws) := by
  induction ws generalizing s with
  | nil => simp
  | cons w ws ih =>
    rw [List.foldl_cons, ih, mem_insertNamed]
    simp only [List.mem_cons]
    grind

end

theorem flags_or (i o n i' o' n' : Bool) :
    flags i o n ||| flags i' o' n' = flags (i || i') (o || o') (n || n') := by
  revert i o n i' o' n'
  decide

theorem addOption_eq (options : UInt32) (w : Str) : addOption options w = options |||
    flags (w = bytes "stdin") (w = bytes "stdout") (w = bytes "nowait") := by
  have hio : bytes "stdin" ≠ bytes "stdout" := by decide
  have hin : bytes "stdin" ≠ bytes "nowait" := by decide
  have hon : bytes "stdout" ≠ bytes "nowait" := by decide
  rw [addOption]
  by_cases hi : w = bytes "stdin"
  · simp [hi, hio, hin, flags]
  by_cases ho : w = bytes "stdout"
  · simp [ho, hio.symm, hon, flags]
  by_cases hn : w = bytes "nowait"
  · simp [hn, hin.symm, hon.symm, flags]
  · simp [hi, ho, hn, flags]

theorem foldl_addOption (options : UInt32) (ws : List Str) :
    ws.foldl addOption options = options |||
      flags (bytes "stdin" ∈ ws) (bytes "stdout" ∈ ws) (bytes "nowait" ∈ ws) := by
  induction ws generalizing options with
  | nil => simp [flags]
  | cons w ws ih =>
    rw [List.foldl_cons, ih, addOption_eq, UInt32.or_assoc, flags_or]
    simp only [List.mem_cons, Bool.decide_or, eq_comm]

def tag (kind : Str) (options : UInt32) : UInt32 :=
  if options &&& kindOption kind = 0 then options ||| kindOption kind else options

theorem isAction_cases {kind : Str} (h : isAction kind = true) :
    kind = bytes "action" ∨ kind = bytes "pre-receive" ∨ kind = bytes "pre-send" ∨
      kind = bytes "manual" := by
  simpa [isAction, actions] using h

theorem kindOption_cases {kind : Str} (h : isAction kind = true) :
    kindOption kind = 0 ∨ kindOption kind = aoprereceive ∨ kindOption kind = aopresend ∨
      kindOption kind = aomanual := by
  rcases isAction_cases h with rfl | rfl | rfl | rfl
  · exact Or.inl (by decide)
  · exact Or.inr (Or.inl (by decide))
  · exact Or.inr (Or.inr (Or.inl (by decide)))
  · exact Or.inr (Or.inr (Or.inr (by decide)))

theorem kindOption_manual {kind : Str} (h : isAction kind = true) :
    kindOption kind = aomanual ↔ kind = bytes "manual" := by
  rcases isAction_cases h with rfl | rfl | rfl | rfl <;> decide

theorem kind_word {kind : Str} (h : isAction kind = true) : ∀ c ∈ kind, c ≠ blank ∧ c ≠ tab := by
  have hall : (kind.all fun c => decide (c ≠ blank ∧ c ≠ tab)) = true := by
    rcases isAction_cases h with rfl | rfl | rfl | rfl <;> decide
  intro c hc
  exact of_decide_eq_true (List.all_eq_true.mp hall c hc)

theorem tag_flags {kind : Str} (h : isAction kind = true) (i o n : Bool) :
    tag kind (kindOption kind ||| flags i o n) = kindOption kind ||| flags i o n := by
  have hcases := kindOption_cases h
  rw [tag]
  generalize kindOption kind = k at hcases ⊢
  revert i o n
  rcases hcases with rfl | rfl | rfl | rfl <;> decide

theorem finish_options (a : Action) : a.finish.options =
    if a.options &&& aomanual ≠ 0 then
      if a.options &&& aostdout = 0 then a.options ||| aostdout else a.options
    else a.options := by
  rw [Action.finish]
  split_ifs <;> rfl

theorem finish_flags {kind : Str} (h : isAction kind = true) {i o n : Bool} {a : Action}
    (ha : a.options = kindOption kind ||| flags i o n) :
    a.finish.options = kindOption kind ||| flags i (o || decide (kind = bytes "manual")) n := by
  have hcases := kindOption_cases h
  have hmanual : decide (kind = bytes "manual") = decide (kindOption kind = aomanual) :=
    decide_eq_decide.mpr (kindOption_manual h).symm
  rw [finish_options, ha, hmanual]
  clear ha
  generalize kindOption kind = k at hcases ⊢
  revert i o n
  rcases hcases with rfl | rfl | rfl | rfl <;> decide

theorem finish_frame (a : Action) : a.finish = { a with options := a.finish.options } := by
  rw [Action.finish]
  split_ifs <;> rfl

def Section.step (x : Section) (a : Action) (l : Str) : Action := (a.header x.header).param l

theorem Section.npos_header (x : Section) : npos x.header = x.kind.length := by
  obtain ⟨b, bs, hb⟩ := List.exists_cons_of_ne_nil x.blanks_ne
  have hblank := x.blanks_mem b (by simp [hb])
  have hlt : ¬ x.kind.findIdx (fun c => c = blank ∨ c = tab) < x.kind.length := by
    rw [List.findIdx_lt_length]
    intro h
    obtain ⟨c, hc, hp⟩ := h
    have hword := kind_word x.kind_mem c hc
    simp [hword.1, hword.2] at hp
  rw [npos, Section.header, List.findIdx_append, if_neg hlt, hb, List.cons_append,
    List.findIdx_cons]
  simp [hblank]

theorem Section.sectionKind_header (x : Section) : sectionKind x.header = x.kind := by
  rw [sectionKind, x.npos_header, Section.header, List.take_left]

theorem Section.npos_lt (x : Section) : npos x.header ≠ x.header.length := by
  have hpos := List.length_pos_iff.mpr x.blanks_ne
  rw [x.npos_header, Section.header, List.length_append, List.length_append]
  omega

theorem Section.leadcut_name (x : Section) : leadcut x.name wordDelim = x.name := by
  obtain ⟨c, hc, hdelim⟩ := x.name_head
  cases hn : x.name with
  | nil => rfl
  | cons d t =>
    rw [hn] at hc
    obtain rfl := Option.some.inj hc
    exact List.dropWhile_cons_of_neg (by simpa using hdelim)

theorem Section.name_header (x : Section) :
    leadcut (x.header.drop (npos x.header + 1)) wordDelim = x.name := by
  obtain ⟨b, bs, hb⟩ := List.exists_cons_of_ne_nil x.blanks_ne
  have hbs : ∀ c ∈ bs, decide (c ∈ wordDelim) = true := by
    intro c hc
    rcases x.blanks_mem c (by simp [hb, hc]) with rfl | rfl <;> decide
  have hdrop : x.header.drop (npos x.header + 1) = bs ++ x.name := by
    rw [x.npos_header, Section.header, hb, ← List.drop_drop, List.drop_left]
    rfl
  rw [hdrop, leadcut, List.dropWhile_append_of_pos hbs]
  exact x.leadcut_name

theorem header_options (kind : Str) (options : UInt32) :
    (match actions.find? fun e => kind = e.1 with
      | some e => if options &&& e.2 = 0 then options ||| e.2 else options
      | none => options) = tag kind options := by
  cases hfind : actions.find? fun e => kind = e.1 with
  | none =>
    have hkind : kindOption kind = 0 := by rw [kindOption, hfind]; rfl
    simp [tag, hkind]
  | some e =>
    have hkind : kindOption kind = e.2 := by rw [kindOption, hfind]; rfl
    simp only [tag, hkind]

theorem Section.header_eq (x : Section) (a : Action) : a.header x.header = { a with
    name := if a.name = [] then x.name else a.name
    options := tag x.kind a.options } := by
  simp only [Action.header, x.sectionKind_header, x.name_header, header_options, ne_eq, x.npos_lt,
    not_false_eq_true, true_and]

/-- What the parameter lines of a section make of an action that is new or has the name and the
kind of the section already; `vs` are the values of the options so far. -/
structure Section.Parsed (x : Section) (ls : List Str) (a b : Action) : Prop where
  name : b.name = x.name
  enabled : b.enabled = a.enabled
  code : b.code = a.code
  event : b.event = (ls.flatMap (lineValues (bytes "event"))).foldl (insertNamed events) a.event
  proto : b.proto =
    (ls.flatMap (lineValues (bytes "proto"))).foldl (insertNamed protocolnames) a.proto
  status : b.status =
    (ls.flatMap (lineValues (bytes "status"))).foldl (insertNamed statuses) a.status
  options : b.options =
    (ls.flatMap (lineValues (bytes "options"))).foldl addOption (tag x.kind a.options)

theorem Section.step_parsed (x : Section) {l : Str} (hl : nul ∉ l) {a : Action}
    (hname : a.name = [] ∨ a.name = x.name) : x.Parsed [l] a (x.step a l) := by
  have hstep : x.step a l = _ := param_eq hl (a.header x.header)
  rw [hstep, x.header_eq]
  refine ⟨?_, rfl, rfl, ?_, ?_, ?_, ?_⟩
  · rcases hname with hname | hname
    · exact if_pos hname
    · show (if a.name = [] then x.name else a.name) = x.name
      rw [hname, ite_self]
  all_goals rw [List.flatMap_singleton]

theorem Section.foldl_parsed (x : Section) {l : Str} {ls : List Str} (hl : ∀ k ∈ l :: ls, nul ∉ k)
    {a : Action} (hname : a.name = [] ∨ a.name = x.name)
    (hopt : ∃ i o n, tag x.kind a.options = kindOption x.kind ||| flags i o n) :
    x.Parsed (l :: ls) a ((l :: ls).foldl x.step a) := by
  induction ls generalizing l a with
  | nil => exact x.step_parsed (hl l (by simp)) hname
  | cons k ls ih =>
    have h1 := x.step_parsed (hl l (by simp)) hname
    obtain ⟨i, o, n, hopt⟩ := hopt
    obtain ⟨i', o', n', hval⟩ : ∃ i o n,
        (x.step a l).options = kindOption x.kind ||| flags i o n := by
      rw [h1.options, hopt, foldl_addOption, UInt32.or_assoc, flags_or]
      exact ⟨_, _, _, rfl⟩
    have htag : tag x.kind (x.step a l).options = (x.step a l).options := by
      rw [hval]
      exact tag_flags x.kind_mem i' o' n'
    have hopt' := htag.trans hval
    have h2 := ih (fun k hk => hl k (List.mem_cons_of_mem _ hk)) (Or.inr h1.name)
      ⟨i', o', n', hopt'⟩
    have hcat : (l :: k :: ls).foldl x.step a = (k :: ls).foldl x.step (x.step a l) := rfl
    rw [hcat]
    refine ⟨h2.name, h2.enabled.trans h1.enabled, h2.code.trans h1.code, ?_, ?_, ?_, ?_⟩
    · rw [h2.event, h1.event, ← List.foldl_append, ← List.flatMap_append]
      rfl
    · rw [h2.proto, h1.proto, ← List.foldl_append, ← List.flatMap_append]
      rfl
    · rw [h2.status, h1.status, ← List.foldl_append, ← List.flatMap_append]
      rfl
    · rw [h2.options, htag, h1.options, ← List.foldl_append, ← List.flatMap_append]
      rfl

/-- `getconf` on the lines that are left. -/
def conf (passemptylines : Bool) : Str → List Str → Option Str × Str × List Str
  | sect, [] => (none, sect, [])
  | sect, l :: ls =>
    if l = [] then if passemptylines then (some l, sect, ls) else conf passemptylines sect ls
    else if l.head? = some 37 then conf passemptylines (l.drop 1) ls
    else if isComment l then conf passemptylines sect ls
    else (some l, sect, ls)

theorem getconf_ofLines {fuel : ℕ} {ls : List Str} (h : ∀ l ∈ ls, Plain l) (hf : ls.length < fuel)
    (pass : Bool) (sect : Str) : getconf fuel pass sect (ofLines ls) =
      ((conf pass sect ls).1, (conf pass sect ls).2.1, ofLines (conf pass sect ls).2.2) := by
  induction ls generalizing fuel sect with
  | nil =>
    obtain ⟨fuel, rfl⟩ : ∃ m, fuel = m + 1 := ⟨fuel - 1, by simp at hf; omega⟩
    rfl
  | cons l ls ih =>
    obtain ⟨fuel, rfl⟩ : ∃ m, fuel = m + 1 := ⟨fuel - 1, by simp at hf; omega⟩
    have hi := fun sect => ih (fun k hk => h k (List.mem_cons_of_mem _ hk))
      (Nat.lt_of_succ_lt_succ hf) sect
    simp only [getconf, conf, ofLines_cons_eof, getstring_ofLines (h l (by simp)),
      Bool.false_eq_true, if_false, hi]
    split_ifs <;> rfl

theorem conf_some {pass : Bool} {sect sect' l : Str} {ls rest : List Str}
    (h : conf pass sect ls = (some l, sect', rest)) : ∃ pre, ls = pre ++ l :: rest := by
  induction ls generalizing sect with
  | nil => cases h
  | cons k ls ih =>
    rw [conf] at h
    split_ifs at h
    · cases h
      exact ⟨[], rfl⟩
    · obtain ⟨pre, rfl⟩ := ih h
      exact ⟨k :: pre, rfl⟩
    · obtain ⟨pre, rfl⟩ := ih h
      exact ⟨k :: pre, rfl⟩
    · obtain ⟨pre, rfl⟩ := ih h
      exact ⟨k :: pre, rfl⟩
    · cases h
      exact ⟨[], rfl⟩

theorem conf_none {pass : Bool} {sect sect' : Str} {ls rest : List Str}
    (h : conf pass sect ls = (none, sect', rest)) : rest = [] := by
  induction ls generalizing sect with
  | nil =>
    cases h
    rfl
  | cons k ls ih =>
    rw [conf] at h
    split_ifs at h
    · cases h
    · exact ih h
    · exact ih h
    · exact ih h
    · cases h

/-- Does `getconf` give the line, when it is no header? -/
def isGiven (passemptylines : Bool) (l : Str) : Bool :=
  isRead l || (passemptylines && decide (l = []))

/-- The loop of `action::load`, one line of the file after another. -/
def run : Bool → Str → Action → Bool → List Str → List Str → Result
  | _, sect, a, wasexec, _, [] => ⟨a, wasexec, sect, ofLines []⟩
  | pass, sect, a, wasexec, pos, l :: ls =>
    if l.head? = some 37 then run pass (l.drop 1) a wasexec pos ls
    else if isGiven pass l then
      match a.line wasexec sect l with
      | none => ⟨a, wasexec, sect, ofLines pos⟩
      | some (a, wasexec) => run (sect = bytes "exec") sect a wasexec ls ls
    else run pass sect a wasexec pos ls

variable {pass wasexec : Bool} {sect l : Str} {a : Action} {pos pre ls : List Str}

theorem run_skip (hhead : l.head? ≠ some 37) (h : isGiven pass l = false) :
    run pass sect a wasexec pos (l :: ls) = run pass sect a wasexec pos ls := by
  simp only [run, hhead, h, if_false, Bool.false_eq_true]

theorem run_given (hhead : l.head? ≠ some 37) (h : isGiven pass l = true) :
    run pass sect a wasexec pos (l :: ls) = match a.line wasexec sect l with
      | none => ⟨a, wasexec, sect, ofLines pos⟩
      | some (a, wasexec) => run (sect = bytes "exec") sect a wasexec ls ls := by
  simp only [run, hhead, h, if_false, if_true]

theorem run_header (s : Str) :
    run pass sect a wasexec pos ((37 :: s) :: ls) = run pass s a wasexec pos ls := rfl

theorem run_skips (hhead : ∀ l ∈ pre, l.head? ≠ some 37) (h : ∀ l ∈ pre, isGiven pass l = false) :
    run pass sect a wasexec pos (pre ++ ls) = run pass sect a wasexec pos ls := by
  induction pre with
  | nil => rfl
  | cons k pre ih =>
    rw [List.cons_append, run_skip (hhead k (by simp)) (h k (by simp))]
    exact ih (fun l hl => hhead l (List.mem_cons_of_mem _ hl))
      fun l hl => h l (List.mem_cons_of_mem _ hl)

theorem run_conf (pass : Bool) (sect : Str) (a : Action) (wasexec : Bool) (pos ls : List Str) :
    run pass sect a wasexec pos ls = match conf pass sect ls with
      | (none, sect, _) => ⟨a, wasexec, sect, ofLines []⟩
      | (some l, sect, rest) => match a.line wasexec sect l with
        | none => ⟨a, wasexec, sect, ofLines pos⟩
        | some (a, wasexec) => run (sect = bytes "exec") sect a wasexec rest rest := by
  induction ls generalizing sect with
  | nil => rfl
  | cons l ls ih =>
    rw [conf]
    by_cases hnil : l = []
    · subst hnil
      cases pass with
      | true => rfl
      | false => exact ih sect
    by_cases hhead : l.head? = some 37
    · rw [run, if_pos hhead, if_neg hnil, if_pos hhead]
      exact ih (l.drop 1)
    rw [if_neg hnil, if_neg hhead]
    by_cases hcomment : isComment l = true
    · rw [run_skip hhead (by simp [isGiven, isRead, hnil, hcomment]), if_pos hcomment]
      exact ih sect
    · rw [run_given hhead (by simp [isGiven, isRead, hnil, hcomment]), if_neg hcomment]

theorem loadLoop_ofLines {fuel : ℕ} (h : ∀ l ∈ ls, Plain l) (hf : ls.length < fuel) (own : Str) :
    loadLoop fuel a own wasexec (ofLines pos) sect (ofLines ls) =
      run (own = bytes "exec") sect a wasexec pos ls := by
  induction fuel generalizing a own wasexec pos sect ls with
  | zero => omega
  | succ fuel ih =>
    have hsize := length_le_size ls
    rw [loadLoop, getconf_ofLines h (by omega), run_conf]
    rcases hconf : conf (own = bytes "exec") sect ls with ⟨_ | l, sect', rest⟩
    · rw [conf_none hconf]
    · obtain ⟨pre, rfl⟩ := conf_some hconf
      have hrest : ∀ k ∈ rest, Plain k := fun k hk => h k (by simp [hk])
      have hlen : rest.length < fuel := by
        rw [List.length_append, List.length_cons] at hf
        omega
      simp only
      cases hline : a.line wasexec sect' l with
      | none => rfl
      | some b => exact ih hrest hlen sect'

theorem line_exec (a : Action) (wasexec : Bool) (l : Str) :
    a.line wasexec (bytes "exec") l = some (a.addCode l, true) := by
  have h : isAction (sectionKind (bytes "exec")) = false := by decide
  simp only [Action.line, h, Bool.false_eq_true, if_false, if_true]

theorem Section.line_header (x : Section) (a : Action) (wasexec : Bool) (l : Str) :
    a.line wasexec x.header l = if wasexec then none else some (x.step a l, wasexec) := by
  simp only [Action.line, x.sectionKind_header, x.kind_mem, if_true]
  rfl

theorem Section.header_exec (x : Section) : x.header ≠ bytes "exec" := by
  intro h
  have hkind := x.kind_mem
  rw [← x.sectionKind_header, h] at hkind
  exact absurd hkind (by decide)

theorem given_false (l : Str) : isGiven false l = isRead l := by simp [isGiven]

theorem given_true (l : Str) : isGiven true l = !isComment l := by
  by_cases hnil : l = []
  · subst hnil
    rfl
  · simp [isGiven, isRead, hnil]

theorem exists_given {p : Str → Bool} (h : ∃ l ∈ ls, p l = true) :
    ∃ pre l post, ls = pre ++ l :: post ∧ (∀ k ∈ pre, p k = false) ∧ p l = true := by
  obtain ⟨l, hl⟩ := Option.isSome_iff_exists.mp (List.find?_isSome.mpr h)
  obtain ⟨hp, pre, post, hls, hpre⟩ := List.find?_eq_some_iff_append.mp hl
  exact ⟨pre, l, post, hls, fun k hk => by simpa using hpre k hk, hp⟩

theorem Section.run_params (x : Section) {ps : List Str} (hhead : ∀ l ∈ ps, l.head? ≠ some 37) :
    ∃ pos', run false x.header a false pos (ps ++ ls) =
      run false x.header ((ps.filter isRead).foldl x.step a) false pos' ls := by
  induction ps generalizing a pos with
  | nil => exact ⟨pos, rfl⟩
  | cons l ps ih =>
    have hl := hhead l (by simp)
    have htail : ∀ k ∈ ps, k.head? ≠ some 37 := fun k hk => hhead k (List.mem_cons_of_mem _ hk)
    rw [List.cons_append]
    cases hread : isRead l with
    | false =>
      rw [run_skip hl (by rw [given_false, hread]), List.filter_cons_of_neg (by simp [hread])]
      exact ih htail
    | true =>
      have hexec : decide (x.header = bytes "exec") = false := decide_eq_false x.header_exec
      rw [run_given hl (by rw [given_false, hread]), x.line_header,
        List.filter_cons_of_pos hread, List.foldl_cons]
      simp only [Bool.false_eq_true, if_false, hexec]
      exact ih htail

/-- Code behind code. What is left behind its last line are comments and the rest. -/
theorem run_code {cs code : List Str} (hhead : ∀ l ∈ code, l.head? ≠ some 37)
    (hcs : ∀ l ∈ cs, isComment l = true) : ∃ cs' : List Str,
      (∀ l ∈ cs', isComment l = true ∧ l ∈ cs ++ code) ∧
      run true (bytes "exec") a true (cs ++ (code ++ ls)) (code ++ ls) =
        run true (bytes "exec") ((code.filter fun l => !isComment l).foldl Action.addCode a) true
          (cs' ++ ls) ls := by
  induction code generalizing a cs with
  | nil => exact ⟨cs, fun l hl => ⟨hcs l hl, by simpa using hl⟩, rfl⟩
  | cons l code ih =>
    have hl := hhead l (by simp)
    have htail : ∀ k ∈ code, k.head? ≠ some 37 := fun k hk => hhead k (List.mem_cons_of_mem _ hk)
    cases hcomment : isComment l with
    | true =>
      have hcs' : ∀ k ∈ cs ++ [l], isComment k = true := by
        intro k hk
        rcases List.mem_append.mp hk with hk | hk
        · exact hcs k hk
        · rw [List.mem_singleton.mp hk, hcomment]
      obtain ⟨cs', hall, hrun⟩ := ih (a := a) htail hcs'
      refine ⟨cs', fun k hk => ⟨(hall k hk).1, by simpa using (hall k hk).2⟩, ?_⟩
      rw [List.cons_append, run_skip hl (by rw [given_true, hcomment]; rfl),
        List.filter_cons_of_neg (by simp [hcomment]), ← hrun]
      simp only [List.append_assoc, List.cons_append, List.nil_append]
    | false =>
      obtain ⟨cs', hall, hrun⟩ := @ih (a.addCode l) [] htail (by simp)
      refine ⟨cs', fun k hk => ⟨(hall k hk).1, ?_⟩, ?_⟩
      · have hmem : k ∈ code := by simpa using (hall k hk).2
        simp [hmem]
      · rw [List.cons_append, run_given hl (by rw [given_true, hcomment]; rfl), line_exec,
          List.filter_cons_of_pos (by simp [hcomment]), List.foldl_cons, ← hrun]
        rfl

theorem foldl_addCode {c : Str} (hc : c ≠ []) (a : Action) (ls : List Str) :
    ls.foldl Action.addCode { a with code := c } =
      { a with code := [lf].intercalate (c :: ls) } := by
  induction ls generalizing c with
  | nil => simp [List.intercalate]
  | cons l ls ih =>
    have hcode : ({ a with code := c } : Action).addCode l = { a with code := c ++ lf :: l } := by
      simp [Action.addCode, hc]
    have hjoin : [lf].intercalate ((c ++ lf :: l) :: ls) = [lf].intercalate (c :: l :: ls) := by
      cases ls <;> simp [List.intercalate]
    rw [List.foldl_cons, hcode, ih (by simp), hjoin]

theorem Section.text_eq {x : Section} {pre post : List Str} {l : Str}
    (hcode : x.code = pre ++ l :: post) (hpre : ∀ k ∈ pre, isRead k = false)
    (hl : isRead l = true) :
    x.text = [lf].intercalate (l :: post.filter fun k => !isComment k) := by
  simp only [isRead, Bool.and_eq_true, decide_eq_true_eq] at hl
  have hempty : ∀ k ∈ pre.filter fun k => !isComment k, decide (k = []) = true := by
    intro k hk
    obtain ⟨hk, hcomment⟩ := List.mem_filter.mp hk
    have hread := hpre k hk
    rw [isRead, hcomment, Bool.and_true] at hread
    simpa using hread
  have hkeep : (l :: post).filter (fun k => !isComment k) =
      l :: post.filter fun k => !isComment k := List.filter_cons_of_pos (by simpa using hl.2)
  rw [Section.text, hcode, List.filter_append, hkeep,
    List.dropWhile_append_of_pos hempty, List.dropWhile_cons_of_neg (by simpa using hl.1)]

def Section.parsed (x : Section) (a : Action) : Action := (x.params.filter isRead).foldl x.step a

theorem Section.run_head (x : Section) : ∃ pos',
    run false sect a false pos (x.lines ++ ls) =
      run false (bytes "exec") (x.parsed a) false pos' (x.code ++ ls) := by
  have hhead : ∀ l ∈ x.params, l.head? ≠ some 37 :=
    fun l hl => x.no_header l (List.mem_append_left _ hl)
  obtain ⟨pos', hrun⟩ := @Section.run_params a pos (bytes "%exec" :: (x.code ++ ls)) x _ hhead
  refine ⟨pos', ?_⟩
  rw [Section.lines, List.cons_append, run_header, List.append_assoc, List.cons_append, hrun]
  rfl

/-- A section without code to read is not left: its parameters go on. -/
theorem Section.run_uncoded (x : Section) (h : ¬ x.Coded) : ∃ pos',
    run false sect a false pos (x.lines ++ ls) =
      run false (bytes "exec") (x.parsed a) false pos' ls := by
  obtain ⟨pos', hrun⟩ := @Section.run_head sect a pos ls x
  have hhead : ∀ l ∈ x.code, l.head? ≠ some 37 :=
    fun l hl => x.no_header l (List.mem_append_right _ hl)
  have hskip : ∀ l ∈ x.code, isGiven false l = false := by
    intro l hl
    rw [given_false]
    exact Bool.eq_false_iff.mpr fun hread => h ⟨l, hl, hread⟩
  exact ⟨pos', by rw [hrun, run_skips hhead hskip]⟩

theorem Section.run_coded (x : Section) (h : x.Coded) : ∃ (b : Action) (cs : List Str),
    ((x.parsed a).code = [] → b = { x.parsed a with code := x.text }) ∧
      (∀ l ∈ cs, isComment l = true ∧ l ∈ x.code) ∧
      run false sect a false pos (x.lines ++ ls) =
        run true (bytes "exec") b true (cs ++ ls) ls := by
  obtain ⟨pos', hrun⟩ := @Section.run_head sect a pos ls x
  obtain ⟨pre, l, post, hcode, hpre, hl⟩ := exists_given h
  have hhead : ∀ k ∈ pre ++ l :: post, k.head? ≠ some 37 := by
    rw [← hcode]
    exact fun k hk => x.no_header k (List.mem_append_right _ hk)
  rw [List.forall_mem_append, List.forall_mem_cons] at hhead
  have hskip : ∀ k ∈ pre, isGiven false k = false := by
    intro k hk
    rw [given_false, hpre k hk]
  obtain ⟨cs, hcs, hpost⟩ := @run_code ((x.parsed a).addCode l) ls [] post hhead.2.2 (by simp)
  have hfirst : run false sect a false pos (x.lines ++ ls) =
      run true (bytes "exec") ((x.parsed a).addCode l) true (post ++ ls) (post ++ ls) := by
    rw [hrun, hcode, List.append_assoc, run_skips hhead.1 hskip, List.cons_append,
      run_given hhead.2.1 (by rw [given_false, hl]), line_exec]
    rfl
  refine ⟨_, cs, fun hempty => ?_, fun k hk => ?_, hfirst.trans hpost⟩
  · have hne : l ≠ [] := by
      rintro rfl
      cases hl
    have hadd : (x.parsed a).addCode l = { x.parsed a with code := l } := by
      simp [Action.addCode, hempty]
    rw [hadd, foldl_addCode hne, x.text_eq hcode hpre hl]
  · obtain ⟨hcomment, hmem⟩ := hcs k hk
    rw [hcode]
    refine ⟨hcomment, List.mem_append_right _ (List.mem_cons_of_mem _ ?_)⟩
    simpa using hmem

/-- Behind code the loop ends at the first parameter line, and seeks back to the code. -/
theorem run_end (xs : List Section) : ∃ sect',
    run true (bytes "exec") a true pos (xs.flatMap Section.lines) =
      ⟨a, true, sect', ofLines (if xs = [] then [] else pos)⟩ := by
  cases xs with
  | nil => exact ⟨_, rfl⟩
  | cons x xs =>
    have hgiven : ∃ l ∈ x.params, isGiven true l = true := by
      obtain ⟨l, hl, hread⟩ := x.params_read
      exact ⟨l, hl, by simp [isGiven, hread]⟩
    obtain ⟨pre, l, post, hparams, hpre, hl⟩ := exists_given hgiven
    have hhead : ∀ k ∈ pre ++ l :: post, k.head? ≠ some 37 := by
      rw [← hparams]
      exact fun k hk => x.no_header k (List.mem_append_left _ hk)
    rw [List.forall_mem_append, List.forall_mem_cons] at hhead
    refine ⟨x.header, ?_⟩
    rw [List.flatMap_cons, Section.lines, List.cons_append, run_header, hparams, List.append_assoc,
      List.append_assoc, run_skips hhead.1 hpre, List.cons_append, run_given hhead.2.1 hl,
      x.line_header]
    rfl

theorem tag_zero (kind : Str) : tag kind 0 = kindOption kind := by simp [tag]

theorem Section.parsed_new (x : Section) :
    x.Parsed (x.params.filter isRead) {} (x.parsed {}) := by
  obtain ⟨l, ls, hls⟩ : ∃ l ls, x.params.filter isRead = l :: ls := by
    obtain ⟨l, hl, hread⟩ := x.params_read
    exact List.exists_cons_of_ne_nil (List.ne_nil_of_mem (List.mem_filter.mpr ⟨hl, hread⟩))
  have hnul : ∀ k ∈ l :: ls, nul ∉ k := by
    intro k hk
    rw [← hls] at hk
    have hmem := (List.mem_filter.mp hk).1
    exact (x.plain k (List.mem_cons_of_mem _ (List.mem_append_left _ hmem))).2
  have hnew : tag x.kind 0 = kindOption x.kind ||| flags false false false := by
    rw [tag_zero]
    simp [flags]
  rw [Section.parsed, hls]
  exact x.foldl_parsed hnul (Or.inl rfl) ⟨false, false, false, hnew⟩

/-- A section's own parameters and code make the action that is loaded. -/
theorem Section.loaded (x : Section) :
    x.Loaded ({ x.parsed {} with code := x.text } : Action).finish := by
  have h := x.parsed_new
  have hopt : ({ x.parsed {} with code := x.text } : Action).options = kindOption x.kind |||
      flags (bytes "stdin" ∈ x.values (bytes "options"))
        (bytes "stdout" ∈ x.values (bytes "options"))
        (bytes "nowait" ∈ x.values (bytes "options")) := by
    have hvalues := h.options
    rw [foldl_addOption, tag_zero] at hvalues
    exact hvalues
  rw [finish_frame]
  refine ⟨h.name, h.enabled, fun et => ?_, fun p => ?_, fun st => ?_, ?_, rfl⟩
  · change et ∈ (x.parsed {}).event ↔ _
    rw [h.event, mem_foldl_insertNamed]
    simp only [List.not_mem_nil, false_or]
    rfl
  · change p ∈ (x.parsed {}).proto ↔ _
    rw [h.proto, mem_foldl_insertNamed]
    simp only [List.not_mem_nil, false_or]
    rfl
  · change st ∈ (x.parsed {}).status ↔ _
    rw [h.status, mem_foldl_insertNamed]
    simp only [List.not_mem_nil, false_or]
    rfl
  · change ({ x.parsed {} with code := x.text } : Action).finish.options = x.options
    rw [finish_flags x.kind_mem hopt, Section.options, Bool.decide_or]

theorem Noise.skip (h : Noise l) : l.head? ≠ some 37 ∧ isGiven false l = false := by
  rw [given_false, isRead]
  rcases h.2 with rfl | hcomment
  · exact ⟨by simp, rfl⟩
  · rw [hcomment, Bool.not_true, Bool.and_false]
    simp only [isComment, decide_eq_true_eq] at hcomment
    rw [hcomment.1]
    exact ⟨by decide, rfl⟩

theorem Section.plain_lines (x : Section) : ∀ l ∈ x.lines, Plain l := by
  have hkind : (x.kind.all fun c => decide (c ≠ lf ∧ c ≠ nul)) = true := by
    rcases isAction_cases x.kind_mem with h | h | h | h <;> rw [h] <;> decide
  have hheader : ∀ c ∈ 37 :: x.header, c ∉ x.name → c ≠ lf ∧ c ≠ nul := by
    intro c hc hname
    rw [Section.header, List.mem_cons, List.mem_append, List.mem_append] at hc
    rcases hc with rfl | hc | hc | hc
    · decide
    · exact of_decide_eq_true (List.all_eq_true.mp hkind c hc)
    · rcases x.blanks_mem c hc with rfl | rfl <;> decide
    · exact absurd hc hname
  have hname := x.plain x.name (by simp)
  intro l hl
  rw [Section.lines, List.mem_cons, List.mem_append, List.mem_cons] at hl
  rcases hl with rfl | hl | rfl | hl
  · exact ⟨fun hm => (hheader lf hm hname.1).1 rfl, fun hm => (hheader nul hm hname.2).2 rfl⟩
  · exact x.plain l (List.mem_cons_of_mem _ (List.mem_append_left _ hl))
  · decide
  · exact x.plain l (List.mem_cons_of_mem _ (List.mem_append_right _ hl))

def emit (fuel : ℕ) (r : Result) : List Action :=
  let rest := (loadActions fuel r.sect r.f).1
  if r.wasexec then r.action.finish :: rest else rest

theorem loadActions_ofLines {fuel : ℕ} (hls : ls ≠ []) (h : ∀ l ∈ ls, Plain l) :
    (loadActions (fuel + 1) sect (ofLines ls)).1 = emit fuel (run false sect {} false ls ls) := by
  have hsize := length_le_size ls
  have hown : decide (([] : Str) = bytes "exec") = false := by decide
  have hloop := @loadLoop_ofLines false sect {} ls ls ((ofLines ls).size + 1) h (by omega) []
  rw [hown] at hloop
  have heof : (ofLines ls).eof = false := by
    rw [ofLines_eof]
    simpa using hls
  simp only [loadActions, heof, loadAction, hloop, emit, Bool.false_eq_true, if_false]

theorem loadActions_nil (fuel : ℕ) : (loadActions fuel sect (ofLines [])).1 = [] := by
  cases fuel <;> rfl

theorem emit_noise {fuel : ℕ} (h : ∀ l ∈ pre, Noise l) :
    emit fuel (run false sect a false pos pre) = [] := by
  have hrun := @run_skips false false sect a pos pre [] (fun l hl => (h l hl).skip.1)
    fun l hl => (h l hl).skip.2
  rw [List.append_nil] at hrun
  rw [hrun]
  exact loadActions_nil fuel

theorem run_noise (h : ∀ l ∈ pre, Noise l) :
    run false sect a false pos (pre ++ ls) = run false sect a false pos ls :=
  run_skips (fun l hl => (h l hl).skip.1) fun l hl => (h l hl).skip.2

theorem plain_file {xs : List Section} (h : ∀ l ∈ pre, Noise l) :
    ∀ l ∈ pre ++ xs.flatMap Section.lines, Plain l := by
  intro l hl
  rcases List.mem_append.mp hl with hl | hl
  · exact (h l hl).1
  · obtain ⟨x, -, hl⟩ := List.mem_flatMap.mp hl
    exact x.plain_lines l hl

theorem length_le_lines (xs : List Section) :
    xs.length ≤ (xs.flatMap Section.lines).length := by
  induction xs with
  | nil => rfl
  | cons x xs ih =>
    rw [List.flatMap_cons, List.length_append, Section.lines, List.length_cons, List.length_cons]
    omega

/-- A section with code to read gives one action; the next one is loaded from nothing. -/
theorem Section.emit_coded {x : Section} (hx : x.Coded) {xs : List Section} {fuel : ℕ}
    (hfuel : xs.length ≤ fuel) (hpre : ∀ l ∈ pre, Noise l) :
    ∃ (b : Action) (cs pos' : List Str) (sect' : Str),
      ((x.parsed a).code = [] → b = { x.parsed a with code := x.text }) ∧
        (∀ l ∈ cs, Noise l) ∧
        emit fuel (run false sect a false pos (pre ++ (x :: xs).flatMap Section.lines)) =
          b.finish :: emit (fuel - 1) (run false sect' {} false pos'
            (cs ++ xs.flatMap Section.lines)) := by
  obtain ⟨b, cs, hb, hcs, hrun⟩ :=
    @Section.run_coded sect a pos (xs.flatMap Section.lines) x hx
  obtain ⟨sect', hend⟩ := @run_end b (cs ++ xs.flatMap Section.lines) xs
  have hnoise : ∀ l ∈ cs, Noise l := by
    intro l hl
    obtain ⟨hcomment, hmem⟩ := hcs l hl
    exact ⟨x.plain l (List.mem_cons_of_mem _ (List.mem_append_right _ hmem)), Or.inr hcomment⟩
  have hhead : emit fuel (run false sect a false pos (pre ++ (x :: xs).flatMap Section.lines)) =
      b.finish :: (loadActions fuel sect'
        (ofLines (if xs = [] then [] else cs ++ xs.flatMap Section.lines))).1 := by
    rw [run_noise hpre, List.flatMap_cons, hrun, hend]
    rfl
  refine ⟨b, cs, cs ++ xs.flatMap Section.lines, sect', hb, hnoise, ?_⟩
  rw [hhead]
  cases xs with
  | nil => rw [if_pos rfl, loadActions_nil, List.flatMap_nil, List.append_nil, emit_noise hnoise]
  | cons y ys =>
    obtain ⟨fuel, rfl⟩ : ∃ m, fuel = m + 1 := ⟨fuel - 1, by simp at hfuel; omega⟩
    have hne : cs ++ (y :: ys).flatMap Section.lines ≠ [] := by
      simp [Section.lines]
    rw [if_neg (by simp), loadActions_ofLines hne (plain_file hnoise), Nat.add_sub_cancel]

/-- Every section with code to read gives an action, and no other does. -/
theorem emit_length {xs : List Section} {fuel : ℕ} (hfuel : xs.length ≤ fuel + 1)
    (hpre : ∀ l ∈ pre, Noise l) :
    (emit fuel (run false sect a false pos (pre ++ xs.flatMap Section.lines))).length =
      xs.countP fun x => decide x.Coded := by
  induction xs generalizing sect a pos pre fuel with
  | nil =>
    rw [List.flatMap_nil, List.append_nil, emit_noise hpre]
    rfl
  | cons x xs ih =>
    have hlen : xs.length ≤ fuel := Nat.le_of_succ_le_succ hfuel
    by_cases hx : x.Coded
    · obtain ⟨b, cs, pos', sect', -, hcs, hemit⟩ :=
        @Section.emit_coded sect a pos pre x hx xs fuel hlen hpre
      rw [hemit, List.length_cons, ih (by omega) hcs,
        List.countP_cons_of_pos (by simpa using hx)]
    · obtain ⟨pos', hrun⟩ := @Section.run_uncoded sect a pos (xs.flatMap Section.lines) x hx
      rw [run_noise hpre, List.flatMap_cons, hrun, List.countP_cons_of_neg (by simpa using hx)]
      exact @ih _ _ _ [] fuel (by omega) (by simp)

theorem emit_loaded {xs : List Section} (hxs : ∀ x ∈ xs, x.Coded) {fuel : ℕ}
    (hfuel : xs.length ≤ fuel + 1) (hpre : ∀ l ∈ pre, Noise l) :
    List.Forall₂ Section.Loaded xs
      (emit fuel (run false sect {} false pos (pre ++ xs.flatMap Section.lines))) := by
  induction xs generalizing sect pos pre fuel with
  | nil =>
    rw [List.flatMap_nil, List.append_nil, emit_noise hpre]
    exact List.Forall₂.nil
  | cons x xs ih =>
    have hlen : xs.length ≤ fuel := Nat.le_of_succ_le_succ hfuel
    obtain ⟨b, cs, pos', sect', hb, hcs, hemit⟩ :=
      @Section.emit_coded sect {} pos pre x (hxs x (by simp)) xs fuel hlen hpre
    rw [hemit, hb x.parsed_new.code]
    exact List.Forall₂.cons x.loaded
      (ih (fun y hy => hxs y (List.mem_cons_of_mem _ hy)) (by omega) hcs)

/-- The actions are those of the sections, each with its own parameters and code, for exactly the
files where every section has a line of code that is neither empty nor a comment. -/
theorem load_sections_iff {st : State} {before : List Str} {sections : List Section} {s : Str}
    (hbefore : ∀ l ∈ before, Noise l)
    (hlines : ByteText.lines s = before ++ sections.flatMap Section.lines) :
    List.Forall₂ Section.Loaded sections (load st (some s)).actions ↔
      ∀ x ∈ sections, x.Coded := by
  have hplain := @plain_file before sections hbefore
  have hne : before ++ sections.flatMap Section.lines ≠ [] := by
    rw [← hlines]
    exact lines_ne_nil s
  have hfuel : sections.length ≤ s.length + 1 + 1 := by
    have hlen := length_lines s
    have hcount := List.count_le_length (a := lf) (l := s)
    have hle := length_le_lines sections
    rw [hlines, List.length_append] at hlen
    omega
  have hload : (load st (some s)).actions = emit (s.length + 1) (run false st.sect {} false
      (before ++ sections.flatMap Section.lines) (before ++ sections.flatMap Section.lines)) := by
    rw [← loadActions_ofLines hne hplain, ← hlines, ofLines_lines]
    rfl
  rw [hload]
  constructor
  · intro h
    have hlen := h.length_eq
    rw [emit_length hfuel hbefore] at hlen
    have hall := List.countP_eq_length.mp hlen.symm
    exact fun x hx => by simpa using hall x hx
  · exact fun h => emit_loaded h hfuel hbefore

/-- A section for all protocols, with a comment and an empty line in its code. -/
def echoSection : Section where
  kind := bytes "action"
  blanks := [tab]
  name := bytes "echo"
  params := [bytes "proto all"]
  code := [bytes "# show it", bytes "cat", []]
  kind_mem := by decide
  blanks_ne := by decide
  blanks_mem := by simp
  name_head := ⟨101, by decide, by decide⟩
  plain := by decide
  no_header := by decide
  params_read := ⟨bytes "proto all", by decide, by decide⟩
  code_ne := by decide

/-- A manual section with several parameters, and a first line of code for the shell. -/
def traceSection : Section where
  kind := bytes "manual"
  blanks := [tab, blank]
  name := bytes "trace it"
  params := [bytes "proto icq msn", [], bytes "# for messages", bytes "event msg", bytes "options stdin"]
  code := [bytes "#!/bin/sh", bytes "# trace", bytes "cat >>log", []]
  kind_mem := by decide
  blanks_ne := by decide
  blanks_mem := by simp
  name_head := ⟨116, by decide, by decide⟩
  plain := by decide
  no_header := by decide
  params_read := ⟨bytes "proto icq msn", by decide, by decide⟩
  code_ne := by decide

/-- The section that was read last does not matter, nor does a comment at the beginning. -/
theorem load_sections_trace :
    List.Forall₂ Section.Loaded [echoSection, traceSection, echoSection]
      (load ⟨[], bytes "exec"⟩ (some (bytes "# actions\n%action\techo\nproto all\n%exec\n# show it\n" ++
        bytes "cat\n\n%manual\t trace it\nproto icq msn\n\n# for messages\nevent msg\n" ++
        bytes "options stdin\n%exec\n#!/bin/sh\n# trace\ncat >>log\n\n%action\techo\n" ++
        bytes "proto all\n%exec\n# show it\ncat\n"))).actions :=
  (@load_sections_iff ⟨[], bytes "exec"⟩ [bytes "# actions"]
    [echoSection, traceSection, echoSection] _ (by simp only [List.mem_singleton, forall_eq, Noise]; decide)
    (by decide +kernel)).mpr (by decide)

def quietSection : Section where
  kind := bytes "action"
  blanks := [tab]
  name := bytes "quiet"
  params := [bytes "proto icq"]
  code := [bytes "# nothing yet"]
  kind_mem := by decide
  blanks_ne := by decide
  blanks_mem := by simp
  name_head := ⟨113, by decide, by decide⟩
  plain := by decide
  no_header := by decide
  params_read := ⟨bytes "proto icq", by decide, by decide⟩
  code_ne := by decide

def quietFile : Str :=
  bytes "%action\tquiet\nproto icq\n%exec\n# nothing yet\n" ++
    bytes "%action\techo\nproto all\n%exec\n# show it\ncat\n"

/-- Its name and its protocols go on to the next section, and one action is lost. -/
theorem load_leaks :
    lines quietFile = [quietSection, echoSection].flatMap Section.lines ∧
      (load ⟨[], []⟩ (some quietFile)).actions.map (fun a => (a.name, a.code)) =
        [(bytes "quiet", bytes "cat\n")] ∧
      ¬ List.Forall₂ Section.Loaded [quietSection, echoSection]
        (load ⟨[], []⟩ (some quietFile)).actions := by
  have hload : (load ⟨[], []⟩ (some quietFile)).actions.map (fun a => (a.name, a.code)) =
      [(bytes "quiet", bytes "cat\n")] := by
    decide +kernel
  refine ⟨by decide +kernel, hload, fun h => ?_⟩
  have hlen := h.length_eq
  rw [← List.length_map (fun a : Action => (a.name, a.code)), hload] at hlen
  exact absurd hlen (by decide)

end CenterIM.ExternalFile

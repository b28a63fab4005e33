import CenterIM.Contact
import CenterIM.LineStream

/-!
# The files of a contact

`icqcontact::save` writes the data of a contact to a file with one line for each field, and
its long texts to files of their own. `load` tells the fields apart by their line numbers.
-/
namespace CenterIM.ContactFile
open ByteText Decimal LineStream StrText Contact

structure BasicInfo where
  fname : Str := []
  lname : Str := []
  email : Str := []
  city : Str := []
  state : Str := []
  phone : Str := []
  fax : Str := []
  street : Str := []
  cellular : Str := []
  zip : Str := []
  avatar : Str := []
  country : UInt16 := 0
  requiresauth : Bool := false
  authawait : Bool := false

/-- The gender is kept as the number that is written: the scanner takes any. -/
structure MoreInfo where
  age : UInt8 := 0
  gender : Int32 := 0
  homepage : Str := []
  birth_day : UInt32 := 0
  birth_month : UInt32 := 0
  birth_year : UInt32 := 0
  lang1 : UInt16 := 0
  lang2 : UInt16 := 0
  lang3 : UInt16 := 0
  timezone : Int8 := 0
  checkfreq : Int32 := 0
  checklast : Int32 := 0

structure WorkInfo where
  city : Str := []
  state : Str := []
  phone : Str := []
  fax : Str := []
  street : Str := []
  company : Str := []
  dept : Str := []
  position : Str := []
  homepage : Str := []
  zip : Str := []
  country : UInt16 := 0

/-- The part of an `icqcontact` that is kept in its files. -/
structure IcqContact where
  cdesc : ImContact
  nick : Str := []
  dispnick : Str := []
  about : Str := []
  postponed : Str := []
  lastip : Str := []
  pgpkey : Str := []
  usepgpkey : Bool := false
  binfo : BasicInfo := {}
  minfo : MoreInfo := {}
  winfo : WorkInfo := {}
  interests : List Str := []
  background : List Str := []
  groupid : Int32 := 0
  lastread : Int64 := 0
  lastseen : Int64 := 0
  finlist : Bool := true
  modified : Bool := false

structure Dir where
  lastread : Option Str := none
  info : Option Str := none
  about : Option Str := none
  postponed : Option Str := none
  excluded : Bool := false

/-- `tosane`; `strchr` finds the NUL of its argument, too. -/
def tosane (p : Str) : Str := p.map fun c => if c ∈ [lf, cr, nul] then blank else c

def options (c : IcqContact) : Str :=
  (if c.binfo.requiresauth then bytes "a" else []) ++
    (if c.binfo.authawait then bytes "w" else []) ++ if c.usepgpkey then bytes "p" else []

def infoLines (c : IcqContact) : List Str :=
  [ c.nick,
    tosane c.binfo.fname,
    tosane c.binfo.lname,
    tosane c.binfo.email,
    options c,
    c.pgpkey,
    tosane c.binfo.city,
    tosane c.binfo.state,
    tosane c.binfo.phone,
    tosane c.binfo.fax,
    tosane c.binfo.street,
    tosane c.binfo.cellular,
    tosane c.binfo.zip,
    decimal c.binfo.country.toNat,
    tosane c.winfo.city,
    tosane c.winfo.state,
    tosane c.winfo.phone,
    tosane c.winfo.fax,
    tosane c.winfo.street,
    tosane c.winfo.zip,
    decimal c.winfo.country.toNat,
    tosane c.winfo.company,
    tosane c.winfo.dept,
    tosane c.winfo.position,
    decimalInt c.minfo.timezone.toInt,
    tosane c.winfo.homepage,
    decimalInt c.minfo.age.toNat,
    decimalInt c.minfo.gender.toInt,
    tosane c.minfo.homepage,
    decimal c.minfo.lang1.toNat,
    decimal c.minfo.lang2.toNat,
    decimal c.minfo.lang3.toNat,
    decimal c.minfo.birth_day.toNat,
    decimal c.minfo.birth_month.toNat,
    decimal c.minfo.birth_year.toNat,
    c.interests.getD 0 [],
    c.interests.getD 1 [],
    c.interests.getD 2 [],
    c.interests.getD 3 [],
    c.background.getD 0 [],
    c.background.getD 1 [],
    c.background.getD 2 [],
    decimalInt c.minfo.checkfreq.toInt,
    decimalInt c.minfo.checklast.toInt,
    c.lastip,
    tosane c.dispnick,
    decimalInt c.lastseen.toInt,
    [], [], [], [],
    decimalInt c.groupid.toInt,
    tosane c.binfo.avatar ]

/-- `icqcontact::save`, where no file fails to open. -/
def save (enoughdiskspace : Bool) (d : Dir) (c : IcqContact) : Dir × IcqContact :=
  if c.cdesc.eq contactroot then (d, c)
  else
    let modified := c.modified || d.lastread.isNone || d.info.isNone || d.about.isNone
    if modified && enoughdiskspace then
      ({ lastread := some (unlines [decimalInt c.lastread.toInt])
         info := some (unlines (infoLines c))
         about := some c.about
         postponed := if c.postponed ≠ [] then some c.postponed else none
         excluded := d.excluded || !c.finlist }, { c with modified := false })
    else (d, { c with modified := modified })

/-- `icqcontact::clear`. -/
def clear (c : IcqContact) : IcqContact :=
  { cdesc := contactroot, pgpkey := c.pgpkey, lastread := c.lastread }

/-- What `load` does with the line of this number. -/
def setField (i : ℕ) (buf : Str) (c : IcqContact) : IcqContact :=
  match i with
  | 0 => { c with nick := buf }
  | 1 => { c with binfo.fname := buf }
  | 2 => { c with binfo.lname := buf }
  | 3 => { c with binfo.email := buf }
  | 4 =>
    { c with
      binfo.requiresauth := decide (97 ∈ buf)
      binfo.authawait := decide (119 ∈ buf)
      usepgpkey := decide (112 ∈ buf) }
  | 5 => { c with pgpkey := buf }
  | 6 => { c with binfo.city := buf }
  | 7 => { c with binfo.state := buf }
  | 8 => { c with binfo.phone := buf }
  | 9 => { c with binfo.fax := buf }
  | 10 => { c with binfo.street := buf }
  | 11 => { c with binfo.cellular := buf }
  | 12 => { c with binfo.zip := buf }
  | 13 => { c with binfo.country := (strtoul buf).toUInt16 }
  | 14 => { c with winfo.city := buf }
  | 15 => { c with winfo.state := buf }
  | 16 => { c with winfo.phone := buf }
  | 17 => { c with winfo.fax := buf }
  | 18 => { c with winfo.street := buf }
  | 19 => { c with winfo.zip := buf }
  | 20 => { c with winfo.country := (strtoul buf).toUInt16 }
  | 21 => { c with winfo.company := buf }
  | 22 => { c with winfo.dept := buf }
  | 23 => { c with winfo.position := buf }
  | 24 => { c with minfo.timezone := (atoi buf).toInt8 }
  | 25 => { c with winfo.homepage := buf }
  | 26 => { c with minfo.age := (atoi buf).toUInt32.toUInt8 }
  | 27 => { c with minfo.gender := atoi buf }
  | 28 => { c with minfo.homepage := buf }
  | 29 => { c with minfo.lang1 := (strtoul buf).toUInt16 }
  | 30 => { c with minfo.lang2 := (strtoul buf).toUInt16 }
  | 31 => { c with minfo.lang3 := (strtoul buf).toUInt16 }
  | 32 => { c with minfo.birth_day := (atoi buf).toUInt32 }
  | 33 => { c with minfo.birth_month := (atoi buf).toUInt32 }
  | 34 => { c with minfo.birth_year := (atoi buf).toUInt32 }
  | 35 | 36 | 37 | 38 => { c with interests := c.interests ++ if buf ≠ [] then [buf] else [] }
  | 39 | 40 | 41 => { c with background := c.background ++ if buf ≠ [] then [buf] else [] }
  | 42 => { c with minfo.checkfreq := atoi buf }
  | 43 => { c with minfo.checklast := atoi buf }
  | 44 => { c with lastip := buf }
  | 45 => { c with dispnick := buf }
  | 46 => { c with lastseen := (strtoul buf).toInt64 }
  | 51 => { c with groupid := atoi buf }
  | 52 => { c with binfo.avatar := buf }
  | _ => c

/-- The loops of `load`: one step for each line of a file. -/
def lineLoop {σ : Type} (step : ℕ → Str → σ → σ) : ℕ → IStream → Str → ℕ → σ → σ
  | 0, _, _, _, s => s
  | fuel + 1, f, buf, i, s =>
    match getstring f buf with
    | (true, buf, f) => lineLoop step fuel f buf (i + 1) (step i buf s)
    | (false, _, _) => s

def eachLine {σ : Type} (step : ℕ → Str → σ → σ) (content : Str) (s : σ) : σ :=
  lineLoop step ((IStream.ofContent content).size + 1) (IStream.ofContent content) [] 0 s

def joinLine (_ : ℕ) (buf text : Str) : Str := (if text ≠ [] then text ++ [lf] else text) ++ buf

/-- `icqcontact::load`; `groups` are the groups that exist, if groups are used. -/
def load (groups : Option (List Int32)) (d : Dir) (c : IcqContact) : IcqContact :=
  let c := { clear c with cdesc := c.cdesc }
  let c := match d.info with
    | some info => eachLine setField info c
    | none =>
      if c.cdesc.uin ≠ 0 then { c with nick := i2str c.cdesc.uin.toUInt32.toInt32 } else c
  let c := match d.about with
    | some about => { c with about := eachLine joinLine about c.about }
    | none => c
  let c := match d.postponed with
    | some postponed => { c with postponed := eachLine joinLine postponed c.postponed }
    | none => c
  let c := match d.lastread with
    | some lastread =>
      { c with lastread := (strtoul (getstring (IStream.ofContent lastread) []).2.1).toInt64 }
    | none => c
  let c := { c with finlist := !d.excluded }
  let c := if c.nick = [] then { c with nick := c.cdesc.nickname } else c
  let c := if c.dispnick = [] then { c with dispnick := c.nick } else c
  match groups with
  | some ids => if c.groupid ∈ ids then c else { c with groupid := 1 }
  | none => c

theorem mem_tosane {p : Str} {c : Byte} (h : c ∈ tosane p) : c ≠ lf ∧ c ≠ cr ∧ c ≠ nul := by
  obtain ⟨b, -, rfl⟩ := List.mem_map.mp h
  by_cases hb : b ∈ [lf, cr, nul]
  · rw [if_pos hb]
    decide
  · rw [if_neg hb]
    simpa using hb

theorem tosane_plain (p : Str) : Plain (tosane p) :=
  ⟨fun h => (mem_tosane h).1 rfl, fun h => (mem_tosane h).2.2 rfl⟩

@[simp] theorem tosane_tosane (p : Str) : tosane (tosane p) = tosane p := by
  rw [tosane, List.map_congr_left (g := id), List.map_id]
  intro c hc
  obtain ⟨h1, h2, h3⟩ := mem_tosane hc
  simp [h1, h2, h3]

theorem scan_uint16 (n : UInt16) : (strtoul (decimal n.toNat)).toUInt16 = n := by
  have hn := n.toNat_lt
  rw [strtoul_decimal (by omega)]
  apply UInt16.toNat_inj.mp
  simp

theorem scan_int64 (t : Int64) : (strtoul (decimalInt t.toInt)).toInt64 = t := by
  rw [strtoul_decimalInt]
  rfl

theorem scan_int8 (t : Int8) : (atoi (decimalInt t.toInt)).toInt8 = t := by
  have h := atoi_decimalInt t.toInt32
  rw [Int8.toInt_toInt32] at h
  rw [h]
  simp

theorem scan_uint32 (t : UInt32) : (atoi (decimal t.toNat)).toUInt32 = t := by
  have ht := t.toNat_lt
  rw [atoi_decimal (by omega)]
  simp

theorem scan_uint8 (t : UInt8) : (atoi (decimalInt t.toNat)).toUInt32.toUInt8 = t := by
  have ht := t.toNat_lt
  rw [decimalInt_natCast, atoi_decimal (by omega)]
  simp

theorem decimal_plain (n : ℕ) : Plain (decimal n) := by
  rw [← decimalInt_natCast]
  exact decimalInt_plain n

/-- A loop of `load` over the lines of a file. -/
def overLines {σ : Type} (step : ℕ → Str → σ → σ) : ℕ → List Str → σ → σ
  | _, [], s => s
  | i, l :: ls, s => overLines step (i + 1) ls (step i l s)

theorem lineLoop_ofLines {σ : Type} (step : ℕ → Str → σ → σ) {fuel : ℕ} {ls : List Str}
    (h : ∀ l ∈ ls, Plain l) (hf : ls.length < fuel) (buf : Str) (i : ℕ) (s : σ) :
    lineLoop step fuel (ofLines ls) buf i s = overLines step i ls s := by
  induction ls generalizing fuel buf i s with
  | nil =>
    cases fuel with
    | zero => omega
    | succ fuel => rfl
  | cons l ls ih =>
    cases fuel with
    | zero => omega
    | succ fuel =>
      rw [lineLoop, getstring_ofLines (h l (by simp))]
      exact ih (fun k hk => h k (by simp [hk])) (by simpa using hf) _ _ _

theorem eachLine_lines {σ : Type} (step : ℕ → Str → σ → σ) {content : Str} (h : nul ∉ content)
    (s : σ) : eachLine step content s = overLines step 0 (lines content) s := by
  rw [eachLine, ← ofLines_lines]
  exact lineLoop_ofLines step (fun l hl => plain_of_mem_lines h hl)
    (Nat.lt_succ_of_le (length_le_size _)) _ _ _

theorem overLines_append {σ : Type} (step : ℕ → Str → σ → σ) (i : ℕ) (ls ks : List Str) (s : σ) :
    overLines step i (ls ++ ks) s = overLines step (i + ls.length) ks (overLines step i ls s) := by
  induction ls generalizing i s with
  | nil => rfl
  | cons l ls ih =>
    rw [List.cons_append, overLines, ih, overLines, List.length_cons]
    congr 1
    omega

/-- What each step keeps, on a line without NUL, holds at the end of the file. -/
theorem eachLine_inv {σ : Type} {P : σ → Prop} {step : ℕ → Str → σ → σ}
    (h : ∀ i buf s, nul ∉ buf → P s → P (step i buf s)) (content : Str) {s : σ} (hs : P s) :
    P (eachLine step content s) := by
  have hloop : ∀ (n : ℕ) (f : IStream) (buf : Str) (i : ℕ) (s : σ), nul ∉ buf → P s →
      P (lineLoop step n f buf i s) := by
    intro n
    induction n with
    | zero => exact fun _ _ _ _ _ hs => hs
    | succ n ih =>
      intro f buf i s hb hs
      have hnul := getstring_nul (f := f) hb
      rw [lineLoop]
      split
      · next he =>
        rw [he] at hnul
        exact ih _ _ _ _ hnul (h i _ s hnul hs)
      · exact hs
  exact hloop _ _ _ _ _ List.not_mem_nil hs

theorem foldl_joinLine {r : Str} (hr : r ≠ []) (i : ℕ) (ls : List Str) :
    overLines joinLine i ls r = r ++ ls.flatMap fun l => lf :: l := by
  induction ls generalizing r i with
  | nil => simp [overLines]
  | cons l ls ih =>
    rw [overLines, ih (by simp [joinLine, hr])]
    simp [joinLine, hr]

theorem join_lines {k : Str} {ks : List Str} {s : Str} (h : lines s = k :: ks) :
    (k ++ ks.flatMap fun l => lf :: l) = s := by
  have hu := unlines_lines s
  rw [h] at hu
  have hjoin : ∀ (k : Str) (ks : List Str),
      (k ++ ks.flatMap fun l => lf :: l) ++ [lf] = unlines (k :: ks) := by
    intro k ks
    induction ks generalizing k with
    | nil => simp
    | cons l ls ih =>
      have hl := ih l
      rw [unlines_cons] at hl
      simp only [List.flatMap_cons, unlines_cons, ← hl]
      simp
  rw [← hjoin] at hu
  exact List.append_cancel_right hu

/-- A text of several lines is read back without the line breaks at its start. -/
theorem eachLine_joinLine {s : Str} (h : nul ∉ s) :
    eachLine joinLine s [] = s.dropWhile (· = lf) := by
  rw [eachLine_lines _ h]
  clear h
  generalize 0 = i
  induction s generalizing i with
  | nil => rfl
  | cons c s ih =>
    by_cases hc : c = lf
    · subst hc
      rw [lines_lf, overLines, List.dropWhile_cons_of_pos (by simp), ← ih (i + 1)]
      rfl
    · rw [List.dropWhile_cons_of_neg (by simpa using hc)]
      cases hs : lines s with
      | nil => exact absurd hs (lines_ne_nil s)
      | cons k ks =>
        have hl : lines (c :: s) = (c :: k) :: ks := by rw [lines_cons hc, hs, List.modifyHead_cons]
        rw [hl, overLines, foldl_joinLine (by simp [joinLine])]
        exact join_lines hl

/-- What counts of a contact when its fields are compared: the line breaks of the fields that
take one line are blanks. -/
def persisted (c : IcqContact) : IcqContact :=
  { c with
    nick := tosane c.nick
    dispnick := tosane c.dispnick
    lastip := tosane c.lastip
    pgpkey := tosane c.pgpkey
    binfo.fname := tosane c.binfo.fname
    binfo.lname := tosane c.binfo.lname
    binfo.email := tosane c.binfo.email
    binfo.city := tosane c.binfo.city
    binfo.state := tosane c.binfo.state
    binfo.phone := tosane c.binfo.phone
    binfo.fax := tosane c.binfo.fax
    binfo.street := tosane c.binfo.street
    binfo.cellular := tosane c.binfo.cellular
    binfo.zip := tosane c.binfo.zip
    binfo.avatar := tosane c.binfo.avatar
    minfo.homepage := tosane c.minfo.homepage
    winfo.city := tosane c.winfo.city
    winfo.state := tosane c.winfo.state
    winfo.phone := tosane c.winfo.phone
    winfo.fax := tosane c.winfo.fax
    winfo.street := tosane c.winfo.street
    winfo.company := tosane c.winfo.company
    winfo.dept := tosane c.winfo.dept
    winfo.position := tosane c.winfo.position
    winfo.homepage := tosane c.winfo.homepage
    winfo.zip := tosane c.winfo.zip
    interests := c.interests.map tosane
    background := c.background.map tosane
    finlist := true
    modified := false }

/-- The data of a contact as its setters can leave it. -/
structure Valid (groups : Option (List Int32)) (c : IcqContact) : Prop where
  modified : c.modified = true
  nick : c.nick ≠ []
  dispnick : c.dispnick ≠ []
  interests : c.interests.length ≤ 4 ∧ ∀ s ∈ c.interests, s ≠ []
  background : c.background.length ≤ 3 ∧ ∀ s ∈ c.background, s ≠ []
  groupid : ∀ ids, groups = some ids → c.groupid ∈ ids
  noNul : ∀ s ∈ [c.nick, c.pgpkey, c.lastip, c.about, c.postponed] ++ c.interests ++ c.background, nul ∉ s

/-- The fields that are written as they are hold no line break, and the texts of several lines
do not start with one. -/
structure Clean (c : IcqContact) : Prop where
  notRoot : c.cdesc.eq contactroot = false
  oneLine : ∀ s ∈ [c.nick, c.pgpkey, c.lastip] ++ c.interests ++ c.background, lf ∉ s
  about : c.about.head? ≠ some lf
  postponed : c.postponed.head? ≠ some lf

def Aligned (c : IcqContact) (d : Dir) : Prop :=
  ∃ info, d.info = some info ∧ (lines info).map tosane = (infoLines c).map tosane ++ [[]]

def fresh (cdesc : ImContact) : IcqContact := { cdesc }

/-- Saving a contact and loading it again gives all its data back, each field from the line
that was written for it, whatever the files held before. -/
def RoundTrip (groups : Option (List Int32)) (c : IcqContact) : Prop :=
  ∀ d : Dir, persisted (load groups (save true d c).1 (fresh c.cdesc)) = persisted c ∧
    Aligned c (save true d c).1

/-- A list of at most `n` non-empty texts, one for each of `n` lines. -/
theorem read_list {l : List Str} (h : ∀ s ∈ l, s ≠ []) {n : ℕ} (hn : l.length ≤ n) :
    (List.range n).flatMap (fun i => if l.getD i [] ≠ [] then [l.getD i []] else []) = l := by
  induction n generalizing l with
  | zero =>
    obtain rfl := List.eq_nil_of_length_eq_zero (Nat.le_zero.mp hn)
    rfl
  | succ n ih =>
    cases l with
    | nil => simp
    | cons s l =>
      rw [List.range_succ_eq_map, List.flatMap_cons, List.flatMap_map]
      simp only [List.getD_cons_succ, List.getD_cons_zero]
      rw [ih (fun k hk => h k (by simp [hk])) (by simpa using hn), if_pos (h s (by simp))]
      rfl

/-- What `load` reads from an info file whose lines are the fields. -/
def loaded (c : IcqContact) : IcqContact where
  cdesc := c.cdesc
  nick := c.nick
  dispnick := tosane c.dispnick
  lastip := c.lastip
  pgpkey := c.pgpkey
  usepgpkey := c.usepgpkey
  binfo :=
    { fname := tosane c.binfo.fname
      lname := tosane c.binfo.lname
      email := tosane c.binfo.email
      city := tosane c.binfo.city
      state := tosane c.binfo.state
      phone := tosane c.binfo.phone
      fax := tosane c.binfo.fax
      street := tosane c.binfo.street
      cellular := tosane c.binfo.cellular
      zip := tosane c.binfo.zip
      avatar := tosane c.binfo.avatar
      country := c.binfo.country
      requiresauth := c.binfo.requiresauth
      authawait := c.binfo.authawait }
  minfo := { c.minfo with homepage := tosane c.minfo.homepage }
  winfo :=
    { city := tosane c.winfo.city
      state := tosane c.winfo.state
      phone := tosane c.winfo.phone
      fax := tosane c.winfo.fax
      street := tosane c.winfo.street
      company := tosane c.winfo.company
      dept := tosane c.winfo.dept
      position := tosane c.winfo.position
      homepage := tosane c.winfo.homepage
      zip := tosane c.winfo.zip
      country := c.winfo.country }
  interests := (List.range 4).flatMap fun i =>
    if c.interests.getD i [] ≠ [] then [c.interests.getD i []] else []
  background := (List.range 3).flatMap fun i =>
    if c.background.getD i [] ≠ [] then [c.background.getD i []] else []
  groupid := c.groupid
  lastseen := c.lastseen

section
attribute [local simp] setField overLines
variable (l₀ l₁ l₂ l₃ l₄ l₅ l₆ l₇ l₈ l₉ l₁₀ : Str) (ls : List Str) (c : IcqContact)

theorem overLines_head : overLines setField 0 (l₀ :: l₁ :: l₂ :: l₃ :: l₄ :: l₅ :: ls) c =
    overLines setField 6 ls { c with
      nick := l₀
      binfo := { c.binfo with
        fname := l₁
        lname := l₂
        email := l₃
        requiresauth := decide (97 ∈ l₄)
        authawait := decide (119 ∈ l₄) }
      usepgpkey := decide (112 ∈ l₄)
      pgpkey := l₅ } := by
  simp only [overLines, setField, Nat.reduceAdd]

theorem overLines_basic :
    overLines setField 6 (l₀ :: l₁ :: l₂ :: l₃ :: l₄ :: l₅ :: l₆ :: l₇ :: ls) c =
    overLines setField 14 ls { c with
      binfo := { c.binfo with
        city := l₀
        state := l₁
        phone := l₂
        fax := l₃
        street := l₄
        cellular := l₅
        zip := l₆
        country := (strtoul l₇).toUInt16 } } := by
  simp only [overLines, setField, Nat.reduceAdd]

theorem overLines_work :
    overLines setField 14 (l₀ :: l₁ :: l₂ :: l₃ :: l₄ :: l₅ :: l₆ :: l₇ :: l₈ :: l₉ :: ls) c =
    overLines setField 24 ls { c with
      winfo := { c.winfo with
        city := l₀
        state := l₁
        phone := l₂
        fax := l₃
        street := l₄
        zip := l₅
        country := (strtoul l₆).toUInt16
        company := l₇
        dept := l₈
        position := l₉ } } := by
  simp only [overLines, setField, Nat.reduceAdd]

theorem overLines_more :
    overLines setField 24
      (l₀ :: l₁ :: l₂ :: l₃ :: l₄ :: l₅ :: l₆ :: l₇ :: l₈ :: l₉ :: l₁₀ :: ls) c =
    overLines setField 35 ls { c with
      winfo := { c.winfo with homepage := l₁ }
      minfo := { c.minfo with
        timezone := (atoi l₀).toInt8
        age := (atoi l₂).toUInt32.toUInt8
        gender := atoi l₃
        homepage := l₄
        lang1 := (strtoul l₅).toUInt16
        lang2 := (strtoul l₆).toUInt16
        lang3 := (strtoul l₇).toUInt16
        birth_day := (atoi l₈).toUInt32
        birth_month := (atoi l₉).toUInt32
        birth_year := (atoi l₁₀).toUInt32 } } := by
  simp only [overLines, setField, Nat.reduceAdd]

theorem overLines_lists :
    overLines setField 35 (l₀ :: l₁ :: l₂ :: l₃ :: l₄ :: l₅ :: l₆ :: ls) c =
    overLines setField 42 ls { c with
      interests := c.interests ++ (if l₀ ≠ [] then [l₀] else []) ++ (if l₁ ≠ [] then [l₁] else []) ++
        (if l₂ ≠ [] then [l₂] else []) ++ (if l₃ ≠ [] then [l₃] else [])
      background := c.background ++ (if l₄ ≠ [] then [l₄] else []) ++
        (if l₅ ≠ [] then [l₅] else []) ++ (if l₆ ≠ [] then [l₆] else []) } := by
  simp only [overLines, setField, Nat.reduceAdd]

theorem overLines_tail :
    overLines setField 42 [l₀, l₁, l₂, l₃, l₄, [], [], [], [], l₅, l₆, []] c = { c with
      minfo := { c.minfo with checkfreq := atoi l₀, checklast := atoi l₁ }
      lastip := l₂
      dispnick := l₃
      lastseen := (strtoul l₄).toInt64
      groupid := atoi l₅
      binfo := { c.binfo with avatar := l₆ } } := by
  simp only [overLines, setField, Nat.reduceAdd]
end

theorem options_flags (c : IcqContact) : decide (97 ∈ options c) = c.binfo.requiresauth ∧
    decide (119 ∈ options c) = c.binfo.authawait ∧ decide (112 ∈ options c) = c.usepgpkey := by
  unfold options
  cases c.binfo.requiresauth <;> cases c.binfo.authawait <;> cases c.usepgpkey <;> decide

theorem overLines_infoLines (c : IcqContact) :
    overLines setField 0 (infoLines c ++ [[]]) (fresh c.cdesc) = loaded c := by
  obtain ⟨ha, hw, hp⟩ := options_flags c
  simp only [infoLines, List.cons_append, List.nil_append]
  rw [overLines_head, overLines_basic, overLines_work, overLines_more, overLines_lists, overLines_tail]
  simp only [scan_uint16, scan_uint8, scan_uint32, scan_int8, scan_int64, atoi_decimalInt, ha, hw, hp]
  rw [loaded]
  simp [fresh, List.range_succ]

theorem options_plain (c : IcqContact) : Plain (options c) := by
  unfold options
  cases c.binfo.requiresauth <;> cases c.binfo.authawait <;> cases c.usepgpkey <;> decide

def raw (c : IcqContact) : List Str := [c.nick, c.pgpkey, c.lastip] ++ c.interests ++ c.background

theorem getD_of_forall {P : Str → Prop} (hnil : P []) {l : List Str} (h : ∀ s ∈ l, P s) (i : ℕ) :
    P (l.getD i []) := by
  rw [List.getD_eq_getElem?_getD]
  cases hi : l[i]? with
  | none => exact hnil
  | some s => exact h s (List.mem_of_getElem? hi)

/-- Every line of the info file is plain or one of the texts that are written as they are. -/
theorem forall_infoLines {P : Str → Prop} (hplain : ∀ l, Plain l → P l) {c : IcqContact}
    (h : ∀ s ∈ raw c, P s) : ∀ l ∈ infoLines c, P l := by
  have hnil : P [] := hplain [] ⟨by simp, by simp⟩
  have hsane : ∀ p, P (tosane p) := fun p => hplain _ (tosane_plain p)
  have hdec : ∀ n, P (decimal n) := fun n => hplain _ (decimal_plain n)
  have hint : ∀ i, P (decimalInt i) := fun i => hplain _ (decimalInt_plain i)
  have hopt : P (options c) := hplain _ (options_plain c)
  simp only [raw, List.forall_mem_append, List.forall_mem_cons] at h
  obtain ⟨⟨⟨hnick, hkey, hip, -⟩, hinterests⟩, hbackground⟩ := h
  have hi := getD_of_forall hnil hinterests
  have hb := getD_of_forall hnil hbackground
  simp only [infoLines, List.forall_mem_cons, hnil, hsane, hdec, hint, hopt, hnick, hkey, hip, hi, hb,
    List.not_mem_nil, false_implies, implies_true, and_self]

theorem infoLines_plain {groups : Option (List Int32)} {c : IcqContact} (hv : Valid groups c)
    (hc : Clean c) : ∀ l ∈ infoLines c, Plain l := by
  refine forall_infoLines (fun _ h => h) fun s hs => ⟨hc.oneLine s hs, hv.noNul s ?_⟩
  simp only [raw, List.mem_append, List.mem_cons, List.not_mem_nil, or_false] at hs ⊢
  tauto

theorem mem_infoLines {groups : Option (List Int32)} {c : IcqContact} (hv : Valid groups c)
    {s : Str} (hs : s ∈ raw c) : s ∈ infoLines c := by
  have hlist : ∀ {l : List Str} {n : ℕ}, l.length ≤ n → s ∈ l → ∃ i < n, l.getD i [] = s := by
    intro l n hn hm
    obtain ⟨i, hi, rfl⟩ := List.getElem_of_mem hm
    exact ⟨i, by omega, List.getD_eq_getElem _ _ hi⟩
  simp only [raw, List.mem_append, List.mem_cons, List.not_mem_nil, or_false] at hs
  rcases hs with (hs | hs) | hs
  · rcases hs with rfl | rfl | rfl <;> simp [infoLines]
  · obtain ⟨i, hi, rfl⟩ := hlist hv.interests.1 hs
    have hcases : i = 0 ∨ i = 1 ∨ i = 2 ∨ i = 3 := by omega
    rcases hcases with rfl | rfl | rfl | rfl <;> simp only [infoLines, List.mem_cons, true_or, or_true]
  · obtain ⟨i, hi, rfl⟩ := hlist hv.background.1 hs
    have hcases : i = 0 ∨ i = 1 ∨ i = 2 := by omega
    rcases hcases with rfl | rfl | rfl <;> simp only [infoLines, List.mem_cons, true_or, or_true]

theorem infoLines_noNul {groups : Option (List Int32)} {c : IcqContact} (hv : Valid groups c) :
    nul ∉ unlines (infoLines c) := by
  have hlines : ∀ l ∈ infoLines c, nul ∉ l := by
    refine forall_infoLines (fun _ h => h.2) fun s hs => hv.noNul s ?_
    simp only [raw, List.mem_append, List.mem_cons, List.not_mem_nil, or_false] at hs ⊢
    tauto
  intro h
  obtain ⟨l, hl, hm⟩ := List.mem_flatMap.mp h
  rcases List.mem_append.mp hm with hm | hm
  · exact hlines l hl hm
  · exact absurd hm (by decide)

theorem tosane_ne_nil {p : Str} (h : p ≠ []) : tosane p ≠ [] := fun he =>
  h (List.map_eq_nil_iff.mp he)

theorem load_save {groups : Option (List Int32)} {c : IcqContact} (hv : Valid groups c)
    (hroot : c.cdesc.eq contactroot = false) (hplain : ∀ l ∈ infoLines c, lf ∉ l) (d : Dir) :
    load groups (save true d c).1 (fresh c.cdesc) = { loaded c with
      about := c.about.dropWhile (· = lf)
      postponed := c.postponed.dropWhile (· = lf)
      lastread := c.lastread
      finlist := !(d.excluded || !c.finlist) } := by
  have hinfo : eachLine setField (unlines (infoLines c)) (fresh c.cdesc) = loaded c := by
    rw [eachLine_lines _ (infoLines_noNul hv), lines_unlines hplain, overLines_infoLines]
  have habout := eachLine_joinLine (hv.noNul c.about (by simp))
  have hpostponed := eachLine_joinLine (hv.noNul c.postponed (by simp))
  have hread : (getstring (IStream.ofContent (unlines [decimalInt c.lastread.toInt])) []).2.1 =
      decimalInt c.lastread.toInt := by
    have hp := decimalInt_plain c.lastread.toInt
    rw [← ofLines_lines, lines_unlines (by simpa using hp.1)]
    exact congrArg (fun r => r.2.1) (getstring_ofLines hp _ _)
  have hsave : (save true d c).1 =
      { lastread := some (unlines [decimalInt c.lastread.toInt])
        info := some (unlines (infoLines c))
        about := some c.about
        postponed := if c.postponed ≠ [] then some c.postponed else none
        excluded := d.excluded || !c.finlist } := by
    simp [save, hroot, hv.modified]
  have hclear : { clear (fresh c.cdesc) with cdesc := (fresh c.cdesc).cdesc } = fresh c.cdesc := rfl
  have habout' : eachLine joinLine c.about (loaded c).about = c.about.dropWhile (· = lf) := habout
  have hpostponed' : eachLine joinLine c.postponed (loaded c).postponed =
      c.postponed.dropWhile (· = lf) := hpostponed
  have hnick : (loaded c).nick ≠ [] := hv.nick
  have hdisp : (loaded c).dispnick ≠ [] := tosane_ne_nil hv.dispnick
  have hgroup : ∀ ids, groups = some ids → (loaded c).groupid ∈ ids := hv.groupid
  rw [hsave]
  unfold load
  by_cases hp : c.postponed = []
  · simp only [hp, hclear, hinfo, hread, habout', scan_int64, hnick, hdisp, ne_eq, not_true_eq_false,
      if_false]
    cases groups with
    | none => rfl
    | some ids =>
      simp only [hgroup ids rfl, if_true]
      rfl
  · simp only [hp, hclear, hinfo, hread, habout', hpostponed', scan_int64, hnick, hdisp, ne_eq,
      not_false_eq_true, if_true, if_false]
    cases groups with
    | none => rfl
    | some ids => simp only [hgroup ids rfl, if_true]

theorem dropWhile_lf {s : Str} (h : s.dropWhile (· = lf) = s) : s.head? ≠ some lf := by
  cases s with
  | nil => simp
  | cons c t =>
    intro hc
    obtain rfl : c = lf := Option.some.inj hc
    rw [List.dropWhile_cons_of_pos (by simp)] at h
    have hlen := (List.dropWhile_sublist (· = lf) (l := t)).length_le
    rw [h] at hlen
    simp at hlen

theorem dropWhile_of_head {s : Str} (h : s.head? ≠ some lf) : s.dropWhile (· = lf) = s := by
  cases s with
  | nil => rfl
  | cons c t => exact List.dropWhile_cons_of_neg (by simpa using h)

/-- The interests and backgrounds are read back as the lines that hold them. -/
theorem loaded_lists {groups : Option (List Int32)} {c : IcqContact} (hv : Valid groups c) :
    (loaded c).interests = c.interests ∧ (loaded c).background = c.background :=
  ⟨read_list hv.interests.2 hv.interests.1, read_list hv.background.2 hv.background.1⟩

theorem persisted_loaded {groups : Option (List Int32)} {c : IcqContact} (hv : Valid groups c)
    {about postponed : Str} (finlist : Bool) (habout : about = c.about)
    (hpostponed : postponed = c.postponed) :
    persisted { loaded c with
      about, postponed, finlist, lastread := c.lastread } = persisted c := by
  obtain ⟨hi, hb⟩ := loaded_lists hv
  subst habout hpostponed
  unfold persisted
  simp only [hi, hb]
  simp only [loaded, tosane_tosane]

theorem count_unlines (ls : List Str) :
    (unlines ls).count lf = ls.length + (ls.map fun l => l.count lf).sum := by
  induction ls with
  | nil => rfl
  | cons l ls ih =>
    rw [unlines_cons, List.count_append, List.count_cons_self, ih]
    simp only [List.length_cons, List.map_cons, List.sum_cons]
    omega

theorem lines_length (s : Str) : (lines s).length = s.count lf + 1 := by
  induction s with
  | nil => rfl
  | cons c s ih =>
    by_cases hc : c = lf
    · subst hc
      rw [lines_lf, List.length_cons, ih, List.count_cons_self]
    · rw [lines_cons hc, List.length_modifyHead, ih, List.count_cons_of_ne hc]

theorem roundTrip_of_clean {groups : Option (List Int32)} {c : IcqContact} (hv : Valid groups c)
    (hc : Clean c) : RoundTrip groups c := by
  have hplain : ∀ l ∈ infoLines c, lf ∉ l := fun l hl => (infoLines_plain hv hc l hl).1
  intro d
  refine ⟨?_, unlines (infoLines c), by simp [save, hc.notRoot, hv.modified], ?_⟩
  · rw [load_save hv hc.notRoot hplain]
    exact persisted_loaded hv _ (dropWhile_of_head hc.about) (dropWhile_of_head hc.postponed)
  · rw [lines_unlines hplain, List.map_append]
    rfl

theorem clean_of_roundTrip {groups : Option (List Int32)} {c : IcqContact} (hv : Valid groups c)
    (h : RoundTrip groups c) : Clean c := by
  obtain ⟨hdata, info, hinfo, halign⟩ := h {}
  have hroot : c.cdesc.eq contactroot = false := by
    by_contra hroot
    rw [Bool.not_eq_false] at hroot
    simp [save, hroot] at hinfo
  have hinfo' : unlines (infoLines c) = info := by simpa [save, hroot, hv.modified] using hinfo
  -- The info file has one line for each field and the empty one after the last line break.
  have hplain : ∀ l ∈ infoLines c, lf ∉ l := by
    have hlen := congrArg List.length halign
    rw [← hinfo', List.length_map, lines_length, count_unlines, List.length_append,
      List.length_map, List.length_singleton] at hlen
    have hsum : ((infoLines c).map fun l => l.count lf).sum = 0 := by omega
    intro l hl
    rw [List.sum_eq_zero_iff] at hsum
    exact List.count_eq_zero.mp (hsum _ (List.mem_map_of_mem hl))
  rw [load_save hv hroot hplain] at hdata
  exact ⟨hroot, fun s hs => hplain s (mem_infoLines hv hs),
    dropWhile_lf (congrArg IcqContact.about hdata),
    dropWhile_lf (congrArg IcqContact.postponed hdata)⟩

/-- A contact is restored from its files exactly when it is clean. -/
theorem roundTrip_iff (groups : Option (List Int32)) (c : IcqContact) (hv : Valid groups c) :
    RoundTrip groups c ↔ Clean c :=
  ⟨clean_of_roundTrip hv, roundTrip_of_clean hv⟩

def alice : IcqContact where
  cdesc := ImContact.ofNick (bytes "alice@jabber.org") .jabber
  nick := bytes "alice"
  dispnick := bytes "alice"
  about := bytes "Hello.\nI am Alice."
  groupid := 1
  modified := true

theorem alice_valid : Valid (some [1]) alice :=
  ⟨rfl, by decide, by decide, by decide, by decide, by simp [alice], by decide⟩

theorem alice_roundTrip : RoundTrip (some [1]) alice :=
  (roundTrip_iff (some [1]) alice alice_valid).mpr ⟨by decide, by decide, by decide, by decide⟩

def twoLines : IcqContact := { alice with nick := bytes "ali\nce" }

theorem twoLines_not_roundTrip : Valid (some [1]) twoLines ∧ ¬RoundTrip (some [1]) twoLines := by
  refine ⟨⟨rfl, by decide, by decide, by decide, by decide, by simp [twoLines, alice], by decide⟩,
    fun h => ?_⟩
  have hnick := congrArg IcqContact.nick (h {}).1
  exact absurd hnick (by decide +kernel)

end CenterIM.ContactFile

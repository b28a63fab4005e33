import CenterIM.Event
import CenterIM.IrcChannels

/-!
# Searching IRC channels

`irchook::lookup` for some channels, the member lists that come in, and
`irchook::processnicks`, which offers the members of the first channel that are in all of the
others. It takes a channel for one of the others only when the user typed its name in just
the letter case in which it is known.
-/
namespace CenterIM.ChannelSearch
open ByteText StrText Event IrcChannels

/-- What `irchook` has for a search; `searchdest` says if the menu for the results is there. -/
structure IrcSearch where
  channels : List ChannelInfo
  searchchannels : List Str := []
  emailsub : Str := []
  namesub : Str := []
  searchsincelast : Bool := false
  searchdest : Bool := false
  lastfoundnicks : List Str := []

/-- A line of the menu, and the nickname of the contact that it stands for. -/
structure Offer where
  nickname : Str
  text : Str
  deriving DecidableEq, Repr

section Lookup

structure ImSearchParams where
  room : Str
  email : Str := []
  firstname : Str := []
  sincelast : Bool := false

/-- What is done to the nicknames of the channel that `find` finds. -/
def setNicks (room : Str) (f : List Str → List Str) : List ChannelInfo → List ChannelInfo
  | [] => []
  | c :: cs => if c.named room then { c with nicks := f c.nicks } :: cs else c :: setNicks room f cs

def addChannel (channels : List ChannelInfo) (room : Str) : List ChannelInfo :=
  match findChannel channels room with
  | some _ => channels
  | none => channels ++ [{ name := room }]

/-- One turn of the loop over the rooms; the flag is `ready`. -/
def lookupRoom (params : ImSearchParams) (r : IrcSearch × List Call × Bool) (room : Str) :
    IrcSearch × List Call × Bool :=
  let (s, calls, ready) := r
  let room := if room.head? = some 35 then room else 35 :: room
  let channels := addChannel s.channels room
  let joined := ((findChannel channels room).map (·.joined)).getD false
  let calls : List Call := if joined then calls else calls ++ [.firetalk_chat_join (cstr room)]
  let plain := s.emailsub == [] && s.namesub == []
  let cleared := plain || joined
  let calls : List Call :=
    if plain then calls ++ [.firetalk_chat_listmembers (cstr room)]
    else if joined then calls ++ [.firetalk_chat_requestextended (cstr params.room)]
    else calls
  ({ s with
      channels := if cleared then setNicks room (fun _ => []) channels else channels
      searchchannels := s.searchchannels ++ [room] },
    calls, ready && joined && plain)

/-- `irchook::lookup(params, dest)`, up to the call of `processnicks` that is made when the flag
is set. -/
def lookup (params : ImSearchParams) (s : IrcSearch) : IrcSearch × List Call × Bool :=
  let s := { s with
    searchdest := true
    emailsub := params.email
    namesub := params.firstname
    searchsincelast := params.sincelast && params.room != []
    searchchannels := [] }
  if params.room ≠ [] then
    (wordsLoop (params.room.length + 1) params.room).foldl (lookupRoom params) (s, [], true)
  else if params.email ≠ [] then
    ({ s with searchchannels := [[]] },
      [.firetalk_im_searchemail (cstr (bytes "*" ++ params.email ++ bytes "*"))], false)
  else (s, [], false)

/-- `irchook::listmember`. -/
def listmember (room membername : Str) (s : IrcSearch) : IrcSearch :=
  if membername = [] then s
  else { s with channels := setNicks room (· ++ [membername]) s.channels }

end Lookup

section Results

/-- The inner loop of `processnicks`, with the name that was typed first. -/
def missing (channels : List ChannelInfo) (searchchannels : List Str) (first nick : Str) : Bool :=
  channels.any fun ir =>
    decide (ir.name ∈ searchchannels) && !decide (ir.name = first) && !decide (nick ∈ ir.nicks)

/-- The loop that erases nicknames. After each one it starts again; `passed` is what is in front
of its place. -/
def eraseLoop (remove : Str → Bool) : ℕ → List Str → List Str → List Str
  | 0, passed, nicks => passed ++ nicks
  | _ + 1, passed, [] => passed
  | fuel + 1, passed, nick :: nicks =>
    if remove nick then eraseLoop remove fuel [] (passed ++ nicks)
    else eraseLoop remove fuel (passed ++ [nick]) nicks

/-- `set_difference` of sorted lists. -/
def setDifference : List Str → List Str → List Str
  | [], _ => []
  | x :: xs, ys =>
    let ys := ys.dropWhile fun y => strLt y x
    match ys with
    | [] => x :: setDifference xs []
    | y :: rest => if strLt x y then x :: setDifference xs ys else setDifference xs rest

/-- `sort(v.begin(), v.end())`. -/
def sort (v : List Str) : List Str := v.mergeSort fun a b => !strLt b a

/-- The nicknames of the channel that `find` finds. -/
def nicksOf (channels : List ChannelInfo) (name : Str) : List Str :=
  ((findChannel channels name).map (·.nicks)).getD []

/-- `foundnicks` before the comparison with the last search. -/
def foundnicks (channels : List ChannelInfo) (searchchannels : List Str) (first : Str) :
    List Str :=
  let nicks := sort (nicksOf channels first)
  if 1 < searchchannels.length then
    eraseLoop (missing channels searchchannels first) ((nicks.length + 1) * (nicks.length + 1)) []
      nicks
  else nicks

/-- The contact and the line for a nickname. The text that a search for e-mail addresses or
names put behind it is cut off. -/
def offer (s : IrcSearch) (nick : Str) : Offer :=
  let npos :=
    if s.emailsub ≠ [] then rfind 60 nick else if s.namesub ≠ [] then rfind 91 nick else some 0
  let dnick :=
    match npos with
    | some (k + 1) => nick.take k
    | _ => nick
  ⟨dnick, blank :: nick⟩

/-- `irchook::processnicks`. It looks at the first searched channel, whether there is one or
not. -/
def processnicks (s : IrcSearch) : Except Fault (IrcSearch × List Offer) :=
  if !s.searchdest then .ok (s, [])
  else
    match s.searchchannels with
    | [] => .error .nullDeref
    | first :: _ =>
      let found := foundnicks s.channels s.searchchannels first
      let shown := if s.searchsincelast then setDifference found s.lastfoundnicks else found
      .ok ({ s with searchdest := false, lastfoundnicks := found }, shown.map (offer s))

end Results

section Erasing

variable {remove : Str → Bool}

/-- The loop keeps what is not to be removed, in its order. Each removal costs one pass. -/
theorem eraseLoop_eq {n fuel : ℕ} {passed nicks : List Str}
    (hp : ∀ nick ∈ passed, remove nick = false) (hn : passed.length + nicks.length ≤ n)
    (hfuel : (passed.length + nicks.length) * (n + 1) + nicks.length < fuel) :
    eraseLoop remove fuel passed nicks = passed ++ nicks.filter (fun nick => !remove nick) := by
  induction fuel generalizing passed nicks with
  | zero => exact absurd hfuel (Nat.not_lt_zero _)
  | succ fuel ih =>
    cases nicks with
    | nil => simp [eraseLoop]
    | cons nick nicks =>
      rw [List.length_cons] at hn hfuel
      rw [eraseLoop]
      cases hr : remove nick with
      | true =>
        have hlen : (passed ++ nicks).length = passed.length + nicks.length := List.length_append
        have hmul : (passed.length + (nicks.length + 1)) * (n + 1) =
            (passed.length + nicks.length) * (n + 1) + (n + 1) := by ring
        have hrest := @ih [] (passed ++ nicks) (by simp) (by rw [hlen, List.length_nil]; omega)
          (by rw [hlen, List.length_nil, Nat.zero_add]; omega)
        have hpassed : passed.filter (fun nick => !remove nick) = passed := by
          apply List.filter_eq_self.mpr
          intro nick hnick
          rw [hp nick hnick]
          rfl
        rw [if_pos rfl, hrest, List.filter_append, hpassed, List.filter_cons, hr]
        rfl
      | false =>
        have hlen : (passed ++ [nick]).length = passed.length + 1 := List.length_append
        have hadd : passed.length + 1 + nicks.length = passed.length + (nicks.length + 1) := by omega
        have hrest := @ih (passed ++ [nick]) nicks
          (by
            intro m hm
            rcases List.mem_append.mp hm with hm | hm
            · exact hp m hm
            · rw [List.mem_singleton.mp hm, hr])
          (by rw [hlen]; omega) (by rw [hlen, hadd]; omega)
        rw [if_neg (by simp), hrest, List.filter_cons, hr, List.append_assoc]
        rfl

theorem eraseLoop_all (nicks : List Str) :
    eraseLoop remove ((nicks.length + 1) * (nicks.length + 1)) [] nicks =
      nicks.filter fun nick => !remove nick := by
  refine (@eraseLoop_eq remove nicks.length _ [] nicks (by simp) (by simp) ?_).trans rfl
  rw [List.length_nil, Nat.zero_add]
  nlinarith

end Erasing

section Intersection

def present (channels : List ChannelInfo) (others : List Str) (nick : Str) : Bool :=
  others.all fun name =>
    match findChannel channels name with
    | some ir => decide (nick ∈ ir.nicks)
    | none => true

/-- The members of the first channel, sorted, that are in the list of each of the others. -/
def intersection (channels : List ChannelInfo) (first : Str) (others : List Str) : List Str :=
  (sort (nicksOf channels first)).filter (present channels others)

def Checked (channels : List ChannelInfo) (first : Str) (others : List Str) (ir : ChannelInfo) :
    Prop := ir ∈ channels ∧ ir.name ∈ first :: others ∧ ir.name ≠ first

/-- The searched channels whose names were not typed as they are known make no difference, and
neither do channels that the loop looks at although another one is found by their names. -/
def Covered (channels : List ChannelInfo) (first : Str) (others : List Str) : Prop :=
  (∀ name ∈ others, ∀ ir, findChannel channels name = some ir → ir.name ∉ first :: others →
    ∀ nick ∈ nicksOf channels first,
      (∀ ic, Checked channels first others ic → nick ∈ ic.nicks) → nick ∈ ir.nicks) ∧
  (∀ ir, Checked channels first others ir → findChannel channels ir.name ≠ some ir →
    ∀ nick ∈ nicksOf channels first,
      (∀ name ∈ others, ∀ ic, findChannel channels name = some ic → nick ∈ ic.nicks) →
        nick ∈ ir.nicks)

variable {channels : List ChannelInfo} {first : Str} {others : List Str} {nick : Str}

theorem missing_iff : missing channels (first :: others) first nick = false ↔
    ∀ ir, Checked channels first others ir → nick ∈ ir.nicks := by
  rw [missing, List.any_eq_false]
  constructor
  · intro h ir ⟨hmem, hname, hne⟩
    have hir := h ir hmem
    simp only [hname, hne, decide_true, decide_false, Bool.not_false, Bool.and_self,
      Bool.true_and, Bool.not_eq_true', decide_eq_false_iff_not, not_not] at hir
    exact hir
  · intro h ir hmem hir
    simp only [Bool.and_eq_true, decide_eq_true_eq, Bool.not_eq_true', decide_eq_false_iff_not]
      at hir
    exact hir.2 (h ir ⟨hmem, hir.1.1, hir.1.2⟩)

theorem present_iff : present channels others nick = true ↔
    ∀ name ∈ others, ∀ ir, findChannel channels name = some ir → nick ∈ ir.nicks := by
  rw [present, List.all_eq_true]
  constructor
  · intro h name hname ir hir
    have hp := h name hname
    rw [hir] at hp
    exact of_decide_eq_true hp
  · intro h name hname
    cases hir : findChannel channels name with
    | none => rfl
    | some ir => exact decide_eq_true (h name hname ir hir)

/-- The filter of `processnicks`, whether there is one channel or more. -/
theorem foundnicks_eq (channels : List ChannelInfo) (first : Str) (others : List Str) :
    foundnicks channels (first :: others) first =
      (sort (nicksOf channels first)).filter
        (fun nick => !missing channels (first :: others) first nick) := by
  rw [foundnicks]
  cases others with
  | cons name others => rw [if_pos (by simp), eraseLoop_all]
  | nil =>
    have hnone : ∀ nick, missing channels [first] first nick = false := by
      intro nick
      apply missing_iff.mpr
      rintro ir ⟨-, hname, hne⟩
      exact absurd (List.mem_singleton.mp hname) hne
    rw [if_neg (by simp)]
    refine (List.filter_eq_self.mpr ?_).symm
    intro nick _
    rw [hnone]
    rfl

/-- The two filters agree on a nickname of the first channel when the channels that only one of
them asks for make no difference. -/
theorem covered_iff : Covered channels first others ↔
    ∀ nick ∈ nicksOf channels first,
      (!missing channels (first :: others) first nick) = present channels others nick := by
  have hsame : ∀ nick, ((!missing channels (first :: others) first nick) =
      present channels others nick) ↔
      ((∀ ir, Checked channels first others ir → nick ∈ ir.nicks) ↔
        ∀ name ∈ others, ∀ ir, findChannel channels name = some ir → nick ∈ ir.nicks) := by
    intro nick
    rw [← missing_iff, ← present_iff, Bool.eq_iff_iff, Bool.not_eq_true']
  simp only [hsame]
  constructor
  · intro ⟨hskipped, hextra⟩ nick hnick
    constructor
    · intro h name hname ir hir
      obtain ⟨hmem, hup⟩ := findChannel_some hir
      by_cases htyped : ir.name ∈ first :: others
      · by_cases hfirst : ir.name = first
        · have hfound : findChannel channels first = some ir := by
            rw [← hfirst, findChannel_congr hup, hir]
          simpa [nicksOf, hfound] using hnick
        · exact h ir ⟨hmem, htyped, hfirst⟩
      · exact hskipped name hname ir hir htyped nick hnick h
    · intro h ir hir
      by_cases hfound : findChannel channels ir.name = some ir
      · have hother : ir.name ∈ others := (List.mem_cons.mp hir.2.1).resolve_left hir.2.2
        exact h ir.name hother ir hfound
      · exact hextra ir hir hfound nick hnick h
  · intro h
    refine ⟨fun name hname ir hir _ nick hnick hall => ?_, fun ir hir _ nick hnick hall => ?_⟩
    · exact (h nick hnick).mp hall name hname ir hir
    · exact (h nick hnick).mpr hall ir hir

theorem mem_sort {v : List Str} : nick ∈ sort v ↔ nick ∈ v := (List.mergeSort_perm v _).mem_iff

theorem foundnicks_iff :
    foundnicks channels (first :: others) first = intersection channels first others ↔
      Covered channels first others := by
  rw [foundnicks_eq, intersection, covered_iff]
  constructor
  · intro h nick hnick
    have hin : nick ∈ (sort (nicksOf channels first)).filter
        (fun nick => !missing channels (first :: others) first nick) ↔
        nick ∈ (sort (nicksOf channels first)).filter (present channels others) := by rw [h]
    rw [List.mem_filter, List.mem_filter] at hin
    simp only [mem_sort.mpr hnick, true_and] at hin
    exact Bool.eq_iff_iff.mpr hin
  · intro h
    apply List.filter_congr
    intro nick hnick
    exact h nick (mem_sort.mp hnick)

/-- Channels whose names were typed as they are known are covered, where no two known names differ
in letter case only. -/
theorem covered_of_exact (hd : Distinct channels)
    (h : ∀ name ∈ others, ∀ ir ∈ findChannel channels name, ir.name ∈ first :: others) :
    Covered channels first others :=
  ⟨fun name hname ir hir hn => absurd (h name hname ir hir) hn,
    fun _ hir hn => absurd (findChannel_mem hd hir.1) hn⟩

/-- What `processnicks` offers is the intersection, in a search that is not for what is new,
if and only if the channels are covered. -/
theorem processnicks_iff {s : IrcSearch} (hdest : s.searchdest = true)
    (hs : s.searchchannels = first :: others) (hlast : s.searchsincelast = false) :
    (processnicks s).map Prod.snd =
        .ok ((intersection s.channels first others).map (offer s)) ↔
      Covered s.channels first others := by
  have hrun : (processnicks s).map Prod.snd =
      .ok ((foundnicks s.channels (first :: others) first).map (offer s)) := by
    simp [processnicks, hdest, hs, hlast, Except.map]
  have hinj : Function.Injective (offer s) := by
    intro a b hab
    exact (List.cons_eq_cons.mp (congrArg Offer.text hab)).2
  rw [hrun, ← foundnicks_iff]
  constructor
  · intro h
    exact List.map_injective_iff.mpr hinj (Except.ok.inj h)
  · intro h
    rw [h]

/-- Two channels with their members, and a search for them. -/
def search (room : Str) : IrcSearch :=
  let s := (lookup ⟨room, [], [], false⟩
    { channels := [{ name := bytes "#Linux", joined := true }] }).1
  [(bytes "#c", bytes "bob"), (bytes "#c", bytes "ann"), (bytes "#linux", bytes "ann")].foldl
    (fun s m => listmember m.1 m.2 s) s

theorem processnicks_exact :
    (processnicks (search (bytes "c Linux"))).map Prod.snd =
      .ok ((intersection (search (bytes "c Linux")).channels (bytes "#c") [bytes "#Linux"]).map
        (offer (search (bytes "c Linux")))) := by
  have h := @processnicks_iff (bytes "#c") [bytes "#Linux"] (search (bytes "c Linux"))
    (by decide) (by decide) (by decide)
  apply h.mpr
  exact covered_of_exact (by decide) (by decide)

/-- A member of the first channel only is offered when the second one was typed in small letters. -/
theorem other_case_skipped :
    (processnicks (search (bytes "c linux"))).map Prod.snd =
        .ok [⟨bytes "ann", bytes " ann"⟩, ⟨bytes "bob", bytes " bob"⟩] ∧
      intersection (search (bytes "c linux")).channels (bytes "#c") [bytes "#linux"] =
        [bytes "ann"] := by
  have hsort : sort [bytes "bob", bytes "ann"] = [bytes "ann", bytes "bob"] := by
    have hlt : strLt (bytes "ann") (bytes "bob") = true := by decide
    simp [sort, List.mergeSort, List.MergeSort.Internal.splitInTwo, hlt]
  have hnicks : nicksOf (search (bytes "c linux")).channels (bytes "#c") =
      [bytes "bob", bytes "ann"] := by decide
  have hsearched : (search (bytes "c linux")).searchchannels = [bytes "#c", bytes "#linux"] := by
    decide
  have hmenu : (search (bytes "c linux")).searchdest = true ∧
      (search (bytes "c linux")).searchsincelast = false := by decide
  constructor
  · simp only [processnicks, hmenu, hsearched, foundnicks, hnicks, hsort]
    decide
  · rw [intersection, hnicks, hsort]
    decide

end Intersection

end CenterIM.ChannelSearch

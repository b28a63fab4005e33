import CenterIM.StrText

/-!
# IRC channels

The channels that `irchook` knows, which are found without regard to letter case, and
`irchook::setautochannels`, which replaces the list of them and leaves and joins channels as
the new list says. Texts that are handed to the server are those that the callee sees: it
gets a pointer, and reads up to the first NUL.
-/
namespace CenterIM.IrcChannels
open ByteText StrText

/-- `irchook::channelInfo`. -/
structure ChannelInfo where
  name : Str
  passwd : Str := []
  joined : Bool := false
  fetched : Bool := false
  nicks : List Str := []
  deriving DecidableEq, Repr

/-- `channelInfo::operator ==`. -/
def ChannelInfo.named (c : ChannelInfo) (aname : Str) : Bool := decide (up aname = up c.name)

/-- `find(channels.begin(), channels.end(), aname)`. -/
def findChannel (channels : List ChannelInfo) (aname : Str) : Option ChannelInfo :=
  channels.find? (·.named aname)

/-- What is called for a channel or a search. -/
inductive Call
  | firetalk_chat_part (room : Str)
  | firetalk_chat_join (room : Str)
  | firetalk_chat_listmembers (room : Str)
  | firetalk_chat_requestextended (room : Str)
  | firetalk_im_searchemail (email : Str)
  deriving DecidableEq, Repr

/-- The flag `r` of both loops: is the channel missing from the other list, or not joined? -/
def apart (channels : List ChannelInfo) (name : Str) : Bool :=
  match findChannel channels name with
  | none => true
  | some c => !c.joined

def passname (iac : ChannelInfo) : Str :=
  if iac.passwd ≠ [] then iac.name ++ ([blank] ++ iac.passwd) else iac.name

def part (ic : ChannelInfo) : Call := .firetalk_chat_part (cstr ic.name)

def join (iac : ChannelInfo) : Call := .firetalk_chat_join (cstr (passname iac))

/-- `irchook::setautochannels(achannels)`: the list that is stored, and what is called. -/
def setautochannels (channels achannels : List ChannelInfo) : List ChannelInfo × List Call :=
  let parts := channels.flatMap fun ic =>
    if ic.joined then if apart achannels ic.name then [part ic] else [] else []
  let joins := achannels.flatMap fun iac =>
    if iac.joined then if apart channels iac.name then [join iac] else [] else []
  (achannels, parts ++ joins)

/-- No name is there twice, in whatever letter case. -/
def Distinct (channels : List ChannelInfo) : Prop := (channels.map fun c => up c.name).Nodup

instance (channels : List ChannelInfo) : Decidable (Distinct channels) :=
  inferInstanceAs (Decidable (List.Nodup _))

/-- A channel of this name, in whatever letter case, is joined. -/
def Joined (channels : List ChannelInfo) (name : Str) : Prop :=
  ∃ c ∈ channels, up c.name = up name ∧ c.joined = true

variable {channels achannels : List ChannelInfo} {name : Str} {c : ChannelInfo}

theorem findChannel_some (h : findChannel channels name = some c) :
    c ∈ channels ∧ up c.name = up name := by
  have hp := List.find?_some h
  simp only [ChannelInfo.named, decide_eq_true_eq] at hp
  exact ⟨List.mem_of_find?_eq_some h, hp.symm⟩

theorem findChannel_none_iff :
    findChannel channels name = none ↔ ∀ c ∈ channels, up c.name ≠ up name := by
  rw [findChannel, List.find?_eq_none]
  simp only [ChannelInfo.named, decide_eq_true_eq]
  exact ⟨fun h c hc he => h c hc he.symm, fun h c hc he => h c hc he.symm⟩

/-- Which channel is found depends on the name up to letter case only. -/
theorem findChannel_congr {name' : Str} (h : up name = up name') :
    findChannel channels name = findChannel channels name' := by
  simp only [findChannel, ChannelInfo.named, h]

theorem findChannel_mem (hd : Distinct channels) (hc : c ∈ channels) :
    findChannel channels c.name = some c := by
  cases hf : findChannel channels c.name with
  | none => exact absurd rfl (findChannel_none_iff.mp hf c hc)
  | some c' =>
    obtain ⟨hmem, hname⟩ := findChannel_some hf
    rw [List.inj_on_of_nodup_map hd hmem hc hname]

theorem distinct_filter (hd : Distinct channels) (p : ChannelInfo → Bool) :
    Distinct (channels.filter p) := hd.sublist ((List.filter_sublist).map _)

theorem apart_iff (hd : Distinct channels) : apart channels name = true ↔ ¬ Joined channels name := by
  unfold apart
  cases hf : findChannel channels name with
  | none =>
    refine iff_of_true rfl ?_
    rintro ⟨c, hc, hname, -⟩
    exact findChannel_none_iff.mp hf c hc hname
  | some c =>
    obtain ⟨hmem, hname⟩ := findChannel_some hf
    simp only [Bool.not_eq_true']
    constructor
    · intro hj ⟨d, hd', hdname, hdj⟩
      have he : d = c := List.inj_on_of_nodup_map hd hd' hmem (hdname.trans hname.symm)
      rw [he, hj] at hdj
      cases hdj
    · intro h
      by_contra hj
      exact h ⟨c, hmem, hname, by simpa using hj⟩

/-- A loop that calls something for the channels that another list does not have joined. -/
theorem calls_eq (call : ChannelInfo → Call) (channels achannels : List ChannelInfo) :
    (channels.flatMap fun ic =>
      if ic.joined then if apart achannels ic.name then [call ic] else [] else []) =
      (channels.filter fun ic => ic.joined && apart achannels ic.name).map call := by
  induction channels with
  | nil => rfl
  | cons ic channels ih =>
    rw [List.flatMap_cons, ih, List.filter_cons]
    cases ic.joined with
    | false => rfl
    | true =>
      cases apart achannels ic.name with
      | false => rfl
      | true => rfl

/-- The channels that are joined in one list and not in another one. -/
theorem mem_joined_apart (hd : Distinct achannels) :
    (c ∈ channels.filter fun ic => ic.joined && apart achannels ic.name) ↔
      c ∈ channels ∧ c.joined = true ∧ ¬ Joined achannels c.name := by
  rw [List.mem_filter, Bool.and_eq_true, apart_iff hd]

/-- `PART` is sent once for each channel that was joined and is not joined in the new list,
`JOIN` once for each that is joined there and was not, and the new list is what is stored. -/
theorem setautochannels_spec (hd : Distinct channels) (hd' : Distinct achannels) :
    ∃ left entered : List ChannelInfo,
      (setautochannels channels achannels).2 = left.map part ++ entered.map join ∧
      Distinct left ∧
      (∀ c, c ∈ left ↔ c ∈ channels ∧ c.joined = true ∧ ¬ Joined achannels c.name) ∧
      Distinct entered ∧
      (∀ c, c ∈ entered ↔ c ∈ achannels ∧ c.joined = true ∧ ¬ Joined channels c.name) ∧
      (setautochannels channels achannels).1 = achannels := by
  refine ⟨channels.filter fun ic => ic.joined && apart achannels ic.name,
    achannels.filter fun iac => iac.joined && apart channels iac.name, ?_, distinct_filter hd _,
    fun c => mem_joined_apart hd', distinct_filter hd' _, fun c => mem_joined_apart hd, rfl⟩
  rw [← calls_eq part, ← calls_eq join]
  rfl

theorem setautochannels_renamed :
    ∃ left entered : List ChannelInfo,
      (setautochannels
        [⟨bytes "#Lisp", [], true, true, []⟩, ⟨bytes "#c", [], true, false, []⟩]
        [⟨bytes "#lisp", [], true, false, []⟩, ⟨bytes "#c", [], false, false, []⟩,
          ⟨bytes "#ml", bytes "key", true, false, []⟩]).2 =
        left.map part ++ entered.map join ∧ Distinct left ∧ Distinct entered := by
  obtain ⟨left, entered, h, hl, -, he, -⟩ := @setautochannels_spec
    [⟨bytes "#Lisp", [], true, true, []⟩, ⟨bytes "#c", [], true, false, []⟩]
    [⟨bytes "#lisp", [], true, false, []⟩, ⟨bytes "#c", [], false, false, []⟩,
      ⟨bytes "#ml", bytes "key", true, false, []⟩] (by decide) (by decide)
  exact ⟨left, entered, h, hl, he⟩

/-- A channel whose name only changed its letter case is neither left nor joined again. -/
example : (setautochannels
    [⟨bytes "#Lisp", [], true, true, []⟩, ⟨bytes "#c", [], true, false, []⟩]
    [⟨bytes "#lisp", [], true, false, []⟩, ⟨bytes "#c", [], false, false, []⟩,
      ⟨bytes "#ml", bytes "key", true, false, []⟩]).2 =
    [.firetalk_chat_part (bytes "#c"), .firetalk_chat_join (bytes "#ml key")] := by
  decide

end CenterIM.IrcChannels

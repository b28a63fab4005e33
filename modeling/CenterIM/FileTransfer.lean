import CenterIM.Event
import CenterIM.Runs

/-!
# File transfers of the IRC hook

`irchook` keeps the handles of pending transfers in a map whose keys are the file events,
compared by the text that is shown for them. While pending offers have different texts,
every command acts on the handle of its own offer and no entry of another one is lost.
-/
namespace CenterIM.FileTransfer
open ByteText StrText Contact Event Runs OrderedMap

/-- `imfile`, as far as the hook looks at it. -/
structure ImFile where
  contact : ImContact
  msg : Str
  files : List FileRecord
  deriving DecidableEq

/-- `imfile::gettext`. -/
def ImFile.gettext (fr : ImFile) : Str := fileText fr.files fr.msg

/-- `imfile::operator <`. -/
def ImFile.lt (a b : ImFile) : Bool := strLt a.gettext b.gettext

instance : StrictWeak ImFile.lt where
  irrefl a := (StrictWeak.irrefl a.gettext : strLt a.gettext a.gettext = false)
  trans hab hbc := (StrictWeak.trans hab hbc : strLt _ _ = true)
  split c hab := (StrictWeak.split c.gettext hab : strLt _ _ = true ∨ strLt _ _ = true)

/-- A `void *` of the transfer library. -/
abbrev Handle := UInt64

abbrev TransferInfo := OrderedMap ImFile (Handle × Str) ImFile.lt

/-- `transferinfo[fr]`: a new entry holds a null handle. -/
def entry (m : TransferInfo) (fr : ImFile) : Handle × Str := (m.find? fr).getD (0, [])

inductive Firetalk where
  | accept (handle : Handle) (localpath : Str)
  | refuse (handle : Handle)
  | cancel (handle : Handle)

def Firetalk.handle : Firetalk → Handle
  | .accept handle _ => handle
  | .refuse handle => handle
  | .cancel handle => handle

/-- `justfname`. -/
def justfname (fname : Str) : Str := (fname.reverse.takeWhile (· ≠ 47)).reverse

/-- `irchook::replytransfer`; an empty path or an event without files is a fault. -/
def replytransfer (m : TransferInfo) (fr : ImFile) (accept : Bool) (localpath : Str) :
    Except Fault (Firetalk × TransferInfo) :=
  if accept then
    match localpath.getLast?, fr.files with
    | none, _ => .error .outOfRange
    | some _, [] => .error .nullDeref
    | some c, f :: _ =>
      let path := localpath ++ (if c ≠ 47 then bytes "/" else []) ++ justfname f.fname
      .ok (.accept (entry m fr).1 path, m.set fr ((entry m fr).1, path))
  else .ok (.refuse (entry m fr).1, m.erase fr)

/-- `irchook::aborttransfer`. -/
def aborttransfer (m : TransferInfo) (fr : ImFile) : Firetalk × TransferInfo :=
  (.cancel (entry m fr).1, m.erase fr)

/-- `irchook::getfevent`. -/
def getfevent (m : TransferInfo) (fhandle : Handle) : Option ImFile :=
  (m.entries.find? fun e => e.2.1 == fhandle).map Prod.fst

/-- The event that `irchook::fileoffer` makes. -/
def offered (sender filename : Str) (size : Int64) : ImFile :=
  ⟨ImContact.ofNick sender .irc, [], [⟨filename, size⟩]⟩

/-- `irchook::fileoffer`. -/
def fileoffer (m : TransferInfo) (filehandle : Handle) (sender filename : Str) (size : Int64) :
    TransferInfo :=
  let fr := offered sender filename size
  m.set fr (filehandle, (entry m fr).2)

/-- `irchook::filefinish`. -/
def filefinish (m : TransferInfo) (filehandle : Handle) : TransferInfo :=
  match getfevent m filehandle with
  | some fr => m.erase fr
  | none => m

/-- `irchook::fileerror`. -/
def fileerror (m : TransferInfo) (filehandle : Handle) : TransferInfo :=
  match getfevent m filehandle with
  | some fr => m.erase fr
  | none => m

/-- A command on an event, the handle it acted on, and the one recorded for the pending
offer of that event. -/
structure Act where
  fr : ImFile
  used : Handle
  recorded : Option Handle

/-- The map, the offers that are pending with their handles, and the commands so far. -/
structure TransferState where
  transferinfo : TransferInfo
  pending : List (ImFile × Handle)
  acts : List Act

def sameOffer (a b : ImFile) : Bool :=
  a.contact.eq b.contact && decide (a.files = b.files) && decide (a.msg = b.msg)

def recorded (s : TransferState) (fr : ImFile) : Option Handle :=
  (s.pending.find? fun p => sameOffer p.1 fr).map Prod.snd

inductive Action where
  | offer (filehandle : Handle) (sender filename : Str) (size : Int64)
  | accept (fr : ImFile) (localpath : Str)
  | refuse (fr : ImFile)
  | abort (fr : ImFile)
  | finish (filehandle : Handle)
  | error (filehandle : Handle)

def withdraw (s : TransferState) (fr : ImFile) : List (ImFile × Handle) :=
  s.pending.filter fun p => !sameOffer p.1 fr

def close (s : TransferState) (filehandle : Handle) : List (ImFile × Handle) :=
  s.pending.filter fun p => p.2 != filehandle

def step (s : TransferState) : Action → Except Fault TransferState
  | .offer filehandle sender filename size => .ok
    { s with
      transferinfo := fileoffer s.transferinfo filehandle sender filename size
      pending := (offered sender filename size, filehandle) :: s.pending }
  | .accept fr localpath =>
    (replytransfer s.transferinfo fr true localpath).map fun r =>
      ⟨r.2, s.pending, ⟨fr, r.1.handle, recorded s fr⟩ :: s.acts⟩
  | .refuse fr =>
    (replytransfer s.transferinfo fr false []).map fun r =>
      ⟨r.2, withdraw s fr, ⟨fr, r.1.handle, recorded s fr⟩ :: s.acts⟩
  | .abort fr =>
    let r := aborttransfer s.transferinfo fr
    .ok ⟨r.2, withdraw s fr, ⟨fr, r.1.handle, recorded s fr⟩ :: s.acts⟩
  | .finish filehandle => .ok
    { s with
      transferinfo := filefinish s.transferinfo filehandle
      pending := close s filehandle }
  | .error filehandle => .ok
    { s with
      transferinfo := fileerror s.transferinfo filehandle
      pending := close s filehandle }

/-- What the transfer library and the dialogs promise: handles of pending transfers are not
null and not used twice, a contact has one pending offer of a file, an offer is accepted with
a directory. -/
def Valid (s : TransferState) : Action → Prop
  | .offer filehandle sender filename size => filehandle ≠ 0 ∧
      (∀ p ∈ s.pending, p.2 ≠ filehandle) ∧ recorded s (offered sender filename size) = none
  | .accept _ localpath => localpath ≠ []
  | _ => True

/-- The condition on a step: no two pending offers are shown with the same text, and
commands are given for pending offers. -/
def Meets (s : TransferState) : Action → Prop
  | .offer _ sender filename size =>
      ∀ p ∈ s.pending, p.1.gettext ≠ (offered sender filename size).gettext
  | .accept fr _ => (recorded s fr).isSome
  | .refuse fr => (recorded s fr).isSome
  | .abort fr => (recorded s fr).isSome
  | _ => True

abbrev Run (ok : TransferState → Action → Prop) : TransferState → Prop :=
  Reached (· = ⟨OrderedMap.empty, [], []⟩) (fun s a t => step s a = .ok t) ok

/-- Every command acted on the handle recorded for the offer of its event, and every
pending offer still has its entry. -/
def Faithful (s : TransferState) : Prop :=
  (∀ a ∈ s.acts, a.recorded = some a.used) ∧
    ∀ p ∈ s.pending, ∃ path, s.transferinfo.find? p.1 = some (p.2, path)

theorem same_iff_gettext (a b : ImFile) :
    same ImFile.lt a b = true ↔ a.gettext = b.gettext :=
  (same_strLt : same strLt a.gettext b.gettext = true ↔ _)

theorem same_false {a b : ImFile} (h : a.gettext ≠ b.gettext) : same ImFile.lt a b = false := by
  rw [← Bool.not_eq_true, same_iff_gettext]
  exact h

theorem find?_gettext (m : TransferInfo) {a b : ImFile} (h : a.gettext = b.gettext) :
    m.find? a = m.find? b := find?_congr m ((same_iff_gettext a b).mpr h)

theorem sameOffer_gettext {a b : ImFile} (h : sameOffer a b = true) : a.gettext = b.gettext := by
  simp only [sameOffer, Bool.and_eq_true, decide_eq_true_eq] at h
  rw [ImFile.gettext, ImFile.gettext, h.1.2, h.2]

/-- What holds in every state of a run that meets the condition: the entries of the map are
the pending offers, which differ in text and handle. -/
structure TransferInv (s : TransferState) : Prop where
  found : ∀ p ∈ s.pending, ∃ path, s.transferinfo.find? p.1 = some (p.2, path)
  entries : ∀ e ∈ s.transferinfo.entries, ∃ p ∈ s.pending, p.1.gettext = e.1.gettext ∧ p.2 = e.2.1
  texts : s.pending.Pairwise fun p q => p.1.gettext ≠ q.1.gettext
  handles : s.pending.Pairwise fun p q => p.2 ≠ q.2
  acts : ∀ a ∈ s.acts, a.recorded = some a.used

theorem pairwise_ne_inj {α β : Type} {f : α → β} {l : List α}
    (h : l.Pairwise fun a b => f a ≠ f b) {a b : α} (ha : a ∈ l) (hb : b ∈ l) (hab : f a = f b) :
    a = b := List.inj_on_of_nodup_map (List.pairwise_map.mpr h) ha hb hab

theorem recorded_some {s : TransferState} {fr : ImFile} {h : Handle} (hr : recorded s fr = some h) :
    ∃ p ∈ s.pending, sameOffer p.1 fr = true ∧ p.2 = h := by
  obtain ⟨p, hp, rfl⟩ := Option.map_eq_some_iff.mp hr
  have hsame := List.find?_some hp
  exact ⟨p, List.mem_of_find?_eq_some hp, hsame, rfl⟩

theorem entry_recorded {s : TransferState} (hs : TransferInv s) {fr : ImFile}
    (hp : (recorded s fr).isSome) : recorded s fr = some (entry s.transferinfo fr).1 := by
  obtain ⟨h, hr⟩ := Option.isSome_iff_exists.mp hp
  obtain ⟨p, hmem, hsame, rfl⟩ := recorded_some hr
  obtain ⟨path, hfind⟩ := hs.found p hmem
  rw [hr, entry, ← find?_gettext _ (sameOffer_gettext hsame), hfind]
  rfl

/-- Removing the entry of one offer and leaving the others, in the map and in the list. -/
theorem erase_inv {s : TransferState} (hs : TransferInv s) {fr : ImFile}
    {keep : ImFile × Handle → Bool}
    (hkeep : ∀ p ∈ s.pending, keep p = true ↔ p.1.gettext ≠ fr.gettext) {acts : List Act}
    (hacts : ∀ a ∈ acts, a.recorded = some a.used) :
    TransferInv ⟨s.transferinfo.erase fr, s.pending.filter keep, acts⟩ := by
  refine ⟨?_, ?_, hs.texts.sublist List.filter_sublist, hs.handles.sublist List.filter_sublist,
    hacts⟩
  · intro p hp
    obtain ⟨hmem, hk⟩ := List.mem_filter.mp hp
    have hne := (hkeep p hmem).mp hk
    rw [find?_erase_other _ (same_false hne.symm)]
    exact hs.found p hmem
  · intro e he
    obtain ⟨hmem, hk⟩ := List.mem_filter.mp he
    obtain ⟨p, hp, htext, hh⟩ := hs.entries e hmem
    refine ⟨p, List.mem_filter.mpr ⟨hp, (hkeep p hp).mpr ?_⟩, htext, hh⟩
    intro heq
    rw [(same_iff_gettext e.1 fr).mpr (htext.symm.trans heq)] at hk
    exact absurd hk (by decide)

theorem offer_inv {s : TransferState} (hs : TransferInv s) {filehandle : Handle}
    {sender filename : Str} {size : Int64}
    (hv : Valid s (.offer filehandle sender filename size))
    (hm : Meets s (.offer filehandle sender filename size)) :
    TransferInv { s with
      transferinfo := fileoffer s.transferinfo filehandle sender filename size
      pending := (offered sender filename size, filehandle) :: s.pending } := by
  refine ⟨?_, ?_, ?_, ?_, hs.acts⟩
  · intro p hp
    rcases List.mem_cons.mp hp with rfl | hp
    · exact ⟨_, find?_set_self _ _ _⟩
    · obtain ⟨path, hfind⟩ := hs.found p hp
      refine ⟨path, ?_⟩
      rw [← hfind]
      exact find?_set_other _ _ (same_false (hm p hp).symm)
  · intro e he
    rcases mem_set he with ⟨hkey, hval⟩ | he
    · exact ⟨_, List.mem_cons_self, ((same_iff_gettext _ _).mp hkey).symm, by rw [hval]⟩
    · obtain ⟨p, hp, hpe⟩ := hs.entries e he
      exact ⟨p, List.mem_cons_of_mem _ hp, hpe⟩
  · exact List.pairwise_cons.mpr ⟨fun p hp => (hm p hp).symm, hs.texts⟩
  · exact List.pairwise_cons.mpr ⟨fun p hp => (hv.2.1 p hp).symm, hs.handles⟩

theorem setPath_inv {s : TransferState} (hs : TransferInv s) {fr : ImFile}
    (hp : (recorded s fr).isSome) (path : Str) {acts : List Act}
    (hacts : ∀ a ∈ acts, a.recorded = some a.used) :
    TransferInv ⟨s.transferinfo.set fr ((entry s.transferinfo fr).1, path), s.pending, acts⟩ := by
  have hrec := entry_recorded hs hp
  obtain ⟨p₀, hmem₀, hsame₀, hhandle₀⟩ := recorded_some hrec
  have htext₀ := sameOffer_gettext hsame₀
  refine ⟨?_, ?_, hs.texts, hs.handles, hacts⟩
  · intro p hp
    by_cases htext : p.1.gettext = fr.gettext
    · obtain rfl : p = p₀ := pairwise_ne_inj hs.texts hp hmem₀ (htext.trans htext₀.symm)
      refine ⟨path, ?_⟩
      rw [find?_set_same _ _ ((same_iff_gettext _ _).mpr htext.symm), hhandle₀]
    · obtain ⟨path', hfind⟩ := hs.found p hp
      refine ⟨path', ?_⟩
      rw [← hfind]
      exact find?_set_other _ _ (same_false (Ne.symm htext))
  · intro e he
    rcases mem_set he with ⟨hkey, hval⟩ | he
    · refine ⟨p₀, hmem₀, htext₀.trans ((same_iff_gettext _ _).mp hkey).symm, ?_⟩
      rw [hval, hhandle₀]
    · exact hs.entries e he

theorem withdraw_inv {s : TransferState} (hs : TransferInv s) {fr : ImFile}
    (hp : (recorded s fr).isSome) {acts : List Act}
    (hacts : ∀ a ∈ acts, a.recorded = some a.used) :
    TransferInv ⟨s.transferinfo.erase fr, withdraw s fr, acts⟩ := by
  obtain ⟨p₀, hmem₀, hsame₀, -⟩ := recorded_some (entry_recorded hs hp)
  have htext₀ := sameOffer_gettext hsame₀
  refine erase_inv hs (fun p hmem => ?_) hacts
  constructor
  · intro hkeep htext
    obtain rfl : p = p₀ := pairwise_ne_inj hs.texts hmem hmem₀ (htext.trans htext₀.symm)
    rw [hsame₀] at hkeep
    exact absurd hkeep (by decide)
  · intro hne
    have hno : sameOffer p.1 fr = false := by
      by_contra hyes
      exact hne (sameOffer_gettext (by simpa using hyes))
    rw [hno]
    rfl

/-- The entry that a callback finds is that of the offer with this handle. -/
theorem close_inv {s : TransferState} (hs : TransferInv s) (filehandle : Handle) :
    TransferInv ⟨match getfevent s.transferinfo filehandle with
      | some fr => s.transferinfo.erase fr
      | none => s.transferinfo, close s filehandle, s.acts⟩ := by
  cases hget : getfevent s.transferinfo filehandle with
  | some fr =>
    obtain ⟨e, hfind, rfl⟩ := Option.map_eq_some_iff.mp hget
    have hhandle : e.2.1 = filehandle := by simpa using List.find?_some hfind
    obtain ⟨p₀, hmem₀, htext₀, hhandle₀⟩ := hs.entries e (List.mem_of_find?_eq_some hfind)
    refine erase_inv hs (fun p hmem => ?_) hs.acts
    rw [bne_iff_ne, ← hhandle, ← hhandle₀, ← htext₀]
    constructor
    · rintro hne htext
      exact hne (by rw [pairwise_ne_inj hs.texts hmem hmem₀ htext])
    · rintro hne hh
      exact hne (by rw [pairwise_ne_inj hs.handles hmem hmem₀ hh])
  | none =>
    -- no pending offer has this handle
    have hnone : close s filehandle = s.pending := by
      refine List.filter_eq_self.mpr fun p hp => ?_
      obtain ⟨path, hfind⟩ := hs.found p hp
      obtain ⟨k, -, hmem⟩ := exists_mem_of_find? hfind
      have hno := List.find?_eq_none.mp (Option.map_eq_none_iff.mp hget) _ hmem
      simpa using hno
    rw [hnone]
    exact hs

theorem step_inv {s t : TransferState} {a : Action} (hs : TransferInv s) (hv : Valid s a)
    (hm : Meets s a) (hstep : step s a = .ok t) : TransferInv t := by
  have hacts : ∀ {fr : ImFile}, (recorded s fr).isSome → ∀ b ∈
      (⟨fr, (entry s.transferinfo fr).1, recorded s fr⟩ :: s.acts : List Act),
        b.recorded = some b.used := by
    intro fr hp b hb
    rcases List.mem_cons.mp hb with rfl | hb
    · exact entry_recorded hs hp
    · exact hs.acts b hb
  cases a with
  | offer filehandle sender filename size =>
    obtain rfl := Except.ok.inj hstep
    exact offer_inv hs hv hm
  | accept fr localpath =>
    rw [step, replytransfer, if_pos rfl] at hstep
    cases hlast : localpath.getLast? with
    | none => exact absurd (List.getLast?_eq_none_iff.mp hlast) hv
    | some c =>
      cases hfiles : fr.files with
      | nil =>
        rw [hlast, hfiles] at hstep
        exact absurd hstep (by simp [Except.map])
      | cons f files =>
        rw [hlast, hfiles] at hstep
        obtain rfl := Except.ok.inj hstep
        exact setPath_inv hs hm _ (hacts hm)
  | refuse fr =>
    obtain rfl := Except.ok.inj hstep
    exact withdraw_inv hs hm (hacts hm)
  | abort fr =>
    obtain rfl := Except.ok.inj hstep
    exact withdraw_inv hs hm (hacts hm)
  | finish filehandle =>
    obtain rfl := Except.ok.inj hstep
    exact close_inv hs filehandle
  | error filehandle =>
    obtain rfl := Except.ok.inj hstep
    exact close_inv hs filehandle

/-- While pending offers differ in the text shown for them, no command acts on the handle of
another offer and no entry of a pending offer is lost. -/
theorem transfer_isolation (s : TransferState) (h : Run (fun s a => Valid s a ∧ Meets s a) s) :
    Faithful s := by
  have hinv : TransferInv s := by
    refine h.invariant ?_ ?_
    · rintro t rfl
      constructor <;> simp [OrderedMap.empty]
    · rintro t a u ht ⟨hv, hm⟩ hstep
      exact step_inv ht hv hm hstep
  exact ⟨hinv.acts, hinv.found⟩

/-- Two contacts offer files with different names. -/
def twoFiles : TransferState :=
  ⟨fileoffer (fileoffer OrderedMap.empty 1 (bytes "ann") (bytes "a") 7) 2 (bytes "bob")
    (bytes "b") 7, [(offered (bytes "bob") (bytes "b") 7, 2),
      (offered (bytes "ann") (bytes "a") 7, 1)], []⟩

theorem twoFiles_run : Run (fun s a => Valid s a ∧ Meets s a) twoFiles :=
  .step (.step (.init rfl)
    (show _ ∧ Meets _ (.offer 1 (bytes "ann") (bytes "a") 7) from
      ⟨⟨by decide, by simp, rfl⟩, by simp [Meets]⟩) rfl)
    (show _ ∧ Meets _ (.offer 2 (bytes "bob") (bytes "b") 7) from
      ⟨⟨by decide, by decide, by decide⟩, by unfold Meets; decide⟩) rfl

def refusedFirst : TransferState :=
  ⟨twoFiles.transferinfo.erase (offered (bytes "ann") (bytes "a") 7),
    withdraw twoFiles (offered (bytes "ann") (bytes "a") 7),
    [⟨offered (bytes "ann") (bytes "a") 7, 1, some 1⟩]⟩

theorem transfer_isolation_two : Faithful refusedFirst :=
  transfer_isolation refusedFirst (.step twoFiles_run
    (show _ ∧ Meets _ (.refuse (offered (bytes "ann") (bytes "a") 7)) from
      ⟨trivial, by unfold Meets; decide⟩) rfl)

def sameFiles : TransferState :=
  ⟨fileoffer (fileoffer OrderedMap.empty 1 (bytes "ann") (bytes "a") 7) 2 (bytes "bob")
    (bytes "a") 7, [(offered (bytes "bob") (bytes "a") 7, 2),
      (offered (bytes "ann") (bytes "a") 7, 1)], []⟩

theorem sameFiles_run : Run Valid sameFiles :=
  .step (.step (.init rfl)
    (show Valid _ (.offer 1 (bytes "ann") (bytes "a") 7) from ⟨by decide, by simp, rfl⟩) rfl)
    (show Valid _ (.offer 2 (bytes "bob") (bytes "a") 7) from
      ⟨by decide, by decide, by decide⟩) rfl

/-- Refusing the file of the first contact refuses that of the second one, whose entry is
gone then. -/
theorem transfer_shared : ¬ ∀ s, Run Valid s → Faithful s := by
  intro h
  have hf := h ⟨_, _, _⟩ (.step sameFiles_run
    (show Valid _ (.refuse (offered (bytes "ann") (bytes "a") 7)) from trivial) rfl)
  have hact := hf.1 _ List.mem_cons_self
  exact absurd hact (by decide)

end CenterIM.FileTransfer

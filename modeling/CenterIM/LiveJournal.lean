import CenterIM.Event

/-!
# Responses of the LiveJournal server

The server answers with pairs of lines, a key and a value. The login fills the lists of moods
and pictures from counted keys, and the answer about friends is compared with the list of those
who have the user for a friend. What is set in the contact list besides the own contact, the
status, the lookup of users and the log lines about the connection are left out. Character set
conversion is a parameter.
-/
namespace CenterIM.LiveJournal
open ByteText Decimal StrText Event

abbrev NOTIFBUF : ℕ := 512

/-- `map<string, string>`. -/
abbrev Params := OrderedMap Str Str strLt

/-- `params[k]`. -/
def Params.get (m : Params) (k : Str) : Str := (m.find? k).getD []

def pairsLoop : ℕ → Str → Params → Params
  | 0, _, params => params
  | n + 1, content, params =>
    match find [lf] content with
    | none => params
    | some npos =>
      let pname := content.take npos
      let content := content.drop (npos + 1)
      match find [lf] content with
      | none => params.set pname content
      | some npos => pairsLoop n (content.drop (npos + 1)) (params.set pname (content.take npos))

def parameters (content : Str) : Params :=
  let content := content.filter (· ≠ cr)
  pairsLoop content.length content .empty

def numbered (params : Params) (key : Int32 → Str) (count : ℕ) : List Str :=
  (List.range count).map fun k => params.get (key (Int32.ofNat (k + 1)))

def moodKey (i : Int32) : Str := bytes "mood_" ++ i2str i ++ bytes "_name"

def pickwKey (i : Int32) : Str := bytes "pickw_" ++ i2str i

/-- `sort(lst.begin() + 1, lst.end())`. -/
def sortRest : List Str → List Str
  | [] => []
  | m :: ms => m :: ms.mergeSort fun a b => !strLt b a

structure LjHook where
  fonline : Bool := false
  flogged : Bool := false
  moods : List Str := []
  pictures : List Str := []
  friendof : List Str := []
  /-- The `zip` field of the own contact, if it is in the list. -/
  zip : Option Str := none
  /-- The notifications that were stored for the own contact. -/
  stored : List Str := []
  /-- What was shown in the log. -/
  shown : List Str := []

namespace LjHook

/-- `ljhook::connect`. -/
def connect (h : LjHook) : LjHook := { h with fonline := true, moods := [[]], pictures := [[]] }

def isconnecting (h : LjHook) : Bool := h.fonline && !h.flogged

/-- The part of `messageack_cb` for the answer to a login. -/
def login (h : LjHook) (params : Params) : LjHook :=
  let h := { h with fonline := true }
  if params.get (bytes "success") = bytes "OK" then
    let count := (atoi (params.get (bytes "mood_count"))).toInt.toNat
    let moods := h.moods ++ numbered params moodKey (count - 1)
    let count := (atoi (params.get (bytes "pickw_count"))).toInt.toNat
    let pictures := h.pictures ++ numbered params pickwKey (count - 1)
    let zip := h.zip.getD []
    let message := params.get (bytes "message")
    { h with
      flogged := true
      moods := sortRest moods
      pictures := pictures
      friendof := wordsLoop (zip.length + 1) zip
      zip := some zip
      stored := h.stored ++
        if message = [] then [] else [bytes "Message from the server: " ++ message] }
  else
    { h with shown := h.shown ++ [bytes "+ [lj] login failed: " ++
        cstr (params.get (bytes "errmsg"))] }

def nfriendof (rusconv : Str → Str) (params : Params) : Params :=
  let count := (atoi (params.get (bytes "friendof_count"))).toInt.toNat
  (List.range count).foldl (fun m k =>
    let i := bytes "friendof_" ++ i2str (Int32.ofNat (k + 1))
    m.set (params.get (i ++ bytes "_user")) (rusconv (params.get (i ++ bytes "_name")))) .empty

def addedText (server : Str) (user : Str × Str) : Str :=
  snprintf NOTIFBUF (bytes "The user " ++ cstr user.1 ++ bytes " (" ++ cstr user.2 ++
    bytes ") has added you to his/her friend list\n\nJournal address: " ++
    cstr (bytes "http://" ++ server ++ bytes "/users/" ++ user.1))

def removedText (server user : Str) : Str :=
  snprintf NOTIFBUF (bytes "The user " ++ cstr user ++
    bytes " has removed you from his/her friend list\n\nJournal address: " ++
    cstr (bytes "http://" ++ server ++ bytes "/users/" ++ user))

def addLoop (server : Str) (foempty : Bool) (h : LjHook) (users : List (Str × Str)) : LjHook :=
  users.foldl (fun h user =>
    if user.1 ∈ h.friendof then h
    else
      { h with
        friendof := h.friendof ++ [user.1]
        stored := h.stored ++ if foempty then [] else [addedText server user] }) h

/-- The loop over the list, which starts again when a user is erased; no result means that the
turns were not enough. -/
def removeLoop (server : Str) (users : Params) : ℕ → ℕ → LjHook → Option LjHook
  | 0, _, _ => none
  | n + 1, il, h =>
    match h.friendof[il]? with
    | none => some h
    | some user =>
      if users.find? user = none then
        removeLoop server users n 0
          { h with
            friendof := h.friendof.eraseIdx il
            stored := h.stored ++ [removedText server user] }
      else removeLoop server users n (il + 1) h

/-- The part of `messageack_cb` for the answer about friends that keeps the list of those who
have the user for a friend. -/
def getfriends (rusconv : Str → Str) (server : Str) (n : ℕ) (h : LjHook) (params : Params) :
    Option LjHook :=
  if params.get (bytes "success") = bytes "OK" then
    let users := nfriendof rusconv params
    (removeLoop server users n 0 (addLoop server (h.friendof == []) h users.entries)).map fun h =>
      { h with zip := h.zip.map fun _ => h.friendof.flatMap (· ++ [blank]) }
  else some h

def log (h : LjHook) (line : Str) : LjHook := { h with shown := h.shown ++ [line] }

/-- `ljhook::disconnect`. -/
def disconnect (h : LjHook) : LjHook := { h with fonline := false, flogged := false }

end LjHook

/-- `RequestType`. -/
inductive RequestType
  | reqLogin | reqPost | reqPostComment | reqGetFriends | reqDelFriend | reqAddFriend | reqLookup
  deriving DecidableEq

structure HTTPRequestEvent where
  content : Str
  httpresp : Str := []
  delivered : Bool := true

open LjHook in
/-- `ljhook::messageack_cb`, for a request that was sent. -/
def messageack_cb (rusconv : Str → Str) (server : Str) (n : ℕ) (h : LjHook) (type : RequestType)
    (rev : HTTPRequestEvent) : Option LjHook :=
  if type ≠ .reqLookup ∧ (rev.delivered = false ∨ rev.content = []) then
    let pname := if rev.httpresp = [] then bytes "cannot connect" else rev.httpresp
    some (h.log (bytes "+ [lj] HTTP failed: " ++ cstr pname)).disconnect
  else
    let params := parameters rev.content
    let success := params.get (bytes "success") == bytes "OK"
    match type with
    | .reqLogin => some (if h.isconnecting then h.login params else h)
    | .reqPost => some <| h.log <|
      if success then bytes "+ [lj] posted successully, the id is " ++
        cstr (params.get (bytes "itemid"))
      else bytes "+ [lj] post error: " ++ cstr (params.get (bytes "errmsg"))
    | .reqPostComment => some h
    | .reqGetFriends => h.getfriends rusconv server n params
    | .reqDelFriend => some <| h.log <|
      if success then bytes "+ [lj] the user has been removed from your friend list"
      else bytes "+ [lj] error deleting friend"
    | .reqAddFriend => some <| h.log <|
      if success ∧ atoi (params.get (bytes "friends_added")) ≠ 0 then
        bytes "+ [lj] " ++ cstr (params.get (bytes "friend_1_user")) ++ bytes " was added to friends"
      else bytes "+ [lj] couldn't add friend"
    | .reqLookup => some h

def Gives (pairs : List (Str × Str)) (k v : Str) : Prop :=
  (k, v) ∈ pairs ∧ ∀ p ∈ pairs, p.1 = k → p.2 = v

instance (pairs : List (Str × Str)) (k v : Str) : Decidable (Gives pairs k v) :=
  inferInstanceAs (Decidable (_ ∧ _))

/-- Lines with their ends, line feeds with or without a carriage return; the last one may have
none. -/
inductive Lines : List Str → Str → Prop
  | nil : Lines [] []
  | last {l : Str} : cr ∉ l → lf ∉ l → Lines [l] l
  | cons {l s : Str} {ls : List Str} : cr ∉ l → lf ∉ l → Lines ls s → Lines (l :: ls) (l ++ lf :: s)
  | crlf {l s : Str} {ls : List Str} : cr ∉ l → lf ∉ l → Lines ls s →
      Lines (l :: ls) (l ++ cr :: lf :: s)

def Response (pairs : List (Str × Str)) (content : Str) : Prop :=
  Lines (pairs.flatMap fun p => [p.1, p.2]) content

section Pairs

variable {pairs : List (Str × Str)} {content k v : Str} {m : Params}

/-- The text of lines without the carriage returns. -/
inductive Plain : List Str → Str → Prop
  | nil : Plain [] []
  | last {l : Str} : lf ∉ l → Plain [l] l
  | cons {l s : Str} {ls : List Str} : lf ∉ l → Plain ls s → Plain (l :: ls) (l ++ lf :: s)

theorem filter_cr {l : Str} (h : cr ∉ l) : l.filter (· ≠ cr) = l := by
  refine List.filter_eq_self.mpr fun c hc => ?_
  simpa using ne_of_mem_of_not_mem hc h

theorem Lines.plain {ls : List Str} {s : Str} (h : Lines ls s) : Plain ls (s.filter (· ≠ cr)) := by
  induction h with
  | nil => exact .nil
  | last hcr hlf =>
    rw [filter_cr hcr]
    exact .last hlf
  | @cons l s ls hcr hlf _ ih =>
    have hfilter : (l ++ lf :: s).filter (· ≠ cr) = l ++ lf :: s.filter (· ≠ cr) := by
      rw [List.filter_append, filter_cr hcr]
      rfl
    rw [hfilter]
    exact .cons hlf ih
  | @crlf l s ls hcr hlf _ ih =>
    have hfilter : (l ++ cr :: lf :: s).filter (· ≠ cr) = l ++ lf :: s.filter (· ≠ cr) := by
      rw [List.filter_append, filter_cr hcr]
      rfl
    rw [hfilter]
    exact .cons hlf ih

theorem pairsLoop_cons {w s : Str} (n : ℕ) (hk : lf ∉ k) (hv : lf ∉ w) :
    pairsLoop (n + 1) (k ++ lf :: (w ++ lf :: s)) m = pairsLoop n s (m.set k w) := by
  have hdrop : ∀ a t : Str, (a ++ lf :: t).drop (a.length + 1) = t := by
    intro a t
    rw [List.drop_append]
    simp
  rw [pairsLoop, find_char hk]
  dsimp only
  rw [hdrop, find_char hv]
  dsimp only
  rw [hdrop, List.take_left, List.take_left]

theorem pairsLoop_last {w : Str} (n : ℕ) (hk : lf ∉ k) (hv : lf ∉ w) :
    pairsLoop (n + 1) (k ++ lf :: w) m = m.set k w := by
  rw [pairsLoop, find_char hk]
  dsimp only
  have hdrop : (k ++ lf :: w).drop (k.length + 1) = w := by
    rw [List.drop_append]
    simp
  rw [hdrop, find_char_none hv, List.take_left]

theorem pairsLoop_pairs {n : ℕ} (h : Plain (pairs.flatMap fun p => [p.1, p.2]) content)
    (hn : content.length ≤ n) :
    pairsLoop n content m = pairs.foldl (fun m p => m.set p.1 p.2) m := by
  induction pairs generalizing content n m with
  | nil =>
    cases h
    cases n <;> rfl
  | cons p pairs ih =>
    obtain ⟨k, v⟩ := p
    rw [List.flatMap_cons] at h
    rw [List.foldl_cons]
    obtain _ | _ | ⟨hk, h⟩ := h
    rw [List.length_append, List.length_cons] at hn
    obtain ⟨n, rfl⟩ : ∃ j, n = j + 1 := ⟨n - 1, by omega⟩
    generalize hrest : pairs.flatMap (fun p => [p.1, p.2]) = rest at h
    cases h with
    | last hv =>
      obtain rfl : pairs = [] := by
        cases pairs with
        | nil => rfl
        | cons q pairs => cases hrest
      exact pairsLoop_last n hk hv
    | cons hv h =>
      rw [List.length_append, List.length_cons] at hn
      rw [pairsLoop_cons n hk hv]
      exact ih (hrest ▸ h) (by omega)

/-- The pairs of a response are put into the map one after another. -/
theorem parameters_response (h : Response pairs content) :
    parameters content = pairs.foldl (fun m p => m.set p.1 p.2) .empty :=
  pairsLoop_pairs h.plain le_rfl

theorem find?_foldl_set (hv : ∀ p ∈ pairs, p.1 = k → p.2 = v) :
    (pairs.foldl (fun (m : Params) p => m.set p.1 p.2) m).find? k =
      if (k, v) ∈ pairs then some v else m.find? k := by
  induction pairs generalizing m with
  | nil => rfl
  | cons p pairs ih =>
    obtain ⟨j, w⟩ := p
    rw [List.foldl_cons, ih fun q hq => hv q (List.mem_cons_of_mem _ hq)]
    by_cases hj : j = k
    · subst hj
      obtain rfl : w = v := hv (j, w) List.mem_cons_self rfl
      rw [if_pos List.mem_cons_self, OrderedMap.find?_set_self, ite_self]
    · have hmem : (k, v) ∈ (j, w) :: pairs ↔ (k, v) ∈ pairs := by
        simp [Ne.symm hj]
      rw [OrderedMap.find?_set_other _ _ (same_strLt_false hj)]
      simp only [hmem]

theorem get_parameters (h : Response pairs content) (hv : Gives pairs k v) :
    (parameters content).get k = v := by
  rw [Params.get, parameters_response h, find?_foldl_set hv.2, if_pos hv.1]
  rfl

end Pairs

/-- A successful answer to a login, with these moods and picture keywords. -/
structure LoginResponse (pairs : List (Str × Str)) (moods pictures : List Str) : Prop where
  success : Gives pairs (bytes "success") (bytes "OK")
  mood_count : ∃ v, Gives pairs (bytes "mood_count") v ∧ (atoi v).toInt = moods.length
  mood : ∀ i m, moods[i]? = some m → Gives pairs (moodKey (Int32.ofNat (i + 1))) m
  pickw_count : ∃ v, Gives pairs (bytes "pickw_count") v ∧ (atoi v).toInt = pictures.length
  pickw : ∀ i p, pictures[i]? = some p → Gives pairs (pickwKey (Int32.ofNat (i + 1))) p

/-- The lists have their first entries, as a connection that is being made leaves them. -/
structure Connecting (h : LjHook) : Prop where
  online : h.isconnecting = true
  moods : h.moods = [[]]
  pictures : h.pictures = [[]]

theorem connecting_connect {h : LjHook} (hlogged : h.flogged = false) : Connecting h.connect :=
  ⟨by simp [LjHook.isconnecting, LjHook.connect, hlogged], rfl, rfl⟩

/-- The lists hold everything that the response lists. -/
def Listed (h : LjHook) (moods pictures : List Str) : Prop :=
  h.moods = [] :: moods.mergeSort (fun a b => !strLt b a) ∧ h.pictures = [] :: pictures

section Login

variable {pairs : List (Str × Str)} {content : Str} {moods pictures : List Str} {h : LjHook}

theorem numbered_eq {key : Int32 → Str} {vs : List Str} {count : ℕ}
    (hresp : Response pairs content) (hcount : count ≤ vs.length)
    (hkey : ∀ i v, vs[i]? = some v → Gives pairs (key (Int32.ofNat (i + 1))) v) :
    numbered (parameters content) key count = vs.take count := by
  refine List.ext_getElem? fun i => ?_
  rw [numbered, List.getElem?_map]
  by_cases hi : i < count
  · have hget : vs[i]? = some vs[i] := List.getElem?_eq_getElem (by omega)
    rw [List.getElem?_range hi, List.getElem?_take_of_lt hi, hget, Option.map_some,
      get_parameters hresp (hkey i _ hget)]
  · rw [List.getElem?_eq_none (by rw [List.length_range]; omega), Option.map_none,
      List.getElem?_eq_none (by rw [List.length_take]; omega)]

theorem login_lists (hc : Connecting h) (hresp : Response pairs content)
    (hlogin : LoginResponse pairs moods pictures) :
    Listed (h.login (parameters content)) moods.dropLast pictures.dropLast := by
  obtain ⟨mc, hmc, hmoods⟩ := hlogin.mood_count
  obtain ⟨pc, hpc, hpictures⟩ := hlogin.pickw_count
  have hmlen : (atoi mc).toInt.toNat - 1 = moods.length - 1 := by omega
  have hplen : (atoi pc).toInt.toNat - 1 = pictures.length - 1 := by omega
  have hm := numbered_eq hresp (show moods.length - 1 ≤ moods.length by omega) hlogin.mood
  have hp := numbered_eq hresp (show pictures.length - 1 ≤ pictures.length by omega) hlogin.pickw
  rw [Listed, LjHook.login]
  dsimp only
  rw [if_pos (get_parameters hresp hlogin.success), get_parameters hresp hmc,
    get_parameters hresp hpc, hmlen, hplen, hm, hp, hc.moods, hc.pictures, List.dropLast_eq_take,
    List.dropLast_eq_take]
  exact ⟨rfl, rfl⟩

end Login

section Answer

variable {rusconv : Str → Str} {server : Str} {n : ℕ} {h : LjHook} {rev : HTTPRequestEvent}

theorem messageack_login (hd : rev.delivered = true) (hne : rev.content ≠ [])
    (hc : h.isconnecting = true) :
    messageack_cb rusconv server n h .reqLogin rev = some (h.login (parameters rev.content)) := by
  rw [messageack_cb, if_neg (by simp [hd, hne])]
  simp [hc]

theorem messageack_getfriends (hd : rev.delivered = true) (hne : rev.content ≠ []) :
    messageack_cb rusconv server n h .reqGetFriends rev =
      h.getfriends rusconv server n (parameters rev.content) := by
  rw [messageack_cb, if_neg (by simp [hd, hne])]

end Answer

theorem content_ne_nil {pairs : List (Str × Str)} {content k v : Str}
    (h : Response pairs content) (hv : Gives pairs k v) (hne : v ≠ []) : content ≠ [] := by
  rintro rfl
  exact hne (get_parameters h hv).symm

/-- A login lists everything just when there is nothing to list. -/
theorem listed_iff (rusconv : Str → Str) (server : Str) (n : ℕ) (h : LjHook) (hc : Connecting h)
    (rev : HTTPRequestEvent) (hd : rev.delivered = true) (pairs : List (Str × Str))
    (hresp : Response pairs rev.content) (moods pictures : List Str)
    (hlogin : LoginResponse pairs moods pictures) :
    (∃ h', messageack_cb rusconv server n h .reqLogin rev = some h' ∧ Listed h' moods pictures) ↔
      moods = [] ∧ pictures = [] := by
  have hlists := login_lists hc hresp hlogin
  have hne := content_ne_nil hresp hlogin.success (by decide)
  rw [messageack_login hd hne hc.online]
  constructor
  · intro ⟨h', hh, hm, hp⟩
    obtain rfl := Option.some.inj hh
    have hmlen := congrArg List.length (hlists.1.symm.trans hm)
    have hplen := congrArg List.length (hlists.2.symm.trans hp)
    simp only [List.length_cons, List.length_mergeSort, List.length_dropLast] at hmlen hplen
    exact ⟨List.eq_nil_of_length_eq_zero (by omega), List.eq_nil_of_length_eq_zero (by omega)⟩
  · rintro ⟨rfl, rfl⟩
    exact ⟨_, rfl, hlists⟩

theorem lines_unlines {ls : List Str} (h : ∀ l ∈ ls, cr ∉ l ∧ lf ∉ l) : Lines ls (unlines ls) := by
  induction ls with
  | nil => exact .nil
  | cons l ls ih =>
    obtain ⟨hcr, hlf⟩ := h l List.mem_cons_self
    have hrest := ih fun k hk => h k (List.mem_cons_of_mem l hk)
    rw [unlines_cons]
    exact .cons hcr hlf hrest

def loginPairs (moods : Str) : List (Str × Str) :=
  [(bytes "success", bytes "OK"), (bytes "mood_count", moods),
    (bytes "mood_1_name", bytes "happy"), (bytes "pickw_count", bytes "0")]

def loginAnswer (moods : Str) : HTTPRequestEvent :=
  ⟨unlines ((loginPairs moods).flatMap fun p => [p.1, p.2]), [], true⟩

theorem loginResponse_none : LoginResponse (loginPairs (bytes "0")) [] [] :=
  ⟨by decide, ⟨bytes "0", by decide, by decide⟩, fun i m h => (by cases h),
    ⟨bytes "0", by decide, by decide⟩, fun i p h => (by cases h)⟩

theorem loginResponse_one : LoginResponse (loginPairs (bytes "1")) [bytes "happy"] [] := by
  refine ⟨by decide, ⟨bytes "1", by decide, by decide⟩, ?_, ⟨bytes "0", by decide, by decide⟩, ?_⟩
  · intro i m h
    cases i with
    | zero =>
      obtain rfl := Option.some.inj h
      decide
    | succ i => cases h
  · intro i p h
    cases h

/-- Of the two logins the one without a mood lists everything. -/
theorem listed_none :
    (∃ h', messageack_cb id [] 0 (LjHook.connect {}) .reqLogin (loginAnswer (bytes "0")) = some h' ∧
      Listed h' [] []) ∧
    ¬ ∃ h', messageack_cb id [] 0 (LjHook.connect {}) .reqLogin (loginAnswer (bytes "1")) = some h' ∧
      Listed h' [bytes "happy"] [] := by
  have hc : Connecting (LjHook.connect {}) := connecting_connect rfl
  have hnone : Response (loginPairs (bytes "0")) (loginAnswer (bytes "0")).content :=
    lines_unlines (by decide)
  have hone : Response (loginPairs (bytes "1")) (loginAnswer (bytes "1")).content :=
    lines_unlines (by decide)
  constructor
  · exact (listed_iff id [] 0 _ hc _ rfl _ hnone [] [] loginResponse_none).mpr ⟨rfl, rfl⟩
  · intro h
    have hiff := listed_iff id [] 0 _ hc _ rfl _ hone [bytes "happy"] [] loginResponse_one
    exact absurd (hiff.mp h).1 (List.cons_ne_nil _ _)

/-- The only mood of a response is not listed. -/
theorem mood_missing : ¬ ∀ (h : LjHook) (rev : HTTPRequestEvent) (pairs : List (Str × Str))
    (moods pictures : List Str), Connecting h → rev.delivered = true → Response pairs rev.content →
      LoginResponse pairs moods pictures →
        ∃ h', messageack_cb id [] 0 h .reqLogin rev = some h' ∧ Listed h' moods pictures := by
  intro hall
  have hresp : Response (loginPairs (bytes "1")) (loginAnswer (bytes "1")).content :=
    lines_unlines (by decide)
  have hc : Connecting (LjHook.connect {}) := connecting_connect rfl
  obtain ⟨h', hh, hm, -⟩ := hall _ _ _ _ _ hc rfl hresp loginResponse_one
  rw [messageack_login rfl (by decide) hc.online] at hh
  obtain rfl := Option.some.inj hh
  have hlen := congrArg List.length ((login_lists hc hresp loginResponse_one).1.symm.trans hm)
  simp at hlen

end CenterIM.LiveJournal

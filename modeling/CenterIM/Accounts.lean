import CenterIM.Event
import CenterIM.ContactFile

/-!
# The account settings

`icqconf` keeps one account for a protocol and writes it as lines that begin with the name of
the protocol. `setourid` fills in what is missing, also while the lines are read back, so an
account is read as a run of updates of the account that is there so far.
-/
namespace CenterIM.Accounts
open ByteText Decimal LineStream StrText Contact Event
open ContactFile (eachLine overLines eachLine_lines eachLine_inv overLines_append decimal_plain)

@[ext] structure ImAccount where
  pname : ProtocolName
  nickname : Str := []
  uin : UInt64 := 0
  password : Str := []
  server : Str := []
  port : UInt64 := 0
  additional : OrderedMap Str Str strLt := .empty

/-- `imaccount(apname)`. -/
def imaccount (apname : ProtocolName) : ImAccount := { pname := apname }

def ImAccount.empty (a : ImAccount) : Bool := a.uin = 0 ∧ a.nickname = []

def protocols : List ProtocolName :=
  [.icq, .yahoo, .msn, .aim, .irc, .jabber, .rss, .livejournal, .gadu, .infocard]

def getprotocolname : ProtocolName → Str
  | .icq => bytes "icq"
  | .yahoo => bytes "yahoo"
  | .msn => bytes "msn"
  | .aim => bytes "aim"
  | .irc => bytes "irc"
  | .jabber => bytes "jab"
  | .rss => bytes "rss"
  | .livejournal => bytes "lj"
  | .gadu => bytes "gg"
  | .infocard => bytes "infocard"
  | .protocolname_size => []

/-- `defservers`: the server and the port. -/
def defservers : ProtocolName → Str × UInt64
  | .icq => (bytes "login.icq.com", 5190)
  | .yahoo => (bytes "scs.msg.yahoo.com", 5050)
  | .msn => (bytes "messenger.hotmail.com", 1863)
  | .aim => (bytes "toc.oscar.aol.com", 9898)
  | .irc => (bytes "irc.oftc.net", 6667)
  | .jabber => (bytes "jabber.org", 5222)
  | .livejournal => (bytes "livejournal.com", 80)
  | .gadu => (bytes "appmsg.gadu-gadu.pl", 80)
  | _ => ([], 0)

/-- The parameters that `setourid` adds to an account that lacks them; `haveUname` is
`HAVE_UNAME` of the build. -/
def defparams (haveUname : Bool) : ProtocolName → List (Str × Str)
  | .jabber => (bytes "prio", bytes "4") :: if haveUname then [(bytes "osinfo", bytes "1")] else []
  | .yahoo => [(bytes "ssl", bytes "1")]
  | .livejournal => [(bytes "importfriends", bytes "1")]
  | _ => []

def addparam (m : OrderedMap Str Str strLt) (d : Str × Str) : OrderedMap Str Str strLt :=
  if (m.find? d.1).isNone then m.set d.1 d.2 else m

/-- What `setourid` makes of the account that it has stored. -/
def fill (haveUname : Bool) (i : ImAccount) : ImAccount :=
  let (server, port) := if i.server = [] then defservers i.pname else (i.server, i.port)
  { i with
    server := server
    port := if port = 0 then (defservers i.pname).2 else port
    additional := (defparams haveUname i.pname).foldl addparam i.additional
    password := if i.pname = .icq ∧ 8 < i.password.length then i.password.take 8 else i.password }

/-- `icqconf::setourid`. -/
def setourid (haveUname : Bool) (accounts : List ImAccount) (im : ImAccount) : List ImAccount :=
  match accounts.findIdx? (·.pname = im.pname) with
  | some i => if im.empty then accounts.eraseIdx i else accounts.set i (fill haveUname im)
  | none => if im.empty then accounts else accounts ++ [fill haveUname im]

/-- `icqconf::getourid`. -/
def getourid (accounts : List ImAccount) (pname : ProtocolName) : ImAccount :=
  (accounts.find? (·.pname = pname)).getD (imaccount pname)

/-- The words and values that `imaccount::write` writes, each with the prefix of the protocol. -/
def fields (savepwd : Bool) (a : ImAccount) : List (Str × Str) :=
  (if a.nickname ≠ [] then [(bytes "nick", a.nickname)] else []) ++
  (if a.uin ≠ 0 then [(bytes "uin", decimal a.uin.toNat)] else []) ++
  (if savepwd then [(bytes "pass", a.password)] else []) ++
  (if a.server ≠ [] then
    [(bytes "server", a.server ++ if a.port ≠ 0 then 58 :: decimal a.port.toNat else [])]
    else []) ++
  a.additional.entries.filter fun e => e.1 ≠ [] ∧ e.2 ≠ []

def fieldLine (pname : ProtocolName) (e : Str × Str) : Str :=
  getprotocolname pname ++ 95 :: (e.1 ++ tab :: e.2)

/-- `imaccount::write`. -/
def write (savepwd : Bool) (a : ImAccount) : Str :=
  lf :: unlines ((fields savepwd a).map (fieldLine a.pname))

/-- What `imaccount::read` does with the word `spname` and the rest of the line. -/
def assign (im : ImAccount) (spname buf : Str) : ImAccount :=
  if spname = bytes "nick" then { im with nickname := buf }
  else if spname = bytes "uin" then { im with uin := strtoul buf }
  else if spname = bytes "pass" then { im with password := buf }
  else if spname = bytes "server" then
    let im := match find [58] buf with
      | some pos => { im with server := buf.take pos, port := strtoul (buf.drop (pos + 1)) }
      | none => { im with server := buf }
    let im := if im.pname = .icq ∧ im.server = bytes "icq.mirabilis.com" then
      { im with server := [] } else im
    if im.pname = .yahoo ∧ im.server = bytes "scs.yahoo.com" then { im with server := [] } else im
  else { im with additional := im.additional.set spname buf }

/-- `imaccount::read`. -/
def read (im : ImAccount) (spec : Str) : ImAccount :=
  match find [95] spec with
  | some pos =>
    let (spname, buf) := getword (spec.drop (pos + 1)) wordDelim
    assign im spname buf
  | none => im

/-- The words with which `icqconf::load` sets something else. -/
def keywords : List Str :=
  ["hideoffline", "emacs", "vi", "autoaway", "autona", "auto_away_na_x", "antispam",
    "showopenedchats", "dropauthreq", "screenna", "screensocketpath", "mailcheck", "quotemsgs",
    "sockshost", "socksusername", "sockspass", "usegroups", "group1", "group2", "nogroups",
    "protocolormode", "statuscolormode", "sort_by_status_and_activity", "sort_by_status_and_name",
    "sort_by_activity", "sort_by_name", "smtp", "browser", "http_proxy", "log", "proxy_connect",
    "proxy_ssl", "chatmode", "entersends", "nonimonline", "captcha", "russian", "convert",
    "nobidi", "askaway", "askquit", "logtimestamps", "logonline", "nicknameonly", "fromcharset",
    "tocharset", "left_panel_width", "log_panel_height", "chat_panel_height",
    "timestampstothesecond", "defaultauthmessage", "ptp"].map bytes

/-- What `icqconf::load` does to the accounts for a line of the configuration. -/
def loadLine (haveUname : Bool) (_ : ℕ) (rbuf : Str) (accounts : List ImAccount) :
    List ImAccount :=
  let param := (getword rbuf wordDelim).1
  if param ∈ keywords then accounts
  else protocols.foldl (fun accounts pname =>
    if (getprotocolname pname).isPrefixOf param then
      setourid haveUname accounts (read (getourid accounts pname) rbuf)
    else accounts) accounts

/-- The accounts that `icqconf::load` reads. -/
def load (haveUname : Bool) (content : Str) : List ImAccount :=
  eachLine (loadLine haveUname) content []

/-- The accounts of a run of the program: each was put there by `setourid`. -/
def held (haveUname : Bool) (ims : List ImAccount) : List ImAccount :=
  ims.foldl (setourid haveUname) []

/-- Written and read back, each protocol has the account it had. -/
def RoundTrip (haveUname : Bool) (accounts : List ImAccount) : Prop :=
  ∀ pname ∈ protocols, getourid (load haveUname (accounts.flatMap (write true))) pname =
    getourid accounts pname

section Defaults

variable {m : OrderedMap Str Str strLt}

theorem find?_addparam (d : Str × Str) (k : Str) :
    (addparam m d).find? k = (m.find? k).or (if d.1 = k then some d.2 else none) := by
  rw [addparam]
  split_ifs with h hk hk
  · rw [hk, OrderedMap.find?_set_same _ _ (OrderedMap.same_refl k)]
    rw [hk] at h
    rw [Option.isNone_iff_eq_none.mp h]
    rfl
  · rw [OrderedMap.find?_set_other _ _ (same_strLt_false hk), Option.or_none]
  · rw [hk] at h
    have hsome : m.find? k ≠ none := fun hn => h (by rw [hn]; rfl)
    obtain ⟨v, hv⟩ := Option.ne_none_iff_exists'.mp hsome
    rw [hv]
    rfl
  · rw [Option.or_none]

theorem find?_addparams (ds : List (Str × Str)) (k : Str) :
    (ds.foldl addparam m).find? k =
      (m.find? k).or ((ds.find? (·.1 = k)).map Prod.snd) := by
  induction ds generalizing m with
  | nil => simp
  | cons d ds ih =>
    rw [List.foldl_cons, ih, find?_addparam, Option.or_assoc]
    by_cases hk : d.1 = k
    · simp [hk]
    · simp [hk]

theorem addparams_idem (ds : List (Str × Str)) :
    ds.foldl addparam (ds.foldl addparam m) = ds.foldl addparam m := by
  refine OrderedMap.ext_find? same_strLt.mp fun k => ?_
  rw [find?_addparams, find?_addparams, Option.or_assoc, Option.or_self]

theorem addparams_set (ds : List (Str × Str)) (k v : Str) :
    ds.foldl addparam ((ds.foldl addparam m).set k v) = ds.foldl addparam (m.set k v) := by
  refine OrderedMap.ext_find? same_strLt.mp fun j => ?_
  rw [find?_addparams, find?_addparams]
  by_cases hj : k = j
  · rw [hj, OrderedMap.find?_set_self, OrderedMap.find?_set_self]
  · have hs := same_strLt_false hj
    rw [OrderedMap.find?_set_other _ _ hs, OrderedMap.find?_set_other _ _ hs, find?_addparams,
      Option.or_assoc, Option.or_self]

end Defaults

section Filling

variable (u : Bool) (i : ImAccount)

theorem fill_eq : fill u i =
    { pname := i.pname, nickname := i.nickname, uin := i.uin
      password := if i.pname = .icq then i.password.take 8 else i.password
      server := if i.server = [] then (defservers i.pname).1 else i.server
      port := if i.server = [] ∨ i.port = 0 then (defservers i.pname).2 else i.port
      additional := (defparams u i.pname).foldl addparam i.additional } := by
  have hpass : (if i.pname = .icq ∧ 8 < i.password.length then i.password.take 8 else i.password) =
      if i.pname = .icq then i.password.take 8 else i.password := by
    by_cases hl : 8 < i.password.length
    · simp [hl]
    · simp [hl, List.take_of_length_le (Nat.not_lt.mp hl)]
  rw [fill, hpass]
  by_cases hs : i.server = []
  · simp [hs]
  · simp [hs]

theorem fill_idem : fill u (fill u i) = fill u i := by
  simp only [fill_eq, addparams_idem]
  congr 1
  · by_cases hq : i.pname = .icq
    · simp [hq, List.take_take]
    · simp [hq]
  · by_cases hs : i.server = []
    · simp [hs]
    · simp [hs]
  · by_cases hs : i.server = []
    · simp [hs]
    · by_cases hp : i.port = 0
      · simp [hs, hp]
      · simp [hs, hp]

theorem fill_pname : (fill u i).pname = i.pname := by rw [fill_eq]

theorem fill_empty : (fill u i).empty = i.empty := by
  rw [fill_eq]
  rfl

end Filling

section Storing

variable {u : Bool} {accounts : List ImAccount}

/-- What holds of the accounts of a run: one for a protocol, each filled in and none empty. -/
structure Settled (u : Bool) (accounts : List ImAccount) : Prop where
  distinct : (accounts.map (·.pname)).Nodup
  filled : ∀ a ∈ accounts, fill u a = a ∧ a.empty = false

theorem setourid_settled (h : Settled u accounts) (im : ImAccount) :
    Settled u (setourid u accounts im) := by
  have hnew : im.empty = false → fill u (fill u im) = fill u im ∧ (fill u im).empty = false :=
    fun he => ⟨fill_idem u im, by rw [fill_empty, he]⟩
  rw [setourid]
  split
  · next i hi =>
    obtain ⟨hlt, hp, -⟩ := List.findIdx?_eq_some_iff_getElem.mp hi
    split_ifs with he
    · have hsub := List.eraseIdx_sublist accounts i
      exact ⟨h.distinct.sublist (hsub.map _), fun a ha => h.filled a (hsub.subset ha)⟩
    · refine ⟨?_, fun a ha => ?_⟩
      · have hlt' : i < (accounts.map (·.pname)).length := by simpa using hlt
        have hname : (fill u im).pname = (accounts.map (·.pname))[i] := by
          rw [fill_pname, List.getElem_map]
          simpa using (of_decide_eq_true hp).symm
        rw [List.map_set, hname, List.set_getElem_self]
        exact h.distinct
      · rcases List.mem_or_eq_of_mem_set ha with ha | rfl
        · exact h.filled a ha
        · exact hnew (by simpa using he)
  · next hi =>
    split_ifs with he
    · exact h
    · refine ⟨?_, fun a ha => ?_⟩
      · have hnot : im.pname ∉ accounts.map (·.pname) := by
          intro hm
          obtain ⟨a, ha, hap⟩ := List.mem_map.mp hm
          have hfind := List.findIdx?_eq_none_iff.mp hi a ha
          simp [hap] at hfind
        rw [List.map_append, List.nodup_append]
        refine ⟨h.distinct, List.nodup_singleton _, ?_⟩
        rintro p hp q hq rfl
        rw [List.map_singleton, List.mem_singleton, fill_pname] at hq
        exact hnot (hq ▸ hp)
      · rcases List.mem_append.mp ha with ha | ha
        · exact h.filled a ha
        · rw [List.mem_singleton.mp ha]
          exact hnew (by simpa using he)

theorem held_settled (u : Bool) (ims : List ImAccount) : Settled u (held u ims) := by
  have hrun : ∀ accounts, Settled u accounts → Settled u (ims.foldl (setourid u) accounts) := by
    induction ims with
    | nil => exact fun _ h => h
    | cons im ims ih => exact fun accounts h => ih _ (setourid_settled h im)
  exact hrun [] ⟨List.nodup_nil, fun a ha => absurd ha List.not_mem_nil⟩

def Free (p : ProtocolName) (accounts : List ImAccount) : Prop := ∀ a ∈ accounts, a.pname ≠ p

theorem getourid_free {p : ProtocolName} (h : Free p accounts) :
    getourid accounts p = imaccount p := by
  have hnone : accounts.find? (fun a => a.pname = p) = none :=
    List.find?_eq_none.mpr fun a ha => by simpa using h a ha
  rw [getourid, hnone]
  rfl

theorem getourid_last {x : ImAccount} (h : Free x.pname accounts) :
    getourid (accounts ++ [x]) x.pname = x := by
  have hnone : accounts.find? (fun a => a.pname = x.pname) = none :=
    List.find?_eq_none.mpr fun a ha => by simpa using h a ha
  rw [getourid, List.find?_append, hnone]
  simp

theorem setourid_new {im : ImAccount} (h : Free im.pname accounts) (he : im.empty = false) :
    setourid u accounts im = accounts ++ [fill u im] := by
  have hnone : accounts.findIdx? (fun a => a.pname = im.pname) = none :=
    List.findIdx?_eq_none_iff.mpr fun a ha => by simpa using h a ha
  rw [setourid, hnone]
  simp [he]

theorem setourid_last {x im : ImAccount} (h : Free im.pname accounts) (hx : x.pname = im.pname)
    (he : im.empty = false) : setourid u (accounts ++ [x]) im = accounts ++ [fill u im] := by
  have hsome : (accounts ++ [x]).findIdx? (fun a => a.pname = im.pname) = some accounts.length := by
    have hnone : accounts.findIdx? (fun a => a.pname = im.pname) = none :=
      List.findIdx?_eq_none_iff.mpr fun a ha => by simpa using h a ha
    rw [List.findIdx?_append, hnone]
    simp [hx]
  rw [setourid, hsome]
  simp [he]

end Storing

section Lines

variable {u : Bool} {p : ProtocolName}

theorem name_chars (p : ProtocolName) :
    ∀ c ∈ getprotocolname p, inWord wordDelim c = true ∧ c ≠ 95 := by
  have hall : ((getprotocolname p).all fun c => inWord wordDelim c && c != 95) = true := by
    cases p <;> decide
  intro c hc
  simpa using List.all_eq_true.mp hall c hc

theorem name_front : ∀ p ∈ protocols, ∀ q ∈ protocols,
    getprotocolname q <+: getprotocolname p → q = p := by
  decide

/-- No other setting begins with the name of a protocol and `_`. -/
theorem not_keyword : ∀ w ∈ keywords, ∀ p ∈ protocols, ¬ getprotocolname p ++ [95] <+: w := by
  decide +kernel

theorem prefix_of_name {a b k : Str} {c : Byte} (h : a <+: b ++ c :: k) (hc : c ∉ a) : a <+: b := by
  rcases List.prefix_or_prefix_of_prefix h (List.prefix_append b (c :: k)) with hab | ⟨t, rfl⟩
  · exact hab
  · have ht : t <+: c :: k := (List.prefix_append_right_inj b).mp h
    cases t with
    | nil => simp
    | cons d t =>
      obtain rfl := (List.cons_prefix_cons.mp ht).1
      exact absurd (by simp) hc

theorem foldl_nothing {α β : Type*} {f : α → β → α} {l : List β} (h : ∀ c ∈ l, ∀ a, f a c = a)
    (a : α) : l.foldl f a = a := by
  induction l generalizing a with
  | nil => rfl
  | cons c l ih => rw [List.foldl_cons, h c (by simp), ih fun d hd => h d (by simp [hd])]

theorem foldl_once {α β : Type*} {f : α → β → α} {l : List β} {b : β} (hd : l.Nodup) (hb : b ∈ l)
    (h : ∀ c ∈ l, c ≠ b → ∀ a, f a c = a) (a : α) : l.foldl f a = f a b := by
  obtain ⟨s, t, rfl⟩ := List.append_of_mem hb
  rw [List.nodup_append, List.nodup_cons] at hd
  have hs : ∀ c ∈ s, c ≠ b := fun c hc => hd.2.2 c hc b (by simp)
  have ht : ∀ c ∈ t, c ≠ b := fun c hc he => hd.2.1.1 (he ▸ hc)
  rw [List.foldl_append, foldl_nothing fun c hc => h c (by simp [hc]) (hs c hc), List.foldl_cons,
    foldl_nothing fun c hc => h c (by simp [hc]) (ht c hc)]

theorem loadLine_nil (i : ℕ) (accounts : List ImAccount) : loadLine u i [] accounts = accounts := by
  have hparam : (getword [] wordDelim).1 = [] := rfl
  have hnames : ∀ q ∈ protocols, (getprotocolname q).isPrefixOf [] = false := by decide
  simp only [loadLine, hparam]
  rw [if_neg (by decide)]
  exact foldl_nothing (fun q hq accounts => if_neg (by simp [hnames q hq])) accounts

theorem read_fieldLine (im : ImAccount) {k v : Str} (hk : ∀ c ∈ k, inWord wordDelim c = true)
    (hne : k ≠ []) (hv : Kept v) : read im (fieldLine p (k, v)) = assign im k v := by
  have hfind : find [95] (fieldLine p (k, v)) = some (getprotocolname p).length :=
    find_char fun hm => (name_chars p 95 hm).2 rfl
  have hdrop : (fieldLine p (k, v)).drop ((getprotocolname p).length + 1) = k ++ tab :: v := by
    rw [fieldLine, List.drop_append]
    simp
  have hword := getword_word (r := v) hk hne (show tab ∈ wordDelim by decide)
  rw [leadcut_kept hv] at hword
  rw [read, hfind]
  simp only [hdrop, hword]

theorem loadLine_fieldLine (hp : p ∈ protocols) (i : ℕ) (accounts : List ImAccount) {k v : Str}
    (hk : ∀ c ∈ k, inWord wordDelim c = true) (hne : k ≠ []) (hv : Kept v) :
    loadLine u i (fieldLine p (k, v)) accounts =
      setourid u accounts (assign (getourid accounts p) k v) := by
  have hline : fieldLine p (k, v) = (getprotocolname p ++ 95 :: k) ++ tab :: v := by
    simp [fieldLine]
  have hchars : ∀ c ∈ getprotocolname p ++ 95 :: k, inWord wordDelim c = true := by
    intro c hc
    rcases List.mem_append.mp hc with hc | hc
    · exact (name_chars p c hc).1
    · rcases List.mem_cons.mp hc with rfl | hc
      · decide
      · exact hk c hc
  have hparam : (getword (fieldLine p (k, v)) wordDelim).1 = getprotocolname p ++ 95 :: k := by
    rw [hline, getword_word hchars (by simp) (show tab ∈ wordDelim by decide)]
  have hnot : getprotocolname p ++ 95 :: k ∉ keywords := fun hm =>
    not_keyword _ hm p hp ⟨k, by simp⟩
  have hothers : ∀ q ∈ protocols, q ≠ p → ∀ accounts : List ImAccount,
      (if (getprotocolname q).isPrefixOf (getprotocolname p ++ 95 :: k) then
        setourid u accounts (read (getourid accounts q) (fieldLine p (k, v))) else accounts) =
        accounts := by
    intro q hq hqp accounts
    rw [if_neg]
    intro hpre
    refine hqp (name_front p hp q hq ?_)
    exact prefix_of_name (List.isPrefixOf_iff_prefix.mp hpre) fun hm => (name_chars q 95 hm).2 rfl
  have hnodup : protocols.Nodup := by decide
  simp only [loadLine, hparam]
  rw [if_neg hnot, foldl_once hnodup hp hothers, if_pos (by simp), read_fieldLine _ hk hne hv]

end Lines

def reserved : List Str := [bytes "nick", bytes "uin", bytes "pass", bytes "server"]

/-- An account as the program lets it be written. -/
structure Writable (a : ImAccount) : Prop where
  protocol : a.pname ∈ protocols
  nickname : lf ∉ a.nickname
  password : lf ∉ a.password
  server : lf ∉ a.server ∧ 58 ∉ a.server
  current : a.server ≠ bytes "icq.mirabilis.com" ∧ a.server ≠ bytes "scs.yahoo.com"
  keys : ∀ e ∈ a.additional.entries, (∀ c ∈ e.1, c ∉ wordDelim) ∧ e.1 ∉ reserved
  values : ∀ e ∈ a.additional.entries, e.2 ≠ [] ∧ lf ∉ e.2

/-- An account none of whose texts changes when it is split off a line. -/
structure Unchanged (a : ImAccount) : Prop where
  nickname : Kept a.nickname
  password : Kept a.password
  server : Kept a.server
  keys : ∀ e ∈ a.additional.entries, e.1 ≠ [] ∧ nul ∉ e.1
  values : ∀ e ∈ a.additional.entries, Kept e.2

section Assigning

variable (im : ImAccount)

theorem assign_nick (v : Str) : assign im (bytes "nick") v = { im with nickname := v } := rfl

theorem assign_uin (v : Str) : assign im (bytes "uin") v = { im with uin := strtoul v } := by
  rw [assign, if_neg (by decide), if_pos rfl]

theorem assign_pass (v : Str) : assign im (bytes "pass") v = { im with password := v } := by
  rw [assign, if_neg (by decide), if_neg (by decide), if_pos rfl]

theorem assign_other {k : Str} (h : k ∉ reserved) (v : Str) :
    assign im k v = { im with additional := im.additional.set k v } := by
  simp only [reserved, List.mem_cons, List.not_mem_nil, or_false, not_or] at h
  rw [assign, if_neg h.1, if_neg h.2.1, if_neg h.2.2.1, if_neg h.2.2.2]

theorem strtoul_toNat (n : UInt64) : strtoul (decimal n.toNat) = n := by
  rw [strtoul_decimal n.toNat_lt, UInt64.ofNat_toNat]

theorem assign_server {s : Str} (h58 : 58 ∉ s)
    (hcur : s ≠ bytes "icq.mirabilis.com" ∧ s ≠ bytes "scs.yahoo.com") (port : UInt64) :
    assign im (bytes "server") (s ++ if port ≠ 0 then 58 :: decimal port.toNat else []) =
      { im with server := s, port := if port ≠ 0 then port else im.port } := by
  rw [assign, if_neg (by decide), if_neg (by decide), if_neg (by decide), if_pos rfl]
  by_cases hp : port ≠ 0
  · have hfind : find [58] (s ++ 58 :: decimal port.toNat) = some s.length := find_char h58
    have hdrop : (s ++ 58 :: decimal port.toNat).drop (s.length + 1) = decimal port.toNat := by
      rw [List.drop_append]
      simp
    rw [if_pos hp, if_pos hp, hfind]
    simp [hdrop, strtoul_toNat, hcur.1, hcur.2]
  · have hfind : find [58] (s ++ []) = none := by
      rw [List.append_nil]
      exact find_char_none h58
    rw [if_neg hp, if_neg hp, hfind]
    simp [hcur.1, hcur.2]

theorem assign_server_eq (p : ProtocolName) (v : Str) : ∃ (s : Str) (port : Option UInt64),
    ∀ im : ImAccount, im.pname = p →
      assign im (bytes "server") v = { im with server := s, port := port.getD im.port } := by
  have hif : ∀ im : ImAccount, assign im (bytes "server") v =
      let im := match find [58] v with
        | some pos => { im with server := v.take pos, port := strtoul (v.drop (pos + 1)) }
        | none => { im with server := v }
      let im := if im.pname = .icq ∧ im.server = bytes "icq.mirabilis.com" then
        { im with server := [] } else im
      if im.pname = .yahoo ∧ im.server = bytes "scs.yahoo.com" then { im with server := [] }
      else im := by
    intro im
    rw [assign, if_neg (by decide), if_neg (by decide), if_neg (by decide), if_pos rfl]
  refine ⟨(assign { pname := p } (bytes "server") v).server,
    (find [58] v).map fun pos => strtoul (v.drop (pos + 1)), fun im him => ?_⟩
  subst him
  rw [hif, hif]
  cases find [58] v with
  | none =>
    dsimp only
    split_ifs <;> rfl
  | some pos =>
    dsimp only
    split_ifs <;> rfl

/-- Reading a line of an account that was filled in, or was not yet, is the same. -/
theorem fill_assign (u : Bool) {y : ImAccount} (hy : y.server = [] → y.port = 0) (k v : Str) :
    fill u (assign (fill u y) k v) = fill u (assign y k v) := by
  have hw := congrArg ImAccount.password (fill_idem u y)
  have hs := congrArg ImAccount.server (fill_idem u y)
  have hp := congrArg ImAccount.port (fill_idem u y)
  have ha := congrArg ImAccount.additional (fill_idem u y)
  simp only [fill_eq] at hw hs hp ha
  by_cases hk : k ∈ reserved
  · simp only [reserved, List.mem_cons, List.not_mem_nil, or_false] at hk
    rcases hk with rfl | rfl | rfl | rfl
    · simp only [assign_nick, fill_eq, hw, hs, hp, ha]
    · simp only [assign_uin, fill_eq, hw, hs, hp, ha]
    · simp only [assign_pass, fill_eq, hs, hp, ha]
    · obtain ⟨s, port, hserver⟩ := assign_server_eq y.pname v
      rw [hserver y rfl, hserver (fill u y) (fill_pname u y)]
      cases port with
      | some port => simp only [fill_eq, hw, ha, Option.getD_some]
      | none =>
        have hport : (if y.server = [] ∨ y.port = 0 then (defservers y.pname).2 else y.port) =
            if y.port = 0 then (defservers y.pname).2 else y.port := by
          by_cases h0 : y.port = 0
          · simp [h0]
          · have hne : y.server ≠ [] := fun h => h0 (hy h)
            simp [h0, hne]
        simp only [fill_eq, hw, ha, hport, Option.getD_none]
        by_cases h0 : y.port = 0
        · simp [h0]
        · simp [h0]
  · simp only [assign_other _ hk, fill_eq, hw, hs, hp, addparams_set]

end Assigning

/-- A field that can be read in any account of its protocol without making it empty. -/
structure Sound (p : ProtocolName) (e : Str × Str) : Prop where
  word : (∀ c ∈ e.1, inWord wordDelim c = true) ∧ e.1 ≠ []
  value : Kept e.2
  pname : ∀ y, (assign y e.1 e.2).pname = y.pname
  nonempty : ∀ y, y.empty = false → (assign y e.1 e.2).empty = false
  port : ∀ y, y.pname = p → (y.server = [] → y.port = 0) →
    (assign y e.1 e.2).server = [] → (assign y e.1 e.2).port = 0

section Reading

variable {u : Bool} {p : ProtocolName} {accounts : List ImAccount}

/-- The lines of an account, each an update of the account there is so far. -/
theorem overLines_fields {es : List (Str × Str)} (hp : p ∈ protocols) (hes : ∀ e ∈ es, Sound p e)
    (i : ℕ) : overLines (loadLine u) i (es.map (fieldLine p)) accounts =
      es.foldl (fun accounts e => setourid u accounts (assign (getourid accounts p) e.1 e.2))
        accounts := by
  induction es generalizing accounts i with
  | nil => rfl
  | cons e es ih =>
    have he := hes e (by simp)
    rw [List.map_cons, overLines, List.foldl_cons,
      ← loadLine_fieldLine hp i accounts he.word.1 he.word.2 he.value]
    exact ih (fun d hd => hes d (by simp [hd])) _

theorem fields_last {es : List (Str × Str)} (hes : ∀ e ∈ es, Sound p e) (hfree : Free p accounts)
    {y : ImAccount} (hy : y.pname = p) (hport : y.server = [] → y.port = 0)
    (hne : y.empty = false) :
    es.foldl (fun accounts e => setourid u accounts (assign (getourid accounts p) e.1 e.2))
      (accounts ++ [fill u y]) =
      accounts ++ [fill u (es.foldl (fun y e => assign y e.1 e.2) y)] := by
  induction es generalizing y with
  | nil => rfl
  | cons e es ih =>
    have he := hes e (by simp)
    have hname := fill_pname u y
    have hget : getourid (accounts ++ [fill u y]) p = fill u y := by
      rw [← hy, ← hname]
      refine getourid_last ?_
      rwa [hname, hy]
    have hnext : (assign (fill u y) e.1 e.2).pname = p := by rw [he.pname, hname, hy]
    have hempty : (assign (fill u y) e.1 e.2).empty = false :=
      he.nonempty _ (by rw [fill_empty, hne])
    have hstep : setourid u (accounts ++ [fill u y]) (assign (fill u y) e.1 e.2) =
        accounts ++ [fill u (assign y e.1 e.2)] := by
      rw [setourid_last (by rwa [hnext]) (by rw [hname, hy, hnext]) hempty, fill_assign u hport]
    rw [List.foldl_cons, hget, hstep, List.foldl_cons]
    exact ih (fun d hd => hes d (by simp [hd])) (by rw [he.pname, hy]) (he.port y hy hport)
      (he.nonempty y hne)

theorem fields_new {e : Str × Str} {es : List (Str × Str)} (he : Sound p e)
    (hes : ∀ d ∈ es, Sound p d) (hfree : Free p accounts)
    (hne : (assign (imaccount p) e.1 e.2).empty = false) :
    (e :: es).foldl (fun accounts e => setourid u accounts (assign (getourid accounts p) e.1 e.2))
      accounts =
      accounts ++ [fill u ((e :: es).foldl (fun y e => assign y e.1 e.2) (imaccount p))] := by
  have hname : (assign (imaccount p) e.1 e.2).pname = p := by
    rw [he.pname]
    rfl
  have hport := he.port (imaccount p) rfl fun _ => rfl
  rw [List.foldl_cons, getourid_free hfree, setourid_new (by rwa [hname]) hne,
    fields_last hes hfree hname hport hne, List.foldl_cons]

end Reading

section Account

variable {a : ImAccount}

theorem reserved_word : ∀ k ∈ reserved, (∀ c ∈ k, inWord wordDelim c = true) ∧ k ≠ [] := by
  simp only [← List.all_eq_true]
  decide

theorem decimal_kept (n : ℕ) : Kept (decimal n) := by
  refine ⟨(decimal_plain n).2, fun c hc => ?_⟩
  have hm := List.mem_of_mem_head? hc
  have hin := decimal_inWord n c hm
  simp only [inWord, decide_eq_true_eq] at hin
  exact hin.1

theorem sound_nick {v : Str} (p : ProtocolName) (hv : Kept v) (hne : v ≠ []) :
    Sound p (bytes "nick", v) where
  word := reserved_word (bytes "nick") (by decide)
  value := hv
  pname _ := rfl
  nonempty y _ := by simp [assign_nick, ImAccount.empty, hne]
  port y _ h := h

theorem sound_uin {n : UInt64} (p : ProtocolName) (hn : n ≠ 0) :
    Sound p (bytes "uin", decimal n.toNat) where
  word := reserved_word (bytes "uin") (by decide)
  value := decimal_kept _
  pname y := by rw [assign_uin]
  nonempty y _ := by simp [assign_uin, ImAccount.empty, strtoul_toNat, hn]
  port y _ h := by rwa [assign_uin]

theorem sound_pass {v : Str} (p : ProtocolName) (hv : Kept v) : Sound p (bytes "pass", v) where
  word := reserved_word (bytes "pass") (by decide)
  value := hv
  pname y := by rw [assign_pass]
  nonempty y h := by rwa [assign_pass]
  port y _ h := by rwa [assign_pass]

theorem sound_server (ha : Writable a) (hs : Kept a.server) (hne : a.server ≠ []) :
    Sound a.pname (bytes "server",
      a.server ++ if a.port ≠ 0 then 58 :: decimal a.port.toNat else []) where
  word := reserved_word (bytes "server") (by decide)
  value := by
    obtain ⟨c, t, hc⟩ := List.exists_cons_of_ne_nil hne
    refine ⟨?_, fun d hd => hs.2 d ?_⟩
    · have h58 : ∀ n, nul ∉ 58 :: decimal n := fun n h => by
        rcases List.mem_cons.mp h with h | h
        · exact absurd h (by decide)
        · exact (decimal_plain n).2 h
      split_ifs
      · rw [List.mem_append]
        exact not_or.mpr ⟨hs.1, h58 _⟩
      · simpa using hs.1
    · rw [hc] at hd ⊢
      simpa using hd
  pname y := by rw [assign_server y ha.server.2 ha.current]
  nonempty y h := by rwa [assign_server y ha.server.2 ha.current]
  port y _ _ h := by
    rw [assign_server y ha.server.2 ha.current] at h
    exact absurd h hne

theorem sound_param {e : Str × Str} (p : ProtocolName) (hword : ∀ c ∈ e.1, c ∉ wordDelim)
    (hkey : e.1 ∉ reserved) (hne : e.1 ≠ []) (hnul : nul ∉ e.1) (hv : Kept e.2) : Sound p e where
  word := by
    refine ⟨fun c hc => ?_, hne⟩
    simp only [inWord, decide_eq_true_eq]
    exact ⟨hword c hc, fun h => hnul (h ▸ hc)⟩
  value := hv
  pname y := by rw [assign_other y hkey]
  nonempty y h := by rwa [assign_other y hkey]
  port y _ h := by rwa [assign_other y hkey]

theorem fields_sound (ha : Writable a) (hu : Unchanged a) :
    ∀ e ∈ fields true a, Sound a.pname e := by
  intro e he
  simp only [fields, List.mem_append] at he
  rcases he with (((he | he) | he) | he) | he
  · split_ifs at he with hne
    · rw [List.mem_singleton.mp he]
      exact sound_nick _ hu.nickname hne
    · cases he
  · split_ifs at he with hne
    · rw [List.mem_singleton.mp he]
      exact sound_uin _ hne
    · cases he
  · rw [if_pos trivial, List.mem_singleton] at he
    rw [he]
    exact sound_pass _ hu.password
  · by_cases hne : a.server ≠ []
    · rw [if_pos hne, List.mem_singleton] at he
      rw [he]
      exact sound_server ha hu.server hne
    · rw [if_neg hne] at he
      cases he
  · have hm := List.mem_of_mem_filter he
    obtain ⟨hword, hkey⟩ := ha.keys e hm
    obtain ⟨hne, hnul⟩ := hu.keys e hm
    exact sound_param _ hword hkey hne hnul (hu.values e hm)

/-- The parameters of an account, put one after another into an empty map. -/
theorem foldl_params (m : OrderedMap Str Str strLt) :
    m.entries.foldl (fun (m : OrderedMap Str Str strLt) e => m.set e.1 e.2) .empty = m := by
  have hrun : ∀ (es : List (Str × Str)) (done : OrderedMap Str Str strLt),
      (done.entries ++ es).Pairwise (fun a b => strLt a.1 b.1 = true) →
      (es.foldl (fun (m : OrderedMap Str Str strLt) e => m.set e.1 e.2) done).entries =
        done.entries ++ es := by
    intro es
    induction es with
    | nil => simp
    | cons e es ih =>
      intro done h
      have hlast : (done.set e.1 e.2).entries = done.entries ++ [e] :=
        OrderedMap.setEntries_last fun d hd => (List.pairwise_append.mp h).2.2 d hd e (by simp)
      rw [List.foldl_cons, ih _ (by rw [hlast]; simpa using h), hlast]
      simp
  have hm := hrun m.entries .empty m.sorted
  refine OrderedMap.ext_find? same_strLt.mp fun k => ?_
  rw [OrderedMap.find?, OrderedMap.find?, hm]
  rfl

/-- The lines of an account set what it holds, but the port only with a server. -/
theorem foldl_fields (ha : Writable a) (hu : Unchanged a) :
    (fields true a).foldl (fun y e => assign y e.1 e.2) (imaccount a.pname) =
      { a with port := if a.server = [] then 0 else a.port } := by
  have hfilter : (a.additional.entries.filter fun e => e.1 ≠ [] ∧ e.2 ≠ []) =
      a.additional.entries := by
    refine List.filter_eq_self.mpr fun e he => ?_
    simpa using ⟨(hu.keys e he).1, (ha.values e he).1⟩
  have hparams : ∀ (es : List (Str × Str)) (y : ImAccount), (∀ e ∈ es, e.1 ∉ reserved) →
      es.foldl (fun y e => assign y e.1 e.2) y =
        { y with additional := es.foldl (fun m e => m.set e.1 e.2) y.additional } := by
    intro es
    induction es with
    | nil => exact fun _ _ => rfl
    | cons e es ih =>
      intro y h
      rw [List.foldl_cons, assign_other y (h e (by simp)), ih _ fun d hd => h d (by simp [hd])]
      rfl
  have hnick : (if a.nickname ≠ [] then [(bytes "nick", a.nickname)] else []).foldl
      (fun y e => assign y e.1 e.2) (imaccount a.pname) =
      { imaccount a.pname with nickname := a.nickname } := by
    by_cases hn : a.nickname = []
    · simp [hn, imaccount]
    · simp [hn, assign_nick]
  have huin : ∀ y : ImAccount, y.uin = 0 →
      (if a.uin ≠ 0 then [(bytes "uin", decimal a.uin.toNat)] else []).foldl
        (fun y e => assign y e.1 e.2) y = { y with uin := a.uin } := by
    intro y hy
    by_cases hn : a.uin = 0
    · simp [hn, ← hy]
    · simp [hn, assign_uin, strtoul_toNat]
  have hserver : ∀ y : ImAccount, y.server = [] → y.port = 0 →
      (if a.server ≠ [] then
        [(bytes "server", a.server ++ if a.port ≠ 0 then 58 :: decimal a.port.toNat else [])]
        else []).foldl (fun y e => assign y e.1 e.2) y =
        { y with server := a.server, port := if a.server = [] then 0 else a.port } := by
    intro y hs hp
    by_cases hn : a.server = []
    · simp [hn, ← hs, ← hp]
    · have hset := assign_server y ha.server.2 ha.current a.port
      rw [if_pos hn, List.foldl_cons, List.foldl_nil, hset]
      by_cases h0 : a.port = 0
      · simp [h0, hn, hp]
      · simp [h0, hn]
  rw [fields, List.foldl_append, List.foldl_append, List.foldl_append, List.foldl_append, hnick,
    huin _ rfl, if_pos rfl, List.foldl_cons, List.foldl_nil, assign_pass, hserver _ rfl rfl, hfilter,
    hparams _ _ fun e he => (ha.keys e he).2]
  simp only [imaccount]
  rw [foldl_params]

theorem fields_lf (ha : Writable a) : ∀ e ∈ fields true a, lf ∉ e.2 := by
  have h58 : ∀ n, lf ∉ 58 :: decimal n := fun n h => by
    rcases List.mem_cons.mp h with h | h
    · exact absurd h (by decide)
    · exact (decimal_plain n).1 h
  intro e he
  simp only [fields, List.mem_append] at he
  rcases he with (((he | he) | he) | he) | he
  · split_ifs at he
    · rw [List.mem_singleton.mp he]
      exact ha.nickname
    · cases he
  · split_ifs at he
    · rw [List.mem_singleton.mp he]
      exact (decimal_plain _).1
    · cases he
  · rw [if_pos trivial, List.mem_singleton] at he
    rw [he]
    exact ha.password
  · by_cases hne : a.server ≠ []
    · rw [if_pos hne, List.mem_singleton] at he
      rw [he]
      simp only [List.mem_append, not_or]
      refine ⟨ha.server.1, ?_⟩
      split_ifs
      · exact h58 _
      · exact List.not_mem_nil
    · rw [if_neg hne] at he
      cases he
  · exact (ha.values e (List.mem_of_mem_filter he)).2

def accountLines (a : ImAccount) : List Str := [] :: (fields true a).map (fieldLine a.pname)

theorem accountLines_plain (ha : Writable a) (hu : Unchanged a) :
    ∀ l ∈ accountLines a, lf ∉ l ∧ nul ∉ l := by
  have hword : ∀ c : Byte, inWord wordDelim c = true → c ≠ lf ∧ c ≠ nul := by
    intro c hc
    simp only [inWord, decide_eq_true_eq] at hc
    refine ⟨?_, hc.2⟩
    rintro rfl
    exact hc.1 (by decide)
  have hall : ∀ s : Str, (∀ c ∈ s, inWord wordDelim c = true) → lf ∉ s ∧ nul ∉ s :=
    fun s hs => ⟨fun h => (hword lf (hs lf h)).1 rfl, fun h => (hword nul (hs nul h)).2 rfl⟩
  intro l hl
  rcases List.mem_cons.mp hl with rfl | hl
  · exact ⟨List.not_mem_nil, List.not_mem_nil⟩
  · obtain ⟨e, he, rfl⟩ := List.mem_map.mp hl
    have hs := fields_sound ha hu e he
    have hname := hall (getprotocolname a.pname) fun c hc => (name_chars _ c hc).1
    have hkey := hall e.1 hs.word.1
    have hval := fields_lf ha e he
    simp [fieldLine, hname, hkey, hval, hs.value.1, tab, lf, nul]

theorem write_eq (a : ImAccount) : write true a = unlines (accountLines a) := by
  simp [write, accountLines]

theorem fields_cons (hne : a.empty = false) : ∃ e es, fields true a = e :: es ∧
    (assign (imaccount a.pname) e.1 e.2).empty = false := by
  by_cases hn : a.nickname = []
  · have huin : a.uin ≠ 0 := by
      intro h
      simp [ImAccount.empty, hn, h] at hne
    refine ⟨(bytes "uin", decimal a.uin.toNat), _, by rw [fields, if_neg (not_not.mpr hn), if_pos huin]; rfl, ?_⟩
    simp [assign_uin, strtoul_toNat, ImAccount.empty, huin]
  · refine ⟨(bytes "nick", a.nickname), _, by rw [fields, if_pos hn]; rfl, ?_⟩
    simp [assign_nick, ImAccount.empty, hn]

theorem accountLines_load {u : Bool} {accounts : List ImAccount} (ha : Writable a)
    (hu : Unchanged a) (hfill : fill u a = a) (hne : a.empty = false)
    (hfree : Free a.pname accounts) (i : ℕ) :
    overLines (loadLine u) i (accountLines a) accounts = accounts ++ [a] := by
  obtain ⟨e, es, hes, hfirst⟩ := fields_cons hne
  have hsound := fields_sound ha hu
  have hsame : fill u { a with port := if a.server = [] then 0 else a.port } = fill u a := by
    simp only [fill_eq]
    by_cases hs : a.server = []
    · simp [hs]
    · simp [hs]
  rw [accountLines, overLines, loadLine_nil, overLines_fields ha.protocol hsound]
  rw [hes] at hsound ⊢
  rw [fields_new (hsound e (by simp)) (fun d hd => hsound d (by simp [hd])) hfree hfirst, ← hes,
    foldl_fields ha hu, hsame, hfill]

end Account

section Loaded

variable {u : Bool}

theorem load_write {accounts : List ImAccount} (hs : Settled u accounts)
    (ha : ∀ a ∈ accounts, Writable a ∧ Unchanged a) :
    load u (accounts.flatMap (write true)) = accounts := by
  have hcontent : accounts.flatMap (write true) = unlines (accounts.flatMap accountLines) := by
    have hw : write true = fun a => unlines (accountLines a) := funext write_eq
    rw [hw, unlines, List.flatMap_assoc]
    rfl
  have hplain : ∀ l ∈ accounts.flatMap accountLines, lf ∉ l ∧ nul ∉ l := by
    intro l hl
    obtain ⟨a, hm, hl⟩ := List.mem_flatMap.mp hl
    exact accountLines_plain (ha a hm).1 (ha a hm).2 l hl
  have hnul : nul ∉ unlines (accounts.flatMap accountLines) := by
    intro hm
    obtain ⟨l, hl, hc⟩ := List.mem_flatMap.mp hm
    rcases List.mem_append.mp hc with hc | hc
    · exact (hplain l hl).2 hc
    · exact absurd (List.mem_singleton.mp hc) (by decide)
  have hrun : ∀ (todo done : List ImAccount) (i : ℕ), Settled u (done ++ todo) →
      (∀ a ∈ todo, Writable a ∧ Unchanged a) →
      overLines (loadLine u) i (todo.flatMap accountLines) done = done ++ todo := by
    intro todo
    induction todo with
    | nil => simp [overLines]
    | cons a todo ih =>
      intro done i hs ha
      obtain ⟨hfill, hne⟩ := hs.filled a (by simp)
      have hfree : Free a.pname done := by
        have hd := hs.distinct
        rw [List.map_append, List.nodup_append] at hd
        exact fun b hb => hd.2.2 _ (List.mem_map_of_mem hb) _ (by simp)
      rw [List.flatMap_cons, overLines_append,
        accountLines_load (ha a (by simp)).1 (ha a (by simp)).2 hfill hne hfree,
        ih (done ++ [a]) _ (by simpa using hs) fun b hb => ha b (by simp [hb])]
      simp
  rw [load, hcontent, eachLine_lines _ hnul, lines_unlines fun l hl => (hplain l hl).1,
    overLines_append, hrun accounts [] 0 hs ha, overLines, loadLine_nil]
  rfl

structure Tidy (x : ImAccount) : Prop where
  nickname : Kept x.nickname
  password : Kept x.password
  server : Kept x.server
  params : ∀ e ∈ x.additional.entries, nul ∉ e.1 ∧ Kept e.2 ∧ (e.1 = [] → e.2 = [])

theorem kept_nil : Kept [] := ⟨List.not_mem_nil, by simp⟩

theorem kept_take {s : Str} (h : Kept s) (n : ℕ) : Kept (s.take n) := by
  refine ⟨fun hm => h.1 (List.mem_of_mem_take hm), fun c hc => h.2 c ?_⟩
  cases n with
  | zero => simp at hc
  | succ n =>
    cases s with
    | nil => simp at hc
    | cons d s => simpa using hc

theorem params_set {m : OrderedMap Str Str strLt} {k v : Str}
    (h : ∀ e ∈ m.entries, nul ∉ e.1 ∧ Kept e.2 ∧ (e.1 = [] → e.2 = [])) (hk : nul ∉ k) (hv : Kept v)
    (hkv : k = [] → v = []) :
    ∀ e ∈ (m.set k v).entries, nul ∉ e.1 ∧ Kept e.2 ∧ (e.1 = [] → e.2 = []) := by
  intro e he
  rcases OrderedMap.mem_set he with ⟨hek, hev⟩ | he
  · rw [same_strLt.mp hek, hev]
    exact ⟨hk, hv, hkv⟩
  · exact h e he

theorem tidy_imaccount (p : ProtocolName) : Tidy (imaccount p) :=
  ⟨kept_nil, kept_nil, kept_nil, fun _ he => absurd he List.not_mem_nil⟩

theorem assign_tidy {x : ImAccount} {k v : Str} (h : Tidy x) (hk : nul ∉ k) (hv : Kept v)
    (hkv : k = [] → v = []) : Tidy (assign x k v) := by
  by_cases hr : k ∈ reserved
  · simp only [reserved, List.mem_cons, List.not_mem_nil, or_false] at hr
    rcases hr with rfl | rfl | rfl | rfl
    · exact ⟨hv, h.password, h.server, h.params⟩
    · rw [assign_uin]
      exact ⟨h.nickname, h.password, h.server, h.params⟩
    · rw [assign_pass]
      exact ⟨h.nickname, hv, h.server, h.params⟩
    · have hset : ∀ (c : Prop) [Decidable c] (y : ImAccount), Tidy y →
          Tidy (if c then { y with server := [] } else y) := by
        intro c _ y hy
        split_ifs
        · exact ⟨hy.nickname, hy.password, kept_nil, hy.params⟩
        · exact hy
      rw [assign, if_neg (by decide), if_neg (by decide), if_neg (by decide), if_pos rfl]
      refine hset _ _ (hset _ _ ?_)
      cases find [58] v with
      | none => exact ⟨h.nickname, h.password, hv, h.params⟩
      | some pos => exact ⟨h.nickname, h.password, kept_take hv pos, h.params⟩
  · rw [assign_other x hr]
    exact ⟨h.nickname, h.password, h.server, params_set h.params hk hv hkv⟩

theorem default_kept : ∀ p, Kept (defservers p).1 ∧
    ∀ d ∈ defparams u p, nul ∉ d.1 ∧ Kept d.2 ∧ d.1 ≠ [] := by
  intro p
  simp only [kept_iff]
  cases u <;> cases p <;> decide

theorem fill_tidy {x : ImAccount} (h : Tidy x) : Tidy (fill u x) := by
  obtain ⟨hserver, hparams⟩ := default_kept (u := u) x.pname
  have hadd : ∀ (ds : List (Str × Str)) (m : OrderedMap Str Str strLt),
      (∀ d ∈ ds, nul ∉ d.1 ∧ Kept d.2 ∧ d.1 ≠ []) →
      (∀ e ∈ m.entries, nul ∉ e.1 ∧ Kept e.2 ∧ (e.1 = [] → e.2 = [])) →
      ∀ e ∈ (ds.foldl addparam m).entries, nul ∉ e.1 ∧ Kept e.2 ∧ (e.1 = [] → e.2 = []) := by
    intro ds
    induction ds with
    | nil => exact fun _ _ hm => hm
    | cons d ds ih =>
      intro m hd hm
      obtain ⟨hd1, hd2, hd3⟩ := hd d (by simp)
      refine ih _ (fun c hc => hd c (by simp [hc])) ?_
      rw [addparam]
      split_ifs
      · exact params_set hm hd1 hd2 fun h => absurd h hd3
      · exact hm
  have hpass : Kept (if x.pname = .icq then x.password.take 8 else x.password) := by
    split_ifs
    · exact kept_take h.password 8
    · exact h.password
  have hserv : Kept (if x.server = [] then (defservers x.pname).1 else x.server) := by
    split_ifs
    · exact hserver
    · exact h.server
  rw [fill_eq]
  exact ⟨h.nickname, hpass, hserv, hadd _ _ hparams h.params⟩

theorem setourid_tidy {accounts : List ImAccount} {im : ImAccount} (h : ∀ x ∈ accounts, Tidy x)
    (him : Tidy im) : ∀ x ∈ setourid u accounts im, Tidy x := by
  intro x hx
  rw [setourid] at hx
  split at hx
  · split_ifs at hx
    · exact h x (List.mem_of_mem_eraseIdx hx)
    · rcases List.mem_or_eq_of_mem_set hx with hx | rfl
      · exact h x hx
      · exact fill_tidy him
  · split_ifs at hx
    · exact h x hx
    · rcases List.mem_append.mp hx with hx | hx
      · exact h x hx
      · rw [List.mem_singleton.mp hx]
        exact fill_tidy him

theorem getourid_tidy {accounts : List ImAccount} (h : ∀ x ∈ accounts, Tidy x) (p : ProtocolName) :
    Tidy (getourid accounts p) := by
  rw [getourid]
  cases hf : accounts.find? fun a => decide (a.pname = p) with
  | none => exact tidy_imaccount p
  | some x => exact h x (List.mem_of_find?_eq_some hf)

theorem read_tidy {x : ImAccount} {spec : Str} (h : Tidy x) (hn : nul ∉ spec) :
    Tidy (read x spec) := by
  rw [read]
  split
  · next pos _ =>
    have hd : nul ∉ spec.drop (pos + 1) := fun hm => hn (List.mem_of_mem_drop hm)
    exact assign_tidy h (fun hm => hd (getword_subset _ hm)) (getword_kept hd) (getword_nil hd)
  · exact h

theorem load_tidy (content : Str) : ∀ x ∈ load u content, Tidy x := by
  refine eachLine_inv (P := fun accounts : List ImAccount => ∀ x ∈ accounts, Tidy x) ?_ content
    fun x hx => absurd hx List.not_mem_nil
  intro i buf accounts hb h
  have hfold : ∀ (ps : List ProtocolName) (param : Str) (accounts : List ImAccount),
      (∀ x ∈ accounts, Tidy x) → ∀ x ∈ ps.foldl (fun accounts pname =>
        if (getprotocolname pname).isPrefixOf param then
          setourid u accounts (read (getourid accounts pname) buf) else accounts) accounts, Tidy x := by
    intro ps param
    induction ps with
    | nil => exact fun _ h => h
    | cons p ps ih =>
      intro accounts h
      have hstep : ∀ x ∈ (if (getprotocolname p).isPrefixOf param then
          setourid u accounts (read (getourid accounts p) buf) else accounts), Tidy x := by
        split_ifs
        · exact setourid_tidy h (read_tidy (getourid_tidy h p) hb)
        · exact h
      exact ih _ hstep
  simp only [loadLine]
  split_ifs
  · exact h
  · exact hfold protocols _ accounts h

end Loaded

/-- The accounts of a run come back if and only if none of their texts begins with a delimiter
or holds a NUL, and no parameter has an empty name. -/
theorem accounts_round_trip (haveUname : Bool) (ims : List ImAccount)
    (ha : ∀ a ∈ held haveUname ims, Writable a) :
    RoundTrip haveUname (held haveUname ims) ↔ ∀ a ∈ held haveUname ims, Unchanged a := by
  have hs := held_settled haveUname ims
  generalize held haveUname ims = accounts at ha hs
  constructor
  · intro h a hm
    have hget : getourid accounts a.pname = a := by
      obtain ⟨done, rest, rfl⟩ := List.append_of_mem hm
      have hd := hs.distinct
      rw [List.map_append, List.nodup_append] at hd
      have hnone : done.find? (fun b => b.pname = a.pname) = none := by
        refine List.find?_eq_none.mpr fun b hb => ?_
        simpa using hd.2.2 _ (List.mem_map_of_mem hb) a.pname (by simp)
      rw [getourid, List.find?_append, hnone]
      simp
    have htidy := getourid_tidy (load_tidy (u := haveUname) (accounts.flatMap (write true))) a.pname
    rw [h a.pname (ha a hm).protocol, hget] at htidy
    refine ⟨htidy.nickname, htidy.password, htidy.server, fun e he => ?_, fun e he => ?_⟩
    · obtain ⟨hnul, -, hempty⟩ := htidy.params e he
      exact ⟨fun h0 => ((ha a hm).values e he).1 (hempty h0), hnul⟩
    · exact (htidy.params e he).2.1
  · intro h p _
    rw [load_write hs fun a hm => ⟨ha a hm, h a hm⟩]

def alice : ImAccount :=
  { pname := .jabber, nickname := bytes "alice@jabber.org", password := bytes "my secret" }

def carol : ImAccount :=
  { pname := .icq, uin := 12345, password := bytes "xyzzy", server := bytes "icq.local", port := 5000 }

theorem held_two : held true [alice, carol] = [fill true alice, fill true carol] := by
  have halice : setourid true [] alice = [] ++ [fill true alice] :=
    setourid_new (fun a ha => absurd ha List.not_mem_nil) (by decide)
  have hfree : Free carol.pname [fill true alice] := by
    intro a ha
    rw [List.mem_singleton.mp ha]
    decide
  rw [held, List.foldl_cons, halice, List.nil_append, List.foldl_cons,
    setourid_new hfree (by decide)]
  rfl

theorem two_writable : Writable (fill true alice) ∧ Writable (fill true carol) := by
  refine ⟨⟨?_, ?_, ?_, ?_, ?_, ?_, ?_⟩, ⟨?_, ?_, ?_, ?_, ?_, ?_, ?_⟩⟩ <;> decide +kernel

theorem alice_unchanged : Unchanged (fill true alice) where
  nickname := kept_iff.mpr (by decide)
  password := kept_iff.mpr (by decide)
  server := kept_iff.mpr (by decide)
  keys := by decide
  values := by
    simp only [kept_iff]
    decide

theorem carol_unchanged : Unchanged (fill true carol) where
  nickname := kept_iff.mpr (by decide)
  password := kept_iff.mpr (by decide)
  server := kept_iff.mpr (by decide)
  keys := by decide
  values := by
    simp only [kept_iff]
    decide

theorem accounts_round_trip_plain : RoundTrip true (held true [alice, carol]) := by
  refine (accounts_round_trip true [alice, carol] fun a ha => ?_).mpr fun a ha => ?_
  · rw [held_two] at ha
    rcases List.mem_pair.mp ha with rfl | rfl
    · exact two_writable.1
    · exact two_writable.2
  · rw [held_two] at ha
    rcases List.mem_pair.mp ha with rfl | rfl
    · exact alice_unchanged
    · exact carol_unchanged

/-- An account with a password that begins with a blank. -/
def bob : ImAccount := { pname := .msn, nickname := bytes "bob", password := bytes " secret" }

theorem accounts_not_round_trip : ¬ RoundTrip true (held true [bob]) ∧
    (getourid (load true ((held true [bob]).flatMap (write true))) .msn).password =
      bytes "secret" := by
  have hload : (getourid (load true ((held true [bob]).flatMap (write true))) .msn).password =
      bytes "secret" := by
    decide +kernel
  refine ⟨fun h => ?_, hload⟩
  rw [h .msn (by decide)] at hload
  exact absurd hload (by decide)

end CenterIM.Accounts

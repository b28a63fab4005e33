import CenterIM.Event
import CenterIM.ContactDirectory

/-!
# Presence in the Jabber hook

What `jabberhook` does with presence packets: the test of the library whether a packet has
addresses it takes for JIDs, the table of resources, the status of the contact, and what the
ways in which a connection begins and ends do to them.
-/
namespace CenterIM.JabberHook
open ByteText Decimal StrText Contact ContactDirectory Event

/-- `jidsplit(jid, user, host, rest)`, with empty strings passed in. -/
def jidsplit (jid : Str) : Str × Str × Str :=
  let (user, rest) :=
    match find [slash] jid with
    | some pos => (jid.take pos, jid.drop (pos + 1))
    | none => (jid, [])
  match find [64] user with
  | some pos => (user.take pos, user.drop (pos + 1), rest)
  | none => ([], user, rest)
where
  slash : Byte := 47

/-- `jidtodisp(jid)`. -/
def jidtodisp (jid : Str) : Str :=
  let (user, host, _) := jidsplit jid
  if user ≠ [] then user ++ 64 :: host else host

/-- A character that `jid_safe` takes in the name of a server. -/
def serverChar (c : Byte) : Bool :=
  isalnum (tolower c) || c == 46 || c == 45 || c == 95

/-- A character that `jid_safe` takes in the name of a user; it compares signed characters. -/
def userChar (c : Byte) : Bool :=
  decide (32 < c.toInt8.toInt) && !(c ∈ bytes ":@<>'\"&" : Bool)

/-- Is the result of `jid_new` a JID? -/
def jid_new (idstr : Str) : Bool :=
  let str := idstr.takeWhile (· ≠ 47)
  let str :=
    match find [58] str with
    | some type => str.drop (type + 1)
    | none => str
  let (user, server) :=
    match find [64] str with
    | some pos => (str.take pos, str.drop (pos + 1))
    | none => ([], str)
  idstr ≠ [] ∧ server ≠ [] ∧ server.length ≤ 255 ∧ server.all serverChar ∧
    (user.take 64).all userChar

/-- A presence packet: its attributes, and the data of the tags that are read. -/
structure Presence where
  fromAttr : Option Str
  toAttr : Option Str
  type : Option Str
  showData : Option Str
  priority : Option Str

/-- Does `jpacket_reset` leave the packet a presence packet? -/
def Presence.reset (p : Presence) : Bool :=
  (match p.type with
    | none => true
    | some val => val == bytes "unavailable" || val == bytes "probe" || val == bytes "available") &&
    (p.toAttr.all jid_new && p.fromAttr.all jid_new)

/-- The type of a packet that is left one. The type `available` was hidden. -/
def Presence.kind (p : Presence) : Option Str :=
  if p.type = some (bytes "available") then none else p.type

/-- The status that a packet tells of its resource. -/
def Presence.status (p : Presence) : ImStatus :=
  if p.kind = some (bytes "unavailable") then .offline
  else if p.showData = some (bytes "away") then .away
  else if p.showData = some (bytes "dnd") then .dontdisturb
  else if p.showData = some (bytes "xa") then .notavail
  else if p.showData = some (bytes "chat") then .freeforchat
  else .available

/-- `jutil_priority`. -/
def Presence.jutil_priority (p : Presence) : ℤ :=
  if p.kind ≠ none then -1
  else
    match p.priority with
    | none => 0
    | some str => (atoi str).toInt8.toInt

/-- The attribute `from`, as a string. -/
def Presence.sender (p : Presence) : Str := p.fromAttr.getD []

/-- The JID that the packet is about, without the resource. -/
def Presence.id (p : Presence) : Str := jidtodisp p.sender

def Presence.resource (p : Presence) : Str := (jidsplit p.sender).2.2

abbrev Resources := OrderedMap Str (ℤ × ImStatus) strLt

/-- The loop of `get_presence` over the resources. -/
def bestOf : ImStatus × ℤ → List (Str × ℤ × ImStatus) → ImStatus × ℤ
  | best, [] => best
  | (result, prio), it :: rest =>
    bestOf (if it.2.1 > prio then (it.2.2, it.2.1) else (result, prio)) rest

/-- `get_presence(res)`. -/
def get_presence (res : Resources) : ImStatus := (bestOf (.offline, -127) res.entries).1

/-- What presence packets change in the hook and in the contact list. The status of a contact
is kept under the part of its nickname that counts; the option that shows the contacts of a
protocol as online is off. -/
structure Hook where
  statuses : OrderedMap Str Resources strLt
  status : Str → ImStatus
  /-- `previous_state == JCONN_STATE_OFF`. -/
  wasOff : Bool
  connected : Bool

def Hook.initial : Hook := ⟨OrderedMap.empty, fun _ => .offline, false, false⟩

/-- `jabberhook::process_presence`. -/
def process_presence (h : Hook) (id s : Str) (prio : ℤ) (ust : ImStatus) : Hook × ImStatus :=
  match h.statuses.find? id with
  | none =>
    if ust ≠ .offline then
      ({ h with statuses := h.statuses.set id (OrderedMap.empty.set s (prio, ust)) }, ust)
    else (h, ust)
  | some res =>
    let res :=
      match res.find? s with
      | none => if ust ≠ .offline then res.set s (prio, ust) else res
      | some _ => if ust = .offline then res.erase s else res.set s (prio, ust)
    ({ h with statuses := h.statuses.set id res }, get_presence res)

/-- `statehandler(conn, JCONN_STATE_OFF)`. -/
def stateOff (h : Hook) : Hook :=
  { h with
    status := if h.wasOff then h.status else fun _ => .offline
    wasOff := true }

/-- The part of `packethandler` for presence packets, with the contact list. -/
def packethandler (clist : List ImContact) (h : Hook) (p : Presence) : Hook :=
  if !p.reset then h
  else if (get clist (.ofNick (35 :: p.id) .jabber)).isSome then h
  else if (get clist (.ofNick p.id .jabber)).isNone then h
  else
    let (h, ust) := process_presence h p.id p.resource p.jutil_priority p.status
    { h with status := Function.update h.status (nickKey .jabber p.id) ust }

/-- What happens to the hook. Packets come over an open connection only. -/
inductive Happening
  | presence (p : Presence)
  /-- Nothing more can be read, or the socket fails. -/
  | loss
  | disconnect
  /-- `connect`, with a user name that is a JID or not. -/
  | connect (valid : Bool)

def step (clist : List ImContact) (h : Hook) : Happening → Hook
  | .presence p => if h.connected then packethandler clist h p else h
  | .loss => { stateOff h with connected := false }
  | .disconnect => { stateOff h with connected := false, statuses := OrderedMap.empty }
  | .connect valid =>
    { h with
      statuses := OrderedMap.empty
      connected := valid
      wasOff := if valid then false else h.wasOff }

def run (clist : List ImContact) (h : Hook) (hs : List Happening) : Hook :=
  hs.foldl (step clist) h

end CenterIM.JabberHook

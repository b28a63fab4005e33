import CenterIM.Decimal
import CenterIM.StrText

/-!
# The HTTP client

One socket serves a queue of requests. What the socket does is given with each event, and so
are the time and the results of the connection attempts. The address that a connection is made
to and the text of a request are left out.
-/
namespace CenterIM.HttpClient
open ByteText Decimal StrText

inductive RequestMethod
  | GET | POST
  deriving DecidableEq

structure HTTPRequestEvent where
  /-- Which object it is. -/
  id : ℕ
  url : Str
  params : List (Str × Str) := []
  method : RequestMethod := .GET
  authTries : ℕ := 0
  connectTries : ℕ := 0
  httpresp : Str := []
  content : Str := []
  delivered : Bool := false
  finished : Bool := false
  deriving DecidableEq

/-- `operator ==`. -/
def HTTPRequestEvent.same (a b : HTTPRequestEvent) : Bool :=
  decide (a.url = b.url ∧ a.params = b.params ∧ a.method = b.method)

inductive State
  | notConnected | waitingForConnect | waitingForHeader | receivingHeader | receivingContent
  deriving DecidableEq

inductive SocketState
  | notConnected | nonblockingConnect | connected
  deriving DecidableEq

/-- A buffer and the place up to which it is unpacked; its sizes are `unsigned int`. -/
structure Buffer where
  data : Str := []
  out_pos : ℕ := 0
  /-- Was anything behind the end of the data read? -/
  overread : Bool := false
  deriving DecidableEq

namespace Buffer

def size (b : Buffer) : ℕ := b.data.length % 2 ^ 32

def Pack (b : Buffer) (s : Str) : Buffer := { b with data := b.data ++ s }

/-- What is unpacked of the data, for at most this size. The sum that is compared with the end of
the data is an `unsigned int`, but the sum at which the loop ends is not. -/
def Unpack (b : Buffer) (size : ℕ) : Str × Buffer :=
  if b.data.length ≤ b.out_pos then ([], b)
  else
    let size := if b.data.length < (b.out_pos + size) % 2 ^ 32 then
      (b.data.length - b.out_pos) % 2 ^ 32 else size
    ((b.data.drop b.out_pos).take size, { b with
      out_pos := (b.out_pos + size) % 2 ^ 32
      overread := b.overread || decide (b.data.length < b.out_pos + size) })

/-- `UnpackCRLFString`, through the next line feed. -/
def UnpackCRLFString (b : Buffer) : Option (Str × Buffer) :=
  ((b.data.drop b.out_pos).idxOf? lf).map fun i => b.Unpack ((i + 1) % 2 ^ 32)

end Buffer

/-- What becomes of an attempt to connect the socket. -/
inductive ConnectResult
  | fails | inProgress | connects
  deriving DecidableEq

/-- What a call of `recv` gives. -/
inductive RecvResult
  | data (seg : Str) | again | closed
  deriving DecidableEq

/-- A request that is acknowledged; for the end of a response, with the requests that were sent
on its connection. -/
structure Ack where
  ev : HTTPRequestEvent
  sent : List ℕ
  deriving DecidableEq

structure HTTPClient where
  queue : List HTTPRequestEvent := []
  state : State := .notConnected
  sock : SocketState := .notConnected
  recv : Buffer := {}
  content : Str := []
  length : UInt64 := 0
  code : UInt32 := 0
  lastOperation : ℤ := 0
  timeout : ℤ := 50
  /-- The time, and what will become of the next attempts to connect. -/
  now : ℤ := 0
  net : List ConnectResult := []
  /-- What was put in the queue, what was acknowledged, and what was sent on the connection. -/
  queued : List ℕ := []
  acks : List Ack := []
  sent : List ℕ := []
  deriving DecidableEq

namespace HTTPClient

/-- A change of the request at the front of the queue; there is none if the queue is empty. -/
def front (c : HTTPClient) (f : HTTPRequestEvent → HTTPRequestEvent) : Option HTTPClient :=
  match c.queue with
  | [] => none
  | ev :: q => some { c with queue := f ev :: q }

def ackFront (c : HTTPClient) (sent : List ℕ) (f : HTTPRequestEvent → HTTPRequestEvent) :
    Option HTTPClient :=
  match c.queue with
  | [] => none
  | ev :: q => some { c with queue := q, acks := c.acks ++ [⟨f ev, sent⟩] }

def undelivered (ev : HTTPRequestEvent) : HTTPRequestEvent :=
  { ev with delivered := false, finished := true }

def Disconnect (c : HTTPClient) : HTTPClient :=
  { c with sock := .notConnected, state := .notConnected }

/-- `m_socket->Connect()`, with what `Connect` does when it returns or throws. -/
def openSocket (c : HTTPClient) : HTTPClient :=
  match c.net with
  | .inProgress :: net => { c with
      net, sock := .nonblockingConnect, sent := [], lastOperation := c.now, state := .waitingForConnect }
  | .connects :: net => { c with
      net, sock := .connected, sent := [], lastOperation := c.now, state := .waitingForConnect }
  | .fails :: net => { c with net }.Disconnect
  | [] => c.Disconnect

def Connect (c : HTTPClient) : Option HTTPClient :=
  match c.queue with
  | [] => some c
  | ev :: q =>
    let c := { c with content := [], recv := {}, queue := { ev with connectTries := ev.connectTries + 1 } :: q }
    if ev.connectTries > 10 then do
      let c ← c.front fun ev => { ev with httpresp := bytes "too many connect attempts" }
      c.Disconnect.ackFront [] undelivered
    else
      let c := c.openSocket
      if c.state = .notConnected then c.ackFront [] undelivered else some c

def chop (response : Str) : Str := response.rdropWhile fun c => c == cr || c == lf

def challengeRest : ℕ → Str → Str
  | 0, response => response
  | fuel + 1, response =>
    match response.idxOf? 61 with
    | none => response
    | some i =>
      let value := response.drop (i + 1)
      let rest := match value with
        | 34 :: t => match t.idxOf? 34 with
          | some j => t.drop (j + 1)
          | none => t
        | _ => match value.idxOf? 44 with
          | some j => value.drop (j + 1)
          | none => value
      challengeRest fuel (rest.dropWhile fun c => c == 44 || c == blank || c == tab)

def splitBlank (response : Str) : Option Str × Str :=
  match response.idxOf? blank with
  | some npos => (some (response.take npos), response.drop (npos + 1))
  | none => (none, response)

/-- The status line; the flag says that an exception is thrown. -/
def parseStatus (c : HTTPClient) (response : Str) : Option (HTTPClient × Bool) :=
  let (word, rest) := splitBlank response
  let code := if word = none then 0 else (strtoul rest).toUInt32
  let c := { c with code }
  if code = 200 ∨ code = 301 ∨ code = 302 ∨ code = 401 then
    some ({ c with state := .receivingHeader }, false)
  else do
    let c ← c.front fun ev => { ev with httpresp := rest }
    return (c, true)

def reconnect (c : HTTPClient) : Option HTTPClient := c.Disconnect.Connect

/-- A challenge; the text is what is left of the line. -/
def authenticate (c : HTTPClient) (rest : Str) : Option (HTTPClient × Str × Bool) :=
  match c.queue with
  | [] => none
  | ev :: q =>
    let c := { c with queue := { ev with authTries := ev.authTries + 1 } :: q }
    if ev.authTries ≠ 0 then do
      let c ← c.front fun ev => { ev with httpresp := bytes "HTTP auth failed" }
      return (c, rest, true)
    else
      match splitBlank rest with
      | (some _, params) => do
        let c ← c.reconnect
        return (c, challengeRest params.length params, false)
      | (none, _) => some (c, rest, false)

/-- A header field that is called `head`, with the line and what is after its blank. -/
def parseField (c : HTTPClient) (head response rest : Str) : Option (HTTPClient × Str × Bool) :=
  if (c.code = 301 ∨ c.code = 302) ∧ head = bytes "LOCATION:" then do
    let c ← c.reconnect
    return (c, response, false)
  else if c.code = 401 ∧ head = bytes "WWW-AUTHENTICATE:" then c.authenticate rest
  else some (c, response, false)

def noteLength (c : HTTPClient) (head rest : Str) : HTTPClient :=
  if head = bytes "CONTENT-LENGTH:" then { c with length := strtoul rest } else c

/-- The name of the field in a line, or in the last line before it that had a blank. -/
def fieldName (head response : Str) : Str :=
  match (splitBlank response).1 with
  | some word => up word
  | none => head

def parseHeader (c : HTTPClient) (head response : Str) : Option (HTTPClient × Str × Bool) := do
  let rest := (splitBlank response).2
  let head := fieldName head response
  let (c, response, thrown) ← (c.noteLength head rest).parseField head response rest
  return (if thrown = false ∧ response = [] then { c with state := .receivingContent } else c, head, thrown)

def parseLine (c : HTTPClient) (head response : Str) : Option (HTTPClient × Str × Bool) :=
  match c.state with
  | .waitingForHeader => do
    let (c, thrown) ← c.parseStatus response
    return (c, head, thrown)
  | .receivingHeader => c.parseHeader head response
  | .receivingContent => some ({ c with content := c.content ++ (response ++ [lf]) }, head, false)
  | _ => some (c, head, false)

/-- The loop of `Parse`. Once a new connection is made the buffer is empty. -/
def parseLoop : ℕ → HTTPClient → Str → Option (HTTPClient × Bool)
  | 0, c, _ => some (c, false)
  | fuel + 1, c, head =>
    match c.recv.UnpackCRLFString with
    | none => some (c, false)
    | some (line, recv) => do
      let (c, head, thrown) ← { c with recv, lastOperation := c.now }.parseLine head (chop line)
      if thrown then return (c, true) else parseLoop fuel c head

/-- `Parse`; the flag says that an `HTTPException` is thrown. -/
def Parse (c : HTTPClient) : Option (HTTPClient × Bool) :=
  if c.queue = [] then none else parseLoop (c.recv.data.length + 1) c []

/-- How the loop of `Recv` ends. -/
inductive Ended
  | normally | socketException | httpException
  deriving DecidableEq

def lengthReached (c : HTTPClient) : Prop := c.length ≠ 0 ∧ c.length.toNat ≤ c.recv.size

instance (c : HTTPClient) : Decidable c.lengthReached := inferInstanceAs (Decidable (_ ∧ _))

def recvLoop : List RecvResult → HTTPClient → Option (HTTPClient × Ended)
  | [], c => some (c, .normally)
  | r :: rs, c =>
    if c.sock = .connected then
      match r with
      | .again => some (c, .normally)
      | .closed => some ({ c with sock := .notConnected }, .socketException)
      | .data seg => do
        let (c, thrown) ← { c with recv := c.recv.Pack seg }.Parse
        if thrown then return (c, .httpException)
        else if c.lengthReached then return (c, .normally)
        else recvLoop rs c
    else some (c, .normally)

/-- `Recv`; the flag says that a `DisconnectedException` is thrown. -/
def Recv (c : HTTPClient) (rs : List RecvResult) : Option (HTTPClient × Bool) := do
  let (c, ended) ← recvLoop rs { c with length := 0 }
  match ended with
  | .socketException => return (c.Disconnect, true)
  | .httpException =>
    let c ← c.ackFront c.sent undelivered
    let c := c.Disconnect
    return (c, decide c.lengthReached)
  | .normally => if c.lengthReached then return (c.Disconnect, true) else return (c, false)

/-- `SendRequest`, with the result of sending. -/
def SendRequest (c : HTTPClient) (sends : Bool) : Option HTTPClient :=
  match c.queue with
  | [] => none
  | ev :: _ =>
    if sends then some { c with state := .waitingForHeader, sent := c.sent ++ [ev.id] }
    else some c.Disconnect

/-- `check_timeout`. -/
def check_timeout (c : HTTPClient) : Option HTTPClient :=
  if c.now - c.lastOperation > c.timeout then do
    let c ← c.front fun ev => { ev with httpresp := bytes "Timed out" }
    let c ← c.ackFront [] undelivered
    return c.Disconnect
  else some c

def clearoutMessagesPoll (c : HTTPClient) : Option HTTPClient :=
  if c.queue = [] then some c
  else if c.state = .notConnected then c.Connect else c.check_timeout

def SendEvent (c : HTTPClient) (rev : HTTPRequestEvent) : Option HTTPClient :=
  if c.queue.any (·.same rev) then some c
  else
    let c := { c with queue := c.queue ++ [rev], queued := c.queued ++ [rev.id] }
    if c.state = .notConnected then c.Connect else some c

/-- `socket_cb` when the socket is writable. -/
def writable (c : HTTPClient) (finishes sends : Bool) : Option HTTPClient :=
  if c.sock = .nonblockingConnect then
    if finishes then { c with sock := .connected }.SendRequest sends
    else some { c with sock := .notConnected }
  else some c

/-- What `socket_cb` does when the connection is over. -/
def finish (c : HTTPClient) : Option HTTPClient :=
  let (remains, recv) := c.recv.Unpack c.recv.size
  let content := c.content ++ remains
  { c with content, recv }.ackFront c.sent
    fun ev => { ev with delivered := true, finished := true, content }

/-- `socket_cb` when the socket is readable. -/
def readable (c : HTTPClient) (rs : List RecvResult) : Option HTTPClient :=
  if c.sock = .connected then do
    let (c, thrown) ← c.Recv rs
    if thrown then c.finish else return c
  else some c

end HTTPClient

inductive Event
  | send (rev : HTTPRequestEvent)
  | poll
  | writable (finishes sends : Bool)
  | readable (rs : List RecvResult)

/-- An event, at a time, with the results of the connection attempts that it leads to. -/
structure Input where
  event : Event
  now : ℤ := 0
  net : List ConnectResult := []

def HTTPClient.tick (c : HTTPClient) (i : Input) : HTTPClient := { c with now := i.now, net := i.net }

def HTTPClient.handle (c : HTTPClient) (i : Input) : Option HTTPClient :=
  match i.event with
  | .send rev => (c.tick i).SendEvent rev
  | .poll => (c.tick i).clearoutMessagesPoll
  | .writable finishes sends => (c.tick i).writable finishes sends
  | .readable rs => (c.tick i).readable rs

end CenterIM.HttpClient

import CenterIM.Decimal
import CenterIM.Runs

/-!
# A file from one MSN client to another

The sender waits for the receiver to connect, the two exchange a few lines, and then the file
goes over the connection in blocks. Both ends are driven by the events of their sockets, which
come in any order and bring any number of bytes; either end can lose the connection at any time,
also in the middle of what it writes.
-/
namespace CenterIM.MsnTransfer
open ByteText Decimal

def crlf : Str := [cr, lf]

abbrev MAX_FTP_BLOCK_SIZE : ℕ := 20000

/-- `splitString(s, " ")`: the parts between blanks that are not empty. -/
def splitString (s : Str) : List Str := (s.splitOn blank).filter fun p => p ≠ []

def getLine (readBuffer : Str) : Option (List Str × Str) :=
  (find crlf readBuffer).map fun i => (splitString (readBuffer.take i), readBuffer.drop (i + 2))

/-- What the two agreed on before: the size, the receiver's name and the cookie; and the two
files, that of the sender with its content. -/
structure Agreement where
  fileSize : ℕ
  username : Str
  cookie : Str
  content : Str
  canRead : Bool
  canWrite : Bool

structure Sender where
  connected : Bool := false
  readBuffer : Str := []
  /-- What is left to read of the open file. -/
  fd : Option Str := none
  bytes_done : ℕ := 0
  succeeded : Bool := false
  failed : Bool := false
  /-- Was a failing `accept` reported? -/
  refused : Bool := false
  gone : Bool := false

structure Receiver where
  connected : Bool := false
  writeBuffer : Str := []
  readBuffer : Str := []
  fd : Bool := false
  /-- What is written to the file. -/
  written : Str := []
  bytes_done : ℕ := 0
  succeeded : Bool := false
  failed : Bool := false
  gone : Bool := false

def verLine : Str := bytes "VER MSNFTP" ++ crlf

def usrLine (m : Agreement) : Str := bytes "USR " ++ m.username ++ [blank] ++ m.cookie ++ crlf

def filLine (m : Agreement) : Str := bytes "FIL " ++ decimal m.fileSize ++ crlf

def tfrLine : Str := bytes "TFR" ++ crlf

def byeLine : Str := bytes "BYE 16777989" ++ crlf

namespace Sender

variable (m : Agreement) (s : Sender)

def handleSend_WaitingForConnection : Sender × Str := ({ s with connected := true }, [])

def handleSend_Negotiating : Sender × Str :=
  match getLine s.readBuffer with
  | none => (s, [])
  | some (args, rest) =>
    let s := { s with readBuffer := rest }
    if args[0]? = some (bytes "VER") then (s, verLine)
    else if args[0]? = some (bytes "USR") then
      if args[2]? = some m.cookie then (s, filLine m) else ({ s with failed := true }, [])
    else if args[0]? = some (bytes "TFR") then
      if m.canRead then ({ s with fd := some m.content }, []) else ({ s with failed := true }, [])
    else (s, [])

/-- What `fread` makes of a buffer of zeros: the next bytes of the file, as far as there are. -/
def block (n : ℕ) (left : Str) : Str := left.take n ++ List.replicate (n - left.length) 0

/-- A block behind its header; an empty one is the end of the transfer. -/
def blockBytes (b : Str) : Str :=
  (if b.length = 0 then 1 else 0) :: UInt8.ofNat b.length :: UInt8.ofNat (b.length / 256) :: b

def handleSend_Transferring (left : Str) : Sender × Str :=
  let bytesRemaining := (m.fileSize - s.bytes_done) % 2 ^ 32
  let blockLength := if bytesRemaining > MAX_FTP_BLOCK_SIZE / 4 then MAX_FTP_BLOCK_SIZE / 4
    else bytesRemaining
  ({ s with fd := some (left.drop blockLength), bytes_done := s.bytes_done + blockLength },
    blockBytes (block blockLength left))

def handleSend_Bye : Sender × Str := ({ s with succeeded := true, gone := true }, [])

def handleSend : Sender × Str :=
  if s.connected then
    match s.fd with
    | none => s.handleSend_Negotiating m
    | some left =>
      if m.fileSize ≠ s.bytes_done then s.handleSend_Transferring m left else s.handleSend_Bye
  else s.handleSend_WaitingForConnection

end Sender

namespace Receiver

variable (m : Agreement) (r : Receiver)

/-- Before the connection is there, what is written is kept. -/
def write (s : Str) : Receiver × Str :=
  if r.connected then (r, s) else ({ r with writeBuffer := r.writeBuffer ++ s }, [])

/-- `receiveFile`, with a connection that is there at once or not. -/
def receiveFile (connected : Bool) : Receiver × Str :=
  ({ connected := connected } : Receiver).write verLine

def socketConnectionCompleted : Receiver × Str :=
  ({ r with connected := true, writeBuffer := [] }, r.writeBuffer)

def handleReceive_Negotiating : Receiver × Str :=
  match getLine r.readBuffer with
  | none => (r, [])
  | some (args, rest) =>
    let r := { r with readBuffer := rest }
    if args[0]? = some (bytes "VER") then r.write (usrLine m)
    else if args[0]? = some (bytes "FIL") then
      if m.canWrite then ({ r with fd := true, written := [] } : Receiver).write tfrLine
      else ({ r with failed := true }, [])
    else (r, [])

def fail : Receiver × Str := ({ r with fd := false, failed := true }, [])

def succeed : Receiver × Str := ({ r with fd := false, succeeded := true } : Receiver).write byeLine

def transferring : ℕ → Receiver → Receiver × Str
  | 0, r => (r, [])
  | n + 1, r =>
    match r.readBuffer with
    | h :: l :: u :: rest =>
      if h = 1 then if l ≠ 0 ∨ u ≠ 0 then r.fail else r.succeed
      else if h ≠ 0 then r.fail
      else
        let blockLength := l.toNat + 256 * u.toNat
        if blockLength > MAX_FTP_BLOCK_SIZE then r.fail
        else if rest.length < blockLength then (r, [])
        else
          let r := { r with
            readBuffer := rest.drop blockLength
            written := r.written ++ rest.take blockLength
            bytes_done := r.bytes_done + blockLength }
          if r.bytes_done = m.fileSize then r.succeed else transferring n r
    | _ => (r, [])

def handleReceive_Transferring : Receiver × Str := transferring m r.readBuffer.length r

def handleReceive : Receiver × Str :=
  if r.fd then r.handleReceive_Transferring m else r.handleReceive_Negotiating m

end Receiver

/-- Both ends, with what is on the way to the receiver and to the sender. -/
structure Net where
  sender : Sender := {}
  receiver : Receiver := {}
  wire : Str := []
  back : Str := []

/-- An event at one end; what arrives is at most the given number of bytes. At a busy sender the
socket is not writable, and of a write that breaks the given number of bytes goes out. -/
inductive Event
  | senderWritable | senderData (k : ℕ) | senderBusy (k : ℕ) | acceptFails | senderLost
  | receiverConnected | receiverData (k : ℕ) | receiverLost
  | senderBreaks (k out : ℕ) | connectedBreaks (out : ℕ) | receiverBreaks (k out : ℕ)

def Net.start (connected : Bool) : Net :=
  let (r, out) := Receiver.receiveFile connected
  { receiver := r, back := out }

def Net.startBreaks (out : ℕ) : Net :=
  { receiver := { (Receiver.receiveFile true).1 with gone := true },
    back := (Receiver.receiveFile true).2.take out }

inductive Begun : Net → Prop
  | start (connected : Bool) : Begun (Net.start connected)
  | startBreaks (out : ℕ) : out < verLine.length → Begun (Net.startBreaks out)

def Net.atSender (k : ℕ) (n : Net) : Net :=
  { n with
    sender := { n.sender with readBuffer := n.sender.readBuffer ++ n.back.take k }
    back := n.back.drop k }

def Net.atReceiver (k : ℕ) (n : Net) : Net :=
  { n with
    receiver := { n.receiver with readBuffer := n.receiver.readBuffer ++ n.wire.take k }
    wire := n.wire.drop k }

/-- The sender's handler, and what it puts on the wire. -/
def Net.senderActs (m : Agreement) (n : Net) : Net :=
  let (s, out) := n.sender.handleSend m
  { n with sender := s, wire := n.wire ++ out }

def Net.receiverActs (m : Agreement) (n : Net) : Net :=
  let (r, out) := n.receiver.handleReceive m
  { n with receiver := r, back := n.back ++ out }

def Net.connects (n : Net) : Net :=
  { n with
    receiver := n.receiver.socketConnectionCompleted.1
    back := n.back ++ n.receiver.socketConnectionCompleted.2 }

/-- An event at which nothing that is written breaks, where it can happen. -/
def Net.next (m : Agreement) (n : Net) : Event → Option Net
  | .senderWritable => if n.sender.gone then none else some (n.senderActs m)
  | .senderData k =>
    if n.sender.gone then none
    else if ¬n.sender.connected then some (n.senderActs m)
    else if 0 < k ∧ n.back ≠ [] then some ((n.atSender k).senderActs m)
    else none
  | .senderBusy k =>
    if n.sender.gone ∨ ¬n.sender.connected ∨ n.sender.fd = none ∨ m.fileSize = n.sender.bytes_done then
      none
    else some (n.atSender k)
  | .acceptFails =>
    if n.sender.gone ∨ n.sender.connected then none
    else some { n with sender := { n.sender with refused := true } }
  | .senderLost => some { n with sender := { n.sender with gone := true } }
  | .receiverConnected => if n.receiver.gone ∨ n.receiver.connected then none else some n.connects
  | .receiverData k =>
    if n.receiver.gone ∨ ¬n.receiver.connected then none
    else if 0 < k ∧ n.wire ≠ [] then some ((n.atReceiver k).receiverActs m)
    else none
  | .receiverLost => some { n with receiver := { n.receiver with gone := true } }
  | _ => none

/-- The sender with what is left of it when a write of its handler breaks. -/
def Net.senderBroken (m : Agreement) (n : Net) (out : ℕ) : Net :=
  { n with
    sender := { (n.sender.handleSend m).1 with gone := true }
    wire := n.wire ++ (n.sender.handleSend m).2.take out }

/-- The receiver; what it still calls in that handler it calls without its invitation, which is
deleted by then. -/
def Net.receiverBroken (m : Agreement) (n : Net) (out : ℕ) : Net :=
  { n with
    receiver := { (n.receiver.handleReceive m).1 with
      succeeded := n.receiver.succeeded, gone := true }
    back := n.back ++ (n.receiver.handleReceive m).2.take out }

inductive Step (m : Agreement) : Net → Event → Net → Prop
  | whole {n n' : Net} {e : Event} : n.next m e = some n' → Step m n e n'
  | senderBreaks {n : Net} (k out : ℕ) : n.sender.gone = false → n.sender.connected = true →
      out < ((n.atSender k).sender.handleSend m).2.length →
      Step m n (.senderBreaks k out) ((n.atSender k).senderBroken m out)
  | connectedBreaks {n : Net} (out : ℕ) : n.receiver.gone = false → n.receiver.connected = false →
      out < n.receiver.socketConnectionCompleted.2.length →
      Step m n (.connectedBreaks out) { n with
        receiver := { n.receiver.socketConnectionCompleted.1 with gone := true }
        back := n.back ++ n.receiver.socketConnectionCompleted.2.take out }
  | receiverBreaks {n : Net} (k out : ℕ) : n.receiver.gone = false → n.receiver.connected = true →
      0 < k → n.wire ≠ [] → out < ((n.atReceiver k).receiver.handleReceive m).2.length →
      Step m n (.receiverBreaks k out) ((n.atReceiver k).receiverBroken m out)

/-- One step after the other, where they can happen. -/
def Net.after (m : Agreement) (n : Net) (es : List Event) : Option Net :=
  es.foldlM (fun n e => n.next m e) n

end CenterIM.MsnTransfer

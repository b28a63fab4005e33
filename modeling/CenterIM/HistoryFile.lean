import CenterIM.EventReader

/-!
# History files

What a contact keeps about its history file: the time of the last event that was read, an
offset to start reading at, and whether there are unread events. `scanhistory` works the
last two out from the end of the file; `getevents` reads what is newer than a time.
-/
namespace CenterIM.HistoryFile
open ByteText Decimal LineStream StrText Contact Event EventReader

/-- The members of `icqcontact` that have to do with its history. The offset is a natural
number: history files are taken to be smaller than an `int` can count. -/
structure HistoryContact where
  cdesc : ImContact
  lastread : Int64
  fhistoffset : ℕ
  fhasevents : Bool
  receivedAcks : List Int64
  sentAcks : List Int64

/-- What `scanhistory` looks for. -/
def incomingMark : Str := bytes "\x0c\nIN\n"

/-- The loop of `scanhistory`: go back in steps of 64 bytes until the text read so far has
the mark in it. Gives its place in the file and the text from the direction on. -/
def scanLoop (content : Str) : ℕ → ℕ → Str → Option (ℕ × Str)
  | 0, _, _ => none
  | fuel + 1, ftell, block =>
    if ftell = 0 then none
    else
      let backstep := min 64 ftell
      let ftell := ftell - backstep
      let block := cstr ((content.drop ftell).take backstep) ++ block
      match find incomingMark block with
      | some r => some (content.length - block.length + r, block.drop (r + 2))
      | none => scanLoop content fuel ftell block

/-- The third line of the text from the direction on, compared as unsigned numbers. -/
def newerThan (block : Str) (lastread : Int64) : Bool :=
  match (streamLines block)[2]? with
  | some line => lastread.toUInt64 < strtoul line
  | none => false

/-- `icqcontact::scanhistory`, with the content of the file if there is one. -/
def scanhistory (file : Option Str) (c : HistoryContact) : HistoryContact :=
  match file with
  | none => { c with fhasevents := false }
  | some content =>
    match scanLoop content (content.length + 1) content.length [] with
    | some (pos, block) =>
      { c with fhasevents := newerThan block c.lastread, fhistoffset := pos }
    | none => { c with fhasevents := false, fhistoffset := 0 }

/-- `icqcontact::setlastread`. -/
def setlastread (file : Option Str) (c : HistoryContact) (flastread : Int64) : HistoryContact :=
  scanhistory file { c with lastread := flastread }

/-- What `getevents` makes of an event that is newer than `lastread`. -/
def deliver (c : HistoryContact) (rev : ImEvent) : ImEvent :=
  { rev with
    contact := c.cdesc
    acknowledged :=
      (rev.direction == .outgoing && c.receivedAcks.contains rev.timestamp) ||
        (rev.direction == .incoming && c.sentAcks.contains rev.timestamp) }

/-- `imeventmanager::getevents` for a contact of the list. -/
def getevents (file : Option Str) (c : HistoryContact) (lastread : Int64) :
    Except Fault (List ImEvent) :=
  match file with
  | none => .ok []
  | some content =>
    let rest := if lastread ≠ 0 then content.drop c.fhistoffset else content
    (eventLoop (rest.length + 1) (IStream.ofContent rest)).map fun revs =>
      (revs.filter fun rev => lastread < rev.timestamp).map (deliver c)

end CenterIM.HistoryFile

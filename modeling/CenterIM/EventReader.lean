import CenterIM.Event
import CenterIM.LineStream

/-!
# Reading events

The readers of event records: the header with its search for the next marker, the text
block up to a marker, the `read` of every subclass, and the loop of `getevents` over a
file.
-/
namespace CenterIM.EventReader
open ByteText Decimal LineStream StrText Contact XmlTree Event

abbrev marker : Str := [ff]

/-- The enumeration loop over `sdirection`. -/
def lookupDirection (rdbuf : Str) : ImDirection :=
  ([.incoming, .outgoing].find? fun d => sdirection d == rdbuf).getD .imdirection_size

/-- The enumeration loop over `seventtype`. -/
def lookupType (rdbuf : Str) : ImEventType :=
  if rdbuf ≠ [] then
    ([.message, .url, .sms, .authorization, .online, .offline, .email, .notification, .contacts,
      .file, .xml].find? fun t => seventtype t == rdbuf).getD .imeventtype_size
  else .imeventtype_size

/-- The members of `imevent` that its `read` sets. -/
structure Header where
  direction : ImDirection
  type : ImEventType
  timestamp : Int64
  senttimestamp : Int64
  deriving DecidableEq, Repr

/-- `while(!f.eof() && rdbuf != "\f") getstring(f, rdbuf)`. -/
def skipToMarker : ℕ → IStream → Str → IStream
  | 0, f, _ => f
  | fuel + 1, f, rdbuf =>
    if f.eof || rdbuf == marker then f
    else
      let (_, rdbuf, f) := getstring f rdbuf
      skipToMarker fuel f rdbuf

/-- The part of `imevent::read` that reads the four members; also the last line read. -/
def readFields (f : IStream) : Header × Str × IStream :=
  let (_, rdbuf, f) := getstring f []
  let (_, rdbuf, f) := if rdbuf = marker then getstring f rdbuf else (true, rdbuf, f)
  let direction := lookupDirection rdbuf
  let (_, rdbuf, f) := getstring f rdbuf
  let type := lookupType rdbuf
  let (_, rdbuf, f) := getstring f rdbuf
  let timestamp := (strtoul rdbuf).toInt64
  let (_, rdbuf, f) := getstring f rdbuf
  let senttimestamp := (strtoul rdbuf).toInt64
  (⟨direction, type, timestamp, senttimestamp⟩, rdbuf, f)

/-- Was one of the enumeration loops run to its end? -/
def Header.unknown (h : Header) : Bool :=
  h.direction == .imdirection_size || h.type == .imeventtype_size

/-- `imevent::read`: an unknown header is skipped up to the next marker. -/
def readHeader : ℕ → IStream → Header × IStream
  | 0, f => (⟨.imdirection_size, .imeventtype_size, 0, 0⟩, f)
  | fuel + 1, f =>
    let (h, rdbuf, f) := readFields f
    if h.unknown then
      let f := skipToMarker (f.size + 1) f rdbuf
      if !f.eof then readHeader fuel f else (h, f)
    else (h, f)

def strip (rdbuf : Str) : Str := rdbuf.filter (· ∉ evlinebreak)

def addLine (r rdbuf : Str) : Str := (if r ≠ [] then r ++ evlinebreak else r) ++ strip rdbuf

def readblockLoop : ℕ → IStream → Str → Str × IStream
  | 0, f, r => (r, f)
  | fuel + 1, f, r =>
    if f.eof then (r, f)
    else
      let (_, rdbuf, f) := getstring f []
      if rdbuf = marker then (r, f)
      else if f.eof ∧ rdbuf = [] then (r, f)
      else readblockLoop fuel f (addLine r rdbuf)

/-- `imevent::readblock`. -/
def readblock (f : IStream) : Str × IStream := readblockLoop f.size f []

/-- The strings that `getline` gives for a string stream on a block, one after another. -/
def streamLines (block : Str) : List Str :=
  let ls := lines block
  if ls.getLast? = some [] then ls.dropLast else ls

def splitTab (buf : Str) : Option (Str × Str) :=
  if tab ∈ buf then
    some (buf.takeWhile (· ≠ tab), (buf.dropWhile (· ≠ tab)).drop 1)
  else none

/-- The loop of `imcontacts::read` over the lines of its block. -/
def contactsOf (block : Str) : List (UInt32 × Str) :=
  (streamLines block).filterMap fun buf =>
    (splitTab (strip buf)).map fun p => ((atoi p.1).toUInt32, p.2)

/-- The lines of `imfile::read` after the first. -/
def fileRecords : List Str → Except Fault (List FileRecord)
  | [] => .ok []
  | buf :: bufs =>
    match splitTab (strip buf) with
    | none => fileRecords bufs
    | some (name, size) =>
      match unmime name, fileRecords bufs with
      | .ok fname, .ok files => .ok (⟨fname, (strtoul size).toInt64⟩ :: files)
      | .error e, _ => .error e
      | _, .error e => .error e

/-- The loop of `imfile::read` over the lines of its block: the files and the message. -/
def fileOf (block : Str) : Except Fault (List FileRecord × Str) :=
  match streamLines block with
  | [] => .ok ([], [])
  | buf :: bufs =>
    if strip buf = [] then .error .outOfRange
    else
      match unmime ((strip buf).drop 1), fileRecords bufs with
      | .ok msg, .ok files => .ok (files, msg)
      | .error e, _ => .error e
      | _, .error e => .error e

/-- The loop of `imxmlevent::read` over the names of the children. -/
def xmlFields (children : List XmlNode) : List Str → OrderedMap Str Str strLt →
    Except Fault (OrderedMap Str Str strLt)
  | [], data => .ok data
  | name :: names, data =>
    match children.find? fun c => c.getTag == name with
    | some (.leaf _ _ value) => xmlFields children names (data.set name value)
    | _ => .error .nullDeref

/-- `imxmlevent::read` on its block; without a branch on top it follows a null pointer. -/
def xmlOf (content : Str) : Except Fault (OrderedMap Str Str strLt) :=
  match parse (content.length + 3) content with
  | .error e => .error e
  | .ok (some (.branch _ _ children), _) =>
    xmlFields children (children.map XmlNode.getTag) OrderedMap.empty
  | .ok _ => .error .nullDeref

/-- The correction in `imsms::read` for a record without a phone number. -/
def smsOf (phone text : Str) : Body :=
  if phone ≠ [] ∧ phone.take 1 ≠ bytes "+" then
    .imsms (if text ≠ [] then phone ++ bytes "\n" ++ text else phone) []
  else .imsms text phone

/-- `read` of the subclass that `getevent` makes for a type; the types without a subclass
of their own are left to `eventread`. -/
def readBody : ImEventType → IStream → Except Fault (Body × IStream)
  | .message, f =>
    let (text, f) := readblock f
    .ok (.immessage text, f)
  | .url, f =>
    let (_, url, f) := getstring f []
    let (description, f) := readblock f
    .ok (.imurl url description, f)
  | .sms, f =>
    let (_, phone, f) := getstring f []
    let (text, f) := readblock f
    .ok (smsOf phone text, f)
  | .authorization, f =>
    let (_, rdbuf, f) := getstring f []
    let (text, f) := readblock f
    .ok (.imauthorization text (strtoul rdbuf).toUInt32, f)
  | .email, f =>
    let (text, f) := readblock f
    .ok (.imemail text, f)
  | .notification, f =>
    let (text, f) := readblock f
    .ok (.imnotification text, f)
  | .contacts, f =>
    let (block, f) := readblock f
    .ok (.imcontacts (contactsOf block), f)
  | .file, f =>
    let (block, f) := readblock f
    (fileOf block).map fun r => (.imfile r.1 r.2, f)
  | .xml, f =>
    let (block, f) := readblock f
    (xmlOf block).map fun data => (.imxmlevent data, f)
  | type, f => .ok (.imrawevent type, f)

/-- The event with this header and body; its contact is set by the caller. -/
def Header.event (h : Header) (body : Body) : ImEvent :=
  ⟨contactroot, h.direction, h.timestamp, h.senttimestamp, false, body⟩

/-- Does `getevent` make an object of this type that has a `read` of its own? -/
def hasBody (type : ImEventType) : Bool :=
  type != .online && type != .offline && type != .imeventtype_size

/-- `imeventmanager::eventread`: the event, if any, and the rest of the stream. -/
def eventread (f : IStream) : Except Fault (Option ImEvent × IStream) :=
  let (ev, f) := readHeader (f.size + 1) f
  if hasBody ev.type then (readBody ev.type f).map fun r => (some (ev.event r.1), r.2)
  else
    -- an `imrawevent` reads a header once more
    let (rev, f) := readHeader (f.size + 1) f
    if rev.type = .imeventtype_size then .ok (none, f)
    else .ok (some (rev.event (.imrawevent rev.type)), f)

/-- The loop of `getevents`: every event up to the end of the file. -/
def eventLoop : ℕ → IStream → Except Fault (List ImEvent)
  | 0, _ => .ok []
  | fuel + 1, f =>
    if f.eof then .ok []
    else
      match eventread f with
      | .error e => .error e
      | .ok (rev, f) => (eventLoop fuel f).map (rev.toList ++ ·)

def readAll (content : Str) : Except Fault (List ImEvent) :=
  eventLoop (content.length + 1) (IStream.ofContent content)

end CenterIM.EventReader

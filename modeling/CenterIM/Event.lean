import CenterIM.Contact
import CenterIM.OrderedMap
import CenterIM.XmlTree

/-!
# Events

`imevent` and its subclasses: the data of every kind of event, the text shown for it, and
the record that `write` appends to a history file.
-/
namespace CenterIM.Event
open ByteText Decimal StrText Contact XmlTree

/-- `imevent::imeventtype`, with the member that counts the others last. -/
inductive ImEventType
  | message
  | url
  | sms
  | authorization
  | online
  | offline
  | email
  | notification
  | contacts
  | file
  | xml
  | imeventtype_size
  deriving DecidableEq, Repr

/-- `imevent::imdirection`. -/
inductive ImDirection
  | incoming
  | outgoing
  | imdirection_size
  deriving DecidableEq, Repr

def evlinebreak : Str := [cr, lf]

/-- The array `sdirection`; it has no element for the count. -/
def sdirection : ImDirection → Str
  | .incoming => bytes "IN"
  | .outgoing => bytes "OUT"
  | .imdirection_size => []

/-- The array `seventtype`; it has no element for the count. -/
def seventtype : ImEventType → Str
  | .message => bytes "MSG"
  | .url => bytes "URL"
  | .sms => bytes "SMS"
  | .authorization => bytes "AUTH"
  | .online => []
  | .offline => []
  | .email => bytes "EMAIL"
  | .notification => bytes "NOTE"
  | .contacts => bytes "CONT"
  | .file => bytes "FILE"
  | .xml => bytes "XML"
  | .imeventtype_size => []

/-- `imauthorization::AuthType`, as the number that is written: a record read back may
hold one that has no name. -/
abbrev AuthType := UInt32

abbrev AuthType.Request : AuthType := 2

/-- `imfile::record`; the size -1 means that it is unknown. -/
structure FileRecord where
  fname : Str
  size : Int64
  deriving DecidableEq, Repr

/-- The order of `std::string`. -/
def strLt (a b : Str) : Bool := decide (a < b)

instance : StrictWeak strLt where
  irrefl a := by simp [strLt, List.lt_irrefl]
  trans h1 h2 := by
    simp only [strLt, decide_eq_true_eq] at *
    exact List.lt_trans h1 h2
  split c h := by
    simp only [strLt, decide_eq_true_eq] at *
    by_contra hn
    push Not at hn
    exact hn.2 (List.lt_of_le_of_lt (List.not_lt.mp hn.1) h)

theorem same_strLt {a b : Str} : OrderedMap.same strLt a b = true ↔ a = b := by
  rw [OrderedMap.same_iff]
  simp only [strLt, decide_eq_false_iff_not]
  constructor
  · rintro ⟨h1, h2⟩
    exact List.le_antisymm (List.not_lt.mp h2) (List.not_lt.mp h1)
  · rintro rfl
    exact ⟨List.lt_irrefl _, List.lt_irrefl _⟩

theorem same_strLt_false {a b : Str} (h : a ≠ b) : OrderedMap.same strLt a b = false := by
  rw [← Bool.not_eq_true, same_strLt]
  exact h

/-- What each subclass of `imevent` adds to it. -/
inductive Body
  | immessage (text : Str)
  | imurl (url description : Str)
  | imsms (text phone : Str)
  | imauthorization (text : Str) (authtype : AuthType)
  | imemail (text : Str)
  | imnotification (text : Str)
  | imcontacts (contacts : List (UInt32 × Str))
  | imfile (files : List FileRecord) (msg : Str)
  | imxmlevent (data : OrderedMap Str Str strLt)
  | imrawevent (type : ImEventType)
  deriving DecidableEq

/-- `imevent`; the type of the event goes with its body. -/
structure ImEvent where
  contact : ImContact
  direction : ImDirection
  timestamp : Int64
  senttimestamp : Int64
  acknowledged : Bool
  body : Body
  deriving DecidableEq

def Body.gettype : Body → ImEventType
  | .immessage _ => .message
  | .imurl .. => .url
  | .imsms .. => .sms
  | .imauthorization .. => .authorization
  | .imemail _ => .email
  | .imnotification _ => .notification
  | .imcontacts _ => .contacts
  | .imfile .. => .file
  | .imxmlevent _ => .xml
  | .imrawevent type => type

/-- `imevent::gettype`. -/
def ImEvent.gettype (e : ImEvent) : ImEventType := e.body.gettype

/-- `i2str` of an unsigned number: its bits taken as signed. -/
def ui2str (i : UInt32) : Str := i2str i.toInt32

/-- `imfile::gettext`. -/
def fileText (files : List FileRecord) (msg : Str) : Str :=
  bytes "* File transfer" ++
    (if msg = [] then [] else bytes " <" ++ msg ++ bytes ">") ++ bytes " : " ++
    (bytes ", ").intercalate (files.map fun i =>
      i.fname ++ if i.size = -1 then [] else bytes " (" ++ i2str i.size.toInt32 ++ bytes ")")

/-- `imcontacts::gettext`. -/
def contactsText (contacts : List (UInt32 × Str)) : Str :=
  bytes "* Contacts : " ++ (bytes ", ").intercalate (contacts.map fun ic =>
    if ic.1 ≠ 0 then
      (if ic.2 = [] then bytes "<no nick>" else ic.2) ++ bytes " (" ++ ui2str ic.1 ++ bytes ")"
    else ic.2)

/-- `gettext`, for each subclass. -/
def Body.gettext : Body → Str
  | .immessage text => text
  | .imurl url description => url ++ bytes "\n----\n" ++ description
  | .imsms text _ => bytes "* SMS : " ++ text
  | .imauthorization text authtype =>
    (if authtype = .Request then bytes "* Authorization request : "
      else bytes "* Authorization : ") ++ text
  | .imemail text => text
  | .imnotification text => bytes "* " ++ text
  | .imcontacts contacts => contactsText contacts
  | .imfile files msg => fileText files msg
  | .imxmlevent data => (data.find? (bytes "text")).getD []
  | .imrawevent _ => []

def ImEvent.gettext (e : ImEvent) : Str := e.body.gettext

/-- The node that an `imxmlevent` writes: its fields that are not empty. -/
def xmlNode (data : OrderedMap Str Str strLt) : XmlNode :=
  mkBranch (bytes "xml")
    ((data.entries.filter fun d => d.2 ≠ []).map fun d => mkLeaf d.1 d.2)

/-- What `write` of each subclass puts after the header. -/
def Body.write : Body → Str
  | .immessage text => text ++ [lf]
  | .imurl url description => url ++ [lf] ++ description ++ [lf]
  | .imsms text phone =>
    (if phone = [] then []
      else (if phone.take 1 ≠ bytes "+" then bytes "+" else []) ++ phone ++ [lf]) ++ text ++ [lf]
  | .imauthorization text authtype => ui2str authtype ++ [lf] ++ text ++ [lf]
  | .imemail text => text ++ [lf]
  | .imnotification text => text ++ [lf]
  | .imcontacts contacts =>
    contacts.flatMap fun ic => decimal ic.1.toNat ++ [tab] ++ ic.2 ++ [lf]
  | .imfile files msg =>
    bytes "|" ++ mime msg ++ [lf] ++
      files.flatMap fun i => mime i.fname ++ [tab] ++ decimalInt i.size.toInt ++ [lf]
  | .imxmlevent data =>
    match (xmlNode data).toString 0 with
    | some x => x ++ [lf]
    -- the output of a leaf with attributes never ends
    | none => []
  | .imrawevent _ => []

/-- `imevent::write`. -/
def writeHeader (type : ImEventType) (e : ImEvent) : Str :=
  if type = .imeventtype_size then []
  else
    [ff, lf] ++ sdirection e.direction ++ [lf] ++ seventtype type ++ [lf] ++
      decimalInt e.timestamp.toInt ++ [lf] ++ decimalInt e.senttimestamp.toInt ++ [lf]

/-- `write`: the text appended to the file for an event. -/
def ImEvent.write (e : ImEvent) : Str := writeHeader e.gettype e ++ e.body.write

/-- Events one after another, as they are appended to one file. -/
def writeAll (es : List ImEvent) : Str := es.flatMap ImEvent.write

end CenterIM.Event

import CenterIM.Event

/-!
# The captcha for unknown contacts

The table of contacts that were asked a question, and the part of `imeventmanager::store`
that lets an event of an unknown contact through after a correct answer only.
-/
namespace CenterIM.Captcha
open ByteText StrText Contact Event

/-- `question_t`. -/
structure Question where
  question : Str
  answers : List Str
  deriving Repr

/-- `captchaasked_t`. The answers are those of the question asked; it does not change. -/
structure Asked where
  expiry : Int64
  answers : List Str

instance : StrictWeak ImContact.lt where
  irrefl _ := rfl
  trans h := by simp [ImContact.lt] at h
  split _ h := by simp [ImContact.lt] at h

/-- `captchas_t`, a map whose keys are compared with `imcontact::operator <`. -/
abbrev Captchas := OrderedMap ImContact Asked ImContact.lt

/-- `captcha::docaptcha`. -/
def docaptcha (m : Captchas) (c : ImContact) : Bool := (m.find? c).isSome

/-- `captcha::donecaptcha`. -/
def donecaptcha (m : Captchas) (c : ImContact) : Captchas := m.erase c

/-- `captcha::checkcaptcha`. -/
def checkcaptcha (m : Captchas) (c : ImContact) (answer : Str) (now : Int64) : Bool × Captchas :=
  match m.find? c with
  | some ca =>
    if ca.expiry < now then (false, m.erase c)
    else (decide (lo answer ∈ ca.answers), m)
  | none => (false, m)

structure Questions where
  questions : List Question
  captchatimeout : UInt32

/-- What `rand` chooses. -/
abbrev Questions.Choice (qs : Questions) := Fin qs.questions.length

variable (qs : Questions)

/-- `captcha::getcaptchaquestion`. -/
def getcaptchaquestion (m : Captchas) (c : ImContact) (choice : qs.Choice) (now : Int64) :
    Str × Captchas :=
  let t := qs.questions.get choice
  let ca : Asked := ⟨(qs.captchatimeout * 60).toUInt64.toInt64 + now, t.answers⟩
  (t.question, m.set c ca)

inductive Op where
  | docaptcha
  | checkcaptcha (answer : Str) (now : Int64)
  | getcaptchaquestion (choice : qs.Choice) (now : Int64)
  | donecaptcha

inductive Answer where
  | verdict (r : Bool)
  | question (q : Str)
  | done
  deriving DecidableEq

variable {qs}

def step (m : Captchas) (c : ImContact) : Op qs → Answer × Captchas
  | .docaptcha => (.verdict (docaptcha m c), m)
  | .checkcaptcha answer now =>
    let r := checkcaptcha m c answer now
    (.verdict r.1, r.2)
  | .getcaptchaquestion choice now =>
    let r := getcaptchaquestion qs m c choice now
    (.question r.1, r.2)
  | .donecaptcha => (.done, donecaptcha m c)

/-- The answers of a sequence of operations. -/
def run (m : Captchas) : List (ImContact × Op qs) → List (ImContact × Answer)
  | [] => []
  | (c, op) :: ops => (c, (step m c op).1) :: run (step m c op).2 ops

/-- The settings that `store` looks at for an unknown contact. -/
structure Admission where
  antispam : Bool
  dropauthreq : Bool
  usingcaptcha : Bool

variable (qs) in
/-- What becomes of an incoming event of a contact that is not in the list: whether the
contact stays in the list, the table, and the question that the contact is asked. The
clock is read once for the check and once for the question. -/
def storeUnknown (conf : Admission) (m : Captchas) (ev : ImEvent) (choice : qs.Choice)
    (now later : Int64) : Bool × Captchas × Option qs.Choice :=
  let proceed := !conf.antispam || (ev.gettype == .authorization && !conf.dropauthreq) ||
    conf.usingcaptcha
  if proceed then
    if conf.usingcaptcha && ev.contact.pname != .irc then
      if !docaptcha m ev.contact then
        (false, (getcaptchaquestion qs m ev.contact choice later).2, some choice)
      else
        let r := checkcaptcha m ev.contact ev.gettext now
        if r.1 then (true, donecaptcha r.2 ev.contact, none)
        else (false, (getcaptchaquestion qs r.2 ev.contact choice later).2, some choice)
    else (true, m, none)
  else (false, m, none)

end CenterIM.Captcha

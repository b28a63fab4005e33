import CenterIM.StrText

/-!
# Contacts

`imcontact`: a protocol with an account number or a nickname, the comparisons of
contacts, and the letters that stand for the protocols in file names and lists.
-/
namespace CenterIM.Contact
open ByteText StrText

/-- `protocolname`, with the member that counts the others last. -/
inductive ProtocolName
  | icq
  | yahoo
  | msn
  | aim
  | irc
  | jabber
  | rss
  | livejournal
  | gadu
  | infocard
  | protocolname_size
  deriving DecidableEq, Repr

/-- `imstatus`, with the member that counts the others last. -/
inductive ImStatus
  | offline
  | available
  | invisible
  | freeforchat
  | dontdisturb
  | occupied
  | notavail
  | away
  | outforlunch
  | imstatus_size
  deriving DecidableEq, Repr

structure ImContact where
  nickname : Str
  uin : UInt64
  pname : ProtocolName
  deriving DecidableEq, Repr

/-- `imcontact(auin, apname)`. -/
def ImContact.ofUin (auin : UInt64) (apname : ProtocolName) : ImContact := ⟨[], auin, apname⟩

/-- `imcontact(anick, apname)`. -/
def ImContact.ofNick (anick : Str) (apname : ProtocolName) : ImContact := ⟨anick, 0, apname⟩

/-- `contactroot`. -/
def contactroot : ImContact := ImContact.ofUin 0 .icq

/-- `imcontact::operator ==`. -/
def ImContact.eq (c ainfo : ImContact) : Bool :=
  let r := decide (ainfo.uin = c.uin) && decide (ainfo.pname = c.pname)
  if r then
    match c.pname with
    | .aim => r && decide (up (stripspaces ainfo.nickname) = up (stripspaces c.nickname))
    | .irc | .yahoo | .jabber => r && decide (up ainfo.nickname = up c.nickname)
    | _ => r && decide (ainfo.nickname = c.nickname)
  else r

/-- `imcontact::operator <`, which tells no two contacts apart. -/
def ImContact.lt (_c _ainfo : ImContact) : Bool := false

/-- `icqconf::getprotocolprefix`; the array has no element for the count. -/
def getprotocolprefix : ProtocolName → Str
  | .icq => []
  | .yahoo => bytes "y"
  | .msn => bytes "m"
  | .aim => bytes "a"
  | .irc => bytes "i"
  | .jabber => bytes "j"
  | .rss => bytes "r"
  | .livejournal => bytes "l"
  | .gadu => bytes "g"
  | .infocard => bytes "n"
  | .protocolname_size => []

/-- `icqconf::getprotocolbyletter`. -/
def getprotocolbyletter (letter : Byte) : ProtocolName :=
  if letter = 121 then .yahoo
  else if letter = 97 then .aim
  else if letter = 105 then .irc
  else if letter = 109 then .msn
  else if letter = 110 then .infocard
  else if letter = 106 then .jabber
  else if letter = 114 then .rss
  else if letter = 108 then .livejournal
  else if letter = 103 then .gadu
  else if Decimal.isdigit letter then .icq
  else .protocolname_size

/-- The part of a nickname that counts when contacts of a protocol are compared. -/
def nickKey (pname : ProtocolName) (nick : Str) : Str :=
  match pname with
  | .aim => up (stripspaces nick)
  | .irc | .yahoo | .jabber => up nick
  | _ => nick

/-- The part of a contact that counts in comparisons. -/
def ImContact.key (c : ImContact) : ProtocolName × UInt64 × Str :=
  (c.pname, c.uin, nickKey c.pname c.nickname)

theorem eq_iff_key (a b : ImContact) : a.eq b = true ↔ a.key = b.key := by
  obtain ⟨nick, uin, pname⟩ := a
  obtain ⟨nick', uin', pname'⟩ := b
  by_cases h : uin' = uin ∧ pname' = pname
  · obtain ⟨rfl, rfl⟩ := h
    cases pname' <;> simp [ImContact.eq, ImContact.key, nickKey, eq_comm]
  · have hr : (decide (uin' = uin) && decide (pname' = pname)) = false := by
      simpa using h
    simp only [ImContact.eq, hr, Bool.false_eq_true, if_false, ImContact.key, Prod.mk.injEq, false_iff]
    rintro ⟨rfl, rfl, -⟩
    exact h ⟨rfl, rfl⟩

@[simp] theorem eq_refl (a : ImContact) : a.eq a = true := (eq_iff_key a a).mpr rfl

theorem eq_comm' (a b : ImContact) : a.eq b = b.eq a :=
  Bool.eq_iff_iff.mpr (by rw [eq_iff_key, eq_iff_key, eq_comm])

theorem eq_trans {a b c : ImContact} (hab : a.eq b = true) (hbc : b.eq c = true) :
    a.eq c = true := by
  rw [eq_iff_key] at *
  exact hab.trans hbc

theorem eq_congr {a b : ImContact} (h : a.eq b = true) (c : ImContact) : a.eq c = b.eq c :=
  Bool.eq_iff_iff.mpr (by rw [eq_iff_key, eq_iff_key, (eq_iff_key a b).mp h])

/-- A protocol other than ICQ is found again by the letter that stands for it. -/
theorem getprotocolbyletter_prefix {p : ProtocolName} {d : Byte}
    (h : getprotocolprefix p = [d]) : getprotocolbyletter d = p := by
  cases p <;> simp only [ getprotocolprefix, bytes] at h <;>
    first
    | (obtain rfl := List.singleton_injective h; decide)
    | exact absurd h (by simp)

theorem getprotocolbyletter_digit {d : Byte} (h : Decimal.isdigit d = true) :
    getprotocolbyletter d = .icq := by
  have hd := (Decimal.isdigit_iff d).mp h
  unfold getprotocolbyletter
  have hne : ∀ e : Byte, 57 < e.toNat → d ≠ e := by
    rintro e he rfl
    omega
  simp [hne, h]

end CenterIM.Contact

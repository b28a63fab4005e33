import CenterIM.Contact

/-!
# The directories of contacts

`icqcontact::getdirname` makes a name of a contact, and `icqcontacts::load` a contact of a
name, telling the protocol from its first character. Numbers are written as signed ones.
-/
namespace CenterIM.ContactDirectory
open ByteText Decimal StrText Contact

/-- `icqcontacts::get`, as a place in the list. -/
def get (clist : List ImContact) (cinfo : ImContact) : Option ℕ :=
  clist.findIdx? fun desc => desc.eq cinfo

def numbered : ProtocolName → Bool
  | .icq | .infocard | .rss | .gadu => true
  | _ => false

/-- `icqcontact::getdirname`, without the directory that all of them are in. -/
def getdirname (cdesc : ImContact) : Str :=
  getprotocolprefix cdesc.pname ++
    if numbered cdesc.pname then i2str cdesc.uin.toUInt32.toInt32 else cdesc.nickname

/-- The number that an `imcontact` gets from `atol`. -/
def atol (s : Str) : UInt64 := (Int64.ofInt (strtol s)).toUInt64

/-- The loop of the constructor over the numbers 1, 2, ... up to one that no file has. -/
def freeNumber (files : List Str) (pname : ProtocolName) : UInt64 :=
  match (List.range (files.length + 1)).find? fun i =>
      decide ( getprotocolprefix pname ++ decimal (i + 1) ∉ files) with
  | some i => UInt64.ofNat (i + 1)
  | none => 0

/-- The contact that `icqcontact(adesc)` is for. -/
def construct (files : List Str) (adesc : ImContact) : ImContact :=
  if (adesc.pname = .infocard ∨ adesc.pname = .rss) ∧ adesc.uin = 0 then
    { adesc with uin := freeNumber files adesc.pname }
  else adesc

/-- The contact that `load` makes for a directory, if there is one. -/
def descOf (files : List Str) (dname : Str) : Option ImContact :=
  let pname := getprotocolbyletter (dname.headD nul)
  match pname with
  | .icq => some (construct files (.ofUin (atol dname) pname))
  | .infocard | .rss | .gadu => some (construct files (.ofUin (atol dname.tail) pname))
  | .protocolname_size => none
  | _ => some (construct files (.ofNick dname.tail pname))

/-- One round of the loop of `load`. -/
def loadDirectory (files : List Str) (clist : List ImContact) (dname : Str) : List ImContact :=
  match descOf files dname with
  | none => clist
  | some c => if (get clist c).isNone then clist ++ [c] else clist

/-- `icqcontacts::load` with these directories, in the order in which they are read. -/
def load (files : List Str) : List ImContact :=
  let clist := files.foldl (loadDirectory files) []
  if (get clist contactroot).isNone then clist ++ [contactroot] else clist

/-- The contacts of a protocol: one with numbers has 32 bits for them, one with nicknames no
slash in them. -/
def Valid (cdesc : ImContact) : Prop :=
  cdesc.pname ≠ .protocolname_size ∧
    if numbered cdesc.pname then cdesc.nickname = [] ∧ cdesc.uin ≠ 0 ∧ cdesc.uin.toNat < 2 ^ 32
    else cdesc.uin = 0 ∧ cdesc.nickname ≠ [] ∧ 47 ∉ cdesc.nickname

instance (cdesc : ImContact) : Decidable (Valid cdesc) := by
  unfold Valid
  infer_instance

/-- The directory of the contact is loaded as one that is equal to it. -/
def RoundTrip (cdesc : ImContact) : Prop :=
  ∃ c ∈ load [cstr (getdirname cdesc)], c.eq cdesc = true

/-- The number is not negative when it is taken for a signed one; the nickname has no NUL. -/
def Readable (cdesc : ImContact) : Prop :=
  if numbered cdesc.pname then cdesc.uin.toNat < 2 ^ 31 else nul ∉ cdesc.nickname

instance (cdesc : ImContact) : Decidable (Readable cdesc) := by
  unfold Readable
  infer_instance

theorem toInt_signed (u : UInt32) :
    u.toInt32.toInt = if 2 * u.toNat < 2 ^ 32 then (u.toNat : ℤ) else u.toNat - 2 ^ 32 := by
  have h := BitVec.toInt_eq_toNat_cond u.toBitVec
  rw [UInt32.toNat_toBitVec] at h
  exact_mod_cast h

theorem signed_small {uin : UInt64} (h : uin.toNat < 2 ^ 31) :
    uin.toUInt32.toInt32.toInt = uin.toNat := by
  have hn : uin.toUInt32.toNat = uin.toNat := by
    rw [UInt64.toNat_toUInt32]
    omega
  rw [toInt_signed, hn, if_pos (by omega)]

theorem signed_large {uin : UInt64} (h : 2 ^ 31 ≤ uin.toNat) (h' : uin.toNat < 2 ^ 32) :
    uin.toUInt32.toInt32.toInt = uin.toNat - 2 ^ 32 := by
  have hn : uin.toUInt32.toNat = uin.toNat := by
    rw [UInt64.toNat_toUInt32]
    omega
  rw [toInt_signed, hn, if_neg (by omega)]

theorem atol_decimalInt {z : ℤ} (hlo : -2 ^ 63 ≤ z) (hhi : z < 2 ^ 63) :
    atol (decimalInt z) = (Int64.ofInt z).toUInt64 := by
  rw [atol, strtol_decimalInt hlo hhi]

theorem atol_small {uin : UInt64} (h : uin.toNat < 2 ^ 31) :
    atol (i2str uin.toUInt32.toInt32) = uin := by
  rw [i2str, signed_small h, atol_decimalInt (by omega) (by omega), Int64.ofInt_eq_ofNat,
    Int64.toUInt64_ofNat', UInt64.ofNat_toNat]

/-- A number that is written as a negative one is read as one of 64 bits. -/
theorem atol_large {uin : UInt64} (h : 2 ^ 31 ≤ uin.toNat) (h' : uin.toNat < 2 ^ 32) :
    2 ^ 32 ≤ (atol (i2str uin.toUInt32.toInt32)).toNat := by
  have hz : (uin.toNat : ℤ) - 2 ^ 32 = -((2 ^ 32 - uin.toNat : ℕ) : ℤ) := by omega
  rw [i2str, signed_large h h', atol_decimalInt (by omega) (by omega), hz, Int64.ofInt_neg,
    Int64.toUInt64_neg, Int64.ofInt_eq_ofNat, Int64.toUInt64_ofNat', UInt64.toNat_neg,
    UInt64.toNat_ofNat', UInt64.size]
  omega

section Names

variable {pname : ProtocolName} (files : List Str)

theorem descOf_nick (hn : numbered pname = false) (hp : pname ≠ .protocolname_size) (nick : Str) :
    descOf files ( getprotocolprefix pname ++ nick) = some (.ofNick nick pname) := by
  cases pname <;> simp_all [numbered] <;> rfl

/-- The number is read after the letter, where the protocol has one. -/
theorem descOf_number (hn : numbered pname = true) {number : Str}
    (h0 : pname = .infocard ∨ pname = .rss → atol number ≠ 0)
    (hd : pname = .icq → isdigit (number.headD nul) = true) :
    descOf files ( getprotocolprefix pname ++ number) = some (.ofUin (atol number) pname) := by
  have hc : construct files (.ofUin (atol number) pname) = .ofUin (atol number) pname := by
    rw [construct, if_neg]
    rintro ⟨hp, h⟩
    exact h0 hp h
  cases pname
  case icq =>
    have hl := getprotocolbyletter_digit (hd rfl)
    simp only [descOf, getprotocolprefix, List.nil_append, hl, hc]
  case rss => exact congrArg some hc
  case gadu => exact congrArg some hc
  case infocard => exact congrArg some hc
  all_goals simp [numbered] at hn

theorem nul_not_mem_prefix : nul ∉ getprotocolprefix pname := by
  cases pname <;> decide

theorem cstr_nick (nick : Str) :
    cstr ( getprotocolprefix pname ++ nick) = getprotocolprefix pname ++ cstr nick :=
  List.takeWhile_append_of_pos fun c hc => by
    have hne : c ≠ nul := fun h => nul_not_mem_prefix (h ▸ hc)
    simpa using hne

end Names

/-- With one directory the contact it is for is loaded, and maybe the user's own one. -/
theorem mem_load {dname : Str} {c : ImContact} (hc : c ∈ load [dname]) :
    descOf [dname] dname = some c ∨ c = contactroot := by
  have hone : [dname].foldl (loadDirectory [dname]) [] = (descOf [dname] dname).toList := by
    cases hd : descOf [dname] dname <;> simp [loadDirectory, hd, ContactDirectory.get]
  simp only [load, hone] at hc
  split_ifs at hc
  · rcases List.mem_append.mp hc with hc | hc
    · exact Or.inl (by simpa using hc)
    · exact Or.inr (List.mem_singleton.mp hc)
  · exact Or.inl (by simpa using hc)

theorem load_mem {dname : Str} {c : ImContact} (hc : descOf [dname] dname = some c) :
    c ∈ load [dname] := by
  have hone : [dname].foldl (loadDirectory [dname]) [] = [c] := by simp [loadDirectory, hc, ContactDirectory.get]
  simp only [load, hone]
  split_ifs <;> simp

theorem roundTrip_descOf {cdesc : ImContact} (h : Valid cdesc) :
    RoundTrip cdesc ↔ ∃ c, descOf [cstr (getdirname cdesc)] (cstr (getdirname cdesc)) = some c ∧
      c.eq cdesc = true := by
  have hroot : ¬ contactroot.eq cdesc = true := by
    rw [eq_iff_key]
    intro hk
    simp only [ImContact.key, Prod.mk.injEq] at hk
    have hn : numbered cdesc.pname = true := by rw [← hk.1]; rfl
    have hv := h.2
    rw [if_pos hn] at hv
    exact hv.2.1 hk.2.1.symm
  constructor
  · rintro ⟨c, hc, he⟩
    rcases mem_load hc with hd | rfl
    · exact ⟨c, hd, he⟩
    · exact absurd he hroot
  · rintro ⟨c, hc, he⟩
    exact ⟨c, load_mem hc, he⟩

theorem toupper_eq_nul : ∀ c : Byte, toupper c = nul → c = nul := by
  decide +kernel

theorem mem_nickKey {p : ProtocolName} {nick : Str} : nul ∈ nickKey p nick ↔ nul ∈ nick := by
  have hu : ∀ s : Str, nul ∈ up s ↔ nul ∈ s := by
    intro s
    simp only [up, List.mem_map]
    constructor
    · rintro ⟨c, hc, hcn⟩
      exact toupper_eq_nul c hcn ▸ hc
    · exact fun h => ⟨nul, h, by decide⟩
  have hs : nul ∈ stripspaces nick ↔ nul ∈ nick := by simp [stripspaces, nul, blank]
  cases p <;> simp [nickKey, hu, hs]

theorem key_ofUin {cdesc : ImContact} (uin : UInt64) (hnick : cdesc.nickname = []) :
    (ImContact.ofUin uin cdesc.pname).eq cdesc = true ↔ uin = cdesc.uin := by
  simp [eq_iff_key, ImContact.key, ImContact.ofUin, hnick]

theorem key_ofNick {cdesc : ImContact} (nick : Str) (huin : cdesc.uin = 0) :
    (ImContact.ofNick nick cdesc.pname).eq cdesc = true ↔
      nickKey cdesc.pname nick = nickKey cdesc.pname cdesc.nickname := by
  simp [eq_iff_key, ImContact.key, ImContact.ofNick, huin]

theorem getdirname_number {cdesc : ImContact} (hn : numbered cdesc.pname = true) :
    cstr (getdirname cdesc) =
      getprotocolprefix cdesc.pname ++ i2str cdesc.uin.toUInt32.toInt32 := by
  rw [getdirname, if_pos hn, cstr_nick, i2str, cstr_eq_self (decimalInt_plain _).2]

theorem getdirname_nick {cdesc : ImContact} (hn : numbered cdesc.pname = false) :
    cstr (getdirname cdesc) = getprotocolprefix cdesc.pname ++ cstr cdesc.nickname := by
  rw [getdirname, if_neg (by simp [hn]), cstr_nick]

theorem roundTrip_number {cdesc : ImContact} (h : Valid cdesc)
    (hn : numbered cdesc.pname = true) : RoundTrip cdesc ↔ cdesc.uin.toNat < 2 ^ 31 := by
  have hv := h.2
  rw [if_pos hn] at hv
  obtain ⟨hnick, h0, h32⟩ := hv
  rw [roundTrip_descOf h, getdirname_number hn]
  by_cases hs : cdesc.uin.toNat < 2 ^ 31
  · have ha := atol_small hs
    have hdigit : isdigit ((i2str cdesc.uin.toUInt32.toInt32).headD nul) = true := by
      obtain ⟨c, t, hct, hc⟩ := decimal_cons cdesc.uin.toNat
      rw [i2str, signed_small hs, decimalInt_natCast, hct]
      exact hc
    rw [descOf_number _ hn (by simpa [ha] using fun _ => h0) fun _ => hdigit, ha]
    exact iff_of_true ⟨_, rfl, (key_ofUin _ hnick).mpr rfl⟩ hs
  · have hl := atol_large (not_lt.mp hs) h32
    refine iff_of_false ?_ hs
    rintro ⟨c, hc, he⟩
    by_cases hicq : cdesc.pname = .icq
    · have hneg : ∃ t, i2str cdesc.uin.toUInt32.toInt32 = 45 :: t := by
        rw [i2str, signed_large (not_lt.mp hs) h32, decimalInt, if_pos (by omega)]
        exact ⟨_, rfl⟩
      obtain ⟨t, ht⟩ := hneg
      rw [hicq, ht] at hc
      cases hc
    · rw [descOf_number _ hn (fun _ h0 => by simp [h0] at hl) fun h => absurd h hicq] at hc
      obtain rfl := Option.some.inj hc
      rw [key_ofUin _ hnick] at he
      rw [he] at hl
      omega

theorem roundTrip_nick {cdesc : ImContact} (h : Valid cdesc)
    (hn : numbered cdesc.pname = false) : RoundTrip cdesc ↔ nul ∉ cdesc.nickname := by
  have hv := h.2
  rw [if_neg (by simp [hn])] at hv
  rw [roundTrip_descOf h, getdirname_nick hn, descOf_nick _ hn h.1]
  simp only [Option.some.injEq, exists_eq_left', key_ofNick _ hv.1]
  constructor
  · intro hk hnul
    rw [← mem_nickKey (p := cdesc.pname), ← hk, mem_nickKey] at hnul
    exact nul_not_mem_cstr _ hnul
  · intro hnul
    rw [cstr_eq_self hnul]

/-- What comes back is the contact unless its number is negative as a signed one or its
nickname has a NUL, and then no directory is that of two contacts. -/
theorem directory_round_trip (cdesc : ImContact) (h : Valid cdesc) :
    (RoundTrip cdesc ↔ Readable cdesc) ∧
      ∀ other, Valid other → Readable cdesc → Readable other →
        cstr (getdirname cdesc) = cstr (getdirname other) → cdesc.eq other = true := by
  have hrt : ∀ d, Valid d → (RoundTrip d ↔ Readable d) := by
    intro d hd
    cases hn : numbered d.pname with
    | true => rw [roundTrip_number hd hn, Readable, if_pos hn]
    | false => rw [roundTrip_nick hd hn, Readable, if_neg (by simp [hn])]
  refine ⟨hrt cdesc h, ?_⟩
  intro other ho hr hro hdir
  obtain ⟨c, hc, he⟩ := (roundTrip_descOf h).mp ((hrt cdesc h).mpr hr)
  obtain ⟨c', hc', he'⟩ := (roundTrip_descOf ho).mp ((hrt other ho).mpr hro)
  rw [hdir, hc'] at hc
  obtain rfl := Option.some.inj hc
  rw [eq_comm'] at he
  exact eq_trans he he'

theorem directory_round_trip_plain :
    RoundTrip (.ofUin 12345678 .icq) ∧ RoundTrip (.ofNick (bytes "bob") .jabber) ∧
      ∀ other, Valid other → Readable other →
        cstr (getdirname (.ofNick (bytes "bob") .jabber)) = cstr (getdirname other) →
          (ImContact.ofNick (bytes "bob") .jabber).eq other = true := by
  obtain ⟨hbob, heq⟩ := directory_round_trip (.ofNick (bytes "bob") .jabber) (by decide)
  exact ⟨(directory_round_trip _ (by decide)).1.mpr (by decide), hbob.mpr (by decide),
    fun other ho hr => heq other ho (by decide) hr⟩

/-- An ICQ number of 32 bits with the highest bit set makes a directory that `load` skips. -/
theorem directory_not_loaded :
    Valid (.ofUin 4000000000 .icq) ∧ ¬ RoundTrip (.ofUin 4000000000 .icq) := by
  have hv : Valid (.ofUin 4000000000 .icq) := by decide
  refine ⟨hv, ?_⟩
  rw [roundTrip_number hv rfl]
  decide

end CenterIM.ContactDirectory

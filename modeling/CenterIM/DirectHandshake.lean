import CenterIM.DirectCipher
import CenterIM.ExpiryCache
import CenterIM.PacketLayout

/-!
# Direct connections

Two clients that connect directly exchange three kinds of packets before any message. Until then
the messages for the peer wait in a queue, and when the connection ends they are reported as not
delivered. Every packet begins with its length in two bytes; the receiving side reads four.
What becomes of a decrypted packet is left open, and so is a `send` that fails.
-/
namespace CenterIM.DirectHandshake
open ByteText PacketBuffer PacketLayout DirectCipher ExpiryCache

inductive State
  | NOT_CONNECTED | WAITING_FOR_INIT | WAITING_FOR_INIT_ACK | WAITING_FOR_INIT2 | CONNECTED
  deriving DecidableEq

inductive Exception
  | parse (what : String) | disconnected (what : String) | crash
  deriving DecidableEq

def Incoming_Packet_Limit : UInt32 := 65535

abbrev V6_TCP_START : UInt16 := 0x07ee
abbrev V6_TCP_ACK : UInt16 := 0x07da
abbrev V6_TCP_CANCEL : UInt16 := 0x07d0

structure DirectClient where
  state : State
  incoming : Bool
  recv : Buffer := {}
  remote_tcp_version : UInt16 := 0
  eff_tcp_version : ℕ := 0
  remote_uin : UInt32 := 0
  tcp_flags : Byte := 0
  session_id : UInt32 := 0
  /-- The contact that the connection is to, by its number. -/
  contact : Option UInt32 := none
  msgcache : Cache UInt16 ℕ := { timeout := 30 }
  msgqueue : List ℕ := []
  seqnum : UInt16 := 0xffff
  /-- What went out on the socket, how often `connected` was signalled, which messages were handed
  over, and which were reported as not delivered. -/
  sent : List Str := []
  connects : ℕ := 0
  given : List ℕ := []
  acks : List ℕ := []
  gone : Bool := false

/-- What the client knows of itself and its contacts, and what is left open. -/
structure World where
  self_uin : UInt32
  local_ext_ip : UInt32
  local_ip : UInt32
  local_server_port : UInt16
  peer_ip : UInt32
  /-- The external and the local address of the contacts. -/
  contact_list : UInt32 → Option (UInt32 × UInt32)
  /-- The message as it is packed, if there is a way to. -/
  handleOutgoing : ℕ → Option Str
  rand : UInt16 → ℕ × ℕ
  ParsePacketInt : DirectClient → Buffer → DirectClient × Option Exception

namespace DirectClient

variable (w : World) (c : DirectClient)

/-- The constructor for an incoming connection; neither constructor sets the version. -/
def accept (eff_tcp_version : ℕ) : DirectClient :=
  { state := .WAITING_FOR_INIT, incoming := true, eff_tcp_version }

/-- The constructor for an outgoing connection. -/
def outgoing (eff_tcp_version : ℕ) (uin : UInt32) : DirectClient :=
  { state := .NOT_CONNECTED, incoming := false, contact := some uin, remote_uin := uin,
    eff_tcp_version }

def andThen (r : DirectClient × Option Exception)
    (f : DirectClient → DirectClient × Option Exception) : DirectClient × Option Exception :=
  if r.2.isNone then f r.1 else r

def Send (b : Buffer) : DirectClient := { c with sent := c.sent ++ [b.data] }

def initPacket : Items :=
  .field (.order .LITTLE) <| .sized .short
    (.field (.char 0xff) <| .field (.short 0x0007) <| .sized .short
      (.field (.int c.remote_uin) <| .field (.short 0) <|
        .field (.int w.local_server_port.toUInt32) <| .field (.int w.self_uin) <|
        .field (.order .BIG) <| .field (.int w.local_ext_ip) <| .field (.int w.local_ip) <|
        .field (.char 4) <| .field (.order .LITTLE) <|
        .field (.int w.local_server_port.toUInt32) <| .field (.int c.session_id) <|
        .field (.int 0x50) <| .field (.int 3) <|
        if c.eff_tcp_version = 7 then .field (.int 0) .done else .done)
      .done)
    .done

def SendInitPacket : DirectClient := c.Send ((c.initPacket w).write {})

def SendInitAck : DirectClient :=
  c.Send ((Items.field (.order .LITTLE) <| .sized .short (.field (.int 1) .done) .done).write {})

def SendInit2 : DirectClient :=
  c.Send ((Items.field (.order .LITTLE) <| .sized .short
    (.field (.char 3) <| .field (.int 0xa) <| .field (.int 1) <|
      .field (.int (if c.incoming then 1 else 0)) <| .field (.int 0) <| .field (.int 0) <|
      if c.incoming then
        .field (.int 0x00040001) <| .field (.int 0) <| .field (.int 0) .done
      else .field (.int 0) <| .field (.int 0) <| .field (.int 0x00040001) .done)
    .done).write {})

def ParseInitPacket (b : Buffer) : DirectClient × Option Exception :=
  let b := b.setEndianness .LITTLE
  let (_, b) := b.getShort
  let (start_byte, b) := b.getChar
  if start_byte ≠ 0xff then (c, some (.parse "Init Packet didn't start with 0xff"))
  else
    let (tcp_version, b) := b.getShort
    let b := b.advance 2
    let c := if c.incoming then { c with remote_tcp_version := tcp_version } else c
    if c.incoming ∧ tcp_version ≤ 5 then (c, some (.parse "Too old client < ICQ99"))
    else if ¬ c.incoming ∧ tcp_version ≠ c.remote_tcp_version then
      (c, some (.parse "Client claiming different TCP versions"))
    else
      let c := if c.incoming then
          { c with eff_tcp_version := if tcp_version = 6 then 6 else 7 }
        else c
      let (our_uin, b) := b.getInt
      if our_uin ≠ w.self_uin then
        (c, some (.parse "Local UIN in Init Packet not same as our Local UIN"))
      else
        let b := b.advance 6
        let (remote_uin, b) := b.getInt
        if ¬ c.incoming ∧ c.remote_uin ≠ remote_uin then
          (c, some (.parse "Remote UIN in Init Packet for Remote Client not what was expected"))
        else
          let c := { c with remote_uin := remote_uin }
          let b := b.advance 8
          let (tcp_flags, b) := b.getChar
          let c := { c with tcp_flags := tcp_flags }
          let b := b.advance 4
          let (session_id, _) := b.getInt
          if ¬ c.incoming ∧ c.session_id ≠ session_id then
            (c, some (.parse "Session ID from Remote Client doesn't match the one we sent"))
          else ({ c with session_id := session_id }, none)

def ParseInitAck (b : Buffer) : DirectClient × Option Exception :=
  let (length, _) := (b.setEndianness .LITTLE).getShort
  if length ≠ 4 then (c, some (.parse "Init Ack not as expected")) else (c, none)

def ParseInit2 (b : Buffer) : DirectClient × Option Exception :=
  let (length, b) := (b.setEndianness .LITTLE).getShort
  if length ≠ 0x0021 then (c, some (.parse "V7 final handshake packet incorrect length"))
  else
    let (type, _) := b.getChar
    if type ≠ 0x03 then
      (c, some (.parse "Expecting V7 final handshake packet, received something else"))
    else (c, none)

def ParsePacket (b : Buffer) : DirectClient × Option Exception :=
  match Decrypt c.eff_tcp_version b with
  | .accepted out => w.ParsePacketInt c out
  | .rejected => (c, some (.parse "Decrypting failed"))
  | .overread => (c, some .crash)
  | .hangs => (c, some .crash)

def ConfirmUIN : DirectClient × Option Exception :=
  match w.contact_list c.remote_uin with
  | none => (c, some (.disconnected "Refusing direct connection to contact not on contact list"))
  | some (ext_ip, lan_ip) =>
    if (ext_ip = w.local_ext_ip ∧ lan_ip = w.peer_ip) ∨ ext_ip = w.peer_ip then
      ({ c with contact := some c.remote_uin }, none)
    else (c, some (.disconnected "Refusing direct connection"))

/-- A command with what it is about as it is packed, encrypted. `Encrypt` makes nothing of it for
a version that is neither 6 nor 7. -/
def packet (version : ℕ) (command seqnum : UInt16) (ist : Str) : Option Buffer :=
  let b := (Items.field (.order .LITTLE) <| .field (.int 0) <| .field (.short command) <|
    .field (.short 0x000e) <| .field (.short seqnum) <| .field (.int 0) <| .field (.int 0) <|
    .field (.int 0) <| .field (.raw ist) .done).write {}
  if version = 6 ∨ version = 7 then Encrypt version (w.rand seqnum).1 (w.rand seqnum).2 b
  else some {}

/-- A message is packed, encrypted and sent; `now` is when. -/
def SendPacketEvent (now : ℤ) (ev : ℕ) : DirectClient :=
  let seqnum := c.seqnum
  let c := { c with seqnum := seqnum - 1 }
  match w.handleOutgoing ev with
  | none => c
  | some ist =>
    match packet w c.eff_tcp_version V6_TCP_START seqnum ist with
    | none => c
    | some e => { c.Send e with msgcache := c.msgcache.insert now seqnum ev }

/-- What `SendPacketAck` and `SendFTCancel` send, in whatever state the connection is. -/
def SendCommand (command seqnum : UInt16) (ist : Str) : DirectClient :=
  match packet w c.eff_tcp_version command seqnum ist with
  | none => c
  | some e => c.Send e

/-- `while (m_msgcache.exists(seqnum)) m_msgcache.remove(seqnum)`. -/
def removeWhile (seqnum : UInt16) : ℕ → Cache UInt16 ℕ → Cache UInt16 ℕ
  | 0, m => m
  | n + 1, m => if (m.lookup seqnum).isSome then removeWhile seqnum n (m.remove seqnum) else m

def SendFTACK (seqnum : UInt16) (ist : Str) : DirectClient :=
  { c.SendCommand w V6_TCP_ACK seqnum ist with
    msgcache := removeWhile seqnum c.msgcache.list.length c.msgcache }

def SendFTCancel (seqnum : UInt16) (ist : Str) : DirectClient :=
  { c.SendCommand w V6_TCP_CANCEL seqnum ist with msgcache := c.msgcache.remove seqnum }

def flush_queue (now : ℤ) : DirectClient :=
  { c.msgqueue.foldl (fun c ev => SendPacketEvent w c now ev) c with msgqueue := [] }

def connect (now : ℤ) : DirectClient :=
  let c := flush_queue w { c with state := .CONNECTED } now
  { c with connects := c.connects + 1 }

def handle (now : ℤ) (sb : Buffer) : DirectClient × Option Exception :=
  match c.state with
  | .WAITING_FOR_INIT =>
    andThen (c.ParseInitPacket w sb) fun c =>
      if c.incoming then
        ({ c.SendInitAck.SendInitPacket w with state := .WAITING_FOR_INIT_ACK }, none)
      else
        let c := c.SendInitAck
        if c.eff_tcp_version = 7 then ({ c.SendInit2 with state := .WAITING_FOR_INIT2 }, none)
        else (c.connect w now, none)
  | .WAITING_FOR_INIT_ACK =>
    andThen (c.ParseInitAck sb) fun c =>
      if c.incoming then
        if c.eff_tcp_version = 7 then ({ c with state := .WAITING_FOR_INIT2 }, none)
        else andThen (c.ConfirmUIN w) fun c => (c.connect w now, none)
      else ({ c with state := .WAITING_FOR_INIT }, none)
  | .WAITING_FOR_INIT2 =>
    andThen (c.ParseInit2 sb) fun c =>
      if c.incoming then andThen (c.SendInit2.ConfirmUIN w) fun c => (c.connect w now, none)
      else (c.connect w now, none)
  | .CONNECTED => c.ParsePacket w sb
  | .NOT_CONNECTED => (c, none)

/-- `Parse`: a packet is taken off the buffer with two bytes more than its length says, and the
length is read as an int. -/
def parse (now : ℤ) : ℕ → DirectClient → DirectClient × Option Exception
  | 0, c => (c, none)
  | n + 1, c =>
    if c.recv.empty then (c, none)
    else
      let r := (c.recv.setPos 0).setEndianness .LITTLE
      let (length, r) := r.getInt
      if length = 0 then ({ c with recv := r }, none)
      else if length > Incoming_Packet_Limit then
        ({ c with recv := r }, some (.parse "Received too long incoming packet"))
      else if r.remains < length.toNat then ({ c with recv := r }, none)
      else
        let (r, sb) := r.chopOffBuffer {} (length.toNat + 2)
        andThen (handle w { c with recv := r } now sb) (parse now n)

def Parse (now : ℤ) : DirectClient × Option Exception := parse w now c.recv.size c

/-- Everything that the socket has, up to the first exception. -/
def Recv (now : ℤ) : DirectClient → List Str → DirectClient × Option Exception
  | c, [] => (c, none)
  | c, piece :: pieces =>
    andThen (Parse w { c with recv := c.recv.Pack piece } now) fun c => Recv now c pieces

/-- `expired_cb` for every message that the cache gave up. -/
def expired (m : Cache UInt16 ℕ) : DirectClient :=
  { c with msgcache := m, acks := c.acks ++ m.expired.drop c.msgcache.expired.length }

def clearoutMessagesPoll (now : ℤ) : DirectClient := c.expired (c.msgcache.clearoutPoll now)

def destroy : DirectClient :=
  let c := c.expired c.msgcache.expireAll
  { c with acks := c.acks ++ c.msgqueue, msgqueue := [], gone := true }

def Connect (version : UInt16) (cookie rand : UInt32) : DirectClient × Option Exception :=
  let c := { c with remote_tcp_version := version }
  if version ≥ 6 then
    ({ c with
      eff_tcp_version := if version ≥ 7 then 7 else 6
      session_id := if cookie ≠ 0 then cookie else rand
      state := .WAITING_FOR_INIT_ACK }, none)
  else (c, some (.disconnected "Cannot direct connect to client with too old TCP version"))

def SendEvent (now : ℤ) (ev : ℕ) : DirectClient :=
  let c := { c with given := c.given ++ [ev] }
  if c.state = .CONNECTED then SendPacketEvent w c now ev
  else { c with msgqueue := c.msgqueue ++ [ev] }

end DirectClient

/-- What happens to a connection; `close` is a socket that fails or is closed, a time out of the
connection, or the end of the client. -/
inductive Action
  | connect (version : UInt16) (cookie rand : UInt32) | finishConnect | recv (pieces : List Str)
  | sendEvent (ev : ℕ) | sendFTACK (seqnum : UInt16) (ist : Str)
  | sendFTCancel (seqnum : UInt16) (ist : Str) | poll | close

def orDestroy (r : DirectClient × Option Exception) : DirectClient :=
  if r.2.isNone then r.1 else r.1.destroy

def DirectClient.step (w : World) (c : DirectClient) (now : ℤ) : Action → DirectClient
  | .connect version cookie rand =>
    if c.state = .NOT_CONNECTED then orDestroy (c.Connect version cookie rand) else c
  | .finishConnect => c.SendInitPacket w
  | .recv pieces => orDestroy (DirectClient.Recv w now c pieces)
  | .sendEvent ev => c.SendEvent w now ev
  | .sendFTACK seqnum ist => c.SendFTACK w seqnum ist
  | .sendFTCancel seqnum ist => c.SendFTCancel w seqnum ist
  | .poll => c.clearoutMessagesPoll now
  | .close => c.destroy

/-- A run of a connection; nothing happens any more to one that is gone. -/
def DirectClient.run (w : World) (c : DirectClient) (as : List (ℤ × Action)) : DirectClient :=
  as.foldl (fun c a => if c.gone then c else c.step w a.1 a.2) c

def Action.answer (w : World) (version : ℕ) : Action → Option Buffer
  | .sendFTACK seqnum ist => DirectClient.packet w version V6_TCP_ACK seqnum ist
  | .sendFTCancel seqnum ist => DirectClient.packet w version V6_TCP_CANCEL seqnum ist
  | _ => none

/-- The packet with which a handshake begins, or one that answers a file transfer. -/
def Expected (w : World) (as : List (ℤ × Action)) (p : Str) : Prop :=
  (∃ d : DirectClient, p = ((d.initPacket w).write {}).data) ∨
    ∃ a ∈ as, ∃ version e, a.2.answer w version = some e ∧ p = e.data

/-- What a connection is before the handshake is over: it has no message in its cache, and sent
nothing but the packet with which it begins and answers to file transfers. -/
structure Waiting (w : World) (as : List (ℤ × Action)) (c : DirectClient) : Prop where
  state : c.state = .NOT_CONNECTED ∧ c.incoming = false ∨ c.state = .WAITING_FOR_INIT ∨
    c.state = .WAITING_FOR_INIT_ACK ∧ c.incoming = false
  cache : c.msgcache = { timeout := 30 }
  connects : c.connects = 0
  sent : ∀ p ∈ c.sent, Expected w as p

theorem Waiting.not_connected {w : World} {all : List (ℤ × Action)} {c : DirectClient}
    (h : Waiting w all c) :
    c.state ≠ .CONNECTED := by
  intro hs
  rcases h.state with ⟨hw, -⟩ | hw | ⟨hw, -⟩
  · rw [hw] at hs
    cases hs
  · rw [hw] at hs
    cases hs
  · rw [hw] at hs
    cases hs

structure SameMessages (c d : DirectClient) : Prop where
  msgqueue : d.msgqueue = c.msgqueue
  given : d.given = c.given
  acks : d.acks = c.acks
  gone : d.gone = c.gone

theorem SameMessages.trans {c d e : DirectClient} (h : SameMessages c d) (h' : SameMessages d e) :
    SameMessages c e :=
  ⟨h'.msgqueue.trans h.msgqueue, h'.given.trans h.given, h'.acks.trans h.acks,
    h'.gone.trans h.gone⟩

/-- A length that is not too long has zeros where the third and the fourth byte of it stand. -/
theorem intOf_le_limit {a b c d : Byte} (h : ¬ intOf .LITTLE a b c d > Incoming_Packet_Limit) :
    c = 0 ∧ d = 0 := by
  have hc := c.toNat_lt
  have hd := d.toNat_lt
  have ha := a.toNat_lt
  have hb := b.toNat_lt
  have hle : (intOf .LITTLE a b c d).toNat ≤ 65535 := by
    rw [gt_iff_lt, UInt32.lt_iff_toNat_lt, not_lt] at h
    exact h
  have hval : (intOf .LITTLE a b c d).toNat =
      a.toNat + b.toNat * 2 ^ 8 + c.toNat * 2 ^ 16 + d.toNat * 2 ^ 24 := by
    simp [intOf, UInt32.toNat_add, UInt32.toNat_shiftLeft, Nat.shiftLeft_eq]
    omega
  rw [hval] at hle
  constructor
  · apply UInt8.toNat_inj.mp
    rw [UInt8.toNat_zero]
    omega
  · apply UInt8.toNat_inj.mp
    rw [UInt8.toNat_zero]
    omega

/-- The packet that begins so is no packet with which a handshake can begin. -/
theorem ParseInitPacket_throws (w : World) (c : DirectClient) (a b : Byte) (t : Str) :
    c.ParseInitPacket w { data := a :: b :: 0 :: t } =
      (c, some (.parse "Init Packet didn't start with 0xff")) := by
  simp [DirectClient.ParseInitPacket, Buffer.setEndianness, Buffer.getShort, Buffer.getChar,
    Buffer.advance]

theorem andThen_some {c : DirectClient} {e : Exception}
    (f : DirectClient → DirectClient × Option Exception) :
    DirectClient.andThen (c, some e) f = (c, some e) := rfl

theorem andThen_none (c : DirectClient) (f : DirectClient → DirectClient × Option Exception) :
    DirectClient.andThen (c, none) f = f c := rfl

/-- What holds of a step and of what comes next if nothing was thrown holds of both together. -/
theorem andThen_induct {P : DirectClient → Prop} {r : DirectClient × Option Exception}
    {f : DirectClient → DirectClient × Option Exception} (hr : P r.1) (hf : ∀ c, P c → P (f c).1) :
    P (DirectClient.andThen r f).1 := by
  unfold DirectClient.andThen
  split
  · exact hf r.1 hr
  · exact hr

theorem ParseInitAck_eq (c : DirectClient) (b : Buffer) :
    c.ParseInitAck b = (c, none) ∨ ∃ e, c.ParseInitAck b = (c, some e) := by
  unfold DirectClient.ParseInitAck
  by_cases h : (b.setEndianness .LITTLE).getShort.1 = 4
  · exact .inl (by simp [h])
  · exact .inr ⟨_, by simp only [ne_eq, h, not_false_eq_true, if_true]; rfl⟩

variable {w : World} {all : List (ℤ × Action)} {c : DirectClient}

theorem handle_waiting (h : Waiting w all c) (now : ℤ) (a b : Byte) (t : Str) :
    Waiting w all (c.handle w now { data := a :: b :: 0 :: t }).1 ∧
      SameMessages c (c.handle w now { data := a :: b :: 0 :: t }).1 := by
  have hsame : SameMessages c c := ⟨rfl, rfl, rfl, rfl⟩
  rcases h.state with ⟨hs, -⟩ | hs | ⟨hs, hi⟩
  · simp only [DirectClient.handle, hs]
    exact ⟨h, hsame⟩
  · simp only [DirectClient.handle, hs, ParseInitPacket_throws, andThen_some]
    exact ⟨h, hsame⟩
  · simp only [DirectClient.handle, hs]
    rcases ParseInitAck_eq c { data := a :: b :: 0 :: t } with hp | ⟨e, hp⟩
    · simp only [hp, andThen_none, hi, Bool.false_eq_true, if_false]
      exact ⟨⟨.inr (.inl rfl), h.cache, h.connects, h.sent⟩, ⟨rfl, rfl, rfl, rfl⟩⟩
    · simp only [hp, andThen_some]
      exact ⟨h, hsame⟩

theorem waiting_recv (h : Waiting w all c) (r : Buffer) : Waiting w all { c with recv := r } :=
  ⟨h.state, h.cache, h.connects, h.sent⟩

theorem chop_third_byte {r : Buffer} (he : r.endn = .LITTLE) (h0 : r.getInt.1 ≠ 0)
    (hlim : ¬ r.getInt.1 > Incoming_Packet_Limit) (hp : r.out_pos = 0) :
    ∃ a b t, (r.getInt.2.chopOffBuffer {} (r.getInt.1.toNat + 2)).2 = { data := a :: b :: 0 :: t } := by
  obtain ⟨n, hn⟩ : ∃ n, r.getInt.1.toNat = n + 1 := by
    refine ⟨r.getInt.1.toNat - 1, ?_⟩
    have hne : r.getInt.1.toNat ≠ 0 := fun h => h0 (UInt32.toNat_inj.mp h)
    omega
  have hdrop : r.data.drop r.out_pos = r.data := by rw [hp, List.drop_zero]
  have hpos : r.getInt.2.data = r.data := by rw [getInt_pos]; rfl
  rw [hn, Buffer.chopOffBuffer, hpos]
  unfold Buffer.getInt at h0 hlim
  rw [hdrop] at h0 hlim
  split at h0
  · next a b x y t hd =>
    rw [hd] at hlim ⊢
    simp only [he] at hlim
    obtain ⟨rfl, -⟩ := intOf_le_limit hlim
    exact ⟨a, b, _, rfl⟩
  · exact absurd rfl h0

theorem parse_waiting (h : Waiting w all c) (now : ℤ) (n : ℕ) :
    Waiting w all (DirectClient.parse w now n c).1 ∧
      SameMessages c (DirectClient.parse w now n c).1 := by
  induction n generalizing c with
  | zero => exact ⟨h, ⟨rfl, rfl, rfl, rfl⟩⟩
  | succ n ih =>
    have hrecv : ∀ r, Waiting w all { c with recv := r } ∧ SameMessages c { c with recv := r } :=
      fun r => ⟨waiting_recv h r, ⟨rfl, rfl, rfl, rfl⟩⟩
    unfold DirectClient.parse
    by_cases he : c.recv.empty = true
    · rw [if_pos he]
      exact ⟨h, ⟨rfl, rfl, rfl, rfl⟩⟩
    rw [if_neg he]
    generalize hr : (c.recv.setPos 0).setEndianness .LITTLE = r
    have hlit : r.endn = .LITTLE := by rw [← hr]; rfl
    have hpos : r.out_pos = 0 := by rw [← hr]; rfl
    dsimp only
    split_ifs with h0 hlim hrem
    · exact hrecv _
    · exact hrecv _
    · exact hrecv _
    · obtain ⟨a, b, t, hsb⟩ := chop_third_byte hlit h0 hlim hpos
      rw [hsb]
      have hc := hrecv (r.getInt.2.chopOffBuffer {} (r.getInt.1.toNat + 2)).1
      obtain ⟨h1, h2⟩ := handle_waiting hc.1 now a b t
      refine @andThen_induct (fun d => Waiting w all d ∧ SameMessages c d) _ _
        ⟨h1, hc.2.trans h2⟩ ?_
      intro d hd
      obtain ⟨k1, k2⟩ := ih hd.1
      exact ⟨k1, hd.2.trans k2⟩

theorem Recv_waiting (h : Waiting w all c) (now : ℤ) (pieces : List Str) :
    Waiting w all (DirectClient.Recv w now c pieces).1 ∧
      SameMessages c (DirectClient.Recv w now c pieces).1 := by
  induction pieces generalizing c with
  | nil => exact ⟨h, ⟨rfl, rfl, rfl, rfl⟩⟩
  | cons p ps ih =>
    obtain ⟨h1, h2⟩ := parse_waiting (waiting_recv h (c.recv.Pack p)) now (c.recv.Pack p).size
    have hsame : SameMessages c { c with recv := c.recv.Pack p } := ⟨rfl, rfl, rfl, rfl⟩
    refine @andThen_induct (fun d => Waiting w all d ∧ SameMessages c d) _ _ ⟨h1, hsame.trans h2⟩ ?_
    intro d hd
    obtain ⟨k1, k2⟩ := ih hd.1
    exact ⟨k1, hd.2.trans k2⟩

/-- The messages for the peer wait in the queue, and are reported in their order at the end. -/
structure Held (w : World) (all : List (ℤ × Action)) (c : DirectClient) : Prop where
  waiting : Waiting w all c
  queued : c.gone = false → c.acks = [] ∧ c.msgqueue = c.given
  reported : c.gone = true → c.acks = c.given ∧ c.msgqueue = []

theorem expired_empty (h : c.msgcache = { timeout := 30 }) : c.expired { timeout := 30 } = c := by
  cases c
  cases h
  simp [DirectClient.expired]

theorem destroy_held (h : Held w all c) (hg : c.gone = false) : Held w all c.destroy := by
  obtain ⟨ha, hq⟩ := h.queued hg
  have hexp : c.expired c.msgcache.expireAll = c := by
    rw [h.waiting.cache]
    exact expired_empty h.waiting.cache
  have hd : c.destroy = { c with acks := c.given, msgqueue := [], gone := true } := by
    rw [DirectClient.destroy, hexp, ha, hq]
    rfl
  rw [hd]
  refine ⟨⟨h.waiting.state, h.waiting.cache, h.waiting.connects, h.waiting.sent⟩, ?_, ?_⟩
  · intro hf
    cases hf
  · intro _
    exact ⟨rfl, rfl⟩

theorem held_of_same {d : DirectClient} (h : Held w all c) (hw : Waiting w all d) (hs : SameMessages c d) :
    Held w all d := by
  refine ⟨hw, ?_, ?_⟩
  · intro hg
    rw [hs.gone] at hg
    rw [hs.acks, hs.msgqueue, hs.given]
    exact h.queued hg
  · intro hg
    rw [hs.gone] at hg
    rw [hs.acks, hs.msgqueue, hs.given]
    exact h.reported hg

theorem orDestroy_held {r : DirectClient × Option Exception} (h : Held w all r.1)
    (hg : r.1.gone = false) : Held w all (orDestroy r) := by
  unfold orDestroy
  split
  · exact h
  · exact destroy_held h hg

theorem removeWhile_empty (seqnum : UInt16) (n : ℕ) :
    DirectClient.removeWhile seqnum n { timeout := 30 } = { timeout := 30 } := by
  cases n <;> rfl

theorem remove_empty (seqnum : UInt16) :
    ({ timeout := 30 } : Cache UInt16 ℕ).remove seqnum = { timeout := 30 } := rfl

theorem SendCommand_eq (command seqnum : UInt16) (ist : Str) : ∃ ps : List Str,
    c.SendCommand w command seqnum ist = { c with sent := c.sent ++ ps } ∧
      ∀ p ∈ ps, ∃ e, DirectClient.packet w c.eff_tcp_version command seqnum ist = some e ∧
        p = e.data := by
  rw [DirectClient.SendCommand]
  cases h : DirectClient.packet w c.eff_tcp_version command seqnum ist with
  | none => exact ⟨[], by rw [List.append_nil], fun p hp => absurd hp List.not_mem_nil⟩
  | some e => exact ⟨[e.data], rfl, fun p hp => ⟨e, rfl, List.mem_singleton.mp hp⟩⟩

/-- An answer to a file transfer goes out, and nothing else changes. -/
theorem answer_held (h : Held w all c) {now : ℤ} {a : Action} (ha : (now, a) ∈ all) {ps : List Str}
    (hps : ∀ p ∈ ps, ∃ version e, a.answer w version = some e ∧ p = e.data) :
    Held w all { c with sent := c.sent ++ ps } := by
  refine held_of_same h ⟨h.waiting.state, h.waiting.cache, h.waiting.connects, fun p hp => ?_⟩
    ⟨rfl, rfl, rfl, rfl⟩
  rcases List.mem_append.mp hp with hp | hp
  · exact h.waiting.sent p hp
  · exact .inr ⟨_, ha, hps p hp⟩

theorem Connect_held (h : Held w all c) (hg : c.gone = false) (hi : c.incoming = false)
    (version : UInt16) (cookie rand : UInt32) :
    Held w all (c.Connect version cookie rand).1 ∧ (c.Connect version cookie rand).1.gone = false := by
  unfold DirectClient.Connect
  by_cases hv : version ≥ 6
  · rw [if_pos hv]
    exact ⟨held_of_same h ⟨.inr (.inr ⟨rfl, hi⟩), h.waiting.cache, h.waiting.connects,
      h.waiting.sent⟩ ⟨rfl, rfl, rfl, rfl⟩, hg⟩
  · rw [if_neg hv]
    exact ⟨held_of_same h ⟨h.waiting.state, h.waiting.cache, h.waiting.connects,
      h.waiting.sent⟩ ⟨rfl, rfl, rfl, rfl⟩, hg⟩

theorem step_held (h : Held w all c) (hg : c.gone = false) {now : ℤ} {a : Action}
    (ha : (now, a) ∈ all) : Held w all (c.step w now a) := by
  cases a with
  | connect version cookie rand =>
    change Held w all (if c.state = .NOT_CONNECTED then orDestroy (c.Connect version cookie rand) else c)
    by_cases hs : c.state = .NOT_CONNECTED
    · rw [if_pos hs]
      have hi : c.incoming = false := by
        rcases h.waiting.state with ⟨-, hi⟩ | hw | ⟨hw, -⟩
        · exact hi
        · rw [hw] at hs
          cases hs
        · rw [hw] at hs
          cases hs
      obtain ⟨hheld, hgone⟩ := Connect_held h hg hi version cookie rand
      exact orDestroy_held hheld hgone
    · rw [if_neg hs]
      exact h
  | finishConnect =>
    refine held_of_same h ⟨h.waiting.state, h.waiting.cache, h.waiting.connects, ?_⟩
      ⟨rfl, rfl, rfl, rfl⟩
    intro p hp
    rcases List.mem_append.mp hp with hp | hp
    · exact h.waiting.sent p hp
    · exact .inl ⟨c, List.mem_singleton.mp hp⟩
  | recv pieces =>
    obtain ⟨h1, h2⟩ := Recv_waiting h.waiting now pieces
    exact orDestroy_held (held_of_same h h1 h2) (h2.gone.trans hg)
  | sendEvent ev =>
    obtain ⟨ha, hq⟩ := h.queued hg
    have hs := h.waiting.not_connected
    have hstep : c.step w now (.sendEvent ev) =
        { c with given := c.given ++ [ev], msgqueue := c.msgqueue ++ [ev] } := if_neg hs
    rw [hstep]
    refine ⟨⟨h.waiting.state, h.waiting.cache, h.waiting.connects, h.waiting.sent⟩, ?_, ?_⟩
    · intro _
      exact ⟨ha, congrArg (· ++ [ev]) hq⟩
    · intro hf
      rw [hg] at hf
      cases hf
  | sendFTACK seqnum ist =>
    obtain ⟨ps, hsend, hps⟩ := @SendCommand_eq w c V6_TCP_ACK seqnum ist
    have hstep : c.step w now (.sendFTACK seqnum ist) = { c with sent := c.sent ++ ps } := by
      change c.SendFTACK w seqnum ist = _
      rw [DirectClient.SendFTACK, hsend, h.waiting.cache, removeWhile_empty, ← h.waiting.cache]
    rw [hstep]
    exact answer_held h ha fun p hp => ⟨c.eff_tcp_version, hps p hp⟩
  | sendFTCancel seqnum ist =>
    obtain ⟨ps, hsend, hps⟩ := @SendCommand_eq w c V6_TCP_CANCEL seqnum ist
    have hstep : c.step w now (.sendFTCancel seqnum ist) = { c with sent := c.sent ++ ps } := by
      change c.SendFTCancel w seqnum ist = _
      rw [DirectClient.SendFTCancel, hsend, h.waiting.cache, remove_empty, ← h.waiting.cache]
    rw [hstep]
    exact answer_held h ha fun p hp => ⟨c.eff_tcp_version, hps p hp⟩
  | poll =>
    have hpoll : c.step w now .poll = c := by
      have hempty : c.msgcache.clearoutPoll now = { timeout := 30 } := by
        rw [h.waiting.cache]
        rfl
      change c.expired (c.msgcache.clearoutPoll now) = c
      rw [hempty, expired_empty h.waiting.cache]
    rw [hpoll]
    exact h
  | close => exact destroy_held h hg

theorem run_held (h : Held w all c) {as : List (ℤ × Action)} (has : ∀ a ∈ as, a ∈ all) :
    Held w all (c.run w as) := by
  induction as generalizing c with
  | nil => exact h
  | cons a as ih =>
    have hrun : c.run w (a :: as) = (if c.gone then c else c.step w a.1 a.2).run w as := rfl
    rw [hrun]
    refine ih ?_ fun b hb => has b (List.mem_cons_of_mem a hb)
    rcases hg : c.gone with _ | _
    · exact step_held h hg (has a List.mem_cons_self)
    · exact h

/-- No direct connection is ever established, whatever its peer sends and in whatever pieces: it
sends nothing but the packet with which the handshake begins and the answers to file transfers
that it is asked for, and each message that is handed to it waits in the queue until the
connection ends, and is then reported as not delivered, once and in its turn. -/
theorem never_connected (w : World) (c : DirectClient) (version : ℕ)
    (hc : c = DirectClient.accept version ∨ ∃ uin, c = DirectClient.outgoing version uin)
    (as : List (ℤ × Action)) :
    (c.run w as).state ≠ .CONNECTED ∧ (c.run w as).connects = 0 ∧
      (∀ p ∈ (c.run w as).sent, Expected w as p) ∧
      ((c.run w as).gone = false →
        (c.run w as).acks = [] ∧ (c.run w as).msgqueue = (c.run w as).given) ∧
      ((c.run w as).gone = true →
        (c.run w as).acks = (c.run w as).given ∧ (c.run w as).msgqueue = []) := by
  have hstart : Held w as c := by
    rcases hc with rfl | ⟨uin, rfl⟩
    · refine ⟨⟨.inr (.inl rfl), rfl, rfl, ?_⟩, fun _ => ⟨rfl, rfl⟩, ?_⟩
      · intro p hp
        cases hp
      · intro hf
        cases hf
    · refine ⟨⟨.inl ⟨rfl, rfl⟩, rfl, rfl, ?_⟩, fun _ => ⟨rfl, rfl⟩, ?_⟩
      · intro p hp
        cases hp
      · intro hf
        cases hf
  have h := run_held hstart fun a ha => ha
  exact ⟨h.waiting.not_connected, h.waiting.connects, h.waiting.sent, h.queued, h.reported⟩

/-- A client on its own, with no contacts and no way to pack a message. -/
def alone : World where
  self_uin := 7
  local_ext_ip := 0
  local_ip := 0
  local_server_port := 0
  peer_ip := 0
  contact_list _ := none
  handleOutgoing _ := none
  rand _ := (0, 0)
  ParsePacketInt c _ := (c, none)

/-- The beginning of a handshake in two pieces, after two messages were handed over and a file was
refused; the answer is a packet of 3 bytes more than it has itself, with a start byte. -/
theorem never_connected_incoming :
    let c := (DirectClient.accept 7).run alone [(0, .sendEvent 3), (1, .recv [[48, 0]]),
      (2, .sendEvent 4), (2, .sendFTACK 9 [0, 1, 0]), (3, .recv [[0xff], [7, 0, 43, 0]])]
    c.acks = [3, 4] ∧ c.sent.map List.length = [28] :=
  ⟨((never_connected alone (DirectClient.accept 7) 7 (.inl rfl) _).2.2.2.2 (by decide +kernel)).1,
    by decide +kernel⟩

end CenterIM.DirectHandshake

import CenterIM.PacketLayout
import CenterIM.Reassembly

/-!
# The packets of the server connection

Everything on the connection to the server travels in numbered packets on one of a few channels.
The client takes them off its receive buffer as soon as they are complete. A packet that does
not begin as it should costs everything that is in the buffer at that moment.
-/
namespace CenterIM.FlapStream
open ByteText PacketBuffer PacketLayout Reassembly

/-- A packet as it is given to the parser of its channel. -/
structure Flap where
  channel : Byte
  seq_num : UInt16
  sb : Buffer
  deriving DecidableEq

structure Client where
  recv : Buffer := {}
  client_seq_num : UInt16 := 0
  /-- The packets given to the channels, and how often the buffer was thrown away. -/
  flaps : List Flap := []
  invalid : ℕ := 0
  deriving DecidableEq

def FLAPHeader (b : Buffer) (channel : Byte) (seq : UInt16) : Buffer × Marker :=
  let b := b.setEndianness .BIG
  let b := b.putChar 42
  let b := b.putChar channel
  let b := b.putShort seq
  b.getAutoSizeShortMarker

def FLAPFooter (b : Buffer) (mk : Marker) : Buffer := b.setAutoSizeMarker mk

def Client.NextSeqNum (c : Client) : UInt16 × Client :=
  let n := (c.client_seq_num + 1) &&& 0x7fff
  (n, { c with client_seq_num := n })

def Client.FLAPwrap (c : Client) (b : Buffer) (channel : Byte) (body : Items) : Buffer × Client :=
  let (seq, c) := c.NextSeqNum
  let h := FLAPHeader b channel seq
  (FLAPFooter (body.write h.1) h.2, c)

/-- Packets one after the other in one buffer. -/
def Client.FLAPwrapAll (c : Client) (b : Buffer) : List (Byte × Items) → Buffer × Client
  | [] => (b, c)
  | (channel, body) :: ps =>
    let (b, c) := c.FLAPwrap b channel body
    c.FLAPwrapAll b ps

def Client.parse : ℕ → Client → Client
  | 0, c => c
  | n + 1, c =>
    if c.recv.empty then c
    else
      let r := c.recv.setPos 0
      let (start_byte, r) := r.getChar
      if start_byte ≠ 42 then { c with recv := r.clear, invalid := c.invalid + 1 }
      else if r.remains < 5 then { c with recv := r }
      else
        let (channel, r) := r.getChar
        let (seq_num, r) := r.getShort
        let (data_len, r) := r.getShort
        if r.remains < data_len.toNat then { c with recv := r }
        else
          let (r, sb) := r.chopOffBuffer {} (data_len.toNat + 6)
          parse n { c with recv := r, flaps := c.flaps ++ [⟨channel, seq_num, sb.advance 6⟩] }

def Client.Parse (c : Client) : Client := c.parse c.recv.size

/-- What one call of `recv` brings. -/
def Client.Recv (c : Client) (piece : Str) : Client :=
  Client.Parse { c with recv := c.recv.Pack piece }

def Client.RecvFromServer (c : Client) (pieces : List Str) : Client := pieces.foldl Client.Recv c

/-- A whole packet at the front of the received bytes. -/
def cut : Str → Option (Flap × Str)
  | 42 :: channel :: s1 :: s2 :: l1 :: l2 :: t =>
    let n := (shortOf .BIG l1 l2).toNat
    if n ≤ t.length then
      some (⟨channel, shortOf .BIG s1 s2,
        { data := 42 :: channel :: s1 :: s2 :: l1 :: l2 :: t.take n, out_pos := 6 }⟩, t.drop n)
    else none
  | _ => none

theorem cut_eq_some {s t : Str} {f : Flap} (h : cut s = some (f, t)) :
    ∃ body l1 l2 s1 s2, s = 42 :: f.channel :: s1 :: s2 :: l1 :: l2 :: (body ++ t) ∧
      body.length = (shortOf .BIG l1 l2).toNat ∧ f.seq_num = shortOf .BIG s1 s2 ∧
      f.sb = { data := 42 :: f.channel :: s1 :: s2 :: l1 :: l2 :: body, out_pos := 6 } := by
  unfold cut at h
  split at h
  · next channel s1 s2 l1 l2 u =>
    simp only [Option.ite_none_right_eq_some, Option.some.injEq, Prod.mk.injEq] at h
    obtain ⟨hn, rfl, rfl⟩ := h
    refine ⟨u.take (shortOf .BIG l1 l2).toNat, l1, l2, s1, s2, ?_, ?_, rfl, rfl⟩
    · rw [List.take_append_drop]
    · rw [List.length_take]
      omega
  · cases h

theorem cut_of_eq {body t : Str} {channel l1 l2 s1 s2 : Byte}
    (hlen : body.length = (shortOf .BIG l1 l2).toNat) :
    cut (42 :: channel :: s1 :: s2 :: l1 :: l2 :: (body ++ t)) =
      some (⟨channel, shortOf .BIG s1 s2,
        { data := 42 :: channel :: s1 :: s2 :: l1 :: l2 :: body, out_pos := 6 }⟩, t) := by
  simp only [cut, ← hlen, List.length_append, List.take_left, List.drop_left]
  rw [if_pos (by omega)]

/-- The packets of the connection, cut off the bytes of its stream. -/
def cutter : Cutter Flap Byte where
  cut := cut
  shrinks h := by
    obtain ⟨body, l1, l2, s1, s2, rfl, -⟩ := cut_eq_some h
    simp only [List.length_cons, List.length_append]
    omega
  stable h t := by
    obtain ⟨body, l1, l2, s1, s2, rfl, hlen, hseq, hsb⟩ := cut_eq_some h
    simp only [List.cons_append, List.append_assoc]
    rw [cut_of_eq hlen, ← hseq, ← hsb]

/-- There is something in the buffer, and it is no packet nor the beginning of one. -/
def Invalid (s : Str) : Prop := ∃ c t, s = c :: t ∧ c ≠ 42

instance : DecidablePred Invalid
  | [] => .isFalse (by intro h; obtain ⟨c, t, h, -⟩ := h; cases h)
  | c :: t => decidable_of_iff (c ≠ 42) (by
      constructor
      · intro hc
        exact ⟨c, t, rfl, hc⟩
      · intro h
        obtain ⟨d, u, h, hd⟩ := h
        cases h
        exact hd)

theorem cut_of_invalid {s : Str} (h : Invalid s) : cut s = none := by
  obtain ⟨c, t, rfl, hc⟩ := h
  unfold cut
  split
  · next heq => exact absurd (List.cons.inj heq).1 hc
  · rfl

section
variable {c : Client} {s t : Str} {f : Flap}

theorem parse_of_cut (hd : c.recv.data = s) (he : c.recv.endn = .BIG) (hc : cut s = some (f, t))
    (n : ℕ) :
    c.parse (n + 1) =
      Client.parse n { c with recv := { c.recv with data := t, out_pos := 0 },
                              flaps := c.flaps ++ [f] } := by
  obtain ⟨body, l1, l2, s1, s2, rfl, hlen, hseq, hsb⟩ := cut_eq_some hc
  have hf : f = ⟨f.channel, shortOf .BIG s1 s2, f.sb⟩ := by rw [← hseq]
  have htake : (body ++ t).take (shortOf .BIG l1 l2).toNat = body := by
    rw [← hlen, List.take_left]
  have hdrop : (body ++ t).drop (shortOf .BIG l1 l2).toNat = t := by
    rw [← hlen, List.drop_left]
  rw [hf, hsb]
  have hheader : ¬ body.length + t.length + 1 + 1 + 1 + 1 + 1 < 5 := by omega
  have hroom : ¬ body.length + t.length < (shortOf .BIG l1 l2).toNat := by omega
  simp [Client.parse, Buffer.empty, Buffer.setPos, Buffer.getChar, Buffer.getShort,
    Buffer.advance, Buffer.remains, Buffer.chopOffBuffer, hd, he, htake, hdrop, hheader, hroom]

theorem parse_of_invalid (hd : c.recv.data = s) (h : Invalid s) (n : ℕ) :
    c.parse (n + 1) =
      { c with recv := { c.recv with data := [], out_pos := 0 }, invalid := c.invalid + 1 } := by
  obtain ⟨a, t, rfl, ha⟩ := h
  simp [Client.parse, Buffer.empty, Buffer.setPos, Buffer.getChar, Buffer.clear, Buffer.advance,
    hd, ha]

theorem parse_of_waiting (hd : c.recv.data = s) (he : c.recv.endn = .BIG) (hc : cut s = none)
    (hv : ¬ Invalid s) (n : ℕ) :
    ∃ o, c.parse n = { c with recv := { c.recv with out_pos := o } } := by
  rcases n with _ | n
  · exact ⟨c.recv.out_pos, rfl⟩
  rcases s with _ | ⟨a, s⟩
  · refine ⟨c.recv.out_pos, ?_⟩
    have hempty : c.recv.empty = true := by simp [Buffer.empty, hd]
    simp only [Client.parse, hempty, if_true]
  have ha : a = 42 := by
    by_contra ha
    exact hv ⟨a, s, rfl, ha⟩
  subst ha
  by_cases hlen : s.length < 5
  · refine ⟨1, ?_⟩
    simp [Client.parse, Buffer.empty, Buffer.setPos, Buffer.getChar, Buffer.advance,
      Buffer.remains, hd, hlen]
  · obtain ⟨channel, s1, s2, l1, l2, t, rfl⟩ :
        ∃ channel s1 s2 l1 l2 t, s = channel :: s1 :: s2 :: l1 :: l2 :: t := by
      rcases s with _ | ⟨channel, _ | ⟨s1, _ | ⟨s2, _ | ⟨l1, _ | ⟨l2, t⟩⟩⟩⟩⟩
      · exact absurd (by simp) hlen
      · exact absurd (by simp) hlen
      · exact absurd (by simp) hlen
      · exact absurd (by simp) hlen
      · exact absurd (by simp) hlen
      · exact ⟨channel, s1, s2, l1, l2, t, rfl⟩
    have hshort : t.length < (shortOf .BIG l1 l2).toNat := by
      simpa [cut] using hc
    have hheader : ¬ t.length + 1 + 1 + 1 + 1 + 1 < 5 := by omega
    refine ⟨6, ?_⟩
    simp [Client.parse, Buffer.empty, Buffer.setPos, Buffer.getChar, Buffer.getShort,
      Buffer.advance, Buffer.remains, hd, he, hheader, hshort]

/-- The parser gives away all the packets that are complete, and keeps what is left if it can
still become one. -/
theorem parse_eq {n : ℕ} (hn : s.length ≤ n) (hd : c.recv.data = s) (he : c.recv.endn = .BIG) :
    ∃ o, c.parse n = { c with
      recv := { c.recv with
        data := if Invalid (cutter.frames s).2 then [] else (cutter.frames s).2
        out_pos := o }
      flaps := c.flaps ++ (cutter.frames s).1
      invalid := if Invalid (cutter.frames s).2 then c.invalid + 1 else c.invalid } := by
  induction n generalizing c s with
  | zero =>
    obtain rfl : s = [] := List.eq_nil_of_length_eq_zero (by omega)
    have hv : ¬ Invalid [] := by decide
    have hc : c = { c with recv := { c.recv with data := [] } } := by rw [← hd]
    refine ⟨c.recv.out_pos, ?_⟩
    rw [Cutter.frames_of_none rfl, if_neg hv, if_neg hv, List.append_nil]
    exact hc
  | succ n ih =>
    rcases hc : cut s with _ | ⟨f, t⟩
    · rw [Cutter.frames_of_none (K := cutter) hc]
      by_cases hv : Invalid s
      · exact ⟨0, by simp [parse_of_invalid hd hv, hv]⟩
      · obtain ⟨o, ho⟩ := parse_of_waiting hd he hc hv (n + 1)
        exact ⟨o, by simp only [ho, if_neg hv, List.append_nil, hd]⟩
    · have hlt := cutter.shrinks hc
      rw [parse_of_cut hd he hc]
      obtain ⟨o, ho⟩ := ih (s := t) (c := { c with
        recv := { c.recv with data := t, out_pos := 0 }, flaps := c.flaps ++ [f] })
        (by omega) rfl he
      refine ⟨o, ?_⟩
      rw [ho, Cutter.frames_of_some (K := cutter) hc]
      simp

theorem Recv_eq (he : c.recv.endn = .BIG) (p : Str) :
    ∃ o, c.Recv p = { c with
      recv := { c.recv with
        data := if Invalid (cutter.frames (c.recv.data ++ p)).2 then []
          else (cutter.frames (c.recv.data ++ p)).2
        out_pos := o }
      flaps := c.flaps ++ (cutter.frames (c.recv.data ++ p)).1
      invalid := if Invalid (cutter.frames (c.recv.data ++ p)).2 then c.invalid + 1
        else c.invalid } :=
  parse_eq (c := { c with recv := c.recv.Pack p }) le_rfl rfl he

theorem RecvFromServer_cons (p : Str) (ps : List Str) :
    c.RecvFromServer (p :: ps) = (c.Recv p).RecvFromServer ps := rfl

/-- Nothing that arrives later makes a packet of bytes that begin none. -/
theorem invalid_frames (h : Invalid (cutter.frames s).2) (t : Str) :
    cutter.frames (s ++ t) = ((cutter.frames s).1, (cutter.frames s).2 ++ t) ∧
      Invalid (cutter.frames (s ++ t)).2 := by
  obtain ⟨a, u, hu, ha⟩ := h
  have hinv : Invalid ((cutter.frames s).2 ++ t) := ⟨a, u ++ t, by rw [hu]; rfl, ha⟩
  have hcut : cutter.cut ((cutter.frames s).2 ++ t) = none := cut_of_invalid hinv
  have heq : cutter.frames (s ++ t) = ((cutter.frames s).1, (cutter.frames s).2 ++ t) := by
    rw [Cutter.frames_append, Cutter.frames_of_none hcut, List.append_nil]
  exact ⟨heq, by rw [heq]; exact hinv⟩

theorem prefix_RecvFromServer (he : c.recv.endn = .BIG) (pieces : List Str) :
    c.flaps <+: (c.RecvFromServer pieces).flaps := by
  induction pieces generalizing c with
  | nil => exact List.prefix_rfl
  | cons p ps ih =>
    obtain ⟨o, ho⟩ := Recv_eq he p
    rw [RecvFromServer_cons]
    have h1 : c.flaps <+: (c.Recv p).flaps := by
      rw [ho]
      exact List.prefix_append _ _
    exact h1.trans (ih (by rw [ho]; exact he))

/-- The cut of a stream into pieces makes no difference as long as it consists of packets. -/
theorem RecvFromServer_eq (he : c.recv.endn = .BIG) (hidle : cut c.recv.data = none)
    (pieces : List Str) (h : ¬ Invalid (cutter.frames (c.recv.data ++ pieces.flatten)).2) :
    ∃ o, c.RecvFromServer pieces = { c with
      recv := { c.recv with
        data := (cutter.frames (c.recv.data ++ pieces.flatten)).2
        out_pos := o }
      flaps := c.flaps ++ (cutter.frames (c.recv.data ++ pieces.flatten)).1 } := by
  induction pieces generalizing c with
  | nil =>
    refine ⟨c.recv.out_pos, ?_⟩
    rw [List.flatten_nil, List.append_nil, Cutter.frames_of_none (K := cutter) hidle,
      List.append_nil]
    rfl
  | cons p ps ih =>
    rw [List.flatten_cons, ← List.append_assoc] at h ⊢
    have hv : ¬ Invalid (cutter.frames (c.recv.data ++ p)).2 := by
      intro hv
      exact h (invalid_frames hv ps.flatten).2
    obtain ⟨o, ho⟩ := Recv_eq he p
    rw [if_neg hv, if_neg hv] at ho
    have hfr := @Cutter.frames_append _ _ cutter (c.recv.data ++ p) ps.flatten
    rw [hfr] at h ⊢
    rw [RecvFromServer_cons]
    obtain ⟨o', ho'⟩ := ih (c := c.Recv p) (by rw [ho]; exact he)
      (by rw [ho]; exact Cutter.cut_frames (K := cutter) _) (by rw [ho]; exact h)
    refine ⟨o', ?_⟩
    rw [ho', ho]
    simp

/-- Whatever comes later and wherever the stream is cut, the packets before a byte that begins
none are given to their channels. -/
theorem packets_before_invalid (he : c.recv.endn = .BIG) (hidle : cut c.recv.data = none)
    (pieces : List Str) :
    c.flaps ++ (cutter.frames (c.recv.data ++ pieces.flatten)).1 <+:
      (c.RecvFromServer pieces).flaps := by
  induction pieces generalizing c with
  | nil =>
    rw [List.flatten_nil, List.append_nil, Cutter.frames_of_none (K := cutter) hidle,
      List.append_nil]
    exact List.prefix_rfl
  | cons p ps ih =>
    obtain ⟨o, ho⟩ := Recv_eq he p
    have hbig : (c.Recv p).recv.endn = .BIG := by rw [ho]; exact he
    rw [List.flatten_cons, ← List.append_assoc, RecvFromServer_cons]
    by_cases hv : Invalid (cutter.frames (c.recv.data ++ p)).2
    · rw [(invalid_frames hv ps.flatten).1]
      have h := prefix_RecvFromServer hbig ps
      rw [ho] at h ⊢
      exact h
    · rw [if_neg hv, if_neg hv] at ho
      have h := ih hbig (by rw [ho]; exact Cutter.cut_frames (K := cutter) _)
      rw [ho] at h ⊢
      rw [Cutter.frames_append, ← List.append_assoc]
      exact h

end

def flapBytes (channel : Byte) (seq : UInt16) (body : Items) : Str :=
  42 :: channel :: (shortBytes .BIG seq ++
    (shortBytes .BIG (UInt16.ofNat (body.encode .BIG).length) ++ body.encode .BIG))

def numbered (seq : UInt16) : List (Byte × Items) → List (Byte × UInt16 × Items)
  | [] => []
  | (channel, body) :: ps =>
    let n := (seq + 1) &&& 0x7fff
    (channel, n, body) :: numbered n ps

theorem FLAPwrap_data (c : Client) (b : Buffer) (channel : Byte) (body : Items) :
    (c.FLAPwrap b channel body).1.data =
      b.data ++ flapBytes channel ((c.client_seq_num + 1) &&& 0x7fff) body := by
  have hset := setMarker_eq
    (((b.setEndianness .BIG).putChar 42).putChar channel |>.putShort ((c.client_seq_num + 1) &&& 0x7fff))
    (body.write (FLAPHeader b channel ((c.client_seq_num + 1) &&& 0x7fff)).1) .short
    (body.encode .BIG) (by rw [write_eq]; rfl)
  have hwrap : (c.FLAPwrap b channel body).1 =
      (body.write (FLAPHeader b channel ((c.client_seq_num + 1) &&& 0x7fff)).1).setAutoSizeMarker
        (FLAPHeader b channel ((c.client_seq_num + 1) &&& 0x7fff)).2 := rfl
  rw [hwrap]
  refine (congrArg Buffer.data hset).trans ?_
  simp [flapBytes, Buffer.putChar, Buffer.putShort, Buffer.Pack, Buffer.setEndianness,
    Width.lengthField, Field.bytes]

theorem FLAPwrapAll_data (c : Client) (b : Buffer) (ps : List (Byte × Items)) :
    (c.FLAPwrapAll b ps).1.data =
      b.data ++ (numbered c.client_seq_num ps).flatMap fun p => flapBytes p.1 p.2.1 p.2.2 := by
  induction ps generalizing c b with
  | nil => simp [Client.FLAPwrapAll, numbered]
  | cons p ps ih =>
    have h := ih (c.FLAPwrap b p.1 p.2).2 (c.FLAPwrap b p.1 p.2).1
    rw [FLAPwrap_data] at h
    refine h.trans ?_
    rw [numbered, List.flatMap_cons, ← List.append_assoc]
    rfl

def flapOf (p : Byte × UInt16 × Items) : Flap :=
  ⟨p.1, p.2.1, { data := flapBytes p.1 p.2.1 p.2.2, out_pos := 6 }⟩

theorem cut_flapBytes (p : Byte × UInt16 × Items) (h : (p.2.2.encode .BIG).length < 2 ^ 16)
    (t : Str) : cut (flapBytes p.1 p.2.1 p.2.2 ++ t) = some (flapOf p, t) := by
  obtain ⟨channel, seq, body⟩ := p
  obtain ⟨s1, s2, hs, hseq⟩ := shortOf_shortBytes .BIG seq
  obtain ⟨l1, l2, hl, hlen⟩ := shortOf_shortBytes .BIG (UInt16.ofNat (body.encode .BIG).length)
  have hbody : (body.encode .BIG).length = (shortOf .BIG l1 l2).toNat := by
    rw [hlen]
    simpa using (Nat.mod_eq_of_lt h).symm
  have hcut := @cut_of_eq (body.encode .BIG) t channel l1 l2 s1 s2 hbody
  have hbytes : flapBytes channel seq body =
      42 :: channel :: s1 :: s2 :: l1 :: l2 :: body.encode .BIG := by rw [flapBytes, hs, hl]; rfl
  rw [flapOf, hbytes, ← hseq]
  exact hcut

theorem left_flapOf (p : Byte × UInt16 × Items) : (flapOf p).sb.left = p.2.2.encode .BIG := by
  obtain ⟨s1, s2, hs, -⟩ := shortOf_shortBytes .BIG p.2.1
  obtain ⟨l1, l2, hl, -⟩ := shortOf_shortBytes .BIG (UInt16.ofNat (p.2.2.encode .BIG).length)
  simp [flapOf, flapBytes, Buffer.left, hs, hl]

theorem numbered_bodies (seq : UInt16) (ps : List (Byte × Items)) :
    (numbered seq ps).map (fun p => (p.1, p.2.2)) = ps := by
  induction ps generalizing seq with
  | nil => rfl
  | cons p ps ih =>
    rw [numbered, List.map_cons, ih]

theorem toNat_next (seq : UInt16) : ((seq + 1) &&& 0x7fff).toNat = (seq.toNat + 1) % 2 ^ 15 := by
  have h : (0x7fff : UInt16).toNat = 2 ^ 15 - 1 := rfl
  rw [UInt16.toNat_and, h, Nat.and_two_pow_sub_one_eq_mod, UInt16.toNat_add]
  simp only [UInt16.reduceToNat]
  omega

theorem numbered_seq (seq : UInt16) (ps : List (Byte × Items)) :
    (numbered seq ps).map (fun p => p.2.1.toNat) =
      (List.range ps.length).map fun i => (seq.toNat + i + 1) % 2 ^ 15 := by
  induction ps generalizing seq with
  | nil => rfl
  | cons p ps ih =>
    rw [numbered, List.map_cons, ih, List.length_cons, List.range_succ_eq_map, List.map_cons,
      List.map_map, toNat_next]
    simp only [List.cons.injEq, Nat.add_zero, true_and]
    apply List.map_congr_left
    intro i _
    simp only [Function.comp_apply, Nat.succ_eq_add_one]
    omega

end CenterIM.FlapStream

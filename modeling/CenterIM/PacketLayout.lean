import CenterIM.PacketBuffer

/-!
# The layout of a packet

A packet is a sequence of fields and of parts that stand behind their own length, to any depth.
The writer leaves each length open and goes back to it, the reader takes the fields as they
come; between them nothing is lost, in either byte order and over every change of it.
-/
namespace CenterIM.PacketLayout
open ByteText PacketBuffer

inductive Field
  | char (c : Byte) | short (l : UInt16) | int (l : UInt32)
  | string (s : Str) | stringNull (s : Str) | byteString (s : Str) | raw (s : Str)
  | order (e : Endian)
  deriving DecidableEq

inductive Kind
  | char | short | int | string | stringNull | byteString | raw (n : ℕ) | order (e : Endian)
  deriving DecidableEq

inductive Width
  | short | int
  deriving DecidableEq

inductive Items
  | done
  | field (f : Field) (rest : Items)
  | sized (w : Width) (body rest : Items)

inductive Shape
  | done
  | field (k : Kind) (rest : Shape)
  | sized (w : Width) (body rest : Shape)

def Field.put (b : Buffer) : Field → Buffer
  | .char c => b.putChar c
  | .short l => b.putShort l
  | .int l => b.putInt l
  | .string s => b.putString s
  | .stringNull s => b.PackUint16StringNull s
  | .byteString s => b.PackByteString s
  | .raw s => b.Pack s
  | .order e => b.setEndianness e

def Kind.get (b : Buffer) : Kind → Field × Buffer
  | .char => let (c, b) := b.getChar; (.char c, b)
  | .short => let (l, b) := b.getShort; (.short l, b)
  | .int => let (l, b) := b.getInt; (.int l, b)
  | .string => let (s, b) := b.getString; (.string s, b)
  | .stringNull => let (s, b) := b.UnpackUint16StringNull; (.stringNull s, b)
  | .byteString => let (s, b) := b.UnpackByteString; (.byteString s, b)
  | .raw n => let (s, b) := b.Unpack n; (.raw s, b)
  | .order e => (.order e, b.setEndianness e)

def Width.getMarker (b : Buffer) : Width → Buffer × Marker
  | .short => b.getAutoSizeShortMarker
  | .int => b.getAutoSizeIntMarker

def Width.kind : Width → Kind
  | .short => .short
  | .int => .int

def Width.lengthField (n : ℕ) : Width → Field
  | .short => .short (UInt16.ofNat n)
  | .int => .int (UInt32.ofNat n)

def Items.write : Items → Buffer → Buffer
  | .done, b => b
  | .field f rest, b => rest.write (f.put b)
  | .sized w body rest, b =>
    let (b, m) := w.getMarker b
    rest.write ((body.write b).setAutoSizeMarker m)

def Shape.read : Shape → Buffer → List Field × Buffer
  | .done, b => ([], b)
  | .field k rest, b =>
    let (f, b) := k.get b
    let (fs, b) := rest.read b
    (f :: fs, b)
  | .sized w body rest, b =>
    let (f, b) := w.kind.get b
    let (fs, b) := body.read b
    let (gs, b) := rest.read b
    (f :: fs ++ gs, b)

def Field.bytes (e : Endian) : Field → Str
  | .char c => [c]
  | .short l => shortBytes e l
  | .int l => intBytes e l
  | .string s => shortBytes e (UInt16.ofNat s.length) ++ s
  | .stringNull s => shortBytes e (UInt16.ofNat (s.length + 1)) ++ s ++ [0]
  | .byteString s => UInt8.ofNat s.length :: s
  | .raw s => s
  | .order _ => []

def Field.after (e : Endian) : Field → Endian
  | .order e => e
  | _ => e

def Items.after : Items → Endian → Endian
  | .done, e => e
  | .field f rest, e => rest.after (f.after e)
  | .sized _ body rest, e => rest.after (body.after e)

def Items.encode : Items → Endian → Str
  | .done, _ => []
  | .field f rest, e => f.bytes e ++ rest.encode (f.after e)
  | .sized w body rest, e =>
    (w.lengthField (body.encode e).length).bytes e ++ body.encode e ++ rest.encode (body.after e)

/-- The fields of a packet in the order of its bytes, with the lengths of its parts. -/
def Items.fields : Items → Endian → List Field
  | .done, _ => []
  | .field f rest, e => f :: rest.fields (f.after e)
  | .sized w body rest, e =>
    w.lengthField (body.encode e).length :: body.fields e ++ rest.fields (body.after e)

def Field.kind : Field → Kind
  | .char _ => .char
  | .short _ => .short
  | .int _ => .int
  | .string _ => .string
  | .stringNull _ => .stringNull
  | .byteString _ => .byteString
  | .raw s => .raw s.length
  | .order e => .order e

def Items.shape : Items → Shape
  | .done => .done
  | .field f rest => .field f.kind rest.shape
  | .sized w body rest => .sized w body.shape rest.shape

/-- The lengths of strings are stored in 16 bits or in 8. -/
def Field.Fits : Field → Prop
  | .string s => s.length < 2 ^ 16
  | .stringNull s => s.length + 1 < 2 ^ 16
  | .byteString s => s.length < 2 ^ 8
  | _ => True

def Items.Fits : Items → Prop
  | .done => True
  | .field f rest => f.Fits ∧ rest.Fits
  | .sized _ body rest => body.Fits ∧ rest.Fits

instance : DecidablePred Field.Fits := fun f => by
  cases f <;> unfold Field.Fits <;> infer_instance

theorem put_eq (b : Buffer) (f : Field) :
    f.put b = { b with data := b.data ++ f.bytes b.endn, endn := f.after b.endn } := by
  cases f <;> simp [Field.put, Field.bytes, Field.after, Buffer.putChar, Buffer.putShort,
    Buffer.putInt, Buffer.putString, Buffer.PackUint16StringNull, Buffer.PackByteString,
    Buffer.Pack, Buffer.setEndianness]

theorem getMarker_eq (b : Buffer) (w : Width) :
    ∃ z : Str, w.getMarker b = ({ b with data := b.data ++ z }, ⟨(b.data ++ z).length, b.endn, z.length⟩) ∧
      z.length = ((w.lengthField 0).bytes b.endn).length ∧
      (z.length = 2 ∧ w = .short ∨ z.length = 4 ∧ w = .int) := by
  cases w with
  | short =>
    refine ⟨shortBytes b.endn 0, ?_, rfl, .inl ⟨length_shortBytes _ _, rfl⟩⟩
    rw [length_shortBytes]
    rfl
  | int =>
    refine ⟨intBytes b.endn 0, ?_, rfl, .inr ⟨length_intBytes _ _, rfl⟩⟩
    rw [length_intBytes]
    rfl

theorem patch_append (b : Buffer) (d z s t : Str) (hz : s.length = z.length)
    (hd : b.data = d ++ z ++ t) :
    b.patch (d ++ z).length s = { b with data := d ++ s ++ t } := by
  have h1 : b.data.take ((d ++ z).length - s.length) = d := by
    rw [hd, List.length_append, hz, Nat.add_sub_cancel, List.append_assoc, List.take_left]
  have h2 : b.data.drop (d ++ z).length = t := by rw [hd, List.drop_left]
  unfold Buffer.patch
  rw [h1, h2]

theorem setMarker_eq (b c : Buffer) (w : Width) (t : Str)
    (hc : c.data = (w.getMarker b).1.data ++ t) :
    c.setAutoSizeMarker (w.getMarker b).2 =
      { c with data := b.data ++ (w.lengthField t.length).bytes b.endn ++ t } := by
  obtain ⟨z, hw, hlen, hz⟩ := getMarker_eq b w
  rw [hw] at hc ⊢
  have hsize : c.size - (b.data ++ z).length = t.length := by
    rw [Buffer.size, hc, List.length_append]
    exact Nat.add_sub_cancel_left _ _
  rcases hz with ⟨hz, rfl⟩ | ⟨hz, rfl⟩
  · have hpatch := patch_append c b.data z (shortBytes b.endn (UInt16.ofNat t.length)) t
      (by rw [length_shortBytes, hz]) hc
    simp only [Buffer.setAutoSizeMarker, hz, if_true, hsize, hpatch]
    rfl
  · have hpatch := patch_append c b.data z (intBytes b.endn (UInt32.ofNat t.length)) t
      (by rw [length_intBytes, hz]) hc
    simp only [Buffer.setAutoSizeMarker, hz, if_true, hsize, hpatch]
    rfl

/-- Writing a packet appends its bytes, whatever is in the buffer before it. -/
theorem write_eq (p : Items) (b : Buffer) :
    p.write b = { b with data := b.data ++ p.encode b.endn, endn := p.after b.endn } := by
  induction p generalizing b with
  | done => simp [Items.write, Items.encode, Items.after]
  | field f rest ih =>
    simp only [Items.write, ih, put_eq, Items.encode, Items.after, List.append_assoc]
  | sized w body rest ihb ihr =>
    obtain ⟨z, hw, -, -⟩ := getMarker_eq b w
    have hm : (w.getMarker b).1.endn = b.endn := by rw [hw]
    have hbody := ihb (w.getMarker b).1
    have hset := setMarker_eq b (body.write (w.getMarker b).1) w (body.encode b.endn)
      (by rw [hbody, hm])
    have hwrite : (Items.sized w body rest).write b =
        rest.write ((body.write (w.getMarker b).1).setAutoSizeMarker (w.getMarker b).2) := rfl
    rw [hwrite, hset, ihr]
    have hpos : (w.getMarker b).1.out_pos = b.out_pos := by rw [hw]
    simp only [hbody, hm, hpos, Items.encode, Items.after, List.append_assoc]

theorem get_of_left {b : Buffer} {f : Field} {rest : Str} (hf : f.Fits)
    (h : b.left = f.bytes b.endn ++ rest) :
    (f.kind.get b).1 = f ∧ (f.kind.get b).2.left = rest ∧
      (f.kind.get b).2.endn = f.after b.endn := by
  cases f with
  | char c =>
    simp only [Field.kind, Kind.get, Field.after, Buffer.getChar_of_left h]
    simp [h, Field.bytes]
  | short l =>
    simp only [Field.kind, Kind.get, Field.after, Buffer.getShort_of_left h]
    simp [h, Field.bytes]
  | int l =>
    simp only [Field.kind, Kind.get, Field.after, Buffer.getInt_of_left h]
    simp [h, Field.bytes]
  | string s =>
    have hlen : (UInt16.ofNat s.length).toNat = s.length := by
      simpa using Nat.mod_eq_of_lt hf
    simp only [Field.bytes, List.append_assoc] at h
    have hroom : ¬ b.out_pos + 2 > b.data.length := by
      have hl := congrArg List.length h
      rw [Buffer.length_left] at hl
      simp only [List.length_append, length_shortBytes] at hl
      omega
    have hleft : (b.advance 2).left = s ++ rest := by simp [h]
    obtain ⟨h1, h2, h3⟩ := Buffer.Unpack_of_left hleft
    simp only [Field.kind, Kind.get, Field.after, Buffer.getString, if_neg hroom,
      Buffer.getShort_of_left h, hlen]
    rw [h1]
    exact ⟨rfl, h2, h3⟩
  | stringNull s =>
    have hlen : (UInt16.ofNat (s.length + 1)).toNat = s.length + 1 := by
      simpa using Nat.mod_eq_of_lt hf
    have hpos : UInt16.ofNat (s.length + 1) > 0 := by
      rw [gt_iff_lt, UInt16.lt_iff_toNat_lt, hlen]
      simp
    simp only [Field.bytes, List.append_assoc] at h
    have hleft : (b.advance 2).left = s ++ ([0] ++ rest) := by simp [h]
    obtain ⟨h1, h2, h3⟩ := Buffer.Unpack_of_left hleft
    simp only [Field.kind, Kind.get, Field.after, Buffer.UnpackUint16StringNull,
      Buffer.getShort_of_left h, if_pos hpos, hlen, Nat.add_sub_cancel]
    rw [h1]
    exact ⟨rfl, by simp [h2], h3⟩
  | byteString s =>
    have hlen : (UInt8.ofNat s.length).toNat = s.length := by
      simpa using Nat.mod_eq_of_lt hf
    simp only [Field.bytes, List.cons_append] at h
    have hleft : (b.advance 1).left = s ++ rest := by simp [h]
    obtain ⟨h1, h2, h3⟩ := Buffer.Unpack_of_left hleft
    simp only [Field.kind, Kind.get, Field.after, Buffer.UnpackByteString,
      Buffer.getChar_of_left h, hlen]
    rw [h1]
    exact ⟨rfl, h2, h3⟩
  | raw s =>
    have hleft : b.left = s ++ rest := h
    obtain ⟨h1, h2, h3⟩ := Buffer.Unpack_of_left hleft
    simp only [Field.kind, Kind.get, Field.after]
    rw [h1]
    exact ⟨rfl, h2, h3⟩
  | order e => exact ⟨rfl, h, rfl⟩

theorem kind_lengthField (w : Width) (n : ℕ) : (w.lengthField n).kind = w.kind := by
  cases w <;> rfl

theorem fits_lengthField (w : Width) (n : ℕ) : (w.lengthField n).Fits := by
  cases w <;> trivial

theorem after_lengthField (w : Width) (n : ℕ) (e : Endian) : (w.lengthField n).after e = e := by
  cases w <;> rfl

theorem read_of_left (p : Items) (hp : p.Fits) (b : Buffer) (rest : Str)
    (h : b.left = p.encode b.endn ++ rest) :
    (p.shape.read b).1 = p.fields b.endn ∧ (p.shape.read b).2.left = rest ∧
      (p.shape.read b).2.endn = p.after b.endn := by
  induction p generalizing b rest with
  | done => exact ⟨rfl, h, rfl⟩
  | field f q ih =>
    simp only [Items.encode, List.append_assoc] at h
    obtain ⟨h1, h2, h3⟩ := get_of_left hp.1 h
    rw [← h3] at h2
    obtain ⟨g1, g2, g3⟩ := ih hp.2 _ _ h2
    simp only [Items.shape, Shape.read, Items.fields, Items.after, h1, g1, g2, g3, h3, and_self]
  | sized w body q ihb ihr =>
    simp only [Items.encode, List.append_assoc] at h
    obtain ⟨h1, h2, h3⟩ := get_of_left (fits_lengthField w _) h
    rw [kind_lengthField] at h1 h2 h3
    rw [after_lengthField] at h3
    rw [← h3] at h2
    obtain ⟨g1, g2, g3⟩ := ihb hp.1 _ _ h2
    rw [← g3] at g2
    obtain ⟨k1, k2, k3⟩ := ihr hp.2 _ _ g2
    simp only [Items.shape, Shape.read, Items.fields, Items.after, h1, g1, k1, k2, k3, g3, h3,
      and_self]

/-- A number in the other byte order, and a part with a string and a part of its own. -/
def nested : Items :=
  .field (.order .LITTLE) (.field (.short 258) (.field (.order .BIG)
    (.sized .short (.field (.stringNull (bytes "hi")) (.sized .int (.field (.char 7) .done) .done))
      (.field (.byteString (bytes "end")) .done))))

end CenterIM.PacketLayout

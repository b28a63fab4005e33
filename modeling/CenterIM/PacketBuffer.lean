import CenterIM.ByteText

/-!
# The packet buffer

Numbers and strings are packed at the end of a buffer and unpacked at a position in it, in the
byte order that the buffer has at that moment. The length of a part that is still to be written
is left open, and filled in through a marker when the part is complete. Positions and sizes are
those of buffers under 4 GiB.
-/
namespace CenterIM.PacketBuffer
open ByteText

inductive Endian
  | BIG | LITTLE
  deriving DecidableEq, Repr

def shortBytes : Endian → UInt16 → Str
  | .BIG, l => [(l >>> 8).toUInt8, l.toUInt8]
  | .LITTLE, l => [l.toUInt8, (l >>> 8).toUInt8]

def intBytes : Endian → UInt32 → Str
  | .BIG, l => [(l >>> 24).toUInt8, (l >>> 16).toUInt8, (l >>> 8).toUInt8, l.toUInt8]
  | .LITTLE, l => [l.toUInt8, (l >>> 8).toUInt8, (l >>> 16).toUInt8, (l >>> 24).toUInt8]

def shortOf : Endian → Byte → Byte → UInt16
  | .BIG, a, b => (a.toUInt16 <<< 8) + b.toUInt16
  | .LITTLE, a, b => a.toUInt16 + (b.toUInt16 <<< 8)

def intOf : Endian → Byte → Byte → Byte → Byte → UInt32
  | .BIG, a, b, c, d =>
    (a.toUInt32 <<< 24) + (b.toUInt32 <<< 16) + (c.toUInt32 <<< 8) + d.toUInt32
  | .LITTLE, a, b, c, d =>
    a.toUInt32 + (b.toUInt32 <<< 8) + (c.toUInt32 <<< 16) + (d.toUInt32 <<< 24)

structure Buffer where
  data : Str := []
  endn : Endian := .BIG
  out_pos : ℕ := 0
  deriving DecidableEq, Repr

/-- Where a length is to be filled in: behind it, its byte order, and its width. -/
structure Marker where
  position : ℕ
  endianness : Endian
  size : ℕ

namespace Buffer

def ofBytes (d : Str) : Buffer := { data := d }

def size (b : Buffer) : ℕ := b.data.length

/-- An unsigned difference, so that past the end it is a very large number. -/
def remains (b : Buffer) : ℕ :=
  if b.out_pos ≤ b.data.length then b.data.length - b.out_pos
  else 2 ^ 32 - (b.out_pos - b.data.length)

def beforeEnd (b : Buffer) : Bool := b.out_pos < b.data.length

def empty (b : Buffer) : Bool := b.data.isEmpty

def clear (b : Buffer) : Buffer := { b with data := [], out_pos := 0 }

def advance (b : Buffer) (ad : ℕ) : Buffer := { b with out_pos := b.out_pos + ad }

def setPos (b : Buffer) (o : ℕ) : Buffer := { b with out_pos := o }

def setEndianness (b : Buffer) (e : Endian) : Buffer := { b with endn := e }

/-- The first `sz` bytes go to the end of another buffer. -/
def chopOffBuffer (b o : Buffer) (sz : ℕ) : Buffer × Buffer :=
  ({ b with data := b.data.drop sz, out_pos := 0 }, { o with data := o.data ++ b.data.take sz })

def Pack (b : Buffer) (s : Str) : Buffer := { b with data := b.data ++ s }

def putChar (b : Buffer) (l : Byte) : Buffer := b.Pack [l]

def putShort (b : Buffer) (l : UInt16) : Buffer := b.Pack (shortBytes b.endn l)

def putInt (b : Buffer) (l : UInt32) : Buffer := b.Pack (intBytes b.endn l)

/-- `operator<<(const string&)`. -/
def putString (b : Buffer) (s : Str) : Buffer := (b.putShort (UInt16.ofNat s.length)).Pack s

def PackUint16StringNull (b : Buffer) (s : Str) : Buffer :=
  ((b.putShort (UInt16.ofNat (s.length + 1))).Pack s).putChar 0

def PackByteString (b : Buffer) (s : Str) : Buffer := (b.putChar (UInt8.ofNat s.length)).Pack s

def getAutoSizeShortMarker (b : Buffer) : Buffer × Marker :=
  let b := b.putShort 0
  (b, ⟨b.size, b.endn, 2⟩)

def getAutoSizeIntMarker (b : Buffer) : Buffer × Marker :=
  let b := b.putInt 0
  (b, ⟨b.size, b.endn, 4⟩)

def patch (b : Buffer) (position : ℕ) (s : Str) : Buffer :=
  { b with data := b.data.take (position - s.length) ++ s ++ b.data.drop position }

def setAutoSizeMarker (b : Buffer) (m : Marker) : Buffer :=
  let autosize := b.size - m.position
  if m.size = 2 then b.patch m.position (shortBytes m.endianness (UInt16.ofNat autosize))
  else if m.size = 4 then b.patch m.position (intBytes m.endianness (UInt32.ofNat autosize))
  else b

def getChar (b : Buffer) : Byte × Buffer :=
  match b.data.drop b.out_pos with
  | [] => (0, b)
  | c :: _ => (c, b.advance 1)

/-- A short that is not all there counts as 0, and is passed all the same. -/
def getShort (b : Buffer) : UInt16 × Buffer :=
  match b.data.drop b.out_pos with
  | c :: d :: _ => (shortOf b.endn c d, b.advance 2)
  | _ => (0, b.advance 2)

def getInt (b : Buffer) : UInt32 × Buffer :=
  match b.data.drop b.out_pos with
  | c :: d :: e :: f :: _ => (intOf b.endn c d e f, b.advance 4)
  | _ => (0, b.advance 4)

/-- `Unpack(string&, size)`: as much of it as is left. -/
def Unpack (b : Buffer) (size : ℕ) : Str × Buffer :=
  if b.out_pos ≥ b.data.length then ([], b)
  else
    let size := if b.out_pos + size > b.data.length then b.data.length - b.out_pos else size
    ((b.data.drop b.out_pos).take size, b.advance size)

/-- `operator>>(string&)`. -/
def getString (b : Buffer) : Str × Buffer :=
  if b.out_pos + 2 > b.data.length then ([], b.advance 2)
  else
    let (sz, b) := b.getShort
    b.Unpack sz.toNat

def UnpackUint16StringNull (b : Buffer) : Str × Buffer :=
  let (sh, b) := b.getShort
  if sh > 0 then
    let (s, b) := b.Unpack (sh.toNat - 1)
    (s, b.advance 1)
  else ([], b)

def UnpackByteString (b : Buffer) : Str × Buffer :=
  let (c, b) := b.getChar
  b.Unpack c.toNat

end Buffer

@[simp] theorem length_shortBytes (e : Endian) (l : UInt16) : (shortBytes e l).length = 2 := by
  cases e <;> rfl

@[simp] theorem length_intBytes (e : Endian) (l : UInt32) : (intBytes e l).length = 4 := by
  cases e <;> rfl

theorem shortOf_shortBytes (e : Endian) (l : UInt16) :
    ∃ a b, shortBytes e l = [a, b] ∧ shortOf e a b = l := by
  have hl := l.toNat_lt
  cases e with
  | BIG =>
    refine ⟨_, _, rfl, ?_⟩
    apply UInt16.toNat_inj.mp
    simp [shortOf, UInt16.toNat_add, UInt16.toNat_shiftLeft, UInt16.toNat_shiftRight,
      Nat.shiftLeft_eq, Nat.shiftRight_eq_div_pow]
    omega
  | LITTLE =>
    refine ⟨_, _, rfl, ?_⟩
    apply UInt16.toNat_inj.mp
    simp [shortOf, UInt16.toNat_add, UInt16.toNat_shiftLeft, UInt16.toNat_shiftRight,
      Nat.shiftLeft_eq, Nat.shiftRight_eq_div_pow]
    omega

theorem intOf_intBytes (e : Endian) (l : UInt32) :
    ∃ a b c d, intBytes e l = [a, b, c, d] ∧ intOf e a b c d = l := by
  have hl := l.toNat_lt
  cases e with
  | BIG =>
    refine ⟨_, _, _, _, rfl, ?_⟩
    apply UInt32.toNat_inj.mp
    simp [intOf, UInt32.toNat_add, UInt32.toNat_shiftLeft, UInt32.toNat_shiftRight,
      Nat.shiftLeft_eq, Nat.shiftRight_eq_div_pow]
    omega
  | LITTLE =>
    refine ⟨_, _, _, _, rfl, ?_⟩
    apply UInt32.toNat_inj.mp
    simp [intOf, UInt32.toNat_add, UInt32.toNat_shiftLeft, UInt32.toNat_shiftRight,
      Nat.shiftLeft_eq, Nat.shiftRight_eq_div_pow]
    omega

namespace Buffer

def left (b : Buffer) : Str := b.data.drop b.out_pos

@[simp] theorem left_advance (b : Buffer) (n : ℕ) : (b.advance n).left = b.left.drop n := by
  simp [left, advance, List.drop_drop]

@[simp] theorem left_setEndianness (b : Buffer) (e : Endian) : (b.setEndianness e).left = b.left :=
  rfl

@[simp] theorem left_ofBytes (d : Str) : (ofBytes d).left = d := rfl

@[simp] theorem endn_advance (b : Buffer) (n : ℕ) : (b.advance n).endn = b.endn := rfl

theorem beforeEnd_eq_false_iff (b : Buffer) : b.beforeEnd = false ↔ b.left = [] := by
  simp [beforeEnd, left, List.drop_eq_nil_iff]

theorem length_left (b : Buffer) : b.left.length = b.data.length - b.out_pos := by
  simp [left]

theorem remains_eq {b : Buffer} (h : b.out_pos ≤ b.data.length) : b.remains = b.left.length := by
  rw [remains, if_pos h, length_left]

variable {b : Buffer} {rest : Str}

theorem getChar_of_left {c : Byte} (h : b.left = c :: rest) : b.getChar = (c, b.advance 1) := by
  unfold getChar
  rw [left] at h
  rw [h]

theorem getShort_of_left {l : UInt16} (h : b.left = shortBytes b.endn l ++ rest) :
    b.getShort = (l, b.advance 2) := by
  obtain ⟨c, d, hcd, hl⟩ := shortOf_shortBytes b.endn l
  rw [hcd] at h
  unfold getShort
  rw [left] at h
  simp only [h, List.cons_append, hl]

theorem getInt_of_left {l : UInt32} (h : b.left = intBytes b.endn l ++ rest) :
    b.getInt = (l, b.advance 4) := by
  obtain ⟨c, d, e, f, hcd, hl⟩ := intOf_intBytes b.endn l
  rw [hcd] at h
  unfold getInt
  rw [left] at h
  simp only [h, List.cons_append, hl]

theorem Unpack_eq (b : Buffer) (n : ℕ) :
    (b.Unpack n).1 = b.left.take n ∧ (b.Unpack n).2.left = b.left.drop n ∧
      (b.Unpack n).2.endn = b.endn := by
  unfold Unpack
  by_cases hp : b.out_pos ≥ b.data.length
  · have hnil : b.left = [] := by simpa [left, List.drop_eq_nil_iff] using hp
    rw [if_pos hp]
    simp [hnil]
  · rw [if_neg hp]
    by_cases hn : b.out_pos + n > b.data.length
    · have hlen : b.left.length = b.data.length - b.out_pos := length_left b
      simp only [if_pos hn, left_advance, endn_advance, and_true]
      rw [← hlen]
      have h1 : b.left.take b.left.length = b.left.take n := by
        rw [List.take_length, List.take_of_length_le (by omega)]
      have h2 : b.left.drop b.left.length = b.left.drop n := by
        rw [List.drop_length, List.drop_of_length_le (by omega)]
      exact ⟨h1, h2⟩
    · simp [if_neg hn, left, advance]

theorem Unpack_of_left {s : Str} (h : b.left = s ++ rest) :
    (b.Unpack s.length).1 = s ∧ (b.Unpack s.length).2.left = rest ∧
      (b.Unpack s.length).2.endn = b.endn := by
  obtain ⟨h1, h2, h3⟩ := Unpack_eq b s.length
  rw [h1, h2, h3, h, List.take_left, List.drop_left]
  exact ⟨rfl, rfl, rfl⟩

end Buffer

end CenterIM.PacketBuffer

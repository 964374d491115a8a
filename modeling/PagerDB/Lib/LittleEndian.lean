import Mathlib.Algebra.Ring.Nat
import Mathlib.Data.List.TakeDrop
import Mathlib.Order.Fin.Basic

/-! Fixed-width little-endian integers in byte strings, and reading a field at an offset. -/
namespace LittleEndian

abbrev Octet := Fin 256

instance instNeZeroOctet : NeZero 256 := ⟨by decide⟩

/-- The low `width` bytes of `n`, least significant first. -/
def encode : Nat → Nat → List Octet
  | 0, _ => []
  | width + 1, n => ⟨n % 256, Nat.mod_lt n (by decide)⟩ :: encode width (n / 256)

def decode : List Octet → Nat
  | [] => 0
  | b :: bs => b.val + 256 * decode bs

@[simp] theorem length_encode (width n : Nat) : (encode width n).length = width := by
  induction width generalizing n with
  | zero => rfl
  | succ width ih => simp only [encode, List.length_cons, ih]

theorem decode_encode (width n : Nat) : decode (encode width n) = n % 256 ^ width := by
  induction width generalizing n with
  | zero => simp [encode, decode, Nat.mod_one]
  | succ width ih =>
    simp only [encode, decode, ih]
    rw [Nat.pow_succ, Nat.mul_comm (256 ^ width) 256, Nat.mod_mul]

theorem decode_encode_of_lt {width n : Nat} (fits : n < 256 ^ width) :
    decode (encode width n) = n := by
  rw [decode_encode, Nat.mod_eq_of_lt fits]

theorem decode_lt (bytes : List Octet) : decode bytes < 256 ^ bytes.length := by
  induction bytes with
  | nil => simp [decode]
  | cons b bs ih =>
    have low := b.isLt
    simp only [decode, List.length_cons, Nat.pow_succ]
    omega

theorem encode_decode (bytes : List Octet) : encode bytes.length (decode bytes) = bytes := by
  induction bytes with
  | nil => rfl
  | cons b bs ih =>
    have low := b.isLt
    have head : (b.val + 256 * decode bs) % 256 = b.val := by omega
    have tail : (b.val + 256 * decode bs) / 256 = decode bs := by omega
    simp only [decode, List.length_cons, encode, head, tail, ih]

def field (offset width : Nat) (bytes : List Octet) : Nat :=
  decode ((bytes.drop offset).take width)

theorem field_lt (offset width : Nat) (bytes : List Octet) :
    field offset width bytes < 256 ^ width := by
  have bound := decode_lt ((bytes.drop offset).take width)
  have short : ((bytes.drop offset).take width).length ≤ width := by simp
  exact lt_of_lt_of_le bound (Nat.pow_le_pow_right (by decide) short)

def layout : List (Nat × Nat) → List Octet
  | [] => []
  | (width, n) :: fields => encode width n ++ layout fields

def widths (fields : List (Nat × Nat)) : Nat := (fields.map Prod.fst).sum

@[simp] theorem length_layout (fields : List (Nat × Nat)) :
    (layout fields).length = widths fields := by
  induction fields with
  | nil => rfl
  | cons f fields ih => simp [layout, widths, ih]

theorem layout_append (left right : List (Nat × Nat)) :
    layout (left ++ right) = layout left ++ layout right := by
  induction left with
  | nil => rfl
  | cons f left ih => simp [layout, ih]

/-- A field of a layout is read back at the sum of the widths before it, whatever follows. -/
theorem field_layout (left : List (Nat × Nat)) (width n : Nat) (right : List (Nat × Nat))
    (rest : List Octet) :
    field (widths left) width (layout (left ++ (width, n) :: right) ++ rest) =
      n % 256 ^ width := by
  have read : ((layout (left ++ (width, n) :: right) ++ rest).drop (widths left)).take width =
      encode width n := by
    rw [layout_append, List.append_assoc, ← length_layout left, List.drop_left, layout,
      List.append_assoc, List.take_left' (length_encode width n)]
  rw [field, read, decode_encode]

def fieldsAt (bytes : List Octet) : Nat → List Nat → List (Nat × Nat)
  | _, [] => []
  | offset, width :: rest => (width, field offset width bytes) :: fieldsAt bytes (offset + width) rest

theorem layout_fieldsAt {bytes : List Octet} {offset : Nat} {ws : List Nat}
    (enough : offset + ws.sum ≤ bytes.length) :
    layout (fieldsAt bytes offset ws) = (bytes.drop offset).take ws.sum := by
  induction ws generalizing offset with
  | nil => simp [fieldsAt, layout]
  | cons width rest ih =>
    rw [List.sum_cons] at enough ⊢
    have length : ((bytes.drop offset).take width).length = width := by
      rw [List.length_take, List.length_drop]
      omega
    have head : encode width (field offset width bytes) = (bytes.drop offset).take width := by
      have whole := encode_decode ((bytes.drop offset).take width)
      rwa [length] at whole
    rw [fieldsAt, layout, head, ih (by omega), List.take_add, List.drop_drop]

end LittleEndian

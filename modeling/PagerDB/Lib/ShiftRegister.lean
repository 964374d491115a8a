import Mathlib.Algebra.Ring.Nat
import Mathlib.Data.Nat.Bitwise
import Mathlib.Data.List.Basic

/-! A reflected cyclic redundancy check: a shift register of any width that divides the bits fed
to it, one at a time, by a polynomial. Its rounds are linear in exclusive or; where the polynomial
has its top bit they lose nothing. -/
namespace ShiftRegister

variable {w : Nat} (poly : BitVec w)

/-- One place down; the bit that falls out subtracts the polynomial. -/
def round (c : BitVec w) : BitVec w := if c.getLsbD 0 then (c >>> 1) ^^^ poly else c >>> 1

def rounds : Nat → BitVec w → BitVec w
  | 0, c => c
  | n + 1, c => rounds n (round poly c)

def bit (w : Nat) (b : Bool) : BitVec w := BitVec.ofNat w b.toNat

/-- The register after the bits, each added to the low end before its round. -/
def serial (c : BitVec w) (bits : List Bool) : BitVec w :=
  bits.foldl (fun c b => round poly (c ^^^ bit w b)) c

def value : List Bool → Nat
  | [] => 0
  | b :: bits => b.toNat + 2 * value bits

variable {poly}

/- Linearity. -/

theorem round_xor (a b : BitVec w) : round poly (a ^^^ b) = round poly a ^^^ round poly b := by
  unfold round
  rw [BitVec.getLsbD_xor, BitVec.ushiftRight_xor_distrib]
  cases a.getLsbD 0 <;> cases b.getLsbD 0
  · rfl
  · exact BitVec.xor_assoc ..
  · change a >>> 1 ^^^ b >>> 1 ^^^ poly = a >>> 1 ^^^ poly ^^^ b >>> 1
    ac_rfl
  · change a >>> 1 ^^^ b >>> 1 = a >>> 1 ^^^ poly ^^^ (b >>> 1 ^^^ poly)
    have cancel : a >>> 1 ^^^ poly ^^^ (b >>> 1 ^^^ poly) =
      a >>> 1 ^^^ b >>> 1 ^^^ (poly ^^^ poly) := by ac_rfl
    rw [cancel, BitVec.xor_self, BitVec.xor_zero]

theorem rounds_xor (n : Nat) (a b : BitVec w) :
    rounds poly n (a ^^^ b) = rounds poly n a ^^^ rounds poly n b := by
  induction n generalizing a b with
  | zero => rfl
  | succ n ih => rw [rounds, rounds, rounds, round_xor, ih]

theorem rounds_add (n m : Nat) (c : BitVec w) : rounds poly (n + m) c = rounds poly m (rounds poly n c) := by
  induction n generalizing c with
  | zero => rw [Nat.zero_add]; rfl
  | succ n ih => rw [Nat.succ_add, rounds, rounds, ih]

theorem round_even {c : BitVec w} (low : c.getLsbD 0 = false) : round poly c = c >>> 1 := by
  rw [round, low]
  rfl

theorem rounds_low {n : Nat} {c : BitVec w} (low : ∀ i < n, c.getLsbD i = false) :
    rounds poly n c = c >>> n := by
  induction n generalizing c with
  | zero => rw [rounds, BitVec.ushiftRight_zero]
  | succ n ih =>
    rw [rounds, round_even (low 0 (Nat.succ_pos n)), ih, Nat.add_comm, BitVec.shiftRight_add]
    intro i lt
    rw [BitVec.getLsbD_ushiftRight, Nat.add_comm]
    exact low (i + 1) (Nat.succ_lt_succ lt)

theorem rounds_split (n m : Nat) (c : BitVec w) : rounds poly (n + m) c =
    rounds poly (n + m) (c &&& BitVec.ofNat w (2 ^ n - 1)) ^^^ rounds poly m (c >>> n) := by
  have cut : c = (c &&& BitVec.ofNat w (2 ^ n - 1)) ^^^ (c &&& ~~~ BitVec.ofNat w (2 ^ n - 1)) := by
    refine BitVec.eq_of_getLsbD_eq fun i lt => ?_
    simp only [BitVec.getLsbD_xor, BitVec.getLsbD_and, BitVec.getLsbD_not, lt, decide_true]
    cases c.getLsbD i <;> cases (BitVec.ofNat w (2 ^ n - 1)).getLsbD i <;> rfl
  have mask : ∀ i, i < w → (BitVec.ofNat w (2 ^ n - 1)).getLsbD i = decide (i < n) := by
    intro i lt
    rw [BitVec.getLsbD_ofNat, Nat.testBit_two_pow_sub_one, decide_eq_true lt, Bool.true_and]
  have high : rounds poly n (c &&& ~~~ BitVec.ofNat w (2 ^ n - 1)) = c >>> n := by
    rw [rounds_low]
    · ext i lt
      simp only [BitVec.getElem_ushiftRight, BitVec.getLsbD_and, BitVec.getLsbD_not]
      by_cases inside : n + i < w
      · rw [mask _ inside]
        simp [inside]
      · rw [BitVec.getLsbD_of_ge c (n + i) (not_lt.mp inside), Bool.false_and]
    · intro i lt
      rw [BitVec.getLsbD_and, BitVec.getLsbD_not]
      by_cases inside : i < w
      · simp only [mask i inside, lt, decide_true, Bool.not_true, Bool.and_false]
      · rw [BitVec.getLsbD_of_ge c i (not_lt.mp inside), Bool.false_and]
  have apart : rounds poly (n + m) (_ ^^^ _) = _ := rounds_xor (n + m) (c &&& BitVec.ofNat w (2 ^ n - 1))
    (c &&& ~~~ BitVec.ofNat w (2 ^ n - 1))
  rw [← cut, rounds_add n m (c &&& ~~~ BitVec.ofNat w (2 ^ n - 1)), high] at apart
  exact apart

/- Bits at once. -/

theorem value_lt (bits : List Bool) : value bits < 2 ^ bits.length := by
  induction bits with
  | nil => exact Nat.one_pos
  | cons b bits ih =>
    have small := b.toNat_lt
    simp only [value, List.length_cons, Nat.pow_succ]
    omega

theorem value_inj {a b : List Bool} (length : a.length = b.length) (same : value a = value b) : a = b := by
  induction a generalizing b with
  | nil => exact (List.length_eq_zero_iff.mp length.symm).symm
  | cons x a ih =>
    cases b with
    | nil => cases length
    | cons y b =>
      simp only [value] at same
      have low := x.toNat_lt
      have low' := y.toNat_lt
      have head : x.toNat = y.toNat := by omega
      have tail : value a = value b := by omega
      have bits : x = y := by
        cases x <;> cases y
        · rfl
        · cases head
        · cases head
        · rfl
      rw [ih (Nat.succ.inj length) tail, bits]

theorem value_append (a b : List Bool) : value (a ++ b) = value a + 2 ^ a.length * value b := by
  induction a with
  | nil => simp [value]
  | cons x a ih =>
    rw [List.cons_append, value, value, ih, List.length_cons, Nat.pow_succ, Nat.mul_add, Nat.add_assoc,
      Nat.mul_comm (2 ^ a.length) 2, Nat.mul_assoc]

theorem serial_eq_rounds {bits : List Bool} (fits : bits.length ≤ w) (c : BitVec w) :
    serial poly c bits = rounds poly bits.length (c ^^^ BitVec.ofNat w (value bits)) := by
  induction bits generalizing c with
  | nil => simp [serial, rounds, value]
  | cons b bits ih =>
    rw [List.length_cons] at fits
    have room : 2 * value bits < 2 ^ w := by
      have small := value_lt bits
      have le : 2 ^ (bits.length + 1) ≤ 2 ^ w := Nat.pow_le_pow_right (by decide) fits
      rw [Nat.pow_succ] at le
      omega
    have parts : BitVec.ofNat w (value (b :: bits)) = bit w b ^^^ BitVec.ofNat w (2 * value bits) := by
      apply BitVec.eq_of_toNat_eq
      have small := b.toNat_lt
      have whole : b.toNat + 2 * value bits = b.toNat ^^^ 2 * value bits := by
        apply Nat.eq_of_testBit_eq
        intro i
        cases i with
        | zero => cases b <;> simp [Nat.testBit_zero, Nat.add_mod]
        | succ i =>
          have half : (b.toNat + 2 * value bits) / 2 = value bits := by omega
          have none : b.toNat / 2 = 0 := by omega
          rw [Nat.testBit_xor, Nat.testBit_succ, Nat.testBit_succ, Nat.testBit_succ, half, none]
          simp
      simp only [value, bit, BitVec.toNat_xor, BitVec.toNat_ofNat, whole, Nat.xor_mod_two_pow]
    have double : round poly (BitVec.ofNat w (2 * value bits)) = BitVec.ofNat w (value bits) := by
      rw [round_even]
      · apply BitVec.eq_of_toNat_eq
        simp only [BitVec.toNat_ushiftRight, BitVec.toNat_ofNat, Nat.mod_eq_of_lt room, Nat.shiftRight_one]
        rw [Nat.mul_div_cancel_left _ (by decide : 0 < 2), Nat.mod_eq_of_lt (by omega)]
      · rw [BitVec.getLsbD_ofNat, Nat.testBit_zero, Nat.mul_mod_right]
        simp
    have rest := ih (Nat.le_of_succ_le fits) (round poly (c ^^^ bit w b))
    rw [List.length_cons, rounds, parts, ← BitVec.xor_assoc, round_xor, double, ← rest]
    rfl

theorem serial_zeros (n : Nat) (c : BitVec w) : serial poly c (List.replicate n false) = rounds poly n c := by
  induction n generalizing c with
  | zero => rfl
  | succ n ih =>
    have zero : c ^^^ bit w false = c := BitVec.xor_zero
    rw [rounds, ← ih, List.replicate_succ, serial, List.foldl_cons, zero]
    rfl

theorem serial_append (c : BitVec w) (a b : List Bool) :
    serial poly c (a ++ b) = serial poly (serial poly c a) b := List.foldl_append

/- Nothing is lost. -/

section

variable (top : poly.msb = true)

include top

theorem round_eq_zero {c : BitVec w} (zero : round poly c = 0#w) : c = 0#w := by
  unfold round at zero
  cases low : c.getLsbD 0 with
  | true =>
    rw [low, if_pos rfl] at zero
    have high := congrArg BitVec.msb zero
    rw [BitVec.msb_xor, top, BitVec.msb_ushiftRight] at high
    simp at high
  | false =>
    rw [low, if_neg Bool.false_ne_true] at zero
    apply BitVec.eq_of_getLsbD_eq
    intro i lt
    cases i with
    | zero => simpa using low
    | succ i =>
      have here := congrArg (fun v => BitVec.getLsbD v i) zero
      simpa [BitVec.getLsbD_ushiftRight, Nat.add_comm] using here

theorem round_inj {a b : BitVec w} (same : round poly a = round poly b) : a = b := by
  have zero : round poly (a ^^^ b) = 0#w := by rw [round_xor, same, BitVec.xor_self]
  exact BitVec.xor_eq_zero_iff.mp (round_eq_zero top zero)

theorem rounds_inj {n : Nat} {a b : BitVec w} (same : rounds poly n a = rounds poly n b) : a = b := by
  induction n generalizing a b with
  | zero => exact same
  | succ n ih => exact round_inj top (ih same)

theorem serial_inj {bits : List Bool} {a b : BitVec w} (same : serial poly a bits = serial poly b bits) :
    a = b := by
  induction bits generalizing a b with
  | nil => exact same
  | cons x bits ih => exact (BitVec.xor_left_inj _).mp (round_inj top (ih same))

/-- A burst no longer than the register shows. -/
theorem serial_burst {pre x y post : List Bool} {c : BitVec w} (length : x.length = y.length)
    (short : x.length ≤ w) (same : serial poly c (pre ++ (x ++ post)) = serial poly c (pre ++ (y ++ post))) :
    x = y := by
  simp only [serial_append] at same
  have here := serial_inj top same
  generalize serial poly c pre = c at here
  have short' : y.length ≤ w := length ▸ short
  rw [serial_eq_rounds short, serial_eq_rounds short', length] at here
  have number := (BitVec.xor_right_inj _).mp (rounds_inj top here)
  apply value_inj length
  have small := (value_lt x).trans_le (Nat.pow_le_pow_right (by decide) short)
  have small' := (value_lt y).trans_le (Nat.pow_le_pow_right (by decide) short')
  have nat := congrArg BitVec.toNat number
  rwa [BitVec.toNat_ofNat, BitVec.toNat_ofNat, Nat.mod_eq_of_lt small, Nat.mod_eq_of_lt small'] at nat

end

end ShiftRegister

import PagerDB.Lib.ShiftRegister
import PagerDB.Wal.Wire

/-! CRC-32 as the code computes it: the sliced loop over generated tables, and the loop over the
two ARM instructions. Both are the bit-serial division, for every cut of the data. -/
namespace PagerDB.Crc

open Wire LittleEndian ShiftRegister

/-- Lowest bit first. -/
def octetBits (b : Byte) : List Bool := (List.range 8).map b.val.testBit

def serialBit (crc : UInt32) (bit : Bool) : UInt32 := crc32Round (crc ^^^ if bit then 1 else 0)

/-- The reflected CRC-32, bit by bit. -/
def crc32Serial (crc : UInt32) (bytes : Bytes) : UInt32 := (bytes.flatMap octetBits).foldl serialBit crc

/- Portable: slicing by 8. -/

def crc32Table : Nat → UInt32 → UInt32
  | 0, i => crc32Entry i
  | k + 1, i => (crc32Table k i >>> 8) ^^^ crc32Entry (crc32Table k i &&& 0xFF)

/-- Four bytes of memory, little-endian on every host. -/
def load32 (bytes : Bytes) : UInt32 := UInt32.ofNat (decode bytes)

def slice (low high : UInt32) : UInt32 :=
  crc32Table 7 (low &&& 0xFF) ^^^ crc32Table 6 ((low >>> 8) &&& 0xFF) ^^^
    crc32Table 5 ((low >>> 16) &&& 0xFF) ^^^ crc32Table 4 (low >>> 24) ^^^
    crc32Table 3 (high &&& 0xFF) ^^^ crc32Table 2 ((high >>> 8) &&& 0xFF) ^^^
    crc32Table 1 ((high >>> 16) &&& 0xFF) ^^^ crc32Table 0 (high >>> 24)

def crc32UpdateSliced (crc : UInt32) : Bytes → UInt32
  | b₀ :: b₁ :: b₂ :: b₃ :: b₄ :: b₅ :: b₆ :: b₇ :: rest =>
    crc32UpdateSliced (slice (load32 [b₀, b₁, b₂, b₃] ^^^ crc) (load32 [b₄, b₅, b₆, b₇])) rest
  | rest => crc32Update crc rest

/- ARM: the instructions for one byte and for eight. -/

section Arm

variable (crc32b : UInt32 → Byte → UInt32) (crc32d : UInt32 → UInt64 → UInt32)

/-- Up to the first address that is a multiple of 8. -/
def alignLoop : Nat → UInt32 → Bytes → UInt32 × Bytes
  | address, crc, b :: rest =>
    if address % 8 ≠ 0 then alignLoop (address + 1) (crc32b crc b) rest else (crc, b :: rest)
  | _, crc, [] => (crc, [])

def chunkLoop (crc : UInt32) : Bytes → UInt32 × Bytes
  | b₀ :: b₁ :: b₂ :: b₃ :: b₄ :: b₅ :: b₆ :: b₇ :: rest =>
    chunkLoop (crc32d crc (UInt64.ofNat (decode [b₀, b₁, b₂, b₃, b₄, b₅, b₆, b₇]))) rest
  | rest => (crc, rest)

def crc32UpdateArm (address : Nat) (crc : UInt32) (bytes : Bytes) : UInt32 :=
  let aligned := alignLoop crc32b address crc bytes
  let chunked := chunkLoop crc32d aligned.1 aligned.2
  chunked.2.foldl crc32b chunked.1

end Arm

/- The checksums over one of them, given where the data and the zeros lie in memory. -/

def crc32Of (update : Nat → UInt32 → Bytes → UInt32) (address : Nat) (data : Bytes) : UInt32 :=
  update address 0xFFFFFFFF data ^^^ 0xFFFFFFFF

def crc32WithZeroedField (update : Nat → UInt32 → Bytes → UInt32) (address zeros : Nat) (data : Bytes)
    (offset : Nat) : UInt32 :=
  let crc := update address 0xFFFFFFFF (data.take offset)
  let crc := update zeros crc [0, 0, 0, 0]
  let crc := update (address + offset + 4) crc (data.drop (offset + 4))
  crc ^^^ 0xFFFFFFFF

/- Words as registers. -/

def polynomial : BitVec 32 := 0xEDB88320#32

theorem round_toBitVec (c : UInt32) : (crc32Round c).toBitVec =
    ShiftRegister.round polynomial c.toBitVec := by
  have low : (c &&& 1 = 1) ↔ c.toBitVec.getLsbD 0 = true := by
    rw [← UInt32.toBitVec_inj, UInt32.toBitVec_and]
    change c.toBitVec &&& 1#32 = 1#32 ↔ _
    rw [BitVec.and_one_eq_setWidth_ofBool_getLsbD]
    cases c.toBitVec.getLsbD 0 <;> decide
  unfold crc32Round ShiftRegister.round
  by_cases odd : c &&& 1 = 1
  · rw [if_pos odd, if_pos (low.mp odd), UInt32.toBitVec_xor, UInt32.toBitVec_shiftRight]
    rfl
  · rw [if_neg odd, if_neg (mt low.mpr odd), UInt32.toBitVec_shiftRight]
    rfl

theorem iterate_toBitVec (n : Nat) (c : UInt32) :
    (Nat.iterate crc32Round n c).toBitVec = rounds polynomial n c.toBitVec := by
  induction n generalizing c with
  | zero => rfl
  | succ n ih =>
    change (Nat.iterate crc32Round n (crc32Round c)).toBitVec =
      rounds polynomial n (round polynomial c.toBitVec)
    rw [ih, round_toBitVec]

theorem entry_toBitVec (i : UInt32) : (crc32Entry i).toBitVec = rounds polynomial 8 i.toBitVec :=
  iterate_toBitVec 8 i

theorem serial_toBitVec (crc : UInt32) (bytes : Bytes) :
    (crc32Serial crc bytes).toBitVec = serial polynomial crc.toBitVec (bytes.flatMap octetBits) := by
  unfold crc32Serial serial
  generalize bytes.flatMap octetBits = bits
  induction bits generalizing crc with
  | nil => rfl
  | cons b bits ih =>
    have step : (serialBit crc b).toBitVec = ShiftRegister.round polynomial (crc.toBitVec ^^^ bit 32 b) := by
      rw [serialBit, round_toBitVec, UInt32.toBitVec_xor]
      cases b <;> rfl
    rw [List.foldl_cons, List.foldl_cons, ih, step]

theorem crc32Serial_append (crc : UInt32) (a b : Bytes) :
    crc32Serial crc (a ++ b) = crc32Serial (crc32Serial crc a) b := by
  rw [crc32Serial, List.flatMap_append, List.foldl_append]
  rfl

theorem length_octet (b : Byte) : (octetBits b).length = 8 := by
  simp [octetBits]

@[simp] theorem length_octets (bytes : Bytes) : (bytes.flatMap octetBits).length = 8 * bytes.length := by
  induction bytes with
  | nil => rfl
  | cons b bytes ih =>
    rw [List.flatMap_cons, List.length_append, ih, List.length_cons, length_octet]
    omega

theorem value_octet : ∀ b : Byte, value (octetBits b) = b.val := by
  decide +kernel

theorem value_octets (bytes : Bytes) : value (bytes.flatMap octetBits) = decode bytes := by
  induction bytes with
  | nil => rfl
  | cons b bytes ih =>
    rw [List.flatMap_cons, value_append, value_octet, ih, decode, length_octet, (by decide : 2 ^ 8 = 256)]

theorem serial_word (crc : UInt32) (bytes : Bytes) (short : bytes.length ≤ 4) :
    (crc32Serial crc bytes).toBitVec =
      rounds polynomial (8 * bytes.length) (crc.toBitVec ^^^ BitVec.ofNat 32 (decode bytes)) := by
  rw [serial_toBitVec, serial_eq_rounds (by rw [length_octets]; omega), length_octets, value_octets]

/- One byte at a time. -/

theorem rounds_byte (n : Nat) (c : BitVec 32) : rounds polynomial (8 + n) c =
    rounds polynomial (8 + n) (c &&& 0xFF#32) ^^^ rounds polynomial n (c >>> 8) :=
  rounds_split 8 n c

theorem byte_step (crc : UInt32) (b : Byte) :
    crc32Entry ((crc ^^^ UInt32.ofNat b.val) &&& 0xFF) ^^^ (crc >>> 8) = crc32Serial crc [b] := by
  apply UInt32.toBitVec_inj.mp
  have small : BitVec.ofNat 32 b.val >>> 8 = 0#32 := by
    apply BitVec.eq_of_toNat_eq
    have lt := b.isLt
    simp only [BitVec.toNat_ushiftRight, BitVec.toNat_ofNat, Nat.shiftRight_eq_div_pow]
    omega
  have serial := serial_word crc [b] (by simp)
  have number : decode [b] = b.val := by simp [decode]
  rw [number] at serial
  have split := rounds_byte 0 (crc.toBitVec ^^^ BitVec.ofNat 32 b.val)
  rw [BitVec.ushiftRight_xor_distrib, small, BitVec.xor_zero] at split
  rw [serial, UInt32.toBitVec_xor, entry_toBitVec, UInt32.toBitVec_and, UInt32.toBitVec_xor,
    UInt32.toBitVec_shiftRight]
  exact split.symm

theorem crc32Update_serial (crc : UInt32) (bytes : Bytes) :
    crc32Update crc bytes = crc32Serial crc bytes := by
  induction bytes generalizing crc with
  | nil => rfl
  | cons b bytes ih =>
    have rest := ih (crc32Entry ((crc ^^^ UInt32.ofNat b.val) &&& 0xFF) ^^^ (crc >>> 8))
    rw [byte_step, ← crc32Serial_append] at rest
    rw [crc32Update, List.foldl_cons, byte_step]
    exact rest

/-- Bytes of one length that differ in a burst of at most four have different checksums. -/
theorem crc32_burst {pre x y post : Bytes} (length : x.length = y.length) (short : x.length ≤ 4)
    (same : crc32 (pre ++ (x ++ post)) = crc32 (pre ++ (y ++ post))) : x = y := by
  have registers := (UInt32.xor_left_inj _).mp same
  rw [crc32Update_serial, crc32Update_serial, ← UInt32.toBitVec_inj, serial_toBitVec,
    serial_toBitVec] at registers
  simp only [List.flatMap_append] at registers
  have bits := serial_burst (by decide : polynomial.msb = true) (by simp only [length_octets, length])
    (by rw [length_octets]; omega) registers
  have numbers := congrArg value bits
  rw [value_octets, value_octets] at numbers
  rw [← encode_decode x, ← encode_decode y, length, numbers]

theorem octets_zeros (n : Nat) :
    (List.replicate n (0 : Byte)).flatMap octetBits = List.replicate (8 * n) false := by
  induction n with
  | zero => rfl
  | succ n ih =>
    have zero : octetBits 0 = List.replicate 8 false := by decide
    rw [List.replicate_succ, List.flatMap_cons, ih, zero, List.replicate_append_replicate, Nat.mul_succ,
      Nat.add_comm]

/- Eight bytes at a time. -/

theorem table_toBitVec (k : Nat) (i : UInt32) :
    (crc32Table k i).toBitVec = rounds polynomial (8 * (k + 1)) i.toBitVec := by
  induction k with
  | zero => exact entry_toBitVec i
  | succ k ih =>
    have split := rounds_byte 0 (rounds polynomial (8 * (k + 1)) i.toBitVec)
    rw [Nat.mul_succ 8 (k + 1), rounds_add, crc32Table, UInt32.toBitVec_xor, entry_toBitVec,
      UInt32.toBitVec_and, UInt32.toBitVec_shiftRight, ih, BitVec.xor_comm]
    exact split.symm

theorem rounds_word (k : Nat) (x : UInt32) : rounds polynomial (8 * (k + 4)) x.toBitVec =
    (crc32Table (k + 3) (x &&& 0xFF) ^^^ crc32Table (k + 2) ((x >>> 8) &&& 0xFF) ^^^
      crc32Table (k + 1) ((x >>> 16) &&& 0xFF) ^^^ crc32Table k (x >>> 24)).toBitVec := by
  have first := rounds_byte (8 * (k + 3)) x.toBitVec
  have second := rounds_byte (8 * (k + 2)) (x.toBitVec >>> 8)
  have third := rounds_byte (8 * (k + 1)) (x.toBitVec >>> 16)
  rw [← BitVec.shiftRight_add] at second third
  simp only [UInt32.toBitVec_xor, table_toBitVec, UInt32.toBitVec_and, UInt32.toBitVec_shiftRight]
  have shape : ∀ n, 8 + 8 * (k + n) = 8 * (k + (n + 1)) := fun n => by omega
  rw [shape] at first second third
  rw [first, second, third, BitVec.xor_assoc, BitVec.xor_assoc]
  rfl

theorem slice_step (crc : UInt32) (b₀ b₁ b₂ b₃ b₄ b₅ b₆ b₇ : Byte) :
    slice (load32 [b₀, b₁, b₂, b₃] ^^^ crc) (load32 [b₄, b₅, b₆, b₇]) =
      crc32Serial crc [b₀, b₁, b₂, b₃, b₄, b₅, b₆, b₇] := by
  apply UInt32.toBitVec_inj.mp
  have load : ∀ bytes, (load32 bytes).toBitVec = BitVec.ofNat 32 (decode bytes) := fun _ => rfl
  have low := rounds_word 4 (load32 [b₀, b₁, b₂, b₃] ^^^ crc)
  have high := rounds_word 0 (load32 [b₄, b₅, b₆, b₇])
  have first := serial_word crc [b₀, b₁, b₂, b₃] (by simp)
  have second := serial_word (crc32Serial crc [b₀, b₁, b₂, b₃]) [b₄, b₅, b₆, b₇] (by simp)
  rw [← crc32Serial_append, first, rounds_xor, ← rounds_add, ← load, ← load, BitVec.xor_comm crc.toBitVec,
    ← UInt32.toBitVec_xor] at second
  have join := second.trans (congrArg₂ (· ^^^ ·) low high)
  refine Eq.trans ?_ join.symm
  simp only [slice, UInt32.toBitVec_xor, BitVec.xor_assoc]

theorem crc32UpdateSliced_serial (crc : UInt32) (bytes : Bytes) :
    crc32UpdateSliced crc bytes = crc32Serial crc bytes := by
  induction crc, bytes using crc32UpdateSliced.induct with
  | case1 crc b₀ b₁ b₂ b₃ b₄ b₅ b₆ b₇ rest ih =>
    rw [crc32UpdateSliced, ih, slice_step, ← crc32Serial_append]
    rfl
  | case2 crc rest short =>
    rw [crc32UpdateSliced.eq_2 crc rest short]
    exact crc32Update_serial crc rest

/- The instructions. -/

section Arm

variable {crc32b : UInt32 → Byte → UInt32} {crc32d : UInt32 → UInt64 → UInt32}
  (byte : ∀ crc b, crc32b crc b = crc32Serial crc [b])
  (chunk : ∀ crc x, crc32d crc x = crc32Serial crc (encode 8 x.toNat))

include byte in
theorem alignLoop_serial (address : Nat) (crc : UInt32) (bytes : Bytes) :
    crc32Serial (alignLoop crc32b address crc bytes).1 (alignLoop crc32b address crc bytes).2 =
      crc32Serial crc bytes := by
  induction bytes generalizing address crc with
  | nil => rfl
  | cons b rest ih =>
    rw [alignLoop]
    split
    · rw [ih, byte, ← crc32Serial_append]
      rfl
    · rfl

include chunk in
theorem chunkLoop_serial (crc : UInt32) (bytes : Bytes) :
    crc32Serial (chunkLoop crc32d crc bytes).1 (chunkLoop crc32d crc bytes).2 = crc32Serial crc bytes := by
  induction crc, bytes using chunkLoop.induct crc32d with
  | case1 crc b₀ b₁ b₂ b₃ b₄ b₅ b₆ b₇ rest ih =>
    have whole : encode 8 (decode [b₀, b₁, b₂, b₃, b₄, b₅, b₆, b₇]) = [b₀, b₁, b₂, b₃, b₄, b₅, b₆, b₇] :=
      encode_decode [b₀, b₁, b₂, b₃, b₄, b₅, b₆, b₇]
    have small : decode [b₀, b₁, b₂, b₃, b₄, b₅, b₆, b₇] < UInt64.size := by
      simpa using decode_lt [b₀, b₁, b₂, b₃, b₄, b₅, b₆, b₇]
    rw [chunkLoop, ih, chunk, UInt64.toNat_ofNat_of_lt' small, whole, ← crc32Serial_append]
    rfl
  | case2 crc rest short => rw [chunkLoop.eq_2 crc32d crc rest short]

include byte chunk in
theorem crc32UpdateArm_serial (address : Nat) (crc : UInt32) (bytes : Bytes) :
    crc32UpdateArm crc32b crc32d address crc bytes = crc32Serial crc bytes := by
  have tail : ∀ crc (bytes : Bytes), bytes.foldl crc32b crc = crc32Serial crc bytes := by
    intro crc bytes
    induction bytes generalizing crc with
    | nil => rfl
    | cons b rest ih =>
      rw [List.foldl_cons, ih, byte, ← crc32Serial_append]
      rfl
  rw [crc32UpdateArm, tail, chunkLoop_serial chunk, alignLoop_serial byte]

end Arm

/-- One function, however it is cut and wherever the data lies; a zeroed field is four zeros. -/
structure IsCrc32 (update : Nat → UInt32 → Bytes → UInt32) : Prop where
  serial : ∀ address crc bytes, update address crc bytes = crc32Serial crc bytes
  append : ∀ address address' crc a b,
    update address crc (a ++ b) = update address' (update address crc a) b
  zeroed : ∀ address zeros data offset, offset + 4 ≤ data.length →
    crc32WithZeroedField update address zeros data offset =
      crc32Of update address (data.take offset ++ ([0, 0, 0, 0] ++ data.drop (offset + 4)))

theorem isCrc32_of_serial {update : Nat → UInt32 → Bytes → UInt32}
    (serial : ∀ address crc bytes, update address crc bytes = crc32Serial crc bytes) : IsCrc32 update := by
  constructor
  · exact serial
  · intro address address' crc a b
    rw [serial, serial, serial, crc32Serial_append]
  · intro address zeros data offset _
    simp only [crc32WithZeroedField, crc32Of, serial, crc32Serial_append]

theorem crc32_implementations_agree (crc32b : UInt32 → Byte → UInt32) (crc32d : UInt32 → UInt64 → UInt32)
    (byte : ∀ crc b, crc32b crc b = crc32Serial crc [b])
    (chunk : ∀ crc x, crc32d crc x = crc32Serial crc (encode 8 x.toNat)) :
    IsCrc32 (fun _ => crc32UpdateSliced) ∧ IsCrc32 (crc32UpdateArm crc32b crc32d) :=
  ⟨isCrc32_of_serial fun _ => crc32UpdateSliced_serial, isCrc32_of_serial (crc32UpdateArm_serial byte chunk)⟩

/-- The check value of CRC-32, through the tables and through instructions that do as documented. -/
theorem crc32_check_value :
    crc32Of (fun _ => crc32UpdateSliced) 0 [0x31, 0x32, 0x33, 0x34, 0x35, 0x36, 0x37, 0x38, 0x39] =
      0xCBF43926 ∧
      IsCrc32 (fun _ => crc32UpdateSliced) ∧
      IsCrc32 (crc32UpdateArm (fun crc b => crc32Serial crc [b])
        fun crc x => crc32Serial crc (encode 8 x.toNat)) :=
  ⟨by decide +kernel, crc32_implementations_agree _ _ (fun _ _ => rfl) fun _ _ => rfl⟩

end PagerDB.Crc

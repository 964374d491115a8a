import Mathlib.Data.List.Sort
import PagerDB.Basic
import PagerDB.Lib.Machine
import PagerDB.Lib.Memory

/-! `Page` over its 4096 bytes: the header, the slot directory growing behind it and the record area
growing towards it. Slot offsets, tombstones and all the 16-bit arithmetic are those of the code. -/
namespace PagerDB.Slotted

open MachineLib MemoryLib LittleEndian

inductive PageType where
  | kMeta | kInternal | kLeaf | kFree | kOverflow
  deriving DecidableEq

def PageType.value : PageType → Nat
  | kMeta => 0
  | kInternal => 1
  | kLeaf => 2
  | kFree => 3
  | kOverflow => 4

abbrev SlotId := Nat

def u16 (n : Nat) : Nat := n % 65536

def sub16 (a b : Nat) : Nat := u16 (a + 65536 - b)

/- Header fields, by their offsets. -/

def numSlots (m : Memory) : Nat := word m 6
def freeSpaceStart (m : Memory) : Nat := word m 16
def freeSpaceEnd (m : Memory) : Nat := word m 18
def deadBytes (m : Memory) : Nat := word m 36

def setNumSlots (m : Memory) (n : Nat) : Memory := setWord m 6 n
def setFreeSpaceStart (m : Memory) (n : Nat) : Memory := setWord m 16 n
def setFreeSpaceEnd (m : Memory) (n : Nat) : Memory := setWord m 18 n
def setDeadBytes (m : Memory) (n : Nat) : Memory := setWord m 36 n

def init (id : PageId) (type : PageType) : Memory :=
  write (fun _ => 0) 0 (layout [(4, id), (1, type.value), (1, 0), (2, 0), (8, kInvalidLsn),
    (2, kPageHeaderSize), (2, kPageSize), (4, kInvalidPageId), (4, kInvalidPageId), (4, 0),
    (4, kInvalidPageId), (2, 0), (2, 0)])

/- Slots. -/

structure Slot where
  offset : Nat
  length : Nat
  flags : Nat
  reserved : Nat
  deriving DecidableEq

def kFlagDeleted : Nat := 1

def Slot.isValid (s : Slot) : Bool := s.flags &&& kFlagDeleted = 0

def slotAddr (i : SlotId) : Nat := kPageHeaderSize + kSlotEntrySize * i

def slotAt (m : Memory) (i : SlotId) : Slot :=
  ⟨word m (slotAddr i), word m (slotAddr i + 2), word m (slotAddr i + 4), word m (slotAddr i + 6)⟩

def initSlot (m : Memory) (i : SlotId) (offset length : Nat) : Memory :=
  setWord (setWord (setWord (setWord m (slotAddr i) offset) (slotAddr i + 2) length)
    (slotAddr i + 4) 0) (slotAddr i + 6) 0

def markDeleted (m : Memory) (i : SlotId) : Memory :=
  setWord m (slotAddr i + 4) ((slotAt m i).flags ||| kFlagDeleted)

def slots (m : Memory) : List Slot := (List.range (numSlots m)).map (slotAt m)

/-- `GetRecordView`, and `none` where `GetRecordPtr` is null. -/
def getRecord (m : Memory) (i : SlotId) : Option Bytes :=
  if i < numSlots m ∧ (slotAt m i).isValid then
    some (read m (slotAt m i).offset (slotAt m i).length)
  else none

def getRecordLength (m : Memory) (i : SlotId) : Nat :=
  if i < numSlots m ∧ (slotAt m i).isValid then (slotAt m i).length else 0

/- Space. -/

def freeSpace (m : Memory) : Nat :=
  if freeSpaceEnd m ≤ freeSpaceStart m then 0 else freeSpaceEnd m - freeSpaceStart m

def canFit (m : Memory) (recordSize : Nat) : Bool := u16 (kSlotEntrySize + recordSize) ≤ freeSpace m

/- Records. -/

def insertRecord (m : Memory) (data : Bytes) : Except Status SlotId × Memory :=
  if canFit m data.length then
    let newSlotId := numSlots m
    let newDataOffset := sub16 (freeSpaceEnd m) data.length
    let m := setNumSlots m (newSlotId + 1)
    let m := setFreeSpaceStart m (kPageHeaderSize + numSlots m * kSlotEntrySize)
    let m := setFreeSpaceEnd m newDataOffset
    let m := initSlot m newSlotId newDataOffset data.length
    (.ok newSlotId, write m newDataOffset data)
  else (.error (.NoSpace "Page full"), m)

def insertRecordAt (m : Memory) (index : SlotId) (data : Bytes) : Except Status SlotId × Memory :=
  if numSlots m < index then (.error (.InvalidArgument "Slot index out of range"), m)
  else if canFit m data.length then
    let newDataOffset := sub16 (freeSpaceEnd m) data.length
    let tail := read m (slotAddr index) ((numSlots m - index) * kSlotEntrySize)
    let m := write m (slotAddr (index + 1)) tail
    let m := initSlot m index newDataOffset data.length
    let m := setNumSlots m (numSlots m + 1)
    let m := setFreeSpaceStart m (kPageHeaderSize + numSlots m * kSlotEntrySize)
    let m := setFreeSpaceEnd m newDataOffset
    (.ok index, write m newDataOffset data)
  else (.error (.NoSpace "Page full"), m)

def deleteRecord (m : Memory) (i : SlotId) : Except Status Unit × Memory :=
  if numSlots m ≤ i then (.error (.InvalidArgument "Invalid slot ID"), m)
  else if (slotAt m i).isValid then
    let m := markDeleted m i
    (.ok (), setDeadBytes m (u16 (deadBytes m + (slotAt m i).length)))
  else (.error (.NotFound "Record already deleted"), m)

def packFrom (data : Memory) : Nat → SlotId → Memory → Nat → Memory × Nat
  | 0, _, scratch, top => (scratch, top)
  | count + 1, i, scratch, top =>
    let out := slotAt scratch i
    if out.isValid then
      let top := sub16 top out.length
      let scratch := write scratch top (read data out.offset out.length)
      packFrom data count (i + 1) (setWord scratch (slotAddr i) top) top
    else
      packFrom data count (i + 1) (setWord (setWord scratch (slotAddr i) 0) (slotAddr i + 2) 0) top

def compact (m : Memory) : Memory :=
  let scratch := write (fun _ => 0) 0 (read m 0 (slotAddr (numSlots m)))
  let (scratch, top) := packFrom m (numSlots m) 0 scratch kPageSize
  let scratch := setDeadBytes (setFreeSpaceEnd scratch top) 0
  write m 0 (read scratch 0 kPageSize)

def live (m : Memory) : List (Nat × Nat) :=
  ((slots m).filter Slot.isValid).map fun s => (s.offset, s.length)

def pairLe (a b : Nat × Nat) : Bool := a.1 < b.1 ∨ a.1 = b.1 ∧ a.2 ≤ b.2

def noOverlap : List (Nat × Nat) → Bool
  | a :: b :: rest => a.1 + a.2 ≤ b.1 && noOverlap (b :: rest)
  | _ => true

def validate (m : Memory) : Bool :=
  freeSpaceStart m = slotAddr (numSlots m) && freeSpaceStart m ≤ freeSpaceEnd m &&
  freeSpaceEnd m ≤ kPageSize &&
  (live m).all (fun r => freeSpaceEnd m ≤ r.1 && r.1 + r.2 ≤ kPageSize) &&
  noOverlap ((live m).mergeSort pairLe)

/- Writes seen through the header and the directory. -/

section Views

variable {m m' : Memory} {i j a start : Nat} {bytes : Bytes}

theorem slotAddr_succ (i : Nat) : slotAddr (i + 1) = slotAddr i + 8 := by
  simp only [slotAddr, kSlotEntrySize]
  omega

theorem slotAddr_le (h : i ≤ j) : slotAddr i ≤ slotAddr j := by
  simp only [slotAddr, kSlotEntrySize]
  omega

theorem slotAddr_lt (h : i < j) : slotAddr i + 8 ≤ slotAddr j := by
  rw [← slotAddr_succ]
  exact slotAddr_le h

theorem header_le (i : Nat) : 40 ≤ slotAddr i := by
  simp only [slotAddr, kPageHeaderSize]
  omega

theorem slotAt_congr (same : ∀ k < 8, m (slotAddr i + k) = m' (slotAddr j + k)) :
    slotAt m i = slotAt m' j := by
  have part : ∀ k, k + 1 < 8 → word m (slotAddr i + k) = word m' (slotAddr j + k) := fun k h =>
    word_congr (same k (by omega)) (same (k + 1) h)
  simp only [slotAt, Slot.mk.injEq]
  exact ⟨part 0 (by decide), part 2 (by decide), part 4 (by decide), part 6 (by decide)⟩

theorem slotAt_write_apart (apart : slotAddr i + 8 ≤ start ∨ start + bytes.length ≤ slotAddr i) :
    slotAt (write m start bytes) i = slotAt m i :=
  slotAt_congr fun k h => write_apart (by omega)

theorem slotAt_setWord_apart {value : Nat} (apart : slotAddr i + 8 ≤ a ∨ a + 2 ≤ slotAddr i) :
    slotAt (setWord m a value) i = slotAt m i :=
  slotAt_write_apart (by simpa [setWord] using apart)

theorem initSlot_apart {offset length : Nat} (apart : a < slotAddr i ∨ slotAddr i + 8 ≤ a) :
    initSlot m i offset length a = m a := by
  unfold initSlot
  rw [setWord_apart (by omega), setWord_apart (by omega), setWord_apart (by omega),
    setWord_apart (by omega)]

theorem word_initSlot_apart {offset length : Nat} (apart : a + 2 ≤ slotAddr i ∨ slotAddr i + 8 ≤ a) :
    word (initSlot m i offset length) a = word m a :=
  word_congr (initSlot_apart (by omega)) (initSlot_apart (by omega))

theorem slotAt_initSlot_self {offset length : Nat} (ho : offset < 65536) (hl : length < 65536) :
    slotAt (initSlot m i offset length) i = ⟨offset, length, 0, 0⟩ := by
  simp only [slotAt, initSlot, Slot.mk.injEq]
  refine ⟨?_, ?_, ?_, ?_⟩
  · rw [word_setWord_apart (by omega), word_setWord_apart (by omega), word_setWord_apart (by omega),
      word_setWord_self, Nat.mod_eq_of_lt ho]
  · rw [word_setWord_apart (by omega), word_setWord_apart (by omega), word_setWord_self,
      Nat.mod_eq_of_lt hl]
  · rw [word_setWord_apart (by omega), word_setWord_self]
  · rw [word_setWord_self]

theorem slotAt_initSlot_other {offset length : Nat} (ne : j ≠ i) :
    slotAt (initSlot m i offset length) j = slotAt m j := by
  rcases Nat.lt_or_gt_of_ne ne with lt | gt
  · have := slotAddr_lt lt
    exact slotAt_congr fun k h => initSlot_apart (by omega)
  · have := slotAddr_lt gt
    exact slotAt_congr fun k h => initSlot_apart (by omega)

theorem slots_eq {l : List Slot} (count : numSlots m = l.length)
    (each : ∀ i, (h : i < l.length) → slotAt m i = l[i]) : slots m = l := by
  apply List.ext_getElem
  · simp [slots, count]
  · intro i h h'
    simpa [slots] using each i h'

theorem slots_length (m : Memory) : (slots m).length = numSlots m := by simp [slots]

theorem slots_getElem (h : i < (slots m).length) : (slots m)[i] = slotAt m i := by simp [slots]

end Views

end PagerDB.Slotted

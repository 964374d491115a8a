import PagerDB.BTree.NodeSpec
import PagerDB.Storage.PageAccounting

/-! `NodeView` over the bytes of a leaf page: the record encoding, the search and the three mutators.
Under them the page behaves as the leaf of the node model, whose slots are its list of records. -/
namespace PagerDB.Slotted

open MachineLib MemoryLib LittleEndian SortedLib

def encodeLeafRecord (key value : Bytes) : Bytes :=
  encode 2 key.length ++ (key ++ (encode 2 value.length ++ value))

def initLeaf (m : Memory) : Memory :=
  write (write (write m 4 [2]) 20 (encode 4 kInvalidPageId)) 24 (encode 4 kInvalidPageId)

def isLeaf (m : Memory) : Bool := (m 4).val = PageType.kLeaf.value

def getKey (m : Memory) (index : Nat) : Bytes :=
  if index < numSlots m ∧ (slotAt m index).isValid then
    read m ((slotAt m index).offset + 2) (word m (slotAt m index).offset)
  else []

def getValueAt (m : Memory) (index : Nat) : Bytes :=
  if index < numSlots m ∧ (slotAt m index).isValid ∧ (slotAt m index).length ≠ 0 then
    let data := (slotAt m index).offset
    let keyLen := word m data
    let valueLen := word m (data + 2 + keyLen)
    read m (data + 2 + keyLen + 2) valueLen
  else []

def keys (m : Memory) : List Bytes := (List.range (numSlots m)).map (getKey m)

def findKeyIndex (m : Memory) (key : Bytes) : Nat × Bool :=
  searchLoop (keys m) key (numSlots m) 0 (numSlots m)

def getValue (m : Memory) (key : Bytes) : Option Bytes :=
  if isLeaf m then
    let (index, found) := findKeyIndex m key
    if found then some (getValueAt m index) else none
  else none

def ensureFit (m : Memory) (needed : Nat) : Bool × Memory :=
  if needed ≤ freeSpace m then (true, m)
  else if needed ≤ freeSpace m + deadBytes m then
    (decide (needed ≤ freeSpace (compact m)), compact m)
  else (false, m)

def insertAt (m : Memory) (index : Nat) (record : Bytes) : Bool × Memory :=
  if numSlots m < index then (false, m)
  else
    match insertRecordAt m index (record.take (u16 record.length)) with
    | (.ok _, m) => (true, m)
    | (.error _, m) => (false, m)

def insertLeaf (m : Memory) (key value : Bytes) : Bool × Memory :=
  if isLeaf m then
    let (fits, m) := ensureFit m (kSlotEntrySize + 4 + key.length + value.length)
    if fits then
      let (index, found) := findKeyIndex m key
      if found then (false, m) else insertAt m index (encodeLeafRecord key value)
    else (false, m)
  else (false, m)

def placeGrown (m : Memory) (index : Nat) (record : Bytes) : Memory :=
  let off := sub16 (freeSpaceEnd m) (u16 record.length)
  let m := setFreeSpaceEnd m off
  let m := initSlot m index off (u16 record.length)
  write m (slotAt m index).offset (record.take (u16 record.length))

def updateLeaf (m : Memory) (key value : Bytes) : Bool × Memory :=
  if isLeaf m then
    let (index, found) := findKeyIndex m key
    if found then
      let record := encodeLeafRecord key value
      let newLen := u16 record.length
      let oldLen := getRecordLength m index
      if newLen ≤ oldLen then
        let m := write m (slotAt m index).offset (record.take newLen)
        if newLen < oldLen then
          let m := setWord m (slotAddr index + 2) newLen
          (true, setDeadBytes m (u16 (deadBytes m + (oldLen - newLen))))
        else (true, m)
      else if freeSpace m < newLen then
        if freeSpace m + deadBytes m + oldLen < newLen then (false, m)
        else (true, placeGrown (compact (deleteRecord m index).2) index record)
      else (true, placeGrown (setDeadBytes m (u16 (deadBytes m + oldLen))) index record)
    else (false, m)
  else (false, m)

/-- The loop of `DeleteAt`: `count` slots move down by one, from `i` on. -/
def shiftDown : Nat → Nat → Memory → Memory
  | 0, _, m => m
  | count + 1, i, m =>
    shiftDown count (i + 1) (write m (slotAddr i) (read m (slotAddr (i + 1)) kSlotEntrySize))

def deleteAt (m : Memory) (index : Nat) : Bool × Memory :=
  let count := numSlots m
  if count ≤ index then (false, m)
  else
    let m := setDeadBytes m (u16 (deadBytes m + (slotAt m index).length))
    let m := shiftDown (count - 1 - index) index m
    let m := setNumSlots m (u16 (count - 1))
    let m := write m (slotAddr (numSlots m)) (List.replicate kSlotEntrySize 0)
    (true, setFreeSpaceStart m (u16 (kPageHeaderSize + numSlots m * kSlotEntrySize)))

/- Records. -/

section Records

variable {m m' : Memory} {key value : Bytes}

def Fits (r : Bytes × Bytes) : Prop := leafRecordBytes r ≤ 4048

theorem encodeLeafRecord_length (key value : Bytes) :
    (encodeLeafRecord key value).length = leafRecordBytes (key, value) := by
  simp only [encodeLeafRecord, List.length_append, length_encode, leafRecordBytes]
  omega

def Spells (m : Memory) (data : Nat) (r : Bytes × Bytes) : Prop :=
  read m data (leafRecordBytes r) = encodeLeafRecord r.1 r.2

theorem Spells.decode {data : Nat} {r : Bytes × Bytes} (spells : Spells m data r) (fits : Fits r) :
    word m data = r.1.length ∧ read m (data + 2) r.1.length = r.1 ∧
    word m (data + 2 + r.1.length) = r.2.length ∧
    read m (data + 2 + r.1.length + 2) r.2.length = r.2 := by
  have shape : leafRecordBytes r = 2 + (r.1.length + (2 + r.2.length)) := by
    simp only [leafRecordBytes]
    omega
  unfold Fits at fits
  unfold Spells at spells
  rw [shape] at spells
  obtain ⟨keyLen, rest⟩ := read_append spells (length_encode 2 _)
  obtain ⟨keyBytes, rest⟩ := read_append rest rfl
  obtain ⟨valueLen, valueBytes⟩ := read_append rest (length_encode 2 _)
  exact ⟨word_of_read keyLen (by omega), keyBytes, word_of_read valueLen (by omega), valueBytes⟩

end Records

end PagerDB.Slotted

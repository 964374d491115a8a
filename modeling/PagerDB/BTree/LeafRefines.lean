import PagerDB.BTree.LeafBytes

/-! The bytes of a leaf refine the node model: each mutator answers as its model does and leaves the
bytes of the page that the model leaves. -/
namespace PagerDB.Slotted

open MachineLib MemoryLib LittleEndian SortedLib

variable {m m' : Memory} {p : Page} {recs : List (Bytes × Bytes)} {key value : Bytes} {i : Nat}

structure Stored (m : Memory) (s : Slot) (r : Bytes × Bytes) : Prop where
  valid : s.isValid = true
  length : s.length = leafRecordBytes r
  spells : Spells m s.offset r
  fits : Fits r

/-- A leaf whose slots hold these records, in this order. -/
structure Holds (m : Memory) (recs : List (Bytes × Bytes)) : Prop where
  wf : Wf m
  leaf : isLeaf m = true
  count : numSlots m = recs.length
  stored : ∀ i, (h : i < recs.length) → Stored m (slotAt m i) recs[i]

def page (m : Memory) (recs : List (Bytes × Bytes)) : Page :=
  ⟨decode (read m 0 4), decode (read m 8 8), freeSpaceEnd m, deadBytes m,
    .leaf (decode (read m 24 4)) (decode (read m 20 4)) recs⟩

structure Refines (m : Memory) (p : Page) : Prop where
  holds : Holds m p.recs
  eq : page m p.recs = p

theorem Refines.body (ref : Refines m p) :
    p.body = .leaf (decode (read m 24 4)) (decode (read m 20 4)) p.recs := by
  conv => lhs; rw [← ref.eq]
  rfl

theorem refines_page (holds : Holds m recs) : Refines m (page m recs) := ⟨holds, rfl⟩

theorem Stored.congr {s : Slot} {r : Bytes × Bytes} (stored : Stored m s r)
    (same : ∀ a, s.offset ≤ a → a < s.offset + s.length → m' a = m a) : Stored m' s r := by
  obtain ⟨valid, length, spells, fits⟩ := stored
  refine ⟨valid, length, ?_, fits⟩
  unfold Spells
  rw [← spells]
  apply read_congr
  intro k small
  exact same _ (by omega) (by omega)

/- Reading. -/

theorem Holds.slots_stored (holds : Holds m recs) {s : Slot} (mem : s ∈ slots m) : s.isValid = true := by
  obtain ⟨i, lt, rfl⟩ := List.getElem_of_mem mem
  rw [slots_getElem]
  rw [slots_length, holds.count] at lt
  exact (holds.stored i lt).valid

theorem Holds.live (holds : Holds m recs) : liveBytes (slots m) = (recs.map leafRecordBytes).sum := by
  have all : (slots m).filter Slot.isValid = slots m :=
    List.filter_eq_self.mpr fun s mem => holds.slots_stored mem
  have lengths : (slots m).map Slot.length = recs.map leafRecordBytes := by
    apply List.ext_getElem
    · simp [slots_length, holds.count]
    · intro i h h'
      simp only [List.getElem_map, slots_getElem]
      exact (holds.stored i (by simpa using h')).length
  rw [liveBytes, all, lengths]

theorem Holds.accounted (holds : Holds m recs) : (page m recs).Accounted := by
  have total := holds.wf.total
  have room := holds.wf.room
  rw [holds.live] at total
  rw [holds.wf.start, holds.count] at room
  constructor
  · simpa [page, Page.liveBytes] using total
  · simpa [page, Page.freeSpaceStart, Page.numSlots, slotAddr, Nat.mul_comm] using room

theorem Holds.freeSpace (holds : Holds m recs) : (page m recs).freeSpace = freeSpace m := by
  rw [holds.wf.freeSpace_eq, holds.count]
  simp [Page.freeSpace, Page.freeSpaceStart, Page.numSlots, page, slotAddr, Nat.mul_comm]

theorem Holds.getKey (holds : Holds m recs) (h : i < recs.length) : getKey m i = recs[i].1 := by
  obtain ⟨valid, -, spells, fits⟩ := holds.stored i h
  have lt : i < numSlots m := by rw [holds.count]; exact h
  obtain ⟨keyLen, keyBytes, -, -⟩ := spells.decode fits
  rw [Slotted.getKey, if_pos ⟨lt, valid⟩, keyLen, keyBytes]

theorem Holds.getValueAt (holds : Holds m recs) (h : i < recs.length) :
    getValueAt m i = recs[i].2 := by
  obtain ⟨valid, length, spells, fits⟩ := holds.stored i h
  have lt : i < numSlots m := by rw [holds.count]; exact h
  have some : (slotAt m i).length ≠ 0 := by
    rw [length, leafRecordBytes]
    omega
  obtain ⟨keyLen, -, valueLen, valueBytes⟩ := spells.decode fits
  rw [Slotted.getValueAt, if_pos ⟨lt, valid, some⟩]
  simp only [keyLen, valueLen, valueBytes]

theorem Holds.keys (holds : Holds m recs) : keys m = recs.map Prod.fst := by
  apply List.ext_getElem
  · simp [Slotted.keys, holds.count]
  · intro i h h'
    simp only [Slotted.keys, List.getElem_map, List.getElem_range]
    exact holds.getKey (by simpa using h')

theorem Holds.findKeyIndex (holds : Holds m recs) (key : Bytes) :
    findKeyIndex m key = (page m recs).findKeyIndex key := by
  rw [Slotted.findKeyIndex, holds.keys, holds.count]
  rfl

theorem Holds.getValue (holds : Holds m recs) (asc : (recs.map Prod.fst).Pairwise (· < ·)) (key : Bytes) :
    getValue m key = recs.lookup key := by
  have find := holds.findKeyIndex key
  unfold Slotted.getValue
  rw [if_pos holds.leaf]
  rcases Page.findKeyIndex_leaf_cases (p := page m recs) rfl asc key with
    ⟨lo, old, hi, rfl, below, -, found⟩ | ⟨lo, hi, rfl, below, above, found⟩
  · have here : lo.length < (lo ++ (key, old) :: hi).length := by simp
    have value := holds.getValueAt here
    simp [find.trans found, value, Page.lookup_cut below]
  · simp [find.trans found, Page.lookup_absent below above]

/- Compaction. -/

theorem decode_read {a b n : Nat} (same : ∀ k < n, m' (a + k) = m (b + k)) :
    decode (read m' a n) = decode (read m b n) := by rw [read_congr same]

theorem isLeaf_congr (same : m' 4 = m 4) : isLeaf m' = isLeaf m := by rw [isLeaf, isLeaf, same]

theorem page_congr (header : SameHeader m m') (recs : List (Bytes × Bytes)) :
    page m' recs = { page m recs with freeSpaceEnd := freeSpaceEnd m', deadBytes := deadBytes m' } := by
  have id : decode (read m' 0 4) = decode (read m 0 4) :=
    decode_read fun k small => header _ (by omega) (by omega)
  have lsn : decode (read m' 8 8) = decode (read m 8 8) :=
    decode_read fun k small => header _ (by omega) (by omega)
  have prev : decode (read m' 24 4) = decode (read m 24 4) :=
    decode_read fun k small => header _ (by omega) (by omega)
  have next : decode (read m' 20 4) = decode (read m 20 4) :=
    decode_read fun k small => header _ (by omega) (by omega)
  simp only [page, id, lsn, prev, next]

theorem compacted_stored {r : Bytes × Bytes} (c : Compacted m m') (lt : i < numSlots m)
    (stored : Stored m (slotAt m i) r) : Stored m' (slotAt m' i) r := by
  obtain ⟨valid, length, spells, fits⟩ := stored
  have count : numSlots m' = numSlots m := c.kept (by decide)
  have record := c.records i lt valid
  have inside : i < (slots m).length := by rw [slots_length]; exact lt
  have inPacked : i < (packed kPageSize (slots m)).length := by rw [packed_length]; exact inside
  obtain ⟨live, len⟩ := packed_slot inPacked inside
  have at_ : slotAt m' i = (packed kPageSize (slots m))[i] := by
    rw [← slots_getElem (m := m') (by rw [slots_length, count]; exact lt)]
    simp only [c.slots]
  rw [← at_, slots_getElem] at live len
  refine ⟨live.trans valid, (len valid).trans length, ?_, fits⟩
  unfold Spells
  rw [← length, record, length]
  exact spells

theorem compacted_header (c : Compacted m m') : SameHeader m m' :=
  fun a small field => c.header a small (by omega)

theorem Holds.compact (holds : Holds m recs) :
    Holds (compact m) recs ∧ page (compact m) recs = (page m recs).compact := by
  have c := compact_compacted holds.wf
  have count : numSlots (Slotted.compact m) = numSlots m := c.kept (by decide)
  constructor
  · refine ⟨holds.wf.compacted c, ?_, count.trans holds.count, ?_⟩
    · rw [isLeaf_congr (c.header 4 (by decide) (by decide))]
      exact holds.leaf
    · intro i h
      exact compacted_stored c (by rw [holds.count]; exact h) (holds.stored i h)
  · rw [page_congr (compacted_header c), c.bottom, c.dead, holds.live]
    rfl

theorem ensureFit_refines (holds : Holds m recs) (needed : Nat) :
    (ensureFit m needed).1 = ((page m recs).ensureFit needed).1 ∧ Holds (ensureFit m needed).2 recs ∧
      page (ensureFit m needed).2 recs = ((page m recs).ensureFit needed).2 := by
  obtain ⟨holds', eq⟩ := holds.compact
  have space := holds.freeSpace
  have space' := holds'.freeSpace
  rw [eq] at space'
  have dead : (page m recs).deadBytes = deadBytes m := rfl
  unfold ensureFit Page.ensureFit
  rw [space, space', dead]
  by_cases enough : needed ≤ Slotted.freeSpace m
  · rw [if_pos enough, if_pos enough]
    exact ⟨rfl, holds, rfl⟩
  · rw [if_neg enough, if_neg enough]
    by_cases reclaimed : needed ≤ Slotted.freeSpace m + deadBytes m
    · rw [if_pos reclaimed, if_pos reclaimed]
      generalize Slotted.freeSpace (Slotted.compact m) = packed
      dsimp only
      exact ⟨rfl, holds', eq⟩
    · rw [if_neg reclaimed, if_neg reclaimed]
      exact ⟨rfl, holds, rfl⟩

/- Inserting. -/

theorem Holds.inside (holds : Holds m recs) (h : i < recs.length) :
    freeSpaceEnd m ≤ (slotAt m i).offset ∧ (slotAt m i).offset + (slotAt m i).length ≤ kPageSize := by
  have lt : i < (slots m).length := by rw [slots_length, holds.count]; exact h
  have mem : slotAt m i ∈ slots m := by
    rw [← slots_getElem lt]
    exact List.getElem_mem lt
  exact holds.wf.inside _ mem (holds.stored i h).valid

theorem inserted_slotAt {data : Bytes} (le : i ≤ numSlots m) (ins : Inserted m i data m') :
    (∀ j < i, slotAt m' j = slotAt m j) ∧
    slotAt m' i = ⟨freeSpaceEnd m - data.length, data.length, 0, 0⟩ ∧
    ∀ j, i ≤ j → j < numSlots m → slotAt m' (j + 1) = slotAt m j := by
  have len := slots_length m
  have len' := slots_length m'
  have count := ins.numSlots
  refine ⟨?_, ?_, ?_⟩
  · intro j lt
    rw [← slots_getElem (m := m') (by omega), ← slots_getElem (m := m) (by omega)]
    simp only [ins.slots]
    exact List.getElem_insertIdx_of_lt lt _
  · rw [← slots_getElem (m := m') (by omega)]
    simp only [ins.slots]
    exact List.getElem_insertIdx_self _
  · intro j ge lt
    rw [← slots_getElem (m := m') (by omega), ← slots_getElem (m := m) (by omega)]
    simp only [ins.slots]
    rw [List.getElem_insertIdx_of_gt (by omega)]
    simp

theorem Holds.inserted {r : Bytes × Bytes} (holds : Holds m recs) (le : i ≤ recs.length) (fits : Fits r)
    (room : slotAddr (numSlots m + 1) + leafRecordBytes r ≤ freeSpaceEnd m)
    (ins : Inserted m i (encodeLeafRecord r.1 r.2) m') : Holds m' (recs.insertIdx i r) := by
  have size : (encodeLeafRecord r.1 r.2).length = leafRecordBytes r := encodeLeafRecord_length r.1 r.2
  have le' : i ≤ numSlots m := by rw [holds.count]; exact le
  obtain ⟨low, here, high⟩ := inserted_slotAt le' ins
  have longer : (recs.insertIdx i r).length = recs.length + 1 :=
    List.length_insertIdx_of_le_length le _
  have kept : ∀ j, (h : j < recs.length) → Stored m' (slotAt m j) recs[j] := by
    intro j h
    have bottom := (holds.inside h).1
    exact (holds.stored j h).congr fun a low _ => ins.above a (by omega)
  refine ⟨holds.wf.inserted le' (by rw [size]; exact room) ins, ?_, ?_, ?_⟩
  · rw [isLeaf_congr (ins.header 4 (by decide) (by decide))]
    exact holds.leaf
  · rw [ins.numSlots, longer, holds.count]
  · intro j h
    rw [List.getElem_insertIdx]
    split
    · rename_i lt
      rw [low j lt]
      exact kept j (by omega)
    · split
      · rename_i eq
        rw [eq, here, size]
        have record := ins.record
        rw [size] at record
        exact ⟨by simp [Slot.isValid], rfl, record, fits⟩
      · rename_i ge ne
        obtain ⟨k, rfl⟩ : ∃ k, j = k + 1 := ⟨j - 1, by omega⟩
        rw [high k (by omega) (by rw [holds.count]; omega)]
        exact kept k (by omega)

theorem insertAt_refines {r : Bytes × Bytes} (holds : Holds m recs) (le : i ≤ recs.length)
    (fits : Fits r) :
    (insertAt m i (encodeLeafRecord r.1 r.2)).1 = ((page m recs).insertRecordAt i r).1 ∧
      Refines (insertAt m i (encodeLeafRecord r.1 r.2)).2 ((page m recs).insertRecordAt i r).2 := by
  have size : (encodeLeafRecord r.1 r.2).length = leafRecordBytes r := encodeLeafRecord_length r.1 r.2
  have small : leafRecordBytes r ≤ 4048 := fits
  have whole : (encodeLeafRecord r.1 r.2).take (u16 (encodeLeafRecord r.1 r.2).length) =
      encodeLeafRecord r.1 r.2 := by
    apply List.take_of_length_le
    unfold u16
    omega
  have le' : i ≤ numSlots m := by rw [holds.count]; exact le
  have gate : canFit m (encodeLeafRecord r.1 r.2).length = (page m recs).canFit (leafRecordBytes r) := by
    have needed : u16 (kSlotEntrySize + leafRecordBytes r) = kSlotEntrySize + leafRecordBytes r :=
      Nat.mod_eq_of_lt (by simp only [kSlotEntrySize]; omega)
    rw [canFit, Page.canFit, size, needed, holds.freeSpace]
  unfold insertAt
  rw [if_neg (by omega), whole]
  have model : (page m recs).body = .leaf (decode (read m 24 4)) (decode (read m 20 4)) recs := rfl
  by_cases enough : canFit m (encodeLeafRecord r.1 r.2).length = true
  · obtain ⟨m', run, ins⟩ := insertRecordAt_inserted holds.wf (by omega) le' enough
    have room := (holds.wf.fits (by omega) enough).1
    rw [size] at room
    have after := holds.inserted le fits room ins
    rw [run]
    simp only [Page.insertRecordAt, model]
    rw [if_neg (by omega), if_pos (gate ▸ enough)]
    refine ⟨rfl, after, ?_⟩
    dsimp only
    change page m' (recs.insertIdx i r) = _
    rw [page_congr ins.header, ins.bottom, ins.dead, size]
    rfl
  · have refused : insertRecordAt m i (encodeLeafRecord r.1 r.2) =
        (.error (.NoSpace "Page full"), m) := by
      unfold insertRecordAt
      rw [if_neg (by omega), if_neg enough]
    rw [refused]
    simp only [Page.insertRecordAt, model]
    rw [if_neg (by omega), if_neg (gate ▸ enough)]
    exact ⟨rfl, refines_page holds⟩

theorem insertLeaf_refines (ref : Refines m p) (asc : (p.recs.map Prod.fst).Pairwise (· < ·))
    (fits : Fits (key, value)) :
    (insertLeaf m key value).1 = (p.insertLeaf key value).1 ∧
      Refines (insertLeaf m key value).2 (p.insertLeaf key value).2 := by
  have holds := ref.holds
  rw [← ref.eq]
  generalize p.recs = recs at holds asc
  have leaf : (page m recs).isLeaf = true := rfl
  obtain ⟨flag, after, eq⟩ := ensureFit_refines holds (kSlotEntrySize + 4 + key.length + value.length)
  unfold insertLeaf Page.insertLeaf
  rw [if_pos holds.leaf, if_pos leaf]
  generalize ensureFit m (kSlotEntrySize + 4 + key.length + value.length) = out at flag after eq ⊢
  obtain ⟨fit, m₁⟩ := out
  generalize (page m recs).ensureFit (kSlotEntrySize + 4 + key.length + value.length) = out' at flag eq ⊢
  obtain ⟨fit', p₁⟩ := out'
  dsimp only at flag after eq ⊢
  subst flag eq
  cases fit with
  | false => exact ⟨rfl, refines_page after⟩
  | true =>
    simp only [if_true]
    rw [after.findKeyIndex key]
    rcases Page.findKeyIndex_leaf_cases (p := page m₁ recs) rfl asc key with
      ⟨lo, old, hi, rfl, -, -, found⟩ | ⟨lo, hi, rfl, -, -, found⟩
    · rw [found]
      exact ⟨rfl, refines_page after⟩
    · rw [found]
      exact insertAt_refines (r := (key, value)) after (by simp) fits

/- Removing. -/

theorem shiftDown_spec (count i : Nat) (m : Memory) :
    (∀ a, a < slotAddr i ∨ slotAddr (i + count) ≤ a → shiftDown count i m a = m a) ∧
    ∀ j, i ≤ j → j < i + count → slotAt (shiftDown count i m) j = slotAt m (j + 1) := by
  induction count generalizing i m with
  | zero =>
    constructor
    · intro a _
      rfl
    · intro j ge lt
      omega
  | succ count ih =>
    have next := slotAddr_succ i
    have reach : slotAddr (i + 1) ≤ slotAddr (i + (count + 1)) := slotAddr_le (by omega)
    have shape : i + 1 + count = i + (count + 1) := by omega
    obtain ⟨outside, moved⟩ :=
      ih (i + 1) (write m (slotAddr i) (read m (slotAddr (i + 1)) kSlotEntrySize))
    rw [shape] at outside moved
    have block : (read m (slotAddr (i + 1)) kSlotEntrySize).length = 8 := length_read _ _ _
    constructor
    · intro a out
      refine (outside a (by omega)).trans (write_apart ?_)
      omega
    · intro j ge lt
      by_cases first : j = i
      · subst first
        have fixed : slotAt (shiftDown (count + 1) j m) j =
            slotAt (write m (slotAddr j) (read m (slotAddr (j + 1)) kSlotEntrySize)) j :=
          slotAt_congr fun k small => outside _ (.inl (by omega))
        rw [fixed]
        exact slotAt_congr fun k small => write_read small
      · have later : slotAddr (i + 1) ≤ slotAddr (j + 1) := slotAddr_le (by omega)
        exact (moved j (by omega) lt).trans (slotAt_write_apart (.inr (by omega)))

structure Removed (m : Memory) (i : Nat) (m' : Memory) : Prop where
  numSlots : numSlots m' = numSlots m - 1
  start : freeSpaceStart m' = slotAddr (Slotted.numSlots m - 1)
  bottom : freeSpaceEnd m' = freeSpaceEnd m
  dead : deadBytes m' = deadBytes m + (slotAt m i).length
  slotAt : ∀ j < Slotted.numSlots m - 1, slotAt m' j = slotAt m (if j < i then j else j + 1)
  header : SameHeader m m'
  above : ∀ a, freeSpaceEnd m ≤ a → m' a = m a

theorem deleteAt_removed (wf : Wf m) (lt : i < numSlots m) (valid : (slotAt m i).isValid = true) :
    ∃ m', deleteAt m i = (true, m') ∧ Removed m i m' := by
  have few := wf.numSlots_lt
  have bound := wf.live_le lt valid
  have room := wf.room
  rw [wf.start] at room
  have first := header_le i
  have last : slotAddr (numSlots m - 1) + 8 = slotAddr (numSlots m) := by
    rw [← slotAddr_succ, Nat.sub_add_cancel (by omega)]
  have order : slotAddr i ≤ slotAddr (numSlots m - 1) := slotAddr_le (by omega)
  have dead : u16 (deadBytes m + (slotAt m i).length) = deadBytes m + (slotAt m i).length := by
    simp only [kPageSize] at bound
    exact Nat.mod_eq_of_lt (by omega)
  have fewer : u16 (numSlots m - 1) = numSlots m - 1 := Nat.mod_eq_of_lt (by omega)
  unfold deleteAt
  dsimp only
  rw [if_neg (by omega), dead, fewer]
  refine ⟨_, rfl, ?_⟩
  generalize counted_ : setDeadBytes m (deadBytes m + (slotAt m i).length) = counted
  obtain ⟨outside, moved⟩ := shiftDown_spec (numSlots m - 1 - i) i counted
  rw [show i + (numSlots m - 1 - i) = numSlots m - 1 by omega] at outside moved
  generalize shiftDown (numSlots m - 1 - i) i counted = shifted at outside moved ⊢
  have count : numSlots (setNumSlots shifted (numSlots m - 1)) = numSlots m - 1 :=
    (word_setWord_self _ _ _).trans (Nat.mod_eq_of_lt (by omega))
  rw [count]
  generalize zeros_ : List.replicate kSlotEntrySize (0 : Byte) = zeros
  have zerosLen : zeros.length = 8 := by rw [← zeros_]; rfl
  have count' : numSlots (write (setNumSlots shifted (numSlots m - 1)) (slotAddr (numSlots m - 1)) zeros) =
      numSlots m - 1 := (word_write_apart (by omega)).trans count
  have start : u16 (kPageHeaderSize + (numSlots m - 1) * kSlotEntrySize) = slotAddr (numSlots m - 1) := by
    simp only [u16, slotAddr, kSlotEntrySize, kPageHeaderSize]
    omega
  rw [count', start]
  generalize closed_ : setFreeSpaceStart (write (setNumSlots shifted (numSlots m - 1))
    (slotAddr (numSlots m - 1)) zeros) (slotAddr (numSlots m - 1)) = m'
  unfold setFreeSpaceStart setNumSlots at closed_
  -- outside of the directory and of the three header words nothing changed
  have others : ∀ a, (a < 6 ∨ 8 ≤ a ∧ a < 16 ∨ 18 ≤ a ∧ a < 36 ∨ 38 ≤ a ∧ a < slotAddr i ∨
      slotAddr (numSlots m) ≤ a) → m' a = m a := by
    intro a out
    rw [← closed_, setWord_apart (by omega), write_apart (by omega), setWord_apart (by omega),
      outside a (by omega), ← counted_]
    exact setWord_apart (by omega)
  have slot : ∀ j < numSlots m - 1, slotAt m' j = slotAt shifted j := by
    intro j lt
    have low := header_le j
    have high : slotAddr j + 8 ≤ slotAddr (numSlots m - 1) := slotAddr_lt lt
    rw [← closed_, slotAt_setWord_apart (by omega), slotAt_write_apart (by omega),
      slotAt_setWord_apart (by omega)]
  constructor
  · rw [← closed_]
    change word _ 6 = _
    rw [word_setWord_apart (by omega), word_write_apart (by omega), word_setWord_self]
    exact Nat.mod_eq_of_lt (by omega)
  · rw [← closed_]
    change word _ 16 = _
    have := wf.end_le
    rw [word_setWord_self]
    exact Nat.mod_eq_of_lt (by omega)
  · exact word_congr (others 18 (by omega)) (others 19 (by omega))
  · rw [← closed_]
    change word _ 36 = _
    rw [word_setWord_apart (by omega), word_write_apart (by omega), word_setWord_apart (by omega)]
    have kept : word shifted 36 = word counted 36 :=
      word_congr (outside 36 (by omega)) (outside 37 (by omega))
    simp only [kPageSize] at bound
    rw [kept, ← counted_]
    exact (word_setWord_self _ _ _).trans (Nat.mod_eq_of_lt (by omega))
  · intro j lt
    rw [slot j lt]
    have old : ∀ k, slotAt counted k = slotAt m k := by
      intro k
      have := header_le k
      rw [← counted_]
      exact slotAt_setWord_apart (by omega)
    split
    · rename_i before
      rw [← old]
      have : slotAddr j + 8 ≤ slotAddr i := slotAddr_lt before
      exact slotAt_congr fun k small => outside _ (.inl (by omega))
    · rename_i behind
      rw [← old]
      exact moved j (by omega) lt
  · intro a small field
    exact others a (by omega)
  · intro a above
    exact others a (by omega)

theorem removed_slots (lt : i < numSlots m) (rem : Removed m i m') :
    slots m' = (slots m).eraseIdx i := by
  have len := slots_length m
  apply slots_eq
  · rw [rem.numSlots, List.length_eraseIdx_of_lt (by omega), len]
  · intro j h
    rw [List.length_eraseIdx_of_lt (by omega), len] at h
    rw [rem.slotAt j h, List.getElem_eraseIdx]
    split
    · rw [slots_getElem]
    · rw [slots_getElem]

theorem Wf.removed (wf : Wf m) (lt : i < numSlots m) (valid : (slotAt m i).isValid = true)
    (rem : Removed m i m') : Wf m' := by
  obtain ⟨lo, hi, cut, len⟩ := wf.slot_cut lt
  have slots' := removed_slots lt rem
  have fewer : slotAddr (numSlots m - 1) ≤ slotAddr (numSlots m) := slotAddr_le (by omega)
  obtain ⟨start, room, total, inside, apart⟩ := wf
  rw [cut, ← len, eraseIdx_cut] at slots'
  rw [cut] at total inside apart
  have sub : (lo ++ hi).Sublist (lo ++ slotAt m i :: hi) := by simp
  constructor
  · rw [rem.start, rem.numSlots]
  · rw [rem.start, rem.bottom]
    omega
  · rw [rem.bottom, rem.dead, slots']
    rw [liveBytes_append, liveBytes_cons, if_pos valid] at total
    rw [liveBytes_append]
    omega
  · rw [rem.bottom, slots']
    exact fun s mem => inside s (sub.subset mem)
  · rw [slots']
    exact apart.sublist sub

theorem deleteAt_refines (ref : Refines m p) (i : Nat) :
    (deleteAt m i).1 = (p.deleteAt i).1 ∧ Refines (deleteAt m i).2 (p.deleteAt i).2 := by
  have holds := ref.holds
  rw [← ref.eq]
  generalize p.recs = recs at holds
  have model : (page m recs).body = .leaf (decode (read m 24 4)) (decode (read m 20 4)) recs := rfl
  simp only [Page.deleteAt, model]
  by_cases h : i < recs.length
  · have lt : i < numSlots m := by rw [holds.count]; exact h
    obtain ⟨valid, length, -, -⟩ := holds.stored i h
    obtain ⟨m', run, rem⟩ := deleteAt_removed holds.wf lt valid
    rw [run, if_neg (by omega)]
    refine ⟨rfl, ⟨holds.wf.removed lt valid rem, ?_, ?_, ?_⟩, ?_⟩
    · rw [isLeaf_congr (rem.header 4 (by decide) (by decide))]
      exact holds.leaf
    · change numSlots m' = (recs.eraseIdx i).length
      rw [rem.numSlots, holds.count, List.length_eraseIdx_of_lt h]
    · intro j small
      change j < (recs.eraseIdx i).length at small
      rw [List.length_eraseIdx_of_lt h] at small
      change Stored m' (slotAt m' j) (recs.eraseIdx i)[j]
      rw [rem.slotAt j (by rw [holds.count]; exact small), List.getElem_eraseIdx]
      have kept : ∀ k, (h : k < recs.length) → Stored m' (slotAt m k) recs[k] := by
        intro k h
        have bottom := (holds.inside h).1
        exact (holds.stored k h).congr fun a low _ => rem.above a (by omega)
      split
      · exact kept j (by omega)
      · exact kept (j + 1) (by omega)
    · change page m' (recs.eraseIdx i) = _
      rw [page_congr rem.header, rem.bottom, rem.dead, length]
      simp [page, h]
  · have refused : deleteAt m i = (false, m) := by
      unfold deleteAt
      dsimp only
      rw [if_pos (by rw [holds.count]; omega)]
    rw [refused, if_pos (by omega)]
    exact ⟨rfl, refines_page holds⟩

/- Updating. -/

theorem slots_set {s : Slot} (count : numSlots m' = numSlots m) (here : slotAt m' i = s)
    (others : ∀ j < numSlots m, j ≠ i → slotAt m' j = slotAt m j) : slots m' = (slots m).set i s := by
  apply slots_eq
  · rw [List.length_set, slots_length, count]
  · intro j h
    rw [List.length_set, slots_length] at h
    rw [List.getElem_set]
    split
    · rename_i same
      exact same ▸ here
    · rename_i ne
      rw [slots_getElem]
      exact others j h (Ne.symm ne)

structure Shrunk (m : Memory) (i : Nat) (record : Bytes) (m' : Memory) : Prop where
  slotAt : slotAt m' i = { slotAt m i with length := record.length }
  dead : deadBytes m' = deadBytes m + ((Slotted.slotAt m i).length - record.length)
  bytes : read m' (Slotted.slotAt m i).offset record.length = record
  others : ∀ a, (a < 36 ∨ 38 ≤ a) → (a < slotAddr i ∨ slotAddr i + 8 ≤ a) →
    (a < (Slotted.slotAt m i).offset ∨ (Slotted.slotAt m i).offset + record.length ≤ a) → m' a = m a

theorem shrink_shrunk {record : Bytes} (wf : Wf m) (lt : i < numSlots m)
    (valid : (slotAt m i).isValid = true) (inside : freeSpaceEnd m ≤ (slotAt m i).offset)
    (shorter : record.length ≤ (slotAt m i).length) :
    Shrunk m i record (if record.length < (slotAt m i).length then
      setDeadBytes (setWord (write m (slotAt m i).offset record) (slotAddr i + 2) record.length)
        (u16 (deadBytes (setWord (write m (slotAt m i).offset record) (slotAddr i + 2) record.length) +
          ((slotAt m i).length - record.length)))
      else write m (slotAt m i).offset record) := by
  have room := wf.room
  rw [wf.start] at room
  have low := header_le i
  have high : slotAddr i + 8 ≤ slotAddr (numSlots m) := slotAddr_lt lt
  have bound := wf.live_le lt valid
  simp only [kPageSize] at bound
  have slot : slotAt (write m (slotAt m i).offset record) i = slotAt m i :=
    slotAt_write_apart (by omega)
  have dead : deadBytes (write m (slotAt m i).offset record) = deadBytes m :=
    word_write_apart (by omega)
  split
  · have dead' : deadBytes (setWord (write m (slotAt m i).offset record) (slotAddr i + 2)
        record.length) = deadBytes m := (word_setWord_apart (by omega)).trans dead
    have small : u16 (deadBytes m + ((slotAt m i).length - record.length)) =
        deadBytes m + ((slotAt m i).length - record.length) := Nat.mod_eq_of_lt (by omega)
    rw [dead', small]
    constructor
    · refine (slotAt_setWord_apart (by omega)).trans ?_
      have parts := slot
      simp only [Slotted.slotAt, Slot.mk.injEq] at parts ⊢
      refine ⟨(word_setWord_apart (by omega)).trans parts.1, ?_,
        (word_setWord_apart (by omega)).trans parts.2.2.1,
        (word_setWord_apart (by omega)).trans parts.2.2.2⟩
      refine (word_setWord_self _ _ _).trans (Nat.mod_eq_of_lt ?_)
      omega
    · exact (word_setWord_self _ _ _).trans (Nat.mod_eq_of_lt (by omega))
    · refine (read_setWord_apart (by omega)).trans ((read_setWord_apart (by omega)).trans ?_)
      exact read_write_self _ _ _
    · intro a header dir record
      refine (setWord_apart (by omega)).trans ((setWord_apart (by omega)).trans (write_apart ?_))
      exact record
  · rename_i same
    have equal : record.length = (slotAt m i).length := by omega
    constructor
    · rw [slot, equal]
    · rw [dead]
      omega
    · exact read_write_self _ _ _
    · intro a _ _ record
      exact write_apart record

theorem Holds.apart_slots (holds : Holds m recs) {j : Nat} (hi : i < recs.length) (hj : j < recs.length)
    (ne : j ≠ i) : (slotAt m j).Apart (slotAt m i) := by
  have li : i < (slots m).length := by rw [slots_length, holds.count]; exact hi
  have lj : j < (slots m).length := by rw [slots_length, holds.count]; exact hj
  have pair := List.pairwise_iff_getElem.mp holds.wf.apart
  rcases Nat.lt_or_gt_of_ne ne with lt | gt
  · have := pair j i lj li lt
    rw [slots_getElem, slots_getElem] at this
    exact this (holds.stored j hj).valid (holds.stored i hi).valid
  · have := pair i j li lj gt
    rw [slots_getElem, slots_getElem] at this
    exact (this (holds.stored i hi).valid (holds.stored j hj).valid).symm

theorem Wf.shrunk {record : Bytes} (wf : Wf m) (lt : i < numSlots m)
    (valid : (slotAt m i).isValid = true) (shorter : record.length ≤ (slotAt m i).length)
    (inside : freeSpaceEnd m ≤ (slotAt m i).offset) (sh : Shrunk m i record m') :
    Wf m' ∧ numSlots m' = numSlots m ∧ freeSpaceEnd m' = freeSpaceEnd m ∧
      ∀ j < numSlots m, j ≠ i → slotAt m' j = slotAt m j := by
  have room := wf.room
  rw [wf.start] at room
  have first := header_le i
  have high : slotAddr i + 8 ≤ slotAddr (numSlots m) := slotAddr_lt lt
  have word_ : ∀ a, a + 2 ≤ 36 → word m' a = word m a := fun a h =>
    word_congr (sh.others a (by omega) (by omega) (by omega))
      (sh.others (a + 1) (by omega) (by omega) (by omega))
  have count : numSlots m' = numSlots m := word_ 6 (by decide)
  have start : freeSpaceStart m' = freeSpaceStart m := word_ 16 (by decide)
  have bottom : freeSpaceEnd m' = freeSpaceEnd m := word_ 18 (by decide)
  have others : ∀ j < numSlots m, j ≠ i → slotAt m' j = slotAt m j := by
    intro j lt' ne
    have low := header_le j
    have high' : slotAddr j + 8 ≤ slotAddr (numSlots m) := slotAddr_lt lt'
    rcases Nat.lt_or_gt_of_ne ne with before | behind
    · have := slotAddr_lt before
      exact slotAt_congr fun k small => sh.others _ (by omega) (by omega) (by omega)
    · have := slotAddr_lt behind
      exact slotAt_congr fun k small => sh.others _ (by omega) (by omega) (by omega)
  have slots' := slots_set count sh.slotAt others
  refine ⟨?_, count, bottom, others⟩
  obtain ⟨lo, hi, cut, len⟩ := wf.slot_cut lt
  obtain ⟨start', room', total, inside', apart⟩ := wf
  rw [cut, ← len, set_cut, len] at slots'
  rw [cut] at total inside' apart
  have valid' : Slot.isValid { slotAt m i with length := record.length } = true := valid
  constructor
  · rw [start, count, start']
  · rw [start, bottom]
    exact room'
  · rw [bottom, sh.dead, slots']
    rw [liveBytes_append, liveBytes_cons] at total ⊢
    rw [if_pos valid] at total
    rw [if_pos valid']
    dsimp only
    omega
  · rw [bottom, slots']
    intro s mem live
    rcases List.mem_append.mp mem with left | right
    · exact inside' s (List.mem_append_left _ left) live
    · rcases List.mem_cons.mp right with rfl | right
      · have := inside' (slotAt m i) (by simp) valid
        dsimp only
        omega
      · exact inside' s (List.mem_append_right _ (List.mem_cons_of_mem _ right)) live
  · rw [slots']
    rw [List.pairwise_append, List.pairwise_cons] at apart ⊢
    refine ⟨apart.1, ⟨?_, apart.2.1.2⟩, ?_⟩
    · intro t mem _ live
      have := apart.2.1.1 t mem valid live
      unfold Slot.Apart at this ⊢
      dsimp only
      omega
    · intro s mem t mem' live live'
      rcases List.mem_cons.mp mem' with rfl | mem'
      · have := apart.2.2 s mem (slotAt m i) (by simp) live valid
        unfold Slot.Apart at this ⊢
        dsimp only
        omega
      · exact apart.2.2 s mem t (List.mem_cons_of_mem _ mem') live live'

structure Grown (m : Memory) (i : Nat) (record : Bytes) (m' : Memory) : Prop where
  slotAt : slotAt m' i = ⟨freeSpaceEnd m - record.length, record.length, 0, 0⟩
  bottom : freeSpaceEnd m' = freeSpaceEnd m - record.length
  bytes : read m' (freeSpaceEnd m - record.length) record.length = record
  others : ∀ a, (a < 18 ∨ 20 ≤ a) → (a < slotAddr i ∨ slotAddr i + 8 ≤ a) →
    (a < freeSpaceEnd m - record.length ∨ freeSpaceEnd m ≤ a) → m' a = m a

theorem placeGrown_grown {record : Bytes} (wf : Wf m) (lt : i < numSlots m)
    (room : slotAddr (numSlots m) + record.length ≤ freeSpaceEnd m) :
    Grown m i record (placeGrown m i record) := by
  have bound := wf.end_le
  have low := header_le i
  have high : slotAddr i + 8 ≤ slotAddr (numSlots m) := slotAddr_lt lt
  have short : u16 record.length = record.length := Nat.mod_eq_of_lt (by omega)
  have offset : sub16 (freeSpaceEnd m) record.length = freeSpaceEnd m - record.length := by
    unfold sub16 u16
    omega
  unfold placeGrown
  dsimp only
  rw [short, offset, List.take_length]
  have slot : slotAt (initSlot (setFreeSpaceEnd m (freeSpaceEnd m - record.length)) i
      (freeSpaceEnd m - record.length) record.length) i =
      ⟨freeSpaceEnd m - record.length, record.length, 0, 0⟩ :=
    slotAt_initSlot_self (by omega) (by omega)
  rw [slot]
  dsimp only
  constructor
  · rw [slotAt_write_apart (by omega), slot]
  · change word _ 18 = _
    rw [word_write_apart (by omega), word_initSlot_apart (by omega)]
    exact (word_setWord_self _ _ _).trans (Nat.mod_eq_of_lt (by omega))
  · exact read_write_self _ _ _
  · intro a header dir record
    rw [write_apart (by omega), initSlot_apart (by omega)]
    exact setWord_apart (by omega)

theorem placeGrown_congr {record : Bytes}
    (same : ∀ a, a < slotAddr i ∨ slotAddr i + 8 ≤ a → m a = m' a) :
    placeGrown m i record = placeGrown m' i record := by
  have low := header_le i
  have bottom : freeSpaceEnd m = freeSpaceEnd m' :=
    word_congr (same 18 (by omega)) (same 19 (by omega))
  have slot : ∀ offset length, initSlot (setFreeSpaceEnd m offset) i offset length =
      initSlot (setFreeSpaceEnd m' offset) i offset length := by
    intro offset length
    funext a
    unfold initSlot
    refine setWord_congr fun o₁ => setWord_congr fun o₂ => setWord_congr fun o₃ => setWord_congr fun o₄ => ?_
    exact setWord_congr fun _ => same a (by omega)
  unfold placeGrown
  rw [bottom]
  simp only [slot]

theorem Wf.grown {record : Bytes} (wf : Wf m) (lt : i < numSlots m)
    (gone : (slotAt m i).isValid = false)
    (room : slotAddr (numSlots m) + record.length ≤ freeSpaceEnd m) (gr : Grown m i record m') :
    Wf m' ∧ numSlots m' = numSlots m ∧ deadBytes m' = deadBytes m ∧ SameHeader m m' ∧
      ∀ j < numSlots m, j ≠ i → slotAt m' j = slotAt m j := by
  have first := header_le i
  have bound := wf.end_le
  have high : slotAddr i + 8 ≤ slotAddr (numSlots m) := slotAddr_lt lt
  have word_ : ∀ a, a + 2 ≤ 18 ∨ 20 ≤ a ∧ a + 2 ≤ 40 → word m' a = word m a := fun a h =>
    word_congr (gr.others a (by omega) (by omega) (by omega))
      (gr.others (a + 1) (by omega) (by omega) (by omega))
  have count : numSlots m' = numSlots m := word_ 6 (by decide)
  have start : freeSpaceStart m' = freeSpaceStart m := word_ 16 (by decide)
  have dead : deadBytes m' = deadBytes m := word_ 36 (by decide)
  have others : ∀ j < numSlots m, j ≠ i → slotAt m' j = slotAt m j := by
    intro j lt' ne
    have low := header_le j
    have high' : slotAddr j + 8 ≤ slotAddr (numSlots m) := slotAddr_lt lt'
    rcases Nat.lt_or_gt_of_ne ne with before | behind
    · have := slotAddr_lt before
      exact slotAt_congr fun k small => gr.others _ (by omega) (by omega) (by omega)
    · have := slotAddr_lt behind
      exact slotAt_congr fun k small => gr.others _ (by omega) (by omega) (by omega)
  have slots' := slots_set count gr.slotAt others
  refine ⟨?_, count, dead, fun a small field => gr.others a (by omega) (by omega) (by omega), others⟩
  obtain ⟨lo, hi, cut, len⟩ := wf.slot_cut lt
  obtain ⟨start', room', total, inside, apart⟩ := wf
  rw [cut, ← len, set_cut] at slots'
  rw [cut] at total inside apart
  have valid : Slot.isValid ⟨freeSpaceEnd m - record.length, record.length, 0, 0⟩ = true := by
    simp [Slot.isValid]
  constructor
  · rw [start, count, start']
  · rw [start, gr.bottom, start']
    omega
  · rw [gr.bottom, dead, slots']
    rw [liveBytes_append, liveBytes_cons] at total ⊢
    rw [gone] at total
    simp only [Bool.false_eq_true, if_false] at total
    rw [if_pos valid]
    dsimp only
    omega
  · rw [gr.bottom, slots']
    intro s mem live
    rcases List.mem_append.mp mem with left | right
    · have := inside s (List.mem_append_left _ left) live
      omega
    · rcases List.mem_cons.mp right with rfl | right
      · exact ⟨le_rfl, by simp only [kPageSize]; omega⟩
      · have := inside s (List.mem_append_right _ (List.mem_cons_of_mem _ right)) live
        omega
  · rw [slots']
    rw [List.pairwise_append, List.pairwise_cons] at apart ⊢
    refine ⟨apart.1, ⟨?_, apart.2.1.2⟩, ?_⟩
    · intro t mem _ live
      have := inside t (List.mem_append_right _ (List.mem_cons_of_mem _ mem)) live
      exact .inl (by dsimp only; omega)
    · intro s mem t mem' live live'
      rcases List.mem_cons.mp mem' with rfl | mem'
      · have := inside s (List.mem_append_left _ mem) live
        exact .inr (by dsimp only; omega)
      · exact apart.2.2 s mem t (List.mem_cons_of_mem _ mem') live live'

/-- A leaf whose slot `i` is a tombstone. -/
structure Vacant (m : Memory) (recs : List (Bytes × Bytes)) (i : Nat) : Prop where
  wf : Wf m
  leaf : isLeaf m = true
  count : numSlots m = recs.length
  gone : (slotAt m i).isValid = false
  stored : ∀ j, (h : j < recs.length) → j ≠ i → Stored m (slotAt m j) recs[j]

theorem deleted_header (del : Deleted m i m') : SameHeader m m' := by
  have low := header_le i
  exact fun a small field => del.others a (by omega) (by omega)

theorem Holds.deleted (holds : Holds m recs) (h : i < recs.length) (del : Deleted m i m') :
    Vacant m' recs i ∧ freeSpaceEnd m' = freeSpaceEnd m := by
  have lt : i < numSlots m := by rw [holds.count]; exact h
  have first := header_le i
  have room := holds.wf.room
  rw [holds.wf.start] at room
  have high : slotAddr i + 8 ≤ slotAddr (numSlots m) := slotAddr_lt lt
  have count : numSlots m' = numSlots m :=
    word_congr (del.others 6 (by omega) (by decide)) (del.others 7 (by omega) (by decide))
  have bottom : freeSpaceEnd m' = freeSpaceEnd m :=
    word_congr (del.others 18 (by omega) (by decide)) (del.others 19 (by omega) (by decide))
  have slot : ∀ j < numSlots m, slotAt m' j = if i = j then (slotAt m i).deleted else slotAt m j := by
    intro j small
    rw [← slots_getElem (m := m') (by rw [slots_length, count]; exact small)]
    simp only [del.slots, List.getElem_set, slots_getElem]
  refine ⟨⟨holds.wf.deleted lt (holds.stored i h).valid del, ?_, count.trans holds.count, ?_, ?_⟩, bottom⟩
  · rw [isLeaf_congr (deleted_header del 4 (by decide) (by decide))]
    exact holds.leaf
  · rw [slot i lt, if_pos rfl]
    exact deleted_isValid _
  · intro j small ne
    rw [slot j (by rw [holds.count]; exact small), if_neg (Ne.symm ne)]
    have bottom := (holds.inside small).1
    exact (holds.stored j small).congr fun a low _ => del.others a (by omega) (by omega)

theorem Vacant.compact (vac : Vacant m recs i) (h : i < recs.length) : Vacant (compact m) recs i := by
  have c := compact_compacted vac.wf
  have lt : i < numSlots m := by rw [vac.count]; exact h
  have count : numSlots (Slotted.compact m) = numSlots m := c.kept (by decide)
  refine ⟨vac.wf.compacted c, ?_, count.trans vac.count, ?_, ?_⟩
  · rw [isLeaf_congr (c.header 4 (by decide) (by decide))]
    exact vac.leaf
  · have inside : i < (slots m).length := by rw [slots_length]; exact lt
    have inPacked : i < (packed kPageSize (slots m)).length := by rw [packed_length]; exact inside
    obtain ⟨live, -⟩ := packed_slot inPacked inside
    rw [← slots_getElem (m := Slotted.compact m) (by rw [slots_length, count]; exact lt)]
    simp only [c.slots]
    rw [live, slots_getElem]
    exact vac.gone
  · intro j small ne
    exact compacted_stored c (by rw [vac.count]; exact small) (vac.stored j small ne)

theorem Vacant.revived {r : Bytes × Bytes} (vac : Vacant m recs i) (h : i < recs.length) (fits : Fits r)
    (room : slotAddr (numSlots m) + leafRecordBytes r ≤ freeSpaceEnd m) :
    Holds (placeGrown m i (encodeLeafRecord r.1 r.2)) (recs.set i r) ∧
      page (placeGrown m i (encodeLeafRecord r.1 r.2)) (recs.set i r) =
        { page m (recs.set i r) with freeSpaceEnd := freeSpaceEnd m - leafRecordBytes r } := by
  have size : (encodeLeafRecord r.1 r.2).length = leafRecordBytes r := encodeLeafRecord_length r.1 r.2
  have lt : i < numSlots m := by rw [vac.count]; exact h
  have room' : slotAddr (numSlots m) + (encodeLeafRecord r.1 r.2).length ≤ freeSpaceEnd m := by
    rw [size]
    exact room
  have gr := placeGrown_grown vac.wf lt room'
  generalize placeGrown m i (encodeLeafRecord r.1 r.2) = m' at gr ⊢
  obtain ⟨wf, count, dead, header, others⟩ := vac.wf.grown lt vac.gone room' gr
  have bottom := gr.bottom
  rw [size] at bottom
  have first := header_le i
  have high : slotAddr i + 8 ≤ slotAddr (numSlots m) := slotAddr_lt lt
  constructor
  · refine ⟨wf, ?_, by rw [count, vac.count, List.length_set], ?_⟩
    · rw [isLeaf_congr (header 4 (by decide) (by decide))]
      exact vac.leaf
    · intro j small
      rw [List.length_set] at small
      rw [List.getElem_set]
      split
      · rename_i same
        have record := gr.bytes
        rw [← same, gr.slotAt]
        rw [size] at record ⊢
        exact ⟨by simp [Slot.isValid], rfl, record, fits⟩
      · rename_i ne
        have stored := vac.stored j small (Ne.symm ne)
        have lt' : j < (slots m).length := by rw [slots_length, vac.count]; exact small
        have inside := vac.wf.inside (slotAt m j) (slots_getElem lt' ▸ List.getElem_mem lt') stored.valid
        rw [others j (by rw [vac.count]; exact small) (Ne.symm ne)]
        exact stored.congr fun a low _ => gr.others a (by omega) (by omega) (by omega)
  · rw [page_congr header, bottom, dead]
    rfl

section Update

variable {r : Bytes × Bytes}

theorem Holds.shrunk (holds : Holds m recs) (h : i < recs.length) (fits : Fits r)
    (shorter : leafRecordBytes r ≤ leafRecordBytes recs[i])
    (sh : Shrunk m i (encodeLeafRecord r.1 r.2) m') :
    Holds m' (recs.set i r) ∧ page m' (recs.set i r) = { page m (recs.set i r) with
      deadBytes := deadBytes m + (leafRecordBytes recs[i] - leafRecordBytes r) } := by
  have size : (encodeLeafRecord r.1 r.2).length = leafRecordBytes r := encodeLeafRecord_length r.1 r.2
  obtain ⟨valid, length, -, -⟩ := holds.stored i h
  have lt : i < numSlots m := by rw [holds.count]; exact h
  have inside := (holds.inside h).1
  obtain ⟨wf, count, bottom, others⟩ :=
    holds.wf.shrunk lt valid (by rw [size, length]; exact shorter) inside sh
  have first := header_le i
  have room := holds.wf.room
  rw [holds.wf.start] at room
  have high : slotAddr i + 8 ≤ slotAddr (numSlots m) := slotAddr_lt lt
  have header : SameHeader m m' := fun a small field => sh.others a (by omega) (by omega) (by omega)
  have dead := sh.dead
  rw [size, length] at dead
  constructor
  · refine ⟨wf, ?_, by rw [count, holds.count, List.length_set], ?_⟩
    · rw [isLeaf_congr (header 4 (by decide) (by decide))]
      exact holds.leaf
    · intro j small
      rw [List.length_set] at small
      rw [List.getElem_set]
      split
      · rename_i same
        have record := sh.bytes
        rw [← same, sh.slotAt]
        rw [size] at record ⊢
        exact ⟨valid, rfl, record, fits⟩
      · rename_i ne
        have apart := holds.apart_slots h small (Ne.symm ne)
        have bottom := (holds.inside small).1
        unfold Slot.Apart at apart
        rw [others j (by rw [holds.count]; exact small) (Ne.symm ne)]
        refine (holds.stored j small).congr fun a low top => ?_
        exact sh.others a (by omega) (by omega) (by omega)
  · rw [page_congr header, bottom, dead]
    rfl

theorem Holds.moved (holds : Holds m recs) (h : i < recs.length) (fits : Fits r)
    (room : leafRecordBytes r ≤ Slotted.freeSpace m) :
    Holds (placeGrown (setDeadBytes m (u16 (deadBytes m + leafRecordBytes recs[i]))) i
        (encodeLeafRecord r.1 r.2)) (recs.set i r) ∧
      page (placeGrown (setDeadBytes m (u16 (deadBytes m + leafRecordBytes recs[i]))) i
        (encodeLeafRecord r.1 r.2)) (recs.set i r) = { page m (recs.set i r) with
          freeSpaceEnd := freeSpaceEnd m - leafRecordBytes r
          deadBytes := deadBytes m + leafRecordBytes recs[i] } := by
  obtain ⟨valid, length, -, -⟩ := holds.stored i h
  have lt : i < numSlots m := by rw [holds.count]; exact h
  have bound := holds.wf.live_le lt valid
  simp only [kPageSize] at bound
  have first := header_le i
  obtain ⟨m₁, -, del⟩ := deleteRecord_deleted holds.wf lt valid
  obtain ⟨vac, bottom⟩ := holds.deleted h del
  rw [holds.wf.freeSpace_eq] at room
  have dead := del.dead
  rw [length] at dead bound
  have small : u16 (deadBytes m + leafRecordBytes recs[i]) = deadBytes m + leafRecordBytes recs[i] :=
    Nat.mod_eq_of_lt (by omega)
  -- The tombstone flag is overwritten at once, so it does not matter that it was not set.
  have same : placeGrown (setDeadBytes m (u16 (deadBytes m + leafRecordBytes recs[i]))) i
      (encodeLeafRecord r.1 r.2) = placeGrown m₁ i (encodeLeafRecord r.1 r.2) := by
    apply placeGrown_congr
    intro a outside
    rw [small]
    by_cases field : a < 36 ∨ 38 ≤ a
    · exact (setWord_apart field).trans (del.others a (by omega) field).symm
    · refine setWord_same ?_ (by omega)
      exact dead
  have count : numSlots m₁ = numSlots m := vac.count.trans holds.count.symm
  have header : SameHeader m m₁ := deleted_header del
  rw [same]
  have pos : 0 < leafRecordBytes r := by
    unfold leafRecordBytes
    omega
  obtain ⟨after, eq⟩ := vac.revived h fits (by rw [count, bottom]; omega)
  refine ⟨after, eq.trans ?_⟩
  rw [page_congr header, bottom, dead]

theorem Holds.repacked (holds : Holds m recs) (h : i < recs.length) (fits : Fits r)
    (room : leafRecordBytes r ≤ Slotted.freeSpace m + deadBytes m + leafRecordBytes recs[i]) :
    Holds (placeGrown (Slotted.compact (deleteRecord m i).2) i (encodeLeafRecord r.1 r.2)) (recs.set i r) ∧
      page (placeGrown (Slotted.compact (deleteRecord m i).2) i (encodeLeafRecord r.1 r.2))
        (recs.set i r) = { page m (recs.set i r) with
          freeSpaceEnd := kPageSize - ((recs.map leafRecordBytes).sum - leafRecordBytes recs[i]) -
            leafRecordBytes r
          deadBytes := 0 } := by
  obtain ⟨valid, length, -, -⟩ := holds.stored i h
  have lt : i < numSlots m := by rw [holds.count]; exact h
  obtain ⟨m₁, run, del⟩ := deleteRecord_deleted holds.wf lt valid
  rw [run]
  dsimp only
  obtain ⟨vac, bottom⟩ := holds.deleted h del
  have c := compact_compacted vac.wf
  have dead := del.dead
  rw [length] at dead
  have live : liveBytes (slots m₁) + leafRecordBytes recs[i] = (recs.map leafRecordBytes).sum := by
    have before := holds.wf.total
    have after := vac.wf.total
    rw [holds.live] at before
    omega
  have top : freeSpaceEnd (Slotted.compact m₁) =
      kPageSize - ((recs.map leafRecordBytes).sum - leafRecordBytes recs[i]) := by
    rw [c.bottom]
    omega
  have count : numSlots (Slotted.compact m₁) = numSlots m :=
    (vac.compact h).count.trans holds.count.symm
  obtain ⟨after, eq⟩ := (vac.compact h).revived h fits (by
    have total := holds.wf.total
    have room' := holds.wf.room
    rw [holds.live] at total
    rw [holds.wf.start] at room'
    rw [holds.wf.freeSpace_eq] at room
    rw [count, top]
    omega)
  refine ⟨after, eq.trans ?_⟩
  rw [page_congr (compacted_header c), page_congr (deleted_header del), top, c.dead]

theorem updateLeaf_refines (ref : Refines m p) (asc : (p.recs.map Prod.fst).Pairwise (· < ·))
    (fits : Fits (key, value)) :
    (updateLeaf m key value).1 = (p.updateLeaf key value).1 ∧
      Refines (updateLeaf m key value).2 (p.updateLeaf key value).2 := by
  have holds := ref.holds
  rw [← ref.eq]
  generalize p.recs = recs at holds asc
  have model : (page m recs).body = .leaf (decode (read m 24 4)) (decode (read m 20 4)) recs := rfl
  have size := encodeLeafRecord_length key value
  have short : u16 (encodeLeafRecord key value).length = leafRecordBytes (key, value) := by
    have : leafRecordBytes (key, value) ≤ 4048 := fits
    rw [size]
    exact Nat.mod_eq_of_lt (by omega)
  have whole : (encodeLeafRecord key value).take (leafRecordBytes (key, value)) =
      encodeLeafRecord key value := List.take_of_length_le (by omega)
  unfold updateLeaf Page.updateLeaf
  rw [if_pos holds.leaf, holds.findKeyIndex key]
  simp only [model]
  rcases Page.findKeyIndex_leaf_cases (p := page m recs) rfl asc key with
    ⟨lo, old, hi, eq, -, -, found⟩ | ⟨lo, hi, -, -, -, found⟩
  · have h : lo.length < recs.length := by simp [eq]
    obtain ⟨valid, length, -, -⟩ := holds.stored lo.length h
    have lt : lo.length < numSlots m := by rw [holds.count]; exact h
    have oldLen : getRecordLength m lo.length = leafRecordBytes recs[lo.length] := by
      rw [getRecordLength, if_pos ⟨lt, valid⟩, length]
    have get : recs.getD lo.length ([], []) = recs[lo.length] := by simp [h]
    simp only [found, if_true, short, oldLen, get, whole, holds.freeSpace]
    by_cases shorter : leafRecordBytes (key, value) ≤ leafRecordBytes recs[lo.length]
    · have shorter' : (encodeLeafRecord key value).length ≤ (slotAt m lo.length).length := by
        rw [size, length]
        exact shorter
      have sh := shrink_shrunk holds.wf lt valid (holds.inside h).1 shorter'
      obtain ⟨after, same⟩ := holds.shrunk h fits shorter sh
      rw [size, length] at after same
      rw [if_pos shorter, if_pos shorter]
      split
      · rename_i less
        rw [if_pos less] at after same
        exact ⟨rfl, after, same⟩
      · rename_i equal
        rw [if_neg equal] at after same
        exact ⟨rfl, after, same⟩
    · rw [if_neg shorter, if_neg shorter]
      by_cases tight : Slotted.freeSpace m < leafRecordBytes (key, value)
      · rw [if_pos tight, if_pos tight]
        have dead : (page m recs).deadBytes = deadBytes m := rfl
        rw [dead]
        split
        · exact ⟨rfl, refines_page holds⟩
        · rename_i enough
          obtain ⟨after, same⟩ := holds.repacked h fits (r := (key, value)) (by omega)
          exact ⟨rfl, after, same⟩
      · rw [if_neg tight, if_neg tight]
        obtain ⟨after, same⟩ := holds.moved h fits (r := (key, value)) (by omega)
        exact ⟨rfl, after, same⟩
  · simp only [found]
    exact ⟨rfl, refines_page holds⟩

end Update

end PagerDB.Slotted

import PagerDB.Lib.Sorted
import PagerDB.Storage.SlottedPage

/-! Every byte of a slotted page is header, directory, free, live or dead. The invariant is stated on
the slot directory; each operation is first described by what it leaves of the header, of the
directory and of the record area. -/
namespace PagerDB.Slotted

open MachineLib MemoryLib LittleEndian SortedLib

variable {m m' : Memory} {i j : Nat} {data : Bytes}

def liveBytes (l : List Slot) : Nat := ((l.filter Slot.isValid).map Slot.length).sum

def Slot.Apart (s t : Slot) : Prop :=
  s.offset + s.length ≤ t.offset ∨ t.offset + t.length ≤ s.offset

structure Wf (m : Memory) : Prop where
  start : freeSpaceStart m = slotAddr (numSlots m)
  room : freeSpaceStart m ≤ freeSpaceEnd m
  total : freeSpaceEnd m + deadBytes m + liveBytes (slots m) = kPageSize
  inside : ∀ s ∈ slots m, s.isValid = true →
    freeSpaceEnd m ≤ s.offset ∧ s.offset + s.length ≤ kPageSize
  apart : (slots m).Pairwise fun s t => s.isValid = true → t.isValid = true → s.Apart t

theorem liveBytes_append (l l' : List Slot) : liveBytes (l ++ l') = liveBytes l + liveBytes l' := by
  simp [liveBytes]

theorem liveBytes_cons (s : Slot) (l : List Slot) :
    liveBytes (s :: l) = (if s.isValid then s.length else 0) + liveBytes l := by
  by_cases valid : s.isValid = true
  · simp [liveBytes, valid]
  · simp [liveBytes, valid]

theorem Wf.freeSpace_eq (wf : Wf m) : freeSpace m = freeSpaceEnd m - slotAddr (numSlots m) := by
  unfold freeSpace
  rw [wf.start]
  split <;> omega

theorem Wf.end_le (wf : Wf m) : freeSpaceEnd m ≤ 4096 := by
  have total := wf.total
  simp only [kPageSize] at total
  omega

def SameHeader (m m' : Memory) : Prop :=
  ∀ a < 40, (a < 6 ∨ 8 ≤ a ∧ a < 16 ∨ 20 ≤ a ∧ a < 36 ∨ 38 ≤ a) → m' a = m a

/- Inserting. -/

structure Inserted (m : Memory) (i : Nat) (data : Bytes) (m' : Memory) : Prop where
  numSlots : numSlots m' = numSlots m + 1
  start : freeSpaceStart m' = slotAddr (Slotted.numSlots m + 1)
  bottom : freeSpaceEnd m' = freeSpaceEnd m - data.length
  dead : deadBytes m' = deadBytes m
  slots : slots m' = (slots m).insertIdx i ⟨freeSpaceEnd m - data.length, data.length, 0, 0⟩
  header : SameHeader m m'
  record : read m' (freeSpaceEnd m - data.length) data.length = data
  above : ∀ a, freeSpaceEnd m ≤ a → m' a = m a

theorem Wf.fits (wf : Wf m) (size : data.length ≤ 65527) (fits : canFit m data.length = true) :
    slotAddr (numSlots m + 1) + data.length ≤ freeSpaceEnd m ∧
      sub16 (freeSpaceEnd m) data.length = freeSpaceEnd m - data.length := by
  have room := wf.room
  have bound := wf.end_le
  simp only [canFit, u16, kSlotEntrySize, wf.freeSpace_eq, decide_eq_true_eq] at fits
  rw [wf.start] at room
  rw [Nat.mod_eq_of_lt (by omega)] at fits
  rw [slotAddr_succ]
  refine ⟨by omega, ?_⟩
  unfold sub16 u16
  omega

theorem Wf.numSlots_lt (wf : Wf m) : numSlots m < 512 := by
  have room := wf.room
  have bound := wf.end_le
  rw [wf.start] at room
  simp only [slotAddr, kPageHeaderSize, kSlotEntrySize] at room
  omega

theorem shifted_slotAt {n : Nat} (le : i ≤ n) :
    (∀ j < i, slotAt (write m (slotAddr (i + 1)) (read m (slotAddr i) ((n - i) * kSlotEntrySize))) j =
      slotAt m j) ∧
    ∀ j, i ≤ j → j < n →
      slotAt (write m (slotAddr (i + 1)) (read m (slotAddr i) ((n - i) * kSlotEntrySize))) (j + 1) =
        slotAt m j := by
  constructor
  · intro j lt
    have := slotAddr_lt lt
    have := slotAddr_succ i
    exact slotAt_write_apart (.inl (by omega))
  · intro j ge lt
    apply slotAt_congr
    intro k small
    have source : slotAddr (j + 1) + k = slotAddr (i + 1) + (8 * (j - i) + k) := by
      simp only [slotAddr, kSlotEntrySize]
      omega
    have target : slotAddr j + k = slotAddr i + (8 * (j - i) + k) := by
      simp only [slotAddr, kSlotEntrySize]
      omega
    rw [source, target]
    apply write_read
    simp only [kSlotEntrySize]
    omega

theorem slots_insert {s : Slot} (count : numSlots m' = numSlots m + 1) (le : i ≤ numSlots m)
    (low : ∀ j < i, slotAt m' j = slotAt m j) (here : slotAt m' i = s)
    (high : ∀ j, i ≤ j → j < numSlots m → slotAt m' (j + 1) = slotAt m j) :
    slots m' = (slots m).insertIdx i s := by
  have len := slots_length m
  apply slots_eq
  · rw [List.length_insertIdx_of_le_length (by omega)]
    omega
  · intro j h
    rw [List.length_insertIdx_of_le_length (by omega)] at h
    rw [List.getElem_insertIdx]
    split
    · rw [low j (by assumption), slots_getElem]
    · split
      · rename_i eq
        rw [eq, here]
      · obtain ⟨k, rfl⟩ : ∃ k, j = k + 1 := ⟨j - 1, by omega⟩
        rw [high k (by omega) (by omega)]
        exact (slots_getElem _).symm

theorem insertRecordAt_inserted (wf : Wf m) (size : data.length ≤ 65527) (le : i ≤ numSlots m)
    (fits : canFit m data.length = true) :
    ∃ m', insertRecordAt m i data = (.ok i, m') ∧ Inserted m i data m' := by
  obtain ⟨room, offset⟩ := wf.fits size fits
  have few := wf.numSlots_lt
  have bound := wf.end_le
  have first := header_le i
  have last : slotAddr i + 8 ≤ slotAddr (numSlots m + 1) := slotAddr_lt (by omega)
  have next := slotAddr_succ i
  have ends : slotAddr (i + 1) + (numSlots m - i) * kSlotEntrySize = slotAddr (numSlots m + 1) := by
    simp only [slotAddr, kSlotEntrySize, kPageHeaderSize]
    omega
  obtain ⟨low, high⟩ := shifted_slotAt (m := m) le
  have tailLen := length_read m (slotAddr i) ((numSlots m - i) * kSlotEntrySize)
  unfold insertRecordAt
  rw [if_neg (by omega), if_pos fits, offset]
  generalize read m (slotAddr i) ((numSlots m - i) * kSlotEntrySize) = tail at low high tailLen
  refine ⟨_, rfl, ?_⟩
  generalize opened : initSlot (write m (slotAddr (i + 1)) tail) i (freeSpaceEnd m - data.length)
    data.length = m₂
  -- the directory was changed between the header and the free space
  have outside : ∀ a, a < 40 ∨ slotAddr (numSlots m + 1) ≤ a → m₂ a = m a := by
    intro a out
    rw [← opened, initSlot_apart (by omega), write_apart (by omega)]
  have count : numSlots m₂ = numSlots m :=
    word_congr (outside 6 (.inl (by decide))) (outside 7 (.inl (by decide)))
  have count' : numSlots (setNumSlots m₂ (numSlots m + 1)) = numSlots m + 1 :=
    (word_setWord_self _ _ _).trans (Nat.mod_eq_of_lt (by omega))
  have start : kPageHeaderSize + (numSlots m + 1) * kSlotEntrySize = slotAddr (numSlots m + 1) := by
    simp only [slotAddr, kSlotEntrySize]
    omega
  rw [count, count', start]
  generalize closed : write _ (freeSpaceEnd m - data.length) data = m'
  unfold setFreeSpaceEnd setFreeSpaceStart setNumSlots at closed
  have slot : ∀ j ≤ numSlots m, slotAt m' j = slotAt m₂ j := by
    intro j le
    have : slotAddr j + 8 ≤ slotAddr (numSlots m + 1) := slotAddr_lt (Nat.lt_succ_of_le le)
    have := header_le j
    rw [← closed, slotAt_write_apart (by omega), slotAt_setWord_apart (by omega),
      slotAt_setWord_apart (by omega), slotAt_setWord_apart (by omega)]
  have numSlots' : numSlots m' = numSlots m + 1 := by
    rw [← closed]
    change word _ 6 = _
    rw [word_write_apart (by omega), word_setWord_apart (by omega), word_setWord_apart (by omega),
      word_setWord_self]
    exact Nat.mod_eq_of_lt (by omega)
  constructor
  · exact numSlots'
  · rw [← closed]
    change word _ 16 = _
    rw [word_write_apart (by omega), word_setWord_apart (by omega), word_setWord_self]
    exact Nat.mod_eq_of_lt (by omega)
  · rw [← closed]
    change word _ 18 = _
    rw [word_write_apart (by omega), word_setWord_self]
    exact Nat.mod_eq_of_lt (by omega)
  · rw [← closed]
    change word _ 36 = _
    rw [word_write_apart (by omega), word_setWord_apart (by omega), word_setWord_apart (by omega),
      word_setWord_apart (by omega)]
    exact word_congr (outside 36 (.inl (by decide))) (outside 37 (.inl (by decide)))
  · apply slots_insert numSlots' le
    · intro j lt
      rw [slot j (by omega), ← opened, slotAt_initSlot_other (by omega), low j lt]
    · rw [slot i le, ← opened, slotAt_initSlot_self (by omega) (by omega)]
    · intro j ge lt
      rw [slot (j + 1) lt, ← opened, slotAt_initSlot_other (by omega), high j ge lt]
  · intro a small field
    rw [← closed, write_apart (by omega), setWord_apart (by omega), setWord_apart (by omega),
      setWord_apart (by omega), outside a (by omega)]
  · rw [← closed]
    exact read_write_self _ _ _
  · intro a above
    rw [← closed, write_apart (by omega), setWord_apart (by omega), setWord_apart (by omega),
      setWord_apart (by omega), outside a (by omega)]

theorem insertRecord_eq (m : Memory) (data : Bytes) :
    insertRecord m data = insertRecordAt m (numSlots m) data := by
  have commute : ∀ (m : Memory) (i a v offset length : Nat), a + 2 ≤ 40 →
      initSlot (setWord m a v) i offset length = setWord (initSlot m i offset length) a v := by
    intro m i a v offset length header
    have first := header_le i
    unfold initSlot
    rw [setWord_comm (a := a) (by omega), setWord_comm (a := a) (by omega),
      setWord_comm (a := a) (by omega), setWord_comm (a := a) (by omega)]
  have first := header_le (numSlots m)
  have count : ∀ offset length, numSlots (initSlot m (numSlots m) offset length) = numSlots m :=
    fun offset length => word_initSlot_apart (by omega)
  have counted : ∀ m' n, numSlots (setNumSlots m' n) = u16 n := fun m' n => word_setWord_self m' 6 n
  unfold insertRecord insertRecordAt
  rw [if_neg (lt_irrefl _), Nat.sub_self, Nat.zero_mul]
  have none : read m (slotAddr (numSlots m)) 0 = [] := rfl
  simp only [none, write_nil, count, counted]
  unfold setFreeSpaceEnd setFreeSpaceStart setNumSlots
  rw [commute _ _ 18 _ _ _ (by decide), commute _ _ 16 _ _ _ (by decide),
    commute _ _ 6 _ _ _ (by decide)]

theorem Wf.inserted (wf : Wf m) (le : i ≤ numSlots m)
    (room : slotAddr (numSlots m + 1) + data.length ≤ freeSpaceEnd m) (ins : Inserted m i data m') :
    Wf m' := by
  obtain ⟨numSlots', start, bottom, dead, slots', -, -, -⟩ := ins
  obtain ⟨lo, hi, cut, len⟩ : ∃ lo hi, slots m = lo ++ hi ∧ lo.length = i := by
    refine ⟨(slots m).take i, (slots m).drop i, (List.take_append_drop i _).symm, ?_⟩
    have := slots_length m
    simp
    omega
  rw [cut, ← len, insertIdx_cut] at slots'
  have valid : Slot.isValid ⟨freeSpaceEnd m - data.length, data.length, 0, 0⟩ = true := by
    simp [Slot.isValid]
  have bound := wf.end_le
  have total := wf.total
  have inside := wf.inside
  have apart := wf.apart
  rw [cut] at total inside apart
  constructor
  · rw [start, numSlots']
  · rw [start, bottom]
    omega
  · rw [bottom, dead, slots']
    rw [liveBytes_append] at total ⊢
    rw [liveBytes_cons, if_pos valid]
    dsimp only
    omega
  · rw [bottom, slots']
    intro s mem live
    rcases List.mem_append.mp mem with left | right
    · have := inside s (List.mem_append_left _ left) live
      omega
    · rcases List.mem_cons.mp right with rfl | right
      · exact ⟨le_rfl, by simp only [kPageSize]; omega⟩
      · have := inside s (List.mem_append_right _ right) live
        omega
  · rw [slots']
    rw [List.pairwise_append] at apart ⊢
    refine ⟨apart.1, List.pairwise_cons.mpr ⟨?_, apart.2.1⟩, ?_⟩
    · intro t mem _ live
      have := inside t (List.mem_append_right _ mem) live
      exact .inl (by dsimp only; omega)
    · intro s mem t mem' live live'
      rcases List.mem_cons.mp mem' with rfl | mem'
      · have := inside s (List.mem_append_left _ mem) live
        exact .inr (by dsimp only; omega)
      · exact apart.2.2 s mem t mem' live live'

/- Deleting. -/

def Slot.deleted (s : Slot) : Slot := { s with flags := s.flags ||| kFlagDeleted }

theorem deleted_isValid (s : Slot) : s.deleted.isValid = false := by
  have odd : (s.flags ||| 1) &&& 1 = 1 := by
    apply Nat.eq_of_testBit_eq
    intro k
    simp only [Nat.testBit_and, Nat.testBit_or]
    cases (Nat.testBit 1 k) <;> simp
  simp [Slot.isValid, Slot.deleted, kFlagDeleted, odd]

structure Deleted (m : Memory) (i : Nat) (m' : Memory) : Prop where
  slots : slots m' = (slots m).set i (slotAt m i).deleted
  dead : deadBytes m' = deadBytes m + (slotAt m i).length
  others : ∀ a, (a < slotAddr i + 4 ∨ slotAddr i + 6 ≤ a) → (a < 36 ∨ 38 ≤ a) → m' a = m a

theorem Wf.slot_cut (_ : Wf m) (lt : i < numSlots m) :
    ∃ lo hi, slots m = lo ++ slotAt m i :: hi ∧ lo.length = i := by
  have len := slots_length m
  refine ⟨(slots m).take i, (slots m).drop (i + 1), ?_, ?_⟩
  · rw [← slots_getElem (by omega)]
    simp
  · simp
    omega

theorem Wf.live_le (wf : Wf m) (lt : i < numSlots m) (valid : (slotAt m i).isValid = true) :
    deadBytes m + (slotAt m i).length ≤ kPageSize := by
  obtain ⟨lo, hi, cut, -⟩ := wf.slot_cut lt
  have total := wf.total
  rw [cut, liveBytes_append, liveBytes_cons, if_pos valid] at total
  omega

theorem deleteRecord_deleted (wf : Wf m) (lt : i < numSlots m) (valid : (slotAt m i).isValid = true) :
    ∃ m', deleteRecord m i = (.ok (), m') ∧ Deleted m i m' := by
  have bound := wf.live_le lt valid
  have first := header_le i
  have flags : (slotAt m i).flags ||| kFlagDeleted < 65536 :=
    Nat.or_lt_two_pow (n := 16) (word_lt m _) (by decide)
  unfold deleteRecord
  rw [if_neg (by omega), if_pos valid]
  refine ⟨_, rfl, ?_⟩
  have marked : slotAt (markDeleted m i) i = (slotAt m i).deleted := by
    unfold markDeleted
    simp only [slotAt, Slot.deleted, Slot.mk.injEq] at flags ⊢
    refine ⟨word_setWord_apart (by omega), word_setWord_apart (by omega), ?_,
      word_setWord_apart (by omega)⟩
    rw [word_setWord_self, Nat.mod_eq_of_lt flags]
  have dead : deadBytes (markDeleted m i) = deadBytes m := word_setWord_apart (by omega)
  rw [marked, dead]
  change Deleted m i (setDeadBytes (markDeleted m i) (u16 (deadBytes m + (slotAt m i).length)))
  have small : u16 (deadBytes m + (slotAt m i).length) = deadBytes m + (slotAt m i).length := by
    simp only [kPageSize] at bound
    exact Nat.mod_eq_of_lt (by omega)
  rw [small]
  have others : ∀ a, (a < slotAddr i + 4 ∨ slotAddr i + 6 ≤ a) → (a < 36 ∨ 38 ≤ a) →
      setDeadBytes (markDeleted m i) (deadBytes m + (slotAt m i).length) a = m a := by
    intro a slot header
    unfold setDeadBytes markDeleted
    rw [setWord_apart (by omega), setWord_apart (by omega)]
  constructor
  · apply slots_eq
    · rw [List.length_set, slots_length]
      exact word_congr (others 6 (by omega) (by decide)) (others 7 (by omega) (by decide))
    · intro j h
      rw [List.getElem_set]
      split
      · rename_i same
        subst same
        exact (slotAt_setWord_apart (by omega)).trans marked
      · rename_i ne
        rw [slots_getElem]
        apply slotAt_congr
        intro k small
        have := header_le j
        rcases Nat.lt_or_gt_of_ne ne with lt | gt
        · have := slotAddr_lt lt
          exact others _ (by omega) (by omega)
        · have := slotAddr_lt gt
          exact others _ (by omega) (by omega)
  · refine (word_setWord_self _ _ _).trans (Nat.mod_eq_of_lt ?_)
    simp only [kPageSize] at bound
    omega
  · exact others

theorem Wf.deleted (wf : Wf m) (lt : i < numSlots m) (valid : (slotAt m i).isValid = true)
    (del : Deleted m i m') : Wf m' := by
  obtain ⟨slots', dead, others⟩ := del
  obtain ⟨lo, hi, cut, len⟩ := wf.slot_cut lt
  have first := header_le i
  have word_ : ∀ a, a + 2 ≤ 36 → word m' a = word m a := fun a h =>
    word_congr (others a (by omega) (by omega)) (others (a + 1) (by omega) (by omega))
  have count : numSlots m' = numSlots m := word_ 6 (by decide)
  have start : freeSpaceStart m' = freeSpaceStart m := word_ 16 (by decide)
  have bottom : freeSpaceEnd m' = freeSpaceEnd m := word_ 18 (by decide)
  have gone := deleted_isValid (slotAt m i)
  obtain ⟨start', room, total, inside, apart⟩ := wf
  rw [cut, ← len, set_cut, len] at slots'
  rw [cut] at total inside apart
  constructor
  · rw [start, count, start']
  · rw [start, bottom]
    exact room
  · rw [bottom, dead, slots']
    rw [liveBytes_append, liveBytes_cons] at total ⊢
    rw [if_pos valid] at total
    rw [gone]
    simp only [Bool.false_eq_true, if_false]
    omega
  · rw [bottom, slots']
    intro s mem live
    rcases List.mem_append.mp mem with left | right
    · exact inside s (List.mem_append_left _ left) live
    · rcases List.mem_cons.mp right with rfl | right
      · rw [gone] at live
        contradiction
      · exact inside s (List.mem_append_right _ (List.mem_cons_of_mem _ right)) live
  · rw [slots']
    rw [List.pairwise_append, List.pairwise_cons] at apart ⊢
    refine ⟨apart.1, ⟨?_, apart.2.1.2⟩, ?_⟩
    · intro t _ live
      rw [gone] at live
      contradiction
    · intro s mem t mem' live live'
      rcases List.mem_cons.mp mem' with rfl | mem'
      · rw [gone] at live'
        contradiction
      · exact apart.2.2 s mem t (List.mem_cons_of_mem _ mem') live live'

/- Compacting. -/

/-- The directory with the live records packed below `top`. -/
def packed : Nat → List Slot → List Slot
  | _, [] => []
  | top, s :: rest =>
    if s.isValid then { s with offset := top - s.length } :: packed (top - s.length) rest
    else { s with offset := 0, length := 0 } :: packed top rest

theorem packed_length (top : Nat) (l : List Slot) : (packed top l).length = l.length := by
  induction l generalizing top with
  | nil => rfl
  | cons s l ih =>
    unfold packed
    split
    · simp [ih]
    · simp [ih]

theorem packed_live (top : Nat) (l : List Slot) : liveBytes (packed top l) = liveBytes l := by
  induction l generalizing top with
  | nil => rfl
  | cons s l ih =>
    unfold packed
    split
    · rename_i valid
      have same : Slot.isValid { s with offset := top - s.length } = true := valid
      rw [liveBytes_cons, liveBytes_cons, ih, if_pos same, if_pos valid]
    · rename_i valid
      have same : ¬Slot.isValid { s with offset := 0, length := 0 } = true := valid
      rw [liveBytes_cons, liveBytes_cons, ih, if_neg same, if_neg valid]

theorem packed_slot {top i : Nat} {l : List Slot} (h : i < (packed top l).length) (h' : i < l.length) :
    (packed top l)[i].isValid = l[i].isValid ∧
      (l[i].isValid = true → (packed top l)[i].length = l[i].length) := by
  induction l generalizing top i with
  | nil => simp at h'
  | cons s l ih =>
    by_cases valid : s.isValid = true
    · simp only [packed, valid, if_true] at h ⊢
      cases i with
      | zero => exact ⟨rfl, fun _ => rfl⟩
      | succ i => exact ih (by simpa using h) (by simpa using h')
    · simp only [packed, valid] at h ⊢
      cases i with
      | zero => exact ⟨rfl, fun live => absurd live valid⟩
      | succ i => exact ih (by simpa using h) (by simpa using h')

theorem packed_inside (top : Nat) {l : List Slot} (fits : liveBytes l ≤ top) :
    ∀ s ∈ packed top l, s.isValid = true →
      top - liveBytes l ≤ s.offset ∧ s.offset + s.length ≤ top := by
  induction l generalizing top with
  | nil => simp [packed]
  | cons s l ih =>
    unfold packed
    rw [liveBytes_cons] at fits
    rw [liveBytes_cons]
    split
    · rename_i valid
      rw [if_pos valid] at fits
      intro t mem live
      rcases List.mem_cons.mp mem with rfl | mem
      · dsimp only
        omega
      · have := ih (top - s.length) (by omega) t mem live
        omega
    · rename_i valid
      rw [if_neg valid] at fits
      intro t mem live
      rcases List.mem_cons.mp mem with rfl | mem
      · exact absurd live valid
      · have := ih top (by omega) t mem live
        omega

theorem packed_apart {top : Nat} {l : List Slot} (fits : liveBytes l ≤ top) :
    (packed top l).Pairwise fun s t => s.isValid = true → t.isValid = true → s.Apart t := by
  induction l generalizing top with
  | nil => exact List.Pairwise.nil
  | cons s l ih =>
    unfold packed
    rw [liveBytes_cons] at fits
    split
    · rename_i valid
      rw [if_pos valid] at fits
      have below := packed_inside (top - s.length) (l := l) (by omega)
      refine List.pairwise_cons.mpr ⟨?_, ih (by omega)⟩
      intro t mem _ live
      exact .inr (below t mem live).2
    · rename_i valid
      rw [if_neg valid] at fits
      refine List.pairwise_cons.mpr ⟨?_, ih (by omega)⟩
      intro t _ live
      exact absurd live valid

/-- What the loop makes of `scratch`: the slots `rest` from `i` on, with their records packed below `top`. -/
structure Packs (data scratch : Memory) (rest : List Slot) (top i : Nat) (out : Memory) : Prop where
  slots : ∀ k, (h : k < (packed top rest).length) → slotAt out (i + k) = (packed top rest)[k]
  outside : ∀ a, a < slotAddr i ∨ top ≤ a → out a = scratch a
  records : ∀ k, (h : k < rest.length) → rest[k].isValid = true →
    read out (slotAt out (i + k)).offset rest[k].length = read data rest[k].offset rest[k].length

section Packing

variable {data scratch moved out : Memory} {s : Slot} {rest : List Slot} {top top' i : Nat}

theorem directory_tail (dir : ∀ k, (h : k < (s :: rest).length) → slotAt scratch (i + k) = (s :: rest)[k])
    (same : ∀ a, slotAddr (i + 1) ≤ a → a < slotAddr (i + 1 + rest.length) → moved a = scratch a) :
    ∀ k, (h : k < rest.length) → slotAt moved (i + 1 + k) = rest[k] := by
  intro k h
  have old := dir (k + 1) (by simpa using h)
  rw [List.getElem_cons_succ, show i + (k + 1) = i + 1 + k by omega] at old
  rw [← old]
  apply slotAt_congr
  intro b small
  have low : slotAddr (i + 1) ≤ slotAddr (i + 1 + k) := slotAddr_le (by omega)
  have high : slotAddr (i + 1 + k) + 8 ≤ slotAddr (i + 1 + rest.length) := slotAddr_lt (by omega)
  exact same _ (by omega) (by omega)

/-- The rest of the loop does not come back to the slot. -/
theorem Packs.slotAt_eq (packs : Packs data moved rest top' (i + 1) out) : slotAt out i = slotAt moved i := by
  have next := slotAddr_succ i
  exact slotAt_congr fun k small => packs.outside _ (.inl (by omega))

theorem Packs.cons (packs : Packs data moved rest top' (i + 1) out) {t : Slot}
    (shape : packed top (s :: rest) = t :: packed top' rest) (slot : slotAt out i = t)
    (outside : ∀ a, a < slotAddr i ∨ top ≤ a → out a = scratch a)
    (record : s.isValid = true → read out t.offset s.length = read data s.offset s.length) :
    Packs data scratch (s :: rest) top i out := by
  constructor
  · intro k h
    simp only [shape] at h ⊢
    cases k with
    | zero => simpa using slot
    | succ k =>
      have later := packs.slots k (by simpa using h)
      rw [show i + 1 + k = i + (k + 1) by omega] at later
      simpa using later
  · exact outside
  · intro k h live
    cases k with
    | zero =>
      rw [Nat.add_zero, slot]
      exact record live
    | succ k =>
      have later := packs.records k (by simpa using h) (by simpa using live)
      rw [show i + 1 + k = i + (k + 1) by omega] at later
      simpa using later

/-- A live record is copied below `top`. -/
theorem Packs.live (valid : s.isValid = true) (here : slotAt scratch i = s)
    (room : slotAddr (i + 1) + s.length ≤ top) (bound : top ≤ kPageSize)
    (copy : setWord (write scratch (top - s.length) (read data s.offset s.length)) (slotAddr i)
      (top - s.length) = moved)
    (packs : Packs data moved rest (top - s.length) (i + 1) out) : Packs data scratch
      (s :: rest) top i out := by
  have next := slotAddr_succ i
  simp only [kPageSize] at bound
  have lengthOf : (read data s.offset s.length).length = s.length := length_read ..
  refine packs.cons (t := { s with offset := top - s.length }) (by simp [packed, valid]) ?_ ?_ fun _ => ?_
  · rw [packs.slotAt_eq, ← copy]
    simp only [slotAt, Slot.mk.injEq]
    refine ⟨?_, ?_, ?_, ?_⟩
    · rw [word_setWord_self]
      exact Nat.mod_eq_of_lt (by omega)
    · rw [word_setWord_apart (by omega), word_write_apart (by omega), ← here]
      rfl
    · rw [word_setWord_apart (by omega), word_write_apart (by omega), ← here]
      rfl
    · rw [word_setWord_apart (by omega), word_write_apart (by omega), ← here]
      rfl
  · intro a apart
    rw [packs.outside a (by omega), ← copy, setWord_apart (by omega), write_apart (by omega)]
  · apply read_congr
    intro b small
    dsimp only
    rw [packs.outside _ (by omega), ← copy, setWord_apart (by omega), write_read small]

theorem Packs.dead (tombstone : ¬ s.isValid = true) (here : slotAt scratch i = s)
    (room : slotAddr (i + 1) ≤ top)
    (clear : setWord (setWord scratch (slotAddr i) 0) (slotAddr i + 2) 0 = moved)
    (packs : Packs data moved rest top (i + 1) out) : Packs data scratch (s :: rest) top i out := by
  have next := slotAddr_succ i
  refine packs.cons (t := { s with offset := 0, length := 0 })
    (by simp [packed, tombstone]) ?_ ?_ fun valid =>
    absurd valid tombstone
  · rw [packs.slotAt_eq, ← clear]
    simp only [slotAt, Slot.mk.injEq]
    refine ⟨?_, word_setWord_self _ _ _, ?_, ?_⟩
    · rw [word_setWord_apart (by omega)]
      exact word_setWord_self _ _ _
    · rw [word_setWord_apart (by omega), word_setWord_apart (by omega), ← here]
      rfl
    · rw [word_setWord_apart (by omega), word_setWord_apart (by omega), ← here]
      rfl
  · intro a apart
    rw [packs.outside a (by omega), ← clear, setWord_apart (by omega), setWord_apart (by omega)]

/-- The loop over the slots `rest` from `i` on, with room for their records below `top`. -/
theorem packFrom_spec (dir : ∀ k, (h : k < rest.length) → slotAt scratch (i + k) = rest[k])
    (room : slotAddr (i + rest.length) + liveBytes rest ≤ top) (bound : top ≤ kPageSize) :
    ∃ out, packFrom data rest.length i scratch top = (out, top - liveBytes rest) ∧
      Packs data scratch rest top i out := by
  induction rest generalizing i scratch top with
  | nil =>
    refine ⟨scratch, by simp [packFrom, liveBytes], ?_⟩
    exact ⟨by simp [packed], fun _ _ => rfl, by simp⟩
  | cons s rest ih =>
    have here : slotAt scratch i = s := dir 0 (by simp)
    have next := slotAddr_succ i
    have reach : slotAddr (i + 1) ≤ slotAddr (i + 1 + rest.length) := slotAddr_le (by omega)
    rw [show i + (s :: rest).length = i + 1 + rest.length by simp only [List.length_cons]; omega,
      liveBytes_cons] at room
    by_cases valid : s.isValid = true
    · rw [if_pos valid] at room
      have lower : sub16 top s.length = top - s.length := by
        simp only [kPageSize] at bound
        unfold sub16 u16
        omega
      have lengthOf : (read data s.offset s.length).length = s.length := length_read ..
      generalize copy : setWord (write scratch (top - s.length) (read data s.offset s.length)) (slotAddr i)
        (top - s.length) = moved
      obtain ⟨out, run, packs⟩ := @ih moved (top - s.length) (i + 1)
        (directory_tail dir fun a low high => by rw [← copy, setWord_apart (by omega),
          write_apart (by omega)])
        (by omega) (by omega)
      refine ⟨out, ?_, .live valid here (by omega) bound copy packs⟩
      simp only [List.length_cons, packFrom, here, valid, if_true, lower, copy, run]
      rw [liveBytes_cons, if_pos valid]
      congr 1
      omega
    · rw [if_neg valid] at room
      generalize clear : setWord (setWord scratch (slotAddr i) 0) (slotAddr i + 2) 0 = moved
      obtain ⟨out, run, packs⟩ := @ih moved top (i + 1)
        (directory_tail dir fun a low high => by rw [← clear, setWord_apart (by omega),
          setWord_apart (by omega)])
        (by omega) bound
      refine ⟨out, ?_, .dead valid here (by omega) clear packs⟩
      simp only [List.length_cons, packFrom, here, clear, run]
      rw [liveBytes_cons, if_neg valid, if_neg valid, Nat.zero_add]

end Packing

structure Compacted (m m' : Memory) : Prop where
  slots : slots m' = packed kPageSize (slots m)
  bottom : freeSpaceEnd m' = kPageSize - liveBytes (Slotted.slots m)
  dead : deadBytes m' = 0
  header : ∀ a < 40, (a < 18 ∨ 20 ≤ a ∧ a < 36 ∨ 38 ≤ a) → m' a = m a
  records : ∀ i < numSlots m, (slotAt m i).isValid = true →
    read m' (slotAt m' i).offset (slotAt m i).length = read m (slotAt m i).offset (slotAt m i).length

theorem compact_compacted (wf : Wf m) : Compacted m (compact m) := by
  have room : slotAddr (numSlots m) + liveBytes (slots m) ≤ kPageSize := by
    have := wf.room
    have := wf.total
    rw [wf.start] at *
    omega
  have first := header_le (numSlots m)
  have len := slots_length m
  unfold compact
  generalize carried_ : write (fun _ => 0) 0 (read m 0 (slotAddr (numSlots m))) = carried
  have kept : ∀ a < slotAddr (numSlots m), carried a = m a := by
    intro a low
    rw [← carried_]
    have := @write_read (fun _ => 0) m 0 _ 0 a low
    simpa using this
  have dir : ∀ k, (h : k < (slots m).length) → slotAt carried (0 + k) = (slots m)[k] := by
    intro k h
    rw [Nat.zero_add, slots_getElem]
    have : slotAddr k + 8 ≤ slotAddr (numSlots m) := slotAddr_lt (by omega)
    exact slotAt_congr fun b small => kept _ (by omega)
  obtain ⟨out, run, dir', outside, records⟩ := @packFrom_spec m _ _ _ _ dir
    (by rw [Nat.zero_add, len]; exact room) le_rfl
  rw [len] at run
  dsimp only
  rw [run]
  generalize filled_ : setDeadBytes (setFreeSpaceEnd out (kPageSize - liveBytes (slots m))) 0 = filled
  generalize done_ : write m 0 (read filled 0 kPageSize) = done
  have copied : ∀ a < kPageSize, done a = filled a := by
    intro a low
    rw [← done_]
    have := @write_read m filled 0 _ 0 a low
    simpa using this
  have behind : ∀ a, 40 ≤ a → a < kPageSize → done a = out a := by
    intro a above low
    rw [copied a low, ← filled_]
    unfold setDeadBytes setFreeSpaceEnd
    rw [setWord_apart (by omega), setWord_apart (by omega)]
  have header : ∀ a < 40, (a < 18 ∨ 20 ≤ a ∧ a < 36 ∨ 38 ≤ a) → done a = m a := by
    intro a small field
    have base : slotAddr 0 = 40 := rfl
    rw [copied a (by simp only [kPageSize]; omega), ← filled_]
    unfold setDeadBytes setFreeSpaceEnd
    rw [setWord_apart (by omega), setWord_apart (by omega), outside a (by omega), kept a (by omega)]
  have slot : ∀ i < numSlots m, slotAt done i = slotAt out i := by
    intro i lt
    have := header_le i
    have : slotAddr i + 8 ≤ slotAddr (numSlots m) := slotAddr_lt lt
    exact slotAt_congr fun k small => behind _ (by omega) (by omega)
  have count : numSlots done = numSlots m :=
    word_congr (header 6 (by decide) (by decide)) (header 7 (by decide) (by decide))
  constructor
  · apply slots_eq
    · rw [packed_length, len, count]
    · intro i h
      have lt : i < numSlots m := by
        rw [packed_length, len] at h
        exact h
      rw [slot i lt, ← dir' i h, Nat.zero_add]
  · have fixed : freeSpaceEnd done = freeSpaceEnd filled :=
      word_congr (copied 18 (by decide)) (copied 19 (by decide))
    rw [fixed, ← filled_]
    change word (setWord _ 36 0) 18 = _
    rw [word_setWord_apart (by omega)]
    refine (word_setWord_self _ _ _).trans (Nat.mod_eq_of_lt ?_)
    simp only [kPageSize]
    omega
  · have fixed : deadBytes done = deadBytes filled :=
      word_congr (copied 36 (by decide)) (copied 37 (by decide))
    rw [fixed, ← filled_]
    exact word_setWord_self _ _ _
  · exact header
  · intro i lt valid
    have inside : i < (slots m).length := by omega
    have same : (slots m)[i] = slotAt m i := slots_getElem inside
    have record := records i inside (by rw [same]; exact valid)
    rw [same, Nat.zero_add] at record
    rw [slot i lt, ← record]
    -- the packed record lies between the directory and the end of the page
    have inPacked : i < (packed kPageSize (slots m)).length := by
      rw [packed_length]
      exact inside
    have at_ := dir' i inPacked
    rw [Nat.zero_add] at at_
    obtain ⟨live, length⟩ := packed_slot inPacked inside
    rw [← at_, same] at live length
    have bounds := packed_inside kPageSize (l := slots m) (by omega)
      (slotAt out i) (by rw [at_]; exact List.getElem_mem inPacked) (live.trans valid)
    rw [length valid] at bounds
    apply read_congr
    intro b small
    exact behind _ (by omega) (by omega)

theorem Compacted.kept {a : Nat} (c : Compacted m m') (small : a + 2 ≤ 18) : word m' a = word m a :=
  word_congr (c.header a (by omega) (by omega)) (c.header (a + 1) (by omega) (by omega))

theorem Wf.compacted (wf : Wf m) (c : Compacted m m') : Wf m' := by
  have count : numSlots m' = numSlots m := c.kept (by decide)
  have start : freeSpaceStart m' = freeSpaceStart m := c.kept (by decide)
  have total := wf.total
  have room := wf.room
  have fits : liveBytes (slots m) ≤ kPageSize := by omega
  constructor
  · rw [start, count, wf.start]
  · rw [start, c.bottom]
    omega
  · rw [c.bottom, c.dead, c.slots, packed_live]
    omega
  · rw [c.bottom, c.slots]
    exact packed_inside _ fits
  · rw [c.slots]
    exact packed_apart fits

theorem compact_record (c : Compacted m m') (i : Nat) : getRecord m' i = getRecord m i := by
  have count : numSlots m' = numSlots m := c.kept (by decide)
  unfold getRecord
  rw [count]
  by_cases lt : i < numSlots m
  · have inside : i < (slots m).length := by rw [slots_length]; exact lt
    have inPacked : i < (packed kPageSize (slots m)).length := by rw [packed_length]; exact inside
    obtain ⟨live, length⟩ := packed_slot inPacked inside
    have at_ : slotAt m' i = (packed kPageSize (slots m))[i] := by
      rw [← slots_getElem (m := m') (by rw [slots_length, count]; exact lt)]
      simp only [c.slots]
    rw [← at_, slots_getElem] at live length
    rw [live]
    by_cases valid : (slotAt m i).isValid = true
    · rw [if_pos ⟨lt, valid⟩, if_pos ⟨lt, valid⟩, length valid, c.records i lt valid]
    · rw [if_neg fun both => valid both.2, if_neg fun both => valid both.2]
  · rw [if_neg fun both => lt both.1, if_neg fun both => lt both.1]

/- `Validate`. -/

theorem noOverlap_of_sorted {l : List (Nat × Nat)} (sorted : l.Pairwise fun a b => pairLe a b = true)
    (apart : l.Pairwise fun a b => a.1 + a.2 ≤ b.1 ∨ b.1 + b.2 ≤ a.1) : noOverlap l = true := by
  induction l with
  | nil => rfl
  | cons a l ih =>
    cases l with
    | nil => rfl
    | cons b l =>
      rw [List.pairwise_cons] at sorted apart
      have le := sorted.1 b (by simp)
      have or := apart.1 b (by simp)
      simp only [pairLe, decide_eq_true_eq] at le
      simp only [noOverlap, Bool.and_eq_true, decide_eq_true_eq]
      exact ⟨by omega, ih sorted.2 apart.2⟩

theorem Wf.validate (wf : Wf m) : validate m = true := by
  have apart : (live m).Pairwise fun a b => a.1 + a.2 ≤ b.1 ∨ b.1 + b.2 ≤ a.1 := by
    unfold live
    rw [List.pairwise_map]
    apply (wf.apart.filter _).imp_of_mem
    intro s t mem mem' apart
    exact apart (List.mem_filter.mp mem).2 (List.mem_filter.mp mem').2
  have sorted : ((live m).mergeSort pairLe).Pairwise fun a b => pairLe a b = true := by
    apply List.pairwise_mergeSort
    · intro a b c ab bc
      simp only [pairLe, decide_eq_true_eq] at *
      omega
    · intro a b
      simp only [pairLe, Bool.or_eq_true, decide_eq_true_eq]
      omega
  have order : noOverlap ((live m).mergeSort pairLe) = true := by
    apply noOverlap_of_sorted sorted
    apply ((List.mergeSort_perm _ _).pairwise_iff ?_).mpr apart
    intro a b
    exact Or.symm
  simp only [Slotted.validate, Bool.and_eq_true, decide_eq_true_eq, order, and_true, List.all_eq_true]
  refine ⟨⟨⟨wf.start, wf.room⟩, ?_⟩, ?_⟩
  · have := wf.end_le
    simpa [kPageSize] using this
  · intro r mem
    obtain ⟨s, kept, rfl⟩ := List.mem_map.mp mem
    obtain ⟨here, valid⟩ := List.mem_filter.mp kept
    exact wf.inside s here valid

/- Runs. -/

inductive PageCall where
  | insertRecord (data : Bytes) (size : data.length ≤ 65527)
  | insertRecordAt (index : SlotId) (data : Bytes) (size : data.length ≤ 65527)
  | deleteRecord (slotId : SlotId)
  | compact

/-- Successful and failed calls alike leave a page. -/
def PageCall.run (m : Memory) : PageCall → Memory
  | insertRecord data _ => (Slotted.insertRecord m data).2
  | insertRecordAt index data _ => (Slotted.insertRecordAt m index data).2
  | deleteRecord slotId => (Slotted.deleteRecord m slotId).2
  | compact => Slotted.compact m

def pageStep (m : Memory) (call : PageCall) : Option Memory := some (call.run m)

theorem wf_of_empty (count : numSlots m = 0) (start : freeSpaceStart m = slotAddr 0)
    (bottom : freeSpaceEnd m = kPageSize) (dead : deadBytes m = 0) : Wf m := by
  have none : slots m = [] := by simp [slots, count]
  constructor
  · rw [start, count]
  · rw [start, bottom]
    decide
  · rw [none, bottom, dead]
    rfl
  · rw [none]
    simp
  · rw [none]
    exact List.Pairwise.nil

theorem init_wf (id : PageId) (type : PageType) : Wf (init id type) := wf_of_empty rfl rfl rfl rfl

theorem Wf.insertRecordAt (wf : Wf m) (index : Nat) (size : data.length ≤ 65527) :
    Wf (insertRecordAt m index data).2 := by
  by_cases le : index ≤ numSlots m
  · by_cases fits : canFit m data.length = true
    · obtain ⟨m', run, ins⟩ := insertRecordAt_inserted wf size le fits
      rw [run]
      exact wf.inserted le (wf.fits size fits).1 ins
    · unfold Slotted.insertRecordAt
      rw [if_neg (by omega), if_neg fits]
      exact wf
  · unfold Slotted.insertRecordAt
    rw [if_pos (by omega)]
    exact wf

theorem Wf.deleteRecord (wf : Wf m) (slotId : Nat) : Wf (deleteRecord m slotId).2 := by
  by_cases lt : slotId < numSlots m
  · by_cases valid : (slotAt m slotId).isValid = true
    · obtain ⟨m', run, del⟩ := deleteRecord_deleted wf lt valid
      rw [run]
      exact wf.deleted lt valid del
    · unfold Slotted.deleteRecord
      rw [if_neg (by omega), if_neg valid]
      exact wf
  · unfold Slotted.deleteRecord
    rw [if_pos (by omega)]
    exact wf

theorem Wf.step (wf : Wf m) {call : PageCall} (next : pageStep m call = some m') : Wf m' := by
  obtain rfl := Option.some.inj next
  cases call with
  | insertRecord data size =>
    change Wf (Slotted.insertRecord m data).2
    rw [insertRecord_eq]
    exact wf.insertRecordAt _ size
  | insertRecordAt index data size => exact wf.insertRecordAt index size
  | deleteRecord slotId => exact wf.deleteRecord slotId
  | compact => exact wf.compacted (compact_compacted wf)

structure Accounts (m : Memory) : Prop where
  valid : validate m = true
  total : freeSpaceEnd m + deadBytes m + liveBytes (slots m) = kPageSize
  count : numSlots (compact m) = numSlots m
  records : ∀ i, getRecord (compact m) i = getRecord m i
  header : ∀ a < kPageHeaderSize, a ≠ 18 → a ≠ 19 → a ≠ 36 → a ≠ 37 → compact m a = m a
  dead : deadBytes (compact m) = 0
  space : freeSpace (compact m) = freeSpace m + deadBytes m

theorem Wf.accounts (wf : Wf m) : Accounts m := by
  have c := compact_compacted wf
  have wf' := wf.compacted c
  have count : numSlots (compact m) = numSlots m := c.kept (by decide)
  constructor
  · exact wf.validate
  · exact wf.total
  · exact count
  · exact compact_record c
  · intro a small _ _ _ _
    exact c.header a small (by omega)
  · exact c.dead
  · have total := wf.total
    have room := wf.room
    rw [wf.start] at room
    rw [wf'.freeSpace_eq, wf.freeSpace_eq, count, c.bottom]
    omega

/-- Over every sequence of calls, whatever becomes of each of them. -/
theorem slotted_page_accounts (id : PageId) (type : PageType) (calls : List PageCall) :
    EveryState pageStep Accounts (init id type) calls := by
  have wf : EveryState pageStep Wf (init id type) calls :=
    everyState_invariant (fun _ _ _ wf next => wf.step next) (init_wf id type)
  exact wf.imp fun _ => Wf.accounts

end PagerDB.Slotted

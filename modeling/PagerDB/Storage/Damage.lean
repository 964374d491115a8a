import PagerDB.BTree.LeafMap
import PagerDB.Storage.BufferPool
import PagerDB.Storage.Crc32

/-! Damage to at most four consecutive bytes of a written page shows when the page is read again. The
checksum is the zeroed field's, so damage inside the field and apart from it are told separately; that
the damaged page is not all zeros is the page's own accounting. -/
namespace PagerDB.Buffer

open MemoryLib LittleEndian Slotted Wire

variable {m m' d : Memory}

/-- Bytes that are stored to through the header or a record pointer: all but the space accounting and
the slot directory. -/
def Open (m : Memory) (a : Nat) : Prop :=
  a < 6 ∨ 8 ≤ a ∧ a < 16 ∨ 20 ≤ a ∧ a < 36 ∨ 38 ≤ a ∧ a < 40 ∨ slotAddr (numSlots m) ≤ a ∧ a < kPageSize

inductive Filled : Memory → Prop
  | init (id : PageId) (type : PageType) : Filled (Slotted.init id type)
  | page {m : Memory} (call : PageCall) : Filled m → Filled (call.run m)
  | leaf {m : Memory} {p : Page} (call : LeafCall) : Ascending m p → Filled m → Filled (call.run m)
  | remove {m : Memory} {i : Nat} : (i < numSlots m → (slotAt m i).isValid = true) → Filled m →
    Filled (Slotted.deleteAt m i).2
  | store {m : Memory} {start : Nat} {bytes : Bytes} :
    (∀ a, start ≤ a → a < start + bytes.length → Open m a) → Filled m → Filled (write m start bytes)

/-- At most four consecutive bytes, all in the checksum field or none. -/
structure Window (start len : Nat) : Prop where
  short : len ≤ 4
  inside : start + len ≤ kPageSize
  field : start + len ≤ 28 ∨ 32 ≤ start ∨ 28 ≤ start ∧ start + len ≤ 32

structure Damaged (old new : Memory) : Prop where
  window : ∃ start len, Window start len ∧ ∀ a, a < start ∨ start + len ≤ a → new a = old a
  change : ∃ a < kPageSize, new a ≠ old a

/- The page that was written is well formed. -/

theorem Wf.congr (wf : Wf m) (same : ∀ a, ¬ Open m a → a < kPageSize → m' a = m a) : Wf m' := by
  have room := wf.room
  have bound := wf.end_le
  have first := header_le (numSlots m)
  rw [wf.start] at room
  have header : ∀ a, a + 1 < 40 → (a = 6 ∨ a = 16 ∨ a = 18 ∨ a = 36) → word m' a = word m a := by
    intro a small field
    apply word_congr
    · exact same a (by unfold Open; omega) (by simp only [kPageSize]; omega)
    · exact same (a + 1) (by unfold Open; omega) (by simp only [kPageSize]; omega)
  have count : numSlots m' = numSlots m := header 6 (by decide) (by decide)
  have start : freeSpaceStart m' = freeSpaceStart m := header 16 (by decide) (by decide)
  have bottom : freeSpaceEnd m' = freeSpaceEnd m := header 18 (by decide) (by decide)
  have dead : deadBytes m' = deadBytes m := header 36 (by decide) (by decide)
  have directory : slots m' = slots m := by
    apply slots_eq
    · rw [slots_length, count]
    · intro i h
      rw [slots_getElem]
      rw [slots_length] at h
      have := slotAddr_lt h
      have := header_le i
      apply slotAt_congr
      intro k small
      exact same _ (by unfold Open; omega) (by simp only [kPageSize]; omega)
  constructor
  · rw [start, count, wf.start]
  · rw [start, bottom]
    exact wf.room
  · rw [bottom, dead, directory]
    exact wf.total
  · rw [bottom, directory]
    exact wf.inside
  · rw [directory]
    exact wf.apart

theorem Wf.store {start : Nat} {bytes : Bytes} (wf : Wf m)
    (opens : ∀ a, start ≤ a → a < start + bytes.length → Open m a) : Wf (write m start bytes) := by
  apply Wf.congr wf
  intro a closed _
  apply write_apart
  by_contra inside
  exact closed (opens a (by omega) (by omega))

theorem Filled.wf (filled : Filled m) : Wf m := by
  induction filled with
  | init id type => exact init_wf id type
  | page call _ ih => exact ih.step rfl
  | leaf call inv _ _ =>
    cases call with
    | insertLeaf key value fits => exact (inv.insertLeaf fits).1.1.holds.wf
    | updateLeaf key value fits => exact (inv.updateLeaf fits).1.1.holds.wf
    | deleteAt i => exact (inv.deleteAt i).1.1.holds.wf
  | @remove m i valid _ ih =>
    by_cases lt : i < numSlots m
    · obtain ⟨m', run, removed⟩ := deleteAt_removed ih lt (valid lt)
      rw [run]
      exact ih.removed lt (valid lt) removed
    · unfold Slotted.deleteAt
      rw [if_pos (by omega)]
      exact ih
  | store opens _ ih => exact Wf.store ih opens

/- What a write leaves on disk. -/

def blank (m : Memory) : Memory := write m 28 [0, 0, 0, 0]

theorem computeChecksum_blank (m : Memory) : computeChecksum m =
    (crc32 (read (blank m) 0 kPageSize)).toNat := by
  have cut : read (blank m) 0 kPageSize = read m 0 28 ++ ([0, 0, 0, 0] ++ read m 32 (kPageSize - 32)) := by
    have field : read (blank m) 28 4 = [0, 0, 0, 0] := read_write_self m 28 [0, 0, 0, 0]
    have before : read (blank m) 0 28 = read m 0 28 := read_write_apart (.inl (by decide))
    have after : read (blank m) 32 (kPageSize - 32) = read m 32 (kPageSize - 32) :=
      read_write_apart (.inr (by decide))
    rw [← before, ← after, ← field, ← read_add (blank m) 28 4, ← read_add]
    rfl
  rw [computeChecksum, cut]

theorem blank_congr {a : Nat} (same : a < 28 ∨ 32 ≤ a → m' a = m a) : blank m' a = blank m a :=
  write_congr (by simpa using same)

theorem computeChecksum_congr (same : ∀ a < kPageSize, a < 28 ∨ 32 ≤ a → m' a = m a) :
    computeChecksum m' = computeChecksum m := by
  have page : read (blank m') 0 kPageSize = read (blank m) 0 kPageSize := by
    apply read_congr
    intro a lt
    exact blank_congr (same _ (by omega))
  rw [computeChecksum_blank, computeChecksum_blank, page]

theorem checksum_lt (m : Memory) : computeChecksum m < 256 ^ 4 := by
  rw [computeChecksum_blank]
  exact (crc32 _).toNat_lt

theorem stamped (m : Memory) : checksum (stampChecksum m) = computeChecksum (stampChecksum m) := by
  have same : computeChecksum (stampChecksum m) = computeChecksum m := by
    apply computeChecksum_congr
    intro a _ apart
    exact write_apart (by simpa using apart)
  have field : read (stampChecksum m) 28 4 = encode 4 (computeChecksum m) := by
    have whole := read_write_self m 28 (encode 4 (computeChecksum m))
    rwa [length_encode] at whole
  rw [same, checksum, field, decode_encode_of_lt (checksum_lt m)]

theorem stamped_wf (wf : Wf m) : Wf (stampChecksum m) := by
  apply Wf.store wf
  intro a low high
  rw [length_encode] at high
  exact .inr (.inr (.inl (by omega)))

/- The two places of the damage. -/

theorem read_inj {a len : Nat} (same : read m' a len = read m a len) {k : Nat} (lt : k < len) :
    m' (a + k) = m (a + k) := by
  have length : k < (read m' a len).length := by simpa using lt
  have length' : k < (read m a len).length := by simpa using lt
  rw [← getElem_read length, ← getElem_read length']
  simp only [same]

theorem mismatch_of_field (own : checksum m = computeChecksum m)
    (outside : ∀ a, a < 28 ∨ 32 ≤ a → d a = m a) (change : ∃ a < kPageSize, d a ≠ m a) :
    checksum d ≠ computeChecksum d := by
  obtain ⟨a, -, differs⟩ := change
  rw [computeChecksum_congr fun a _ apart => outside a apart, ← own]
  intro same
  have field : read d 28 4 = read m 28 4 := by
    rw [← encode_decode (read d 28 4), ← encode_decode (read m 28 4), length_read, length_read]
    exact congrArg _ same
  have inside : 28 ≤ a ∧ a < 32 := by
    by_contra apart
    exact differs (outside a (by omega))
  have byte := read_inj field (k := a - 28) (by omega)
  rw [Nat.add_sub_cancel' inside.1] at byte
  exact differs byte

theorem mismatch_of_apart {start len : Nat} (own : checksum m = computeChecksum m) (short : len ≤ 4)
    (inside : start + len ≤ kPageSize) (apart : start + len ≤ 28 ∨ 32 ≤ start)
    (outside : ∀ a, a < start ∨ start + len ≤ a → d a = m a) (change : ∃ a < kPageSize, d a ≠ m a) :
    checksum d ≠ computeChecksum d := by
  obtain ⟨a, -, differs⟩ := change
  have stored : checksum d = checksum m := by
    rw [checksum, checksum]
    exact congrArg decode (read_congr fun k small => outside _ (by omega))
  have cut : ∀ m : Memory, read (blank m) 0 kPageSize = read (blank m) 0 start ++
      (read (blank m) start len ++ read (blank m) (start + len) (kPageSize - (start + len))) := by
    intro m
    have first := read_add (blank m) 0 start (kPageSize - start)
    have second := read_add (blank m) start len (kPageSize - (start + len))
    rw [Nat.zero_add, Nat.add_sub_cancel' (by omega)] at first
    rw [show len + (kPageSize - (start + len)) = kPageSize - start by omega] at second
    rw [first, second]
  have before : read (blank d) 0 start = read (blank m) 0 start :=
    read_congr fun k small => blank_congr fun _ => outside _ (by omega)
  have after : read (blank d) (start + len) (kPageSize - (start + len)) =
      read (blank m) (start + len) (kPageSize - (start + len)) :=
    read_congr fun k small => blank_congr fun _ => outside _ (by omega)
  rw [stored, own, computeChecksum_blank, computeChecksum_blank, cut, cut d, before, after]
  intro same
  have burst := Crc.crc32_burst (by simp) (by simpa using short) (UInt32.toNat.inj same)
  have window : start ≤ a ∧ a < start + len := by
    by_contra out
    exact differs (outside a (by omega))
  have byte := read_inj burst (k := a - start) (by omega)
  rw [Nat.add_sub_cancel' window.1] at byte
  have raw : ∀ m : Memory, blank m a = m a := fun m => write_apart (by simp; omega)
  rw [raw, raw] at byte
  exact differs byte.symm

/- The exemption of pages never written. -/

/-- The one page that is all zeros but for its free space. -/
def bare : Bytes := List.replicate 16 0 ++ ([40, 0, 0, 16] ++ List.replicate 4076 0)

set_option maxRecDepth 100000 in
theorem bare_rounds : ShiftRegister.rounds Crc.polynomial (8 * 4076) 0x881BF3C7#32 ≠ 0xFFFFFFFF#32 := by
  decide +kernel

theorem bare_checksum : (crc32 bare).toNat ≠ 0 := by
  intro zero
  have whole : crc32 bare = 0 := UInt32.toNat.inj zero
  have register : crc32Update 0xFFFFFFFF bare = 0xFFFFFFFF := UInt32.xor_eq_zero_iff.mp whole
  have head : Crc.crc32Serial 0xFFFFFFFF (List.replicate 16 0 ++ [40, 0, 0, 16]) = 0x881BF3C7 := by
    decide +kernel
  rw [Crc.crc32Update_serial, bare, ← List.append_assoc, Crc.crc32Serial_append, head,
    ← UInt32.toBitVec_inj, Crc.serial_toBitVec, Crc.octets_zeros, ShiftRegister.serial_zeros] at register
  exact bare_rounds register

theorem bytes_of_word {a v : Nat} (same : word m a = v) :
    (m a).val = v % 256 ∧ (m (a + 1)).val = v / 256 := by
  have low := (m a).isLt
  unfold word at same
  omega

theorem blank_field {a : Nat} (field : 28 ≤ a ∧ a < 32) : blank m a = 0 := by
  obtain ⟨k, rfl⟩ : ∃ k, a = 28 + k := ⟨a - 28, by omega⟩
  rw [blank, write_inside (by simp; omega)]
  exact List.getElem_replicate (n := 4) _

theorem only_space {start len : Nat} (wf : Wf m) (window : Window start len)
    (zero : ∀ a < kPageSize, a < start ∨ start + len ≤ a → m a = 0) :
    start = 16 ∧ len = 4 ∧ read m 16 4 = [40, 0, 0, 16] := by
  have zeroWord : ∀ a, a + 1 < kPageSize → (a + 1 < start ∨ start + len ≤ a) → word m a = 0 := by
    intro a lt out
    rw [word, zero a (by omega) (by omega), zero (a + 1) lt (by omega)]
    rfl
  obtain ⟨short, -, field⟩ := window
  have least := header_le (numSlots m)
  have space : word m 16 = slotAddr (numSlots m) := wf.start
  -- the start of the free space is not zero, so the damage has hit it and nothing far from it
  have hit : start ≤ 17 ∧ 16 < start + len := by
    by_contra missed
    have := zeroWord 16 (by decide) (by omega)
    omega
  have count : numSlots m = 0 := zeroWord 6 (by decide) (by omega)
  have dead : deadBytes m = 0 := zeroWord 36 (by decide) (by omega)
  have none : slots m = [] := by simp [slots, count]
  have bottom : word m 18 = 4096 := by
    have total := wf.total
    rwa [none, dead] at total
  have top : word m 16 = 40 := by
    rw [space, count]
    rfl
  obtain ⟨m16, m17⟩ := bytes_of_word top
  obtain ⟨m18, m19⟩ := bytes_of_word bottom
  have first : start ≤ 16 := by
    by_contra later
    have none := zero 16 (by decide) (by omega)
    rw [none] at m16
    exact absurd m16 (by decide)
  have last : 19 < start + len := by
    by_contra earlier
    have none := zero 19 (by decide) (by omega)
    rw [none] at m19
    exact absurd m19 (by decide)
  refine ⟨by omega, by omega, ?_⟩
  have values : [m 16, m 17, m 18, m 19].map Fin.val = ([40, 0, 0, 16] : Bytes).map Fin.val := by
    simp only [List.map_cons, List.map_nil, m16, m17, m18, m19]
    rfl
  exact Fin.val_injective.list_map values

theorem read_bare (zero : ∀ a < kPageSize, a < 16 ∨ 20 ≤ a → m a = 0) (space : read m 16 4 = [40, 0, 0, 16]) :
    read (blank m) 0 kPageSize = bare := by
  have blanked : ∀ a, a < 16 ∨ 20 ≤ a → a < kPageSize → blank m a = 0 := by
    intro a out lt
    by_cases field : 28 ≤ a ∧ a < 32
    · exact blank_field field
    · exact (write_apart (by simp; omega)).trans (zero a lt out)
  have zeros : ∀ a n, (∀ k < n, blank m (a + k) = 0) → read (blank m) a n = List.replicate n 0 := by
    intro a n each
    apply List.ext_getElem
    · simp
    · intro k h _
      rw [getElem_read, List.getElem_replicate]
      exact each k (by simpa using h)
  have middle : read (blank m) 16 4 = [40, 0, 0, 16] := by
    rw [← space]
    exact read_write_apart (.inl (by decide))
  have cut : read (blank m) 0 4096 = read (blank m) 0 16 ++
    (read (blank m) 16 4 ++ read (blank m) 20 4076) := by
    rw [← read_add (blank m) 16 4 4076, ← read_add (blank m) 0 16]
  simp only [kPageSize] at blanked
  rw [kPageSize, cut, middle, zeros 0 16 fun k _ => blanked _ (by omega) (by omega),
    zeros 20 4076 fun k _ => blanked _ (by omega) (by omega)]
  rfl

theorem not_zeroed {start len : Nat} (wf : Wf m) (own : checksum m = computeChecksum m)
    (window : Window start len) (outside : ∀ a, a < start ∨ start + len ≤ a → d a = m a) :
    isZeroed d = false := by
  rw [← Bool.not_eq_true]
  intro zeroed
  have zero : ∀ a < kPageSize, a < start ∨ start + len ≤ a → m a = 0 := by
    intro a lt out
    have all := List.all_eq_true.mp zeroed (d a) (List.mem_map.mpr ⟨a, List.mem_range.mpr lt, by simp⟩)
    rw [← outside a out]
    simpa using all
  obtain ⟨rfl, rfl, space⟩ := only_space wf window zero
  have nothing : read m 28 4 = [0, 0, 0, 0] := by
    change [m 28, m 29, m 30, m 31] = _
    rw [zero 28 (by decide) (by decide), zero 29 (by decide) (by decide), zero 30 (by decide) (by decide),
      zero 31 (by decide) (by decide)]
  rw [computeChecksum_blank, read_bare zero space, checksum, nothing] at own
  exact bare_checksum own.symm

theorem writePage_ok {s s' : Pool} {p : PageId} {page : Memory} {io : Faults}
    (written : s.writePage p m io = (none, page, s')) :
    kFirstDataPage ≤ p ∧ s'.disk p = stampChecksum m := by
  unfold Pool.writePage at written
  split at written
  · simp at written
  · rename_i valid
    dsimp only at written
    split at written
    · simp at written
    · simp only [Prod.mk.injEq, true_and] at written
      obtain ⟨-, rfl⟩ := written
      constructor
      · by_contra low
        rw [Pool.checkId, if_pos (not_le.mp low)] at valid
        contradiction
      · exact Function.update_self p (stampChecksum m) s.disk

/-- The page on disk after a write, and any damage to it that a later read finds there. -/
theorem localized_damage_detected {s s' t : Pool} {p : PageId} {m page d out : Memory} {io io' : Faults}
    (filled : Filled m) (written : s.writePage p m io = (none, page, s')) (damage : Damaged (s'.disk p) d)
    (range : p < t.numPages) (verify : t.verifyChecksums = true) (damaged : t.disk p = d)
    (readable : io'.read p = none) :
    t.readPage p out io' = (some (.Corruption ("Checksum mismatch on page " ++ toString p)), d) := by
  obtain ⟨data, stored⟩ := writePage_ok written
  rw [stored] at damage
  obtain ⟨⟨start, len, window, outside⟩, change⟩ := damage
  have own := stamped m
  have mismatch : checksum d ≠ computeChecksum d := by
    rcases window.field with before | after | ⟨low, high⟩
    · exact mismatch_of_apart own window.short window.inside (.inl before) outside change
    · exact mismatch_of_apart own window.short window.inside (.inr after) outside change
    · exact mismatch_of_field own (fun a apart => outside a (by omega)) change
  have zeroed := not_zeroed (stamped_wf filled.wf) own window outside
  have valid : t.checkId p = none := by
    rw [Pool.checkId, if_neg (not_lt.mpr data), if_neg (not_le.mpr range)]
  simp [Pool.readPage, valid, readable, verify, damaged, mismatch, zeroed]

theorem flipped_byte_detected :
    let s := Pool.create 4 false true (fun _ => zeroPage) 3
    let d := write (stampChecksum (Slotted.init 2 .kLeaf)) 100 [1]
    (s.writePage 2 (Slotted.init 2 .kLeaf) Faults.none).1 = none ∧
      (s.setDisk 2 d).readPage 2 zeroPage Faults.none =
        (some (.Corruption ("Checksum mismatch on page " ++ toString 2)), d) := by
  intro s d
  have damage : Damaged (stampChecksum (Slotted.init 2 .kLeaf)) d := by
    refine ⟨⟨100, 1, ⟨by decide, by decide, by decide⟩, fun a out => write_apart out⟩, 100, by decide, ?_⟩
    have new : d 100 = 1 := write_inside (i := 0) (by decide)
    have old : stampChecksum (Slotted.init 2 .kLeaf) 100 = 0 := write_apart (.inr (by simp))
    rw [new, old]
    decide
  have written : s.writePage 2 (Slotted.init 2 .kLeaf) Faults.none =
    (none, stampChecksum (Slotted.init 2 .kLeaf), s.setDisk 2 (stampChecksum (Slotted.init 2 .kLeaf))) := rfl
  have stored : ∀ m, (s.setDisk 2 m).disk 2 = m := fun m => by simp [Pool.setDisk]
  exact ⟨rfl, localized_damage_detected (.init 2 .kLeaf) written (by rwa [stored]) (by decide) rfl
    (stored d) rfl⟩

end PagerDB.Buffer

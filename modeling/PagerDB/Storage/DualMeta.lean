import PagerDB.Lib.Machine
import PagerDB.Wal.Wire

/-! The two meta copies of `data.db`. `PersistMeta` bumps the generation and writes the slot of
its parity, so the copy of the generation before stands in the other slot whatever happens to
the write; `Pager::Open` picks the valid copy with the higher generation. A slot holds the fields
that its bytes spell, which a failed or cut write may leave as anything. -/
namespace PagerDB.DualMeta

open MachineLib
open LittleEndian (layout)

def kMagicNumber : Nat := 0x4B565354
def kFormatVersion : Nat := 3

/-- The fields of a meta page; the 4048 reserved bytes are zeros. -/
structure MetaPage where
  magic : Nat
  version : Nat
  rootPageId : PageId
  numPages : PageId
  numKeys : Nat
  freeListHead : PageId
  checksum : Nat
  generation : Nat
  checkpointLsn : Lsn
  deriving DecidableEq

namespace MetaPage

def init : MetaPage :=
  ⟨kMagicNumber, kFormatVersion, kInvalidPageId, 2, 0, kInvalidPageId, 0, 0, kInvalidLsn⟩

def covered (m : MetaPage) : Bytes :=
  layout [(4, m.magic), (4, m.version), (4, m.rootPageId), (4, m.numPages), (8, m.numKeys),
    (4, m.freeListHead), (4, 0), (8, m.generation), (8, m.checkpointLsn)] ++
    List.replicate (kPageSize - 48) 0

def computeMetaChecksum (m : MetaPage) : Nat := (Wire.crc32 m.covered).toNat

def sealed (m : MetaPage) : MetaPage := { m with checksum := m.computeMetaChecksum }

def Valid (verifyChecksums : Bool) (m : MetaPage) : Prop :=
  m.magic = kMagicNumber ∧ m.version = kFormatVersion ∧
    (verifyChecksums = true → m.checksum = m.computeMetaChecksum)

instance (verify : Bool) (m : MetaPage) : Decidable (m.Valid verify) :=
  inferInstanceAs (Decidable (_ ∧ _ ∧ (_ → _)))

end MetaPage

/-- The file as far as the meta page goes: slot 0 (`false`), slot 1 (`true`) and its size. -/
structure File where
  slots : Bool → MetaPage
  size : Nat

def File.created : File := ⟨fun _ => MetaPage.init.sealed, kFirstDataPage * kPageSize⟩

def choose (verifyChecksums : Bool) (best : Option MetaPage) (candidate : MetaPage) :
    Option MetaPage :=
  if candidate.Valid verifyChecksums then
    match best with
    | none => some candidate
    | some m => if m.generation < candidate.generation then some candidate else some m
  else best

def openExisting (verifyChecksums : Bool) (f : File) : Except Status MetaPage :=
  if f.size < kFirstDataPage * kPageSize then
    .error (.Corruption ("Database file too small: " ++ toString f.size ++ " bytes"))
  else
    match choose verifyChecksums (choose verifyChecksums none (f.slots false)) (f.slots true) with
    | none => .error (.Corruption
        "No valid meta page (bad magic, version, or checksum in both copies)")
    | some m =>
      if f.size < m.numPages * kPageSize then
        .error (.Corruption ("Database file truncated: expected " ++
          toString (m.numPages * kPageSize) ++ " bytes, got " ++ toString f.size))
      else .ok m

/- The pager. -/

inductive Update where
  | setRootPageId (root : PageId)
  | setNumKeys (count : Nat)
  | addToNumKeys (delta : Int)
  | setCheckpointLsn (lsn : Lsn)
  /-- `AllocatePage` at the end of the file; a failed write may extend it all the same. -/
  | allocate (written : Option Nat)
  /-- `AllocatePage` from the free list, and `FreePage`. -/
  | setFreeListHead (head : PageId)

/-- How one `PersistMeta` ends; the slot is left with what `left` spells. -/
inductive Outcome where
  | ok
  | failed (left : MetaPage)
  | cut (left : MetaPage)

inductive Event where
  | update (u : Update)
  | persist (o : Outcome)
  | crash
  | reopen

def slotOf (generation : Nat) : Bool := generation % 2 = 1

def File.setSlot (f : File) (slot : Bool) (m : MetaPage) : File :=
  { f with slots := fun b => if b = slot then m else f.slots b }

def File.extend (f : File) (bytes : Nat) : File := { f with size := max f.size bytes }

def Update.apply : Update → MetaPage × File → MetaPage × File
  | setRootPageId root, (m, f) => ({ m with rootPageId := root }, f)
  | setNumKeys count, (m, f) => ({ m with numKeys := count }, f)
  | addToNumKeys delta, (m, f) =>
    ({ m with numKeys := ((m.numKeys + delta) % 2 ^ 64).toNat }, f)
  | setCheckpointLsn lsn, (m, f) => ({ m with checkpointLsn := lsn }, f)
  | allocate none, (m, f) =>
    ({ m with numPages := m.numPages + 1 }, f.extend ((m.numPages + 1) * kPageSize))
  | allocate (some torn), (m, f) => (m, f.extend (m.numPages * kPageSize + torn))
  | setFreeListHead head, (m, f) => ({ m with freeListHead := head }, f)

def bumped (m : MetaPage) : MetaPage := { m with generation := m.generation + 1 }.sealed

/-- `PersistMeta`'s roll-back: the generation, and not the checksum. -/
def rolledBack (m : MetaPage) : MetaPage :=
  { m with checksum := (bumped m).checksum }

/-- The file with the pager's meta page, if it is open. Beside them, the meta page of the last
`PersistMeta` that succeeded (or that an Open has selected since), and those of the calls after
it that failed or were cut, the last one first. -/
structure State where
  file : File
  pager : Option MetaPage
  settled : MetaPage
  pending : List MetaPage

def State.created : State :=
  ⟨.created, some MetaPage.init.sealed, MetaPage.init.sealed, []⟩

def State.persist (s : State) (m : MetaPage) : Outcome → State
  | .ok => { s with
      file := s.file.setSlot (slotOf (bumped m).generation) (bumped m)
      pager := some (bumped m)
      settled := bumped m
      pending := [] }
  | .failed left => { s with
      file := s.file.setSlot (slotOf (bumped m).generation) left
      pager := some (rolledBack m)
      pending := bumped m :: s.pending }
  | .cut left => { s with
      file := s.file.setSlot (slotOf (bumped m).generation) left
      pager := none
      pending := bumped m :: s.pending }

def step (s : State) : Event → Option State
  | .update u => s.pager.map fun m =>
      { s with file := (u.apply (m, s.file)).2, pager := some (u.apply (m, s.file)).1 }
  | .persist o => s.pager.map fun m => s.persist m o
  | .crash => s.pager.map fun _ => { s with pager := none }
  | .reopen =>
    match s.pager, openExisting true s.file with
    | none, .ok m => some { s with pager := some m, settled := m, pending := [] }
    | _, _ => none

/-- The CRC rejects what is neither the old content of the slot nor the new one. -/
def Detected (s : State) : Event → Prop
  | .persist (.failed left) | .persist (.cut left) =>
    ∀ m ∈ s.pager, left.Valid true →
      left = s.file.slots (slotOf (bumped m).generation) ∨ left = bumped m
  | _ => True

/-- What Open selects: the last meta page that was persisted, or one whose write failed or was cut
after that and which stands whole in its slot; and the last of these if it does. -/
structure Selects (s : State) (m : MetaPage) : Prop where
  opens : openExisting true s.file = .ok m
  whose : m = s.settled ∨ m ∈ s.pending ∧ s.file.slots (slotOf m.generation) = m
  newest : ∀ p ∈ s.pending.head?, s.file.slots (slotOf p.generation) = p → m = p
  only : s.pending = [] → m = s.settled
  forward : s.settled.generation ≤ m.generation

/- Checksums. -/

/-- Setting the checksum. The sum is a variable here, so that nothing evaluates it. -/
theorem checksum_set (m : MetaPage) (sum : Nat) :
    { m with checksum := sum }.covered = m.covered ∧ { m with checksum := sum }.magic = m.magic ∧
    { m with checksum := sum }.version = m.version ∧
    { m with checksum := sum }.generation = m.generation ∧
    { m with checksum := sum }.numPages = m.numPages ∧ { m with checksum := sum }.checksum = sum :=
  ⟨rfl, rfl, rfl, rfl, rfl, rfl⟩

theorem sealed_valid {m : MetaPage} (magic : m.magic = kMagicNumber)
    (version : m.version = kFormatVersion) : m.sealed.Valid true := by
  obtain ⟨covered, magic', version', -, -, sum⟩ := checksum_set m m.computeMetaChecksum
  change MetaPage.Valid true { m with checksum := m.computeMetaChecksum }
  constructor
  · rw [magic', magic]
  · constructor
    · rw [version', version]
    · intro _
      rw [sum]
      exact congrArg (fun bytes => (Wire.crc32 bytes).toNat) covered.symm

theorem bumped_spec {m : MetaPage} (magic : m.magic = kMagicNumber)
    (version : m.version = kFormatVersion) :
    (bumped m).Valid true ∧ (bumped m).magic = kMagicNumber ∧
    (bumped m).version = kFormatVersion ∧ (bumped m).generation = m.generation + 1 ∧
    (bumped m).numPages = m.numPages := by
  obtain ⟨-, magic', version', generation, pages, -⟩ := checksum_set
    { m with generation := m.generation + 1 }
    { m with generation := m.generation + 1 }.computeMetaChecksum
  have valid : (bumped m).Valid true := sealed_valid magic version
  exact ⟨valid, valid.1, valid.2.1, generation, pages⟩

theorem rolledBack_spec (m : MetaPage) :
    (rolledBack m).magic = m.magic ∧ (rolledBack m).version = m.version ∧
    (rolledBack m).generation = m.generation ∧ (rolledBack m).numPages = m.numPages := by
  obtain ⟨-, magic, version, generation, pages, -⟩ := checksum_set m (bumped m).checksum
  exact ⟨magic, version, generation, pages⟩

theorem slotOf_succ (n : Nat) : slotOf (n + 1) = !slotOf n := by
  unfold slotOf
  rcases Nat.mod_two_eq_zero_or_one n with h | h
  · have next : (n + 1) % 2 = 1 := by omega
    simp [h, next]
  · have next : (n + 1) % 2 = 0 := by omega
    simp [h, next]

/-- What the slots say: the settled copy stands in the slot of its generation, and a valid copy in
the other slot is older, the same, or a pending one. -/
structure Kept (s : State) : Prop where
  header : s.settled.Valid true
  here : s.file.slots (slotOf s.settled.generation) = s.settled
  there : (s.file.slots (!slotOf s.settled.generation)).Valid true →
    (s.file.slots (!slotOf s.settled.generation)).generation < s.settled.generation ∨
    s.file.slots (!slotOf s.settled.generation) = s.settled ∨
    s.file.slots (!slotOf s.settled.generation) ∈ s.pending
  size : kFirstDataPage * kPageSize ≤ s.file.size
  fits : s.settled.numPages * kPageSize ≤ s.file.size
  pending : ∀ p ∈ s.pending, p.Valid true ∧ p.generation = s.settled.generation + 1 ∧
    p.numPages * kPageSize ≤ s.file.size
  pager : ∀ m ∈ s.pager, m.magic = kMagicNumber ∧ m.version = kFormatVersion ∧
    m.generation = s.settled.generation ∧ m.numPages * kPageSize ≤ s.file.size

theorem created_kept : Kept .created := by
  have valid : MetaPage.init.sealed.Valid true := sealed_valid rfl rfl
  constructor
  · exact valid
  · rfl
  · intro _
    exact .inr (.inl rfl)
  · exact le_rfl
  · exact le_rfl
  · intro p mem
    cases mem
  · intro m mem
    obtain rfl := Option.some.inj mem
    exact ⟨rfl, rfl, rfl, le_rfl⟩

/- Open. -/

theorem choose_both {slots : Bool → MetaPage} {here : Bool} {m : MetaPage}
    (at_ : slots here = m) (valid : m.Valid true)
    (apart : (slots !here).Valid true → (slots !here).generation < m.generation ∨
      slots (!here) = m ∨ m.generation < (slots !here).generation) :
    choose true (choose true none (slots false)) (slots true) =
      if (slots !here).Valid true ∧ m.generation < (slots !here).generation
      then some (slots !here) else some m := by
  cases here with
  | false =>
    rw [at_, Bool.not_false] at *
    simp only [choose, if_pos valid]
    by_cases other : (slots true).Valid true
    · simp [other]
    · simp [other]
  | true =>
    rw [at_, Bool.not_true] at *
    by_cases other : (slots false).Valid true
    · have first : choose true none (slots false) = some (slots false) := if_pos other
      rw [first, choose, if_pos valid]
      simp only [other, true_and]
      rcases apart other with less | same | greater
      · rw [if_pos less, if_neg (by omega)]
      · simp [same]
      · rw [if_neg (by omega), if_pos greater]
    · simp [choose, valid, other]

theorem openExisting_of_choose {f : File} {m : MetaPage}
    (chosen : choose true (choose true none (f.slots false)) (f.slots true) = some m)
    (size : kFirstDataPage * kPageSize ≤ f.size) (fits : m.numPages * kPageSize ≤ f.size) :
    openExisting true f = .ok m := by
  unfold openExisting
  rw [if_neg (not_lt.mpr size), chosen]
  exact if_neg (not_lt.mpr fits)

variable {s t : State}

theorem Kept.apart (kept : Kept s) (valid : (s.file.slots (!slotOf s.settled.generation)).Valid true) :
    (s.file.slots (!slotOf s.settled.generation)).generation < s.settled.generation ∨
    s.file.slots (!slotOf s.settled.generation) = s.settled ∨
    s.settled.generation < (s.file.slots (!slotOf s.settled.generation)).generation := by
  rcases kept.there valid with older | same | pending
  · exact .inl older
  · exact .inr (.inl same)
  · have next := (kept.pending _ pending).2.1
    exact .inr (.inr (by omega))

theorem Kept.selects (kept : Kept s) : ∃ m, Selects s m := by
  have chosen := choose_both kept.here kept.header kept.apart
  by_cases newer : (s.file.slots (!slotOf s.settled.generation)).Valid true ∧
      s.settled.generation < (s.file.slots (!slotOf s.settled.generation)).generation
  · -- a pending copy stands whole in the other slot
    rw [if_pos newer] at chosen
    have member : s.file.slots (!slotOf s.settled.generation) ∈ s.pending := by
      rcases kept.there newer.1 with older | same | pending
      · omega
      · rw [same] at newer
        omega
      · exact pending
    obtain ⟨-, next, fits⟩ := kept.pending _ member
    refine ⟨_, openExisting_of_choose chosen kept.size fits, .inr ⟨member, ?_⟩, ?_, ?_, ?_⟩
    · rw [next, slotOf_succ]
    · intro p first whole
      have mem := List.mem_of_mem_head? first
      rw [(kept.pending p mem).2.1, slotOf_succ] at whole
      exact whole
    · intro none
      rw [none] at member
      contradiction
    · omega
  · rw [if_neg newer] at chosen
    refine ⟨_, openExisting_of_choose chosen kept.size kept.fits, .inl rfl, ?_, fun _ => rfl, le_rfl⟩
    intro p first whole
    obtain ⟨valid, next, -⟩ := kept.pending p (List.mem_of_mem_head? first)
    rw [next, slotOf_succ] at whole
    rw [whole] at newer
    exact absurd ⟨valid, by omega⟩ newer

/- The steps. -/

theorem update_file (u : Update) (m : MetaPage) (f : File) :
    (u.apply (m, f)).2.slots = f.slots ∧ f.size ≤ (u.apply (m, f)).2.size ∧
    (u.apply (m, f)).1.magic = m.magic ∧ (u.apply (m, f)).1.version = m.version ∧
    (u.apply (m, f)).1.generation = m.generation ∧
    (m.numPages * kPageSize ≤ f.size →
      (u.apply (m, f)).1.numPages * kPageSize ≤ (u.apply (m, f)).2.size) := by
  cases u with
  | allocate written =>
    cases written with
    | none => exact ⟨rfl, le_max_left _ _, rfl, rfl, rfl, fun _ => le_max_right _ _⟩
    | some torn =>
      exact ⟨rfl, le_max_left _ _, rfl, rfl, rfl, fun fits => fits.trans (le_max_left _ _)⟩
  | _ => exact ⟨rfl, le_rfl, rfl, rfl, rfl, id⟩

theorem Kept.changed (kept : Kept s) {m m' : MetaPage} {f : File} (open_ : s.pager = some m)
    (slots : f.slots = s.file.slots) (grows : s.file.size ≤ f.size) (magic : m'.magic = m.magic)
    (version : m'.version = m.version) (generation : m'.generation = m.generation)
    (fits : m.numPages * kPageSize ≤ s.file.size → m'.numPages * kPageSize ≤ f.size) :
    Kept { s with file := f, pager := some m' } := by
  obtain ⟨header, here, there, size, room, pending, pager⟩ := kept
  obtain ⟨magic', version', generation', fits'⟩ := pager m open_
  constructor
  · exact header
  · rw [slots]
    exact here
  · rw [slots]
    exact there
  · exact size.trans grows
  · exact room.trans grows
  · intro p mem
    obtain ⟨valid, next, fit⟩ := pending p mem
    exact ⟨valid, next, fit.trans grows⟩
  · intro m' mem
    obtain rfl := Option.some.inj mem
    exact ⟨magic.trans magic', version.trans version', generation.trans generation', fits fits'⟩

theorem Kept.update (kept : Kept s) {m : MetaPage} (u : Update) (open_ : s.pager = some m) :
    Kept { s with file := (u.apply (m, s.file)).2, pager := some (u.apply (m, s.file)).1 } := by
  obtain ⟨slots, grows, magic, version, generation, fits⟩ := update_file u m s.file
  exact kept.changed open_ slots grows magic version generation fits

theorem Kept.spoiled (kept : Kept s) {m left : MetaPage} (open_ : s.pager = some m)
    (detected : left.Valid true → left = s.file.slots (slotOf (bumped m).generation) ∨ left = bumped m)
    (pager : Option MetaPage) (same : ∀ m' ∈ pager, m' = rolledBack m) :
    Kept { s with
      file := s.file.setSlot (slotOf (bumped m).generation) left
      pager := pager
      pending := bumped m :: s.pending } := by
  obtain ⟨header, here, there, size, room, pending, up⟩ := kept
  obtain ⟨magic, version, generation, fits⟩ := up m open_
  obtain ⟨valid, -, -, next, pages⟩ := bumped_spec magic version
  have slot : slotOf (bumped m).generation = !slotOf s.settled.generation := by
    rw [next, generation, slotOf_succ]
  rw [slot] at detected ⊢
  have kept_ : (s.file.setSlot (!slotOf s.settled.generation) left).slots
      (slotOf s.settled.generation) = s.settled := by simp [File.setSlot, here]
  have written : (s.file.setSlot (!slotOf s.settled.generation) left).slots
      (!slotOf s.settled.generation) = left := by simp [File.setSlot]
  constructor
  · exact header
  · exact kept_
  · rw [written]
    intro good
    rcases detected good with old | new
    · rw [old] at good ⊢
      rcases there good with older | same | mem
      · exact .inl older
      · exact .inr (.inl same)
      · exact .inr (.inr (List.mem_cons_of_mem _ mem))
    · rw [new]
      exact .inr (.inr List.mem_cons_self)
  · exact size
  · exact room
  · intro p mem
    rcases List.mem_cons.mp mem with rfl | mem
    · exact ⟨valid, by rw [next, generation], by rw [pages]; exact fits⟩
    · exact pending p mem
  · intro m' mem
    obtain ⟨magic', version', generation', pages'⟩ := rolledBack_spec m
    rw [same m' mem, magic', version', generation', pages']
    exact ⟨magic, version, generation, fits⟩

theorem Kept.persisted (kept : Kept s) {m : MetaPage} (open_ : s.pager = some m) :
    Kept (s.persist m .ok) := by
  obtain ⟨header, here, there, size, room, pending, up⟩ := kept
  obtain ⟨magic, version, generation, fits⟩ := up m open_
  obtain ⟨valid, magic', version', next, pages⟩ := bumped_spec magic version
  have slot : (!slotOf (bumped m).generation) = slotOf s.settled.generation := by
    rw [next, generation, slotOf_succ, Bool.not_not]
  constructor
  · exact valid
  · simp [State.persist, File.setSlot]
  · change MetaPage.Valid true ((s.file.setSlot _ _).slots (!slotOf (bumped m).generation)) → _
    intro _
    refine .inl ?_
    change ((s.file.setSlot _ _).slots (!slotOf (bumped m).generation)).generation < _
    have other : ((s.file.setSlot (slotOf (bumped m).generation) (bumped m)).slots
        (!slotOf (bumped m).generation)) = s.settled := by
      rw [← here, ← slot]
      simp [File.setSlot]
    rw [other]
    change s.settled.generation < (bumped m).generation
    omega
  · exact size
  · change (bumped m).numPages * kPageSize ≤ s.file.size
    rw [pages]
    exact fits
  · intro p mem
    cases mem
  · intro m' mem
    obtain rfl := Option.some.inj mem
    exact ⟨magic', version', rfl, by rw [pages]; exact fits⟩

theorem Kept.reopened (kept : Kept s) {m : MetaPage} (selects : Selects s m) :
    Kept { s with pager := some m, settled := m, pending := [] } := by
  have chosen := choose_both kept.here kept.header kept.apart
  obtain ⟨header, here, there, size, room, pending, -⟩ := kept
  have picked : openExisting true s.file = .ok m := selects.opens
  rcases selects.whose with rfl | ⟨mem, whole⟩
  · refine ⟨header, here, fun valid => ?_, size, room, by simp, ?_⟩
    · rcases there valid with older | same | mem
      · exact .inl older
      · exact .inr (.inl same)
      · -- a pending copy would have been selected
        have next := (pending _ mem).2.1
        rw [if_pos ⟨valid, by omega⟩] at chosen
        rw [openExisting_of_choose chosen size (pending _ mem).2.2] at picked
        exact .inr (.inl (Except.ok.inj picked))
    · intro m' mem
      obtain rfl := Option.some.inj mem
      exact ⟨header.1, header.2.1, rfl, room⟩
  · obtain ⟨valid, next, fits⟩ := pending m mem
    refine ⟨valid, whole, fun _ => ?_, size, fits, by simp, ?_⟩
    · refine .inl ?_
      change (s.file.slots (!slotOf m.generation)).generation < m.generation
      rw [next, slotOf_succ, Bool.not_not, here]
      omega
    · intro m' mem'
      obtain rfl := Option.some.inj mem'
      exact ⟨valid.1, valid.2.1, rfl, fits⟩

theorem Kept.step (kept : Kept s) {e : Event} (detected : Detected s e)
    (next : step s e = some t) : Kept t := by
  cases e with
  | update u =>
    obtain ⟨m, open_, rfl⟩ := Option.map_eq_some_iff.mp next
    exact kept.update u open_
  | persist o =>
    obtain ⟨m, open_, rfl⟩ := Option.map_eq_some_iff.mp next
    cases o with
    | ok => exact kept.persisted open_
    | failed left =>
      refine kept.spoiled open_ (detected m open_) (some (rolledBack m)) ?_
      intro m' mem
      exact (Option.some.inj mem).symm
    | cut left => exact kept.spoiled open_ (detected m open_) none (by simp)
  | crash =>
    obtain ⟨m, open_, rfl⟩ := Option.map_eq_some_iff.mp next
    obtain ⟨header, here, there, size, room, pending, -⟩ := kept
    exact ⟨header, here, there, size, room, pending, by simp⟩
  | reopen =>
    obtain ⟨m, selects⟩ := kept.selects
    unfold DualMeta.step at next
    rw [selects.opens] at next
    cases down : s.pager with
    | some m' =>
      rw [down] at next
      contradiction
    | none =>
      rw [down] at next
      obtain rfl := Option.some.inj next
      exact kept.reopened selects

/-- From a created database, through any updates, persists, failures, crashes and reopens. -/
theorem open_selects_last_persisted (events : List Event)
    (detected : EveryStep step Detected .created events) :
    EveryState step (fun s => ∃ m, Selects s m) .created events := by
  have kept : EveryState step Kept .created events :=
    everyState_of_step (fun _ _ _ kept detected next => kept.step detected next) created_kept detected
  exact kept.imp fun _ => Kept.selects

/-- Two checkpoints that succeed, two that leave a slot without its magic (the first one fails,
the second one is cut), and a restart. -/
theorem open_after_torn_writes :
    EveryState step (fun s => ∃ m, Selects s m) .created
      [.update (.setNumKeys 7), .persist .ok, .update (.allocate none), .persist .ok,
        .persist (.failed { MetaPage.init with magic := 0 }),
        .persist (.cut { MetaPage.init with magic := 0 }), .reopen, .persist .ok] := by
  apply open_selects_last_persisted
  have torn : ¬{ MetaPage.init with magic := 0 }.Valid true := fun valid => by cases valid.1
  have lost : ∀ s : State, ∀ m ∈ s.pager, { MetaPage.init with magic := 0 }.Valid true →
      { MetaPage.init with magic := 0 } = s.file.slots (slotOf (bumped m).generation) ∨
      { MetaPage.init with magic := 0 } = bumped m := fun _ _ _ valid => absurd valid torn
  intro _ _
  exact ⟨trivial, fun _ _ => ⟨trivial, fun _ _ => ⟨trivial, fun _ _ => ⟨trivial, fun _ _ => ⟨lost _,
    fun _ _ => ⟨lost _, fun _ _ => ⟨trivial, fun _ _ => ⟨trivial, trivial⟩⟩⟩⟩⟩⟩⟩⟩

end PagerDB.DualMeta

import PagerDB.Storage.Damage
import PagerDB.Storage.DualMeta

/-! The pager's free list, threaded through the freed pages themselves with its head in the meta page:
allocations and frees in any order, writes of allocated pages, syncs and reopens of what was synced. -/
namespace PagerDB.Buffer

open MachineLib MemoryLib LittleEndian DualMeta

/-- `FreePage`: the page becomes a node that points to the old head. -/
def Pool.freePage (s : Pool) (p : PageId) (io : Faults) : Option Status × Pool :=
  if p < kFirstDataPage ∨ s.numPages ≤ p then
    (some (.InvalidArgument ("Cannot free page " ++ toString p ++ " (num_pages: " ++
      toString s.numPages ++ ")")), s)
  else
    let page := write (Slotted.init p .kFree) kPageHeaderSize (encode 4 s.freeListHead)
    match s.writePage p page io with
    | (some e, _, s) => (some e, s)
    | (none, _, s) => (none, { s with freeListHead := p })

/-- The pager with its file: the data pages, and the meta page in memory and in its two slots. Beside
them, the pages freed and not allocated since, the last one first, and the pages allocated. -/
structure Pager where
  disk : PageId → Memory
  metas : DualMeta.State
  verifyChecksums : Bool
  freed : List PageId
  live : List PageId

namespace Pager

def created (verifyChecksums : Bool) : Pager :=
  ⟨fun _ => zeroPage, DualMeta.State.created, verifyChecksums, [], []⟩

def view (s : Pager) (m : DualMeta.MetaPage) : Pool :=
  { Pool.create 0 false s.verifyChecksums s.disk m.numPages with freeListHead := m.freeListHead }

def left (s : Pager) (m : DualMeta.MetaPage) (t : Pool) (p : PageId) : Pager :=
  { s with
    disk := t.disk
    metas := { s.metas with
      pager := some { m with numPages := t.numPages, freeListHead := t.freeListHead }
      file := s.metas.file.extend ((p + 1) * kPageSize) } }

inductive Event where
  | allocatePage
  | freePage (p : PageId)
  | writePage (p : PageId) (page : Memory)
  | sync
  | reopen (verifyChecksums : Bool)

/-- Ids stay below the invalid one, only allocated pages are freed and written, and nothing is lost at
a reopen. -/
def Admitted (s : Pager) (m : DualMeta.MetaPage) : Event → Prop
  | .allocatePage => m.numPages < kInvalidPageId
  | .freePage p => p ∈ s.live
  | .writePage p _ => p ∈ s.live
  | .sync => True
  | .reopen _ => m = s.metas.settled

instance (s : Pager) (m : DualMeta.MetaPage) : (e : Event) → Decidable (Admitted s m e)
  | .allocatePage => inferInstanceAs (Decidable (_ < _))
  | .freePage _ => inferInstanceAs (Decidable (_ ∈ _))
  | .writePage _ _ => inferInstanceAs (Decidable (_ ∈ _))
  | .sync => inferInstanceAs (Decidable True)
  | .reopen _ => inferInstanceAs (Decidable (_ = _))

def next (s : Pager) (m : DualMeta.MetaPage) : Event → Pager
  | .allocatePage =>
    match (s.view m).allocatePage .none with
    | (.ok p, t) => { s.left m t p with freed := s.freed.erase p, live := p :: s.live }
    | (.error _, t) => { s with disk := t.disk }
  | .freePage p =>
    match (s.view m).freePage p .none with
    | (none, t) => { s.left m t p with freed := p :: s.freed, live := s.live.erase p }
    | (some _, t) => { s with disk := t.disk }
  | .writePage p page =>
    match (s.view m).writePage p page .none with
    | (none, _, t) => s.left m t p
    | (some _, _, t) => { s with disk := t.disk }
  | .sync => { s with metas := s.metas.persist m .ok }
  | .reopen verify =>
    match openExisting verify s.metas.file with
    | .ok m => { s with
        metas := { s.metas with pager := some m, settled := m, pending := [] }
        verifyChecksums := verify }
    | .error _ => { s with metas := { s.metas with pager := none } }

def step (s : Pager) (e : Event) : Option Pager :=
  s.metas.pager.bind fun m => if Admitted s m e then some (s.next m e) else none

/- The list. -/

def nextFree (m : Memory) : PageId := decode (read m kPageHeaderSize 4)

/-- A page of the list: typed so, and it passes the pager's own check. -/
structure Node (m : Memory) : Prop where
  type : (m 4).val = kFree
  sound : checksum m = computeChecksum m

def Chain (disk : PageId → Memory) : PageId → List PageId → Prop
  | head, [] => head = kInvalidPageId
  | head, p :: rest => head = p ∧ p ≠ kInvalidPageId ∧ Node (disk p) ∧ Chain disk (nextFree (disk p)) rest

/-- The free list and the allocated pages between them have the data pages. -/
structure Threaded (s : Pager) (m : DualMeta.MetaPage) : Prop where
  chain : Chain s.disk m.freeListHead s.freed
  acyclic : s.freed.Nodup
  once : s.live.Nodup
  apart : ∀ p ∈ s.freed, p ∉ s.live
  range : ∀ p, p ∈ s.freed ∨ p ∈ s.live ↔ kFirstDataPage ≤ p ∧ p < m.numPages

structure Fresh (s : Pager) (m : DualMeta.MetaPage) (p : PageId) (t : Pool) : Prop where
  head : p = s.freed.headD m.numPages
  dead : p ∉ s.live
  data : kFirstDataPage ≤ p
  zeroed : ∀ out, t.readPage p out .none = (none, zeroPage)
  others : ∀ q, q ≠ p → t.disk q = s.disk q

/-- Every call succeeds, and an allocation gives a page that nobody has. -/
def Answers (s : Pager) (e : Event) : Prop :=
  ∃ m, s.metas.pager = some m ∧
    match e with
    | .allocatePage => ∃ p t, (s.view m).allocatePage .none = (.ok p, t) ∧ Fresh s m p t
    | .freePage p => ((s.view m).freePage p .none).1 = none
    | .writePage p page => ((s.view m).writePage p page .none).1 = none
    | .sync => True
    | .reopen verify => openExisting verify s.metas.file = .ok m

variable {s t : Pager} {m : DualMeta.MetaPage} {disk disk' : PageId → Memory} {head p : PageId}
    {l : List PageId}

theorem Chain.congr (chain : Chain disk head l) (same : ∀ p ∈ l, disk' p = disk p) : Chain disk' head l := by
  induction l generalizing head with
  | nil => exact chain
  | cons p rest ih =>
    obtain ⟨rfl, valid, node, links⟩ := chain
    have here := same head List.mem_cons_self
    refine ⟨rfl, valid, ?_, ?_⟩
    · rw [here]
      exact node
    · rw [here]
      exact ih links fun q mem => same q (List.mem_cons_of_mem _ mem)

theorem Chain.head_cases (chain : Chain disk head l) : head = kInvalidPageId ∧ l = [] ∨ head ∈ l := by
  cases l with
  | nil => exact .inl ⟨chain, rfl⟩
  | cons p rest =>
    obtain ⟨rfl, -⟩ := chain
    exact .inr List.mem_cons_self

theorem freed_node (p : PageId) (fits : head < 256 ^ 4) :
    Node (stampChecksum (write (Slotted.init p .kFree) kPageHeaderSize (encode 4 head))) ∧
      nextFree (stampChecksum (write (Slotted.init p .kFree) kPageHeaderSize (encode 4 head))) = head := by
  constructor
  · constructor
    · have byte : stampChecksum (write (Slotted.init p .kFree) kPageHeaderSize (encode 4 head)) 4 =
          Slotted.init p .kFree 4 := by
        rw [stampChecksum, write_apart (.inl (by decide)), write_apart (.inl (by decide))]
      rw [byte]
      rfl
    · exact stamped _
  · have link : read (stampChecksum (write (Slotted.init p .kFree) kPageHeaderSize (encode 4 head)))
        kPageHeaderSize 4 = encode 4 head := by
      have whole := read_write_self (Slotted.init p .kFree) kPageHeaderSize (encode 4 head)
      rw [length_encode] at whole
      rw [stampChecksum, read_write_apart (.inr (by rw [length_encode]; decide))]
      exact whole
    rw [nextFree, link, decode_encode_of_lt fits]

/- The calls. -/

section Calls

variable {v : Pool}

theorem checkId_data (low : kFirstDataPage ≤ p) (high : p < v.numPages) : v.checkId p = none := by
  rw [Pool.checkId, if_neg (not_lt.mpr low), if_neg (not_le.mpr high)]

theorem readPage_node {out : Memory} (low : kFirstDataPage ≤ p) (high : p < v.numPages)
    (node : Node (v.disk p)) :
    v.readPage p out .none = (none, v.disk p) := by
  simp [Pool.readPage, checkId_data low high, Faults.none, node.sound]

theorem readPage_zero {out : Memory} (low : kFirstDataPage ≤ p) (high : p < v.numPages)
    (zero : v.disk p = zeroPage) : v.readPage p out .none = (none, zeroPage) := by
  have blank : isZeroed zeroPage = true := by
    rw [isZeroed, List.all_eq_true]
    intro b mem
    obtain ⟨_, -, rfl⟩ := List.mem_map.mp mem
    rfl
  simp [Pool.readPage, checkId_data low high, Faults.none, zero, blank]

theorem allocatePage_empty (empty : v.freeListHead = kInvalidPageId) :
    v.allocatePage .none = (.ok v.numPages, { v.setDisk v.numPages zeroPage
      with numPages := v.numPages + 1 }) := by
  rw [Pool.allocatePage, if_neg (not_not.mpr empty)]
  rfl

theorem allocatePage_head (valid : v.freeListHead ≠ kInvalidPageId) (low : kFirstDataPage ≤ v.freeListHead)
    (high : v.freeListHead < v.numPages) (node : Node (v.disk v.freeListHead)) :
    v.allocatePage .none = (.ok v.freeListHead, { v.setDisk v.freeListHead zeroPage with
      freeListHead := nextFree (v.disk v.freeListHead) }) := by
  rw [Pool.allocatePage, if_pos valid]
  dsimp only
  rw [readPage_node low high node]
  dsimp only
  rw [if_neg (not_not.mpr node.type)]
  rfl

theorem writePage_data {page : Memory} (low : kFirstDataPage ≤ p) (high : p < v.numPages) :
    v.writePage p page .none = (none, stampChecksum page, v.setDisk p (stampChecksum page)) := by
  rw [Pool.writePage, checkId_data low high]
  rfl

theorem freePage_data (low : kFirstDataPage ≤ p) (high : p < v.numPages) :
    v.freePage p .none = (none, { v.setDisk p (stampChecksum (write (Slotted.init p .kFree) kPageHeaderSize
      (encode 4 v.freeListHead))) with freeListHead := p }) := by
  rw [Pool.freePage, if_neg (by rw [not_or]; exact ⟨not_lt.mpr low, not_le.mpr high⟩)]
  dsimp only
  rw [writePage_data low high]

end Calls

/- The invariant. -/

structure Inv (s : Pager) (m : DualMeta.MetaPage) : Prop where
  up : s.metas.pager = some m
  threaded : Threaded s m
  kept : Kept s.metas
  settled : s.metas.pending = []
  valid : ∀ b, (s.metas.file.slots b).Valid true
  least : kFirstDataPage ≤ m.numPages
  small : m.numPages ≤ kInvalidPageId

theorem Inv.created (verify : Bool) : Inv (created verify) DualMeta.MetaPage.init.sealed := by
  constructor
  · rfl
  · refine ⟨rfl, List.nodup_nil, List.nodup_nil, by simp [Pager.created], ?_⟩
    intro p
    have two : DualMeta.MetaPage.init.sealed.numPages = kFirstDataPage := rfl
    simp [Pager.created, two]
  · exact created_kept
  · rfl
  · intro b
    exact sealed_valid rfl rfl
  · exact le_rfl
  · decide

theorem Inv.left (inv : Inv s m) {v : Pool} (fits : v.numPages = m.numPages ∨ v.numPages = p + 1)
    (least : m.numPages ≤ v.numPages) (small : v.numPages ≤ kInvalidPageId) {t : Pager}
    (threaded : Threaded t { m with numPages := v.numPages, freeListHead := v.freeListHead })
    (metas : t.metas = (s.left m v p).metas) :
    Inv t { m with numPages := v.numPages, freeListHead := v.freeListHead } := by
  constructor
  · rw [metas]
    rfl
  · exact threaded
  · rw [metas]
    refine inv.kept.changed inv.up rfl (le_max_left _ _) rfl rfl rfl ?_
    intro fit
    rcases fits with same | last
    · exact (congrArg (· * kPageSize) same).le.trans (fit.trans (le_max_left _ _))
    · exact (congrArg (· * kPageSize) last).le.trans (le_max_right _ _)
  · rw [metas]
    exact inv.settled
  · rw [metas]
    exact inv.valid
  · exact inv.least.trans least
  · exact small

theorem Threaded.allocated (th : Threaded s m) {v : Pool} (notLive : p ∉ s.live)
    (chain : Chain v.disk v.freeListHead (s.freed.erase p))
    (range : ∀ q, q ∈ s.freed ∨ q ∈ s.live ∨ q = p ↔ kFirstDataPage ≤ q ∧ q < v.numPages) :
    Threaded { s.left m v p with freed := s.freed.erase p, live := p :: s.live }
      { m with numPages := v.numPages, freeListHead := v.freeListHead } := by
  constructor
  · exact chain
  · exact th.acyclic.erase p
  · exact List.nodup_cons.mpr ⟨notLive, th.once⟩
  · intro q mem live
    rw [th.acyclic.mem_erase_iff] at mem
    rcases List.mem_cons.mp live with same | old
    · exact mem.1 same
    · exact th.apart q mem.2 old
  · intro q
    rw [← range q]
    change q ∈ s.freed.erase p ∨ q ∈ p :: s.live ↔ _
    rw [th.acyclic.mem_erase_iff, List.mem_cons]
    by_cases same : q = p
    · simp [same]
    · simp [same]

theorem disk_zeroed (s : Pager) (m : DualMeta.MetaPage) (p : PageId) :
    ((s.view m).setDisk p zeroPage).disk p = zeroPage ∧
      ∀ q, q ≠ p → ((s.view m).setDisk p zeroPage).disk q = s.disk q :=
  ⟨by simp [Pool.setDisk], fun q ne => by simp [Pool.setDisk, ne, view, Pool.create]⟩

def Allocated (s : Pager) (m : DualMeta.MetaPage) : Prop :=
  ∃ p v, (s.view m).allocatePage .none = (.ok p, v) ∧ Fresh s m p v ∧
    ∃ m', Inv { s.left m v p with freed := s.freed.erase p, live := p :: s.live } m'

theorem Inv.allocated_last (inv : Inv s m) (small : m.numPages < kInvalidPageId) (list : s.freed = []) :
    Allocated s m := by
  obtain ⟨chain, -, -, -, range⟩ := inv.threaded
  rw [list] at chain range
  obtain ⟨self, other⟩ := disk_zeroed s m m.numPages
  have fresh : m.numPages ∉ s.live := fun mem => lt_irrefl _ ((range _).mp (.inr mem)).2
  let v : Pool := { (s.view m).setDisk m.numPages zeroPage with numPages := m.numPages + 1 }
  have inv' := inv.left (v := v) (p := m.numPages) (.inr rfl) (Nat.le_succ _) small
    (inv.threaded.allocated fresh ?_ ?_) rfl
  · refine ⟨m.numPages, v, allocatePage_empty chain, ⟨?_, fresh, inv.least, ?_, other⟩, _, inv'⟩
    · rw [list]
      rfl
    · exact fun out => readPage_zero inv.least (Nat.lt_succ_self _) self
  · rw [list]
    exact chain
  · intro q
    change _ ↔ _ ∧ q < m.numPages + 1
    rw [← or_assoc, list, range q]
    constructor
    · rintro (⟨low, high⟩ | rfl)
      · exact ⟨low, Nat.lt_succ_of_lt high⟩
      · exact ⟨inv.least, Nat.lt_succ_self _⟩
    · rintro ⟨low, high⟩
      rcases Nat.lt_succ_iff_lt_or_eq.mp high with below | same
      · exact .inl ⟨low, below⟩
      · exact .inr same

theorem Inv.allocated_head (inv : Inv s m) {rest : List PageId} (list : s.freed = p :: rest) :
    Allocated s m := by
  obtain ⟨chain, acyclic, -, apart, range⟩ := inv.threaded
  have mem : p ∈ s.freed := list ▸ List.mem_cons_self
  rw [list] at chain acyclic
  obtain ⟨head, valid, node, links⟩ := chain
  obtain ⟨notRest, -⟩ := List.nodup_cons.mp acyclic
  obtain ⟨low, high⟩ := (range p).mp (.inl mem)
  obtain ⟨self, other⟩ := disk_zeroed s m p
  let v : Pool := { (s.view m).setDisk p zeroPage with freeListHead := nextFree (s.disk p) }
  have inv' := inv.left (v := v) (p := p) (.inl rfl) le_rfl inv.small
    (inv.threaded.allocated (apart p mem) ?_ ?_) rfl
  · refine ⟨p, v, ?_, ⟨?_, apart p mem, low, ?_, other⟩, _, inv'⟩
    · obtain rfl := head
      exact allocatePage_head (v := s.view m) valid low high node
    · rw [list]
      rfl
    · exact fun out => readPage_zero low high self
  · rw [list, List.erase_cons_head]
    apply links.congr
    intro q member
    apply other
    rintro rfl
    exact notRest member
  · intro q
    change _ ↔ _ ∧ q < m.numPages
    rw [← or_assoc, ← range q]
    constructor
    · rintro (old | rfl)
      · exact old
      · exact .inl mem
    · exact .inl

theorem Inv.allocated (inv : Inv s m) (small : m.numPages < kInvalidPageId) : Allocated s m := by
  cases list : s.freed with
  | nil => exact inv.allocated_last small list
  | cons p rest => exact inv.allocated_head list

theorem Inv.freed (inv : Inv s m) (mem : p ∈ s.live) :
    ∃ v, (s.view m).freePage p .none = (none, v) ∧
      ∃ m', Inv { s.left m v p with freed := p :: s.freed, live := s.live.erase p } m' := by
  obtain ⟨chain, acyclic, once, apart, range⟩ := inv.threaded
  obtain ⟨low, high⟩ := (range p).mp (.inr mem)
  have fits : m.freeListHead < 256 ^ 4 := by
    rcases chain.head_cases with ⟨none, -⟩ | member
    · rw [none]
      decide
    · have below := ((range _).mp (.inl member)).2.trans_le inv.small
      exact below.trans (by decide)
  have notFreed : p ∉ s.freed := fun freed => apart p freed mem
  obtain ⟨node, link⟩ := freed_node p fits
  let v : Pool := { (s.view m).setDisk p (stampChecksum (write (Slotted.init p .kFree) kPageHeaderSize
    (encode 4 m.freeListHead))) with freeListHead := p }
  have here : v.disk p = stampChecksum (write (Slotted.init p .kFree) kPageHeaderSize
    (encode 4 m.freeListHead)) := by simp [v, Pool.setDisk]
  have there : ∀ q, q ≠ p → v.disk q = s.disk q := fun q ne => by
    simp [v, Pool.setDisk, ne, view, Pool.create]
  refine ⟨v, freePage_data low high, _, inv.left (v := v) (p := p) (.inl rfl) le_rfl inv.small ?_ rfl⟩
  constructor
  · refine ⟨rfl, (high.trans_le inv.small).ne, ?_, ?_⟩
    · change Node (v.disk p)
      rw [here]
      exact node
    · change Chain v.disk (nextFree (v.disk p)) s.freed
      rw [here, link]
      apply chain.congr
      intro q member
      apply there
      rintro rfl
      exact notFreed member
  · exact List.nodup_cons.mpr ⟨notFreed, acyclic⟩
  · exact once.erase p
  · intro q member live
    change q ∈ s.live.erase p at live
    rw [once.mem_erase_iff] at live
    rcases List.mem_cons.mp member with same | old
    · exact live.1 same
    · exact apart q old live.2
  · intro q
    change q ∈ p :: s.freed ∨ q ∈ s.live.erase p ↔ _ ∧ q < m.numPages
    rw [← range q, List.mem_cons, once.mem_erase_iff]
    by_cases same : q = p
    · simp [same, mem]
    · simp [same]

theorem Inv.written (inv : Inv s m) (mem : p ∈ s.live) (page : Memory) :
    ∃ page' v, (s.view m).writePage p page .none = (none, page', v) ∧ ∃ m', Inv (s.left m v p) m' := by
  obtain ⟨chain, acyclic, once, apart, range⟩ := inv.threaded
  obtain ⟨low, high⟩ := (range p).mp (.inr mem)
  refine ⟨_, _, writePage_data low high, _, inv.left (.inl rfl) le_rfl inv.small ?_ rfl⟩
  refine ⟨?_, acyclic, once, apart, range⟩
  apply chain.congr
  intro q member
  have ne : q ≠ p := by
    rintro rfl
    exact apart q member mem
  simp [Pager.left, Pool.setDisk, ne, view, Pool.create]

/- Sync and reopen. -/

theorem bumped_head (m : DualMeta.MetaPage) : (bumped m).freeListHead = m.freeListHead := by
  have sum : ∀ (m : DualMeta.MetaPage) (sum : Nat),
    { m with checksum := sum }.freeListHead = m.freeListHead :=
    fun _ _ => rfl
  exact sum { m with generation := m.generation + 1 } _

theorem Inv.synced (inv : Inv s m) : ∃ m', Inv { s with metas := s.metas.persist m .ok } m' := by
  obtain ⟨magic, version, -, -⟩ := inv.kept.pager m inv.up
  obtain ⟨valid, -, -, -, pages⟩ := bumped_spec magic version
  refine ⟨bumped m, rfl, ?_, inv.kept.persisted inv.up, rfl, ?_, ?_, ?_⟩
  · obtain ⟨chain, acyclic, once, apart, range⟩ := inv.threaded
    refine ⟨?_, acyclic, once, apart, ?_⟩
    · rw [bumped_head]
      exact chain
    · rw [pages]
      exact range
  · intro b
    change DualMeta.MetaPage.Valid true (if b = _ then bumped m else s.metas.file.slots b)
    split
    · exact valid
    · exact inv.valid b
  · rw [pages]
    exact inv.least
  · rw [pages]
    exact inv.small

/-- With both copies whole, the checksums are not needed to choose between them. -/
theorem openExisting_verify {f : File} (valid : ∀ b, (f.slots b).Valid true) (verify : Bool) :
    openExisting verify f = openExisting true f := by
  have each : ∀ b, (f.slots b).Valid verify :=
    fun b => ⟨(valid b).1, (valid b).2.1, fun _ => (valid b).2.2 rfl⟩
  have round : ∀ best b, choose verify best (f.slots b) = choose true best (f.slots b) := by
    intro best b
    unfold choose
    rw [if_pos (each b), if_pos (valid b)]
  rw [openExisting, openExisting, round, round]

theorem Inv.opens (inv : Inv s m) (settled : m = s.metas.settled) (verify : Bool) :
    openExisting verify s.metas.file = .ok m := by
  obtain ⟨chosen, selects⟩ := inv.kept.selects
  rw [openExisting_verify inv.valid, selects.opens, selects.only inv.settled, settled]

theorem Inv.reopened (inv : Inv s m) (settled : m = s.metas.settled) (verify : Bool) :
    Inv { s with metas := { s.metas with pager := some m, settled := m, pending := [] }
                 verifyChecksums := verify } m := by
  have same : { s.metas with pager := some m, settled := m, pending := [] } = s.metas := by
    rw [← inv.up, settled, ← inv.settled]
  rw [same]
  obtain ⟨chain, acyclic, once, apart, range⟩ := inv.threaded
  exact ⟨inv.up, ⟨chain, acyclic, once, apart, range⟩, inv.kept, inv.settled, inv.valid, inv.least, inv.small⟩

theorem Inv.next (inv : Inv s m) {e : Event} (admitted : Admitted s m e) :
    Answers s e ∧ ∃ m', Inv (s.next m e) m' := by
  cases e with
  | allocatePage =>
    obtain ⟨p, v, run, fresh, inv'⟩ := inv.allocated admitted
    refine ⟨⟨m, inv.up, p, v, run, fresh⟩, ?_⟩
    rw [Pager.next, run]
    exact inv'
  | freePage p =>
    obtain ⟨v, run, inv'⟩ := inv.freed admitted
    refine ⟨⟨m, inv.up, congrArg Prod.fst run⟩, ?_⟩
    rw [Pager.next, run]
    exact inv'
  | writePage p page =>
    obtain ⟨page', v, run, inv'⟩ := inv.written admitted page
    refine ⟨⟨m, inv.up, congrArg Prod.fst run⟩, ?_⟩
    rw [Pager.next, run]
    exact inv'
  | sync => exact ⟨⟨m, inv.up, trivial⟩, inv.synced⟩
  | reopen verify =>
    have opens := inv.opens admitted verify
    refine ⟨⟨m, inv.up, opens⟩, m, ?_⟩
    rw [Pager.next, opens]
    exact inv.reopened admitted verify

theorem Inv.step (inv : Inv s m) {e : Event} (taken : s.step e = some t) : Answers s e ∧ ∃ m', Inv t m' := by
  rw [Pager.step, inv.up, Option.bind_some] at taken
  split at taken
  · rename_i admitted
    obtain rfl := Option.some.inj taken
    exact inv.next admitted
  · contradiction

theorem everyStep_answers {s : Pager} {m : DualMeta.MetaPage} (inv : Inv s m) (events : List Event) :
    EveryStep step Answers s events := by
  induction events generalizing s m with
  | nil => trivial
  | cons e rest ih =>
    intro t taken
    obtain ⟨answers, m', inv'⟩ := inv.step taken
    exact ⟨answers, ih inv'⟩

/-- Over every sequence of calls on a new database. -/
theorem allocation_never_hands_out_live_page (verifyChecksums : Bool) (events : List Event) :
    EveryState step (fun s => ∃ m, s.metas.pager = some m ∧ Threaded s m) (created verifyChecksums) events ∧
      EveryStep step Answers (created verifyChecksums) events := by
  constructor
  · have inv : EveryState step (fun s => ∃ m, Inv s m) (created verifyChecksums) events := by
      apply everyState_invariant
      · rintro s e t ⟨m, inv⟩ taken
        exact (inv.step taken).2
      · exact ⟨_, Inv.created verifyChecksums⟩
    exact inv.imp fun s ⟨m, inv⟩ => ⟨m, inv.up, inv.threaded⟩
  · exact everyStep_answers (Inv.created verifyChecksums) events

end Pager

end PagerDB.Buffer

import PagerDB.Db.Journal
import PagerDB.Lib.Machine
import PagerDB.Recovery.Losers

/-! The life of a database directory: the journal, the LSNs that the pages carry and the
transactions that pin the log. Page contents are left out. -/
namespace PagerDB

namespace LogBody

def target : LogBody → Option PageId
  | put p .. | delete p .. | pageImage p _ => some p
  | _ => none

def isImage : LogBody → Bool
  | pageImage .. => true
  | _ => false

def ofTree : LogBody → Bool
  | checkpoint | begin | commit | abort => false
  | _ => true

end LogBody

/-- What the first Put into a new database logs of its page. -/
def firstLeaf : Page := ⟨2, kInvalidLsn, 4090, 0, .leaf kInvalidPageId kInvalidPageId [([1], [1])]⟩

structure Life extends Journal where
  /-- LSNs of the pages in the pool and in `data.db`, and every LSN ever written there. A page
  that fails its checksum has none. -/
  frames : PageId → Option Lsn
  disk : PageId → Option Lsn
  wrote : PageId → List Lsn
  /-- What `ReadAll` returned when the log was opened. -/
  found : List LogRecord
  /-- Transactions of this run with a `kBegin` and no end marker in the log. -/
  begun : List (TxId × Lsn)
  activeBegunTxns : Nat
  needsReopen : Bool

inductive LifeEvent where
  | draw
  /-- A tree operation appends a record and stamps the page it is about. In a recovery it is one
  of the undo pass. -/
  | log (txid : TxId) (opEnd : Bool) (body : LogBody)
  | ensureBegun (txid : TxId)
  /-- The end marker of `Commit` or `Abort`. -/
  | finish (txid : TxId) (commit : Bool)
  | flush
  | newPage (p : PageId)
  | fetch (p : PageId)
  /-- `Page::Init` clears the page's LSN. -/
  | init (p : PageId)
  | evict (p : PageId)
  /-- `EnforceWalRule` and `WritePage`. -/
  | writeBack (p : PageId)
  | mark
  | writeMeta
  | syncMeta
  | truncate
  | crash (bytes : Nat) (metas : Bool → Fate) (pages : PageId → Option Nat)
  | reopen
  /-- `ApplyRecord` on one of the records found. -/
  | redo (r : LogRecord)

namespace Life

def create : Life where
  toJournal := .create
  frames := fun _ => none
  disk := fun _ => none
  wrote := fun _ => []
  found := []
  begun := []
  activeBegunTxns := 0
  needsReopen := false

def stamp (s : Life) (p : PageId) (lsn : Lsn) : Life :=
  { s with frames := Function.update s.frames p (some lsn) }

def writeDisk (s : Life) (p : PageId) (lsn : Lsn) : Life :=
  { s with
    disk := Function.update s.disk p (some lsn)
    wrote := Function.update s.wrote p (lsn :: s.wrote p) }

/-- Writers hold the checkpoint latch shared. -/
def admitsWriter (s : Life) (txid : TxId) : Bool :=
  s.proc ≠ .down ∧ s.ckpt = .idle ∧ 0 < txid ∧ txid < s.nextTxid

def holds (s : Life) (body : LogBody) : Bool :=
  match body.target with
  | some p => (s.frames p).isSome
  | none => true

def log (s : Life) (txid : TxId) (opEnd : Bool) (body : LogBody) : Life :=
  let s' := { s with toJournal := s.append txid opEnd body }
  match body.target with
  | some p => s'.stamp p s.wal.endLsn
  | none => s'

/-- A page that no record was ever logged for needs no flush. -/
def writeBack (s : Life) (p : PageId) (lsn : Lsn) : Life :=
  { s.writeDisk p lsn with toJournal := if lsn = kInvalidLsn then s.toJournal else s.flush }

def ensureBegun (s : Life) (txid : TxId) : Life :=
  { s with
    toJournal := s.append txid true .begin
    begun := (txid, s.wal.endLsn) :: s.begun
    activeBegunTxns := s.activeBegunTxns + 1 }

def finish (s : Life) (txid : TxId) (commit : Bool) : Life :=
  { s with
    toJournal := s.append txid true (if commit then .commit else .abort)
    begun := s.begun.filter fun b => b.1 ≠ txid
    activeBegunTxns := s.activeBegunTxns - 1 }

def mayTruncate (s : Life) : Bool :=
  s.proc ≠ .down ∧ s.ckpt = .idle ∧ s.needsReopen = false ∧ s.activeBegunTxns = 0

/-- What of a page's versions is found after a crash: any that was ever written, or none. -/
def crashWith (s : Life) (bytes : Nat) (metas : Bool → Fate) (pages : PageId → Option Nat) : Life :=
  { s with
    toJournal := s.crash bytes metas
    frames := fun _ => none
    disk := fun p => (pages p).bind fun i => (s.wrote p)[i]?
    begun := []
    activeBegunTxns := 0
    needsReopen := false }

/-- A page older than the record takes its LSN; a torn page is rebuilt in the file. -/
def redo (s : Life) (r : LogRecord) : Option Life :=
  match r.body with
  | .pageImage p image =>
    match s.frames p with
    | some lsn => some (if lsn < r.lsn then s.stamp p image.pageLsn else s)
    | none => if s.disk p = none then some (s.writeDisk p image.pageLsn) else none
  | .put p .. | .delete p .. =>
    match s.frames p with
    | some lsn => some (if lsn < r.lsn then s.stamp p r.lsn else s)
    | none => none
  | _ => some s

def undoes (s : Life) : Bool := (lost s.metaPage.checkpointLsn s.found).any (·.body.undoes)

/-- `none` when the event cannot happen. -/
def next (s : Life) : LifeEvent → Option Life
  | .draw => if s.proc = .running then some { s with toJournal := s.draw } else none
  | .log txid opEnd body =>
    if s.admitsWriter txid ∧ body.ofTree ∧ s.mayLog body ∧ s.holds body ∧
        kFirstDataPage ≤ body.pageId ∧ (s.proc = .recovering → s.undoes) then
      some (s.log txid opEnd body)
    else none
  | .ensureBegun txid =>
    if s.admitsWriter txid ∧ s.proc = .running ∧ txid ∉ s.begun.map Prod.fst then
      some (s.ensureBegun txid)
    else none
  | .finish txid commit =>
    if s.admitsWriter txid ∧ s.proc = .running ∧ txid ∈ s.begun.map Prod.fst then
      some (s.finish txid commit)
    else none
  | .flush => if s.proc = .down then none else some { s with toJournal := s.flush }
  | .newPage p =>
    if s.proc = .down ∨ p < kFirstDataPage then none else some
      ((s.writeDisk p kInvalidLsn).stamp p kInvalidLsn)
  | .fetch p =>
    if s.proc = .down ∨ (s.frames p).isSome then none
    else (s.disk p).map fun lsn => s.stamp p lsn
  | .init p =>
    if s.proc ≠ .down ∧ (s.frames p).isSome then some (s.stamp p kInvalidLsn) else none
  | .evict p =>
    if s.proc ≠ .down ∧ s.frames p = s.disk p then
      some { s with frames := Function.update s.frames p none }
    else none
  | .writeBack p =>
    if s.proc = .down then none else (s.frames p).map fun lsn => s.writeBack p lsn
  | .mark => if s.mayTruncate then some { s with toJournal := s.mark } else none
  | .writeMeta => if s.ckpt = .marked then some { s with toJournal := s.writeMeta } else none
  | .syncMeta => if s.ckpt = .metaWritten then some { s with toJournal := s.syncMeta } else none
  | .truncate => if s.ckpt = .metaSynced then some { s with toJournal := s.truncate } else none
  | .crash bytes metas pages =>
    if s.proc = .down then none else some (s.crashWith bytes metas pages)
  | .reopen =>
    if s.proc = .down then (pickMeta s.written).map fun c =>
      { s with toJournal := s.reopen c, found := readAll s.wal.file }
    else none
  | .redo r => if s.proc = .recovering ∧ s.ckpt = .idle ∧ r ∈ s.found then s.redo r else none

end Life

/- Failing I/O. A failed flush or page write elsewhere leaves the journal as it is. -/

inductive LifeFault where
  | markerFlush
  /-- The meta write fails, whatever it leaves in its slot. -/
  | metaWrite (fate : Fate)
  | metaSync
  /-- `ftruncate` fails. -/
  | truncate
  /-- The fsync after `ftruncate` fails: the writer keeps its place, and its next write leaves
  a hole before it. -/
  | truncateSync
  /-- The flush of a commit fails. -/
  | commitFlush (txid : TxId)
  /-- A write or a rollback fails half-applied. -/
  | operation
  /-- A page write fails and leaves the page torn. -/
  | pageWrite (p : PageId)

namespace Life

def fail (s : Life) : LifeFault → Option Life
  | .markerFlush => if s.mayTruncate then some { s with toJournal := s.appendMarker } else none
  | .metaWrite fate =>
    if s.ckpt = .marked then some { s with toJournal := s.failMeta fate } else none
  | .metaSync => if s.ckpt = .metaWritten then some { s with ckpt := .idle } else none
  | .truncate => if s.ckpt = .metaSynced then some { s with ckpt := .idle } else none
  | .truncateSync =>
    if s.ckpt = .metaSynced then some { s with
      ckpt := .idle
      wal := s.wal.holed }
    else none
  | .commitFlush txid =>
    if s.admitsWriter txid ∧ s.proc = .running ∧ txid ∈ s.begun.map Prod.fst then
      some { s.finish txid true with
        activeBegunTxns := s.activeBegunTxns
        needsReopen := true }
    else none
  | .operation => if s.proc = .down then none else some { s with needsReopen := true }
  | .pageWrite p =>
    if s.proc = .down then none else some { s with disk := Function.update s.disk p none }

def nextOrFail (s : Life) : LifeEvent ⊕ LifeFault → Option Life
  | .inl e => s.next e
  | .inr f => s.fail f

end Life

/- What a step does to the journal. -/

/-- The failures that leave a meta copy in the file that is ahead of the log. -/
def LifeFault.leavesMetaAhead : LifeFault → Bool
  | metaWrite fate => fate = .kept
  | metaSync | truncate | truncateSync => true
  | _ => false

namespace Life

variable {s s' : Life}

@[simp] theorem stamp_toJournal (s : Life) (p : PageId) (lsn : Lsn) :
    (s.stamp p lsn).toJournal = s.toJournal := rfl

@[simp] theorem writeDisk_toJournal (s : Life) (p : PageId) (lsn : Lsn) :
    (s.writeDisk p lsn).toJournal = s.toJournal := rfl

@[simp] theorem log_toJournal (s : Life) (txid : TxId) (opEnd : Bool) (body : LogBody) :
    (s.log txid opEnd body).toJournal = s.append txid opEnd body := by
  unfold log
  cases body.target <;> rfl

theorem redo_shape {r : LogRecord} (run : s.redo r = some s') :
    s' = s ∨ (∃ p lsn, s' = s.stamp p lsn) ∨ ∃ p lsn, s' = s.writeDisk p lsn := by
  have guarded : ∀ {p : PageId} {old new : Lsn},
      some (if old < r.lsn then s.stamp p new else s) = some s' →
      s' = s ∨ (∃ p lsn, s' = s.stamp p lsn) ∨ ∃ p lsn, s' = s.writeDisk p lsn := by
    intro p old new eq
    obtain rfl := Option.some.inj eq
    split
    · exact .inr (.inl ⟨p, new, rfl⟩)
    · exact .inl rfl
  unfold redo at run
  split at run
  · split at run
    · exact guarded run
    · obtain ⟨-, eq⟩ := Option.ite_none_right_eq_some.mp run
      exact .inr (.inr ⟨_, _, (Option.some.inj eq).symm⟩)
  · split at run
    · exact guarded run
    · cases run
  · split at run
    · exact guarded run
    · cases run
  · exact .inl (Option.some.inj run).symm

theorem redo_toJournal {r : LogRecord} (run : s.redo r = some s') :
    s'.toJournal = s.toJournal := by
  obtain rfl | ⟨p, lsn, rfl⟩ | ⟨p, lsn, rfl⟩ := redo_shape run
  all_goals rfl

theorem admitsWriter_spec {txid : TxId} (admits : s.admitsWriter txid = true) :
    s.proc ≠ .down ∧ s.ckpt = .idle ∧ 0 < txid ∧ txid < s.nextTxid := by
  simpa [admitsWriter] using admits

theorem mayTruncate_spec (may : s.mayTruncate = true) :
    s.proc ≠ .down ∧ s.ckpt = .idle ∧ s.needsReopen = false ∧ s.activeBegunTxns = 0 := by
  simpa [mayTruncate] using may

theorem next_move {e : LifeEvent} (run : s.next e = some s') :
    s'.toJournal = s.toJournal ∨ s.toJournal.Move s'.toJournal := by
  cases e with
  | draw =>
    obtain ⟨up, rfl⟩ := Option.ite_none_right_eq_some.mp run |>.imp id Option.some.inj
    exact .inr (.draw _ up)
  | log txid opEnd body =>
    obtain ⟨⟨admits, -, allowed, -⟩, eq⟩ := Option.ite_none_right_eq_some.mp run
    obtain rfl := Option.some.inj eq
    obtain ⟨up, idle, -, id⟩ := admitsWriter_spec admits
    rw [log_toJournal]
    exact .inr (.append _ txid opEnd body up idle (.inr id) allowed)
  | ensureBegun txid =>
    obtain ⟨⟨admits, -⟩, eq⟩ := Option.ite_none_right_eq_some.mp run
    obtain rfl := Option.some.inj eq
    obtain ⟨up, idle, -, id⟩ := admitsWriter_spec admits
    exact .inr (.append _ txid true .begin up idle (.inr id) rfl)
  | finish txid commit =>
    obtain ⟨⟨admits, -⟩, eq⟩ := Option.ite_none_right_eq_some.mp run
    obtain rfl := Option.some.inj eq
    obtain ⟨up, idle, -, id⟩ := admitsWriter_spec admits
    exact .inr (.append _ txid true _ up idle (.inr id) (by cases commit <;> rfl))
  | flush =>
    obtain ⟨up, eq⟩ := Option.ite_none_left_eq_some.mp run
    obtain rfl := Option.some.inj eq
    exact .inr (.flush _ up)
  | newPage p =>
    obtain ⟨up, eq⟩ := Option.ite_none_left_eq_some.mp run
    obtain rfl := Option.some.inj eq
    exact .inl rfl
  | fetch p =>
    obtain ⟨up, eq⟩ := Option.ite_none_left_eq_some.mp run
    obtain ⟨lsn, -, rfl⟩ := Option.map_eq_some_iff.mp eq
    exact .inl rfl
  | init p =>
    obtain ⟨-, eq⟩ := Option.ite_none_right_eq_some.mp run
    obtain rfl := Option.some.inj eq
    exact .inl rfl
  | evict p =>
    obtain ⟨-, eq⟩ := Option.ite_none_right_eq_some.mp run
    obtain rfl := Option.some.inj eq
    exact .inl rfl
  | writeBack p =>
    obtain ⟨up, eq⟩ := Option.ite_none_left_eq_some.mp run
    obtain ⟨lsn, -, rfl⟩ := Option.map_eq_some_iff.mp eq
    by_cases zero : lsn = kInvalidLsn
    · exact .inl (if_pos zero)
    · have flushes : (s.writeBack p lsn).toJournal = s.flush := if_neg zero
      rw [flushes]
      exact .inr (.flush _ up)
  | mark =>
    obtain ⟨may, eq⟩ := Option.ite_none_right_eq_some.mp run
    obtain rfl := Option.some.inj eq
    obtain ⟨up, idle, -⟩ := mayTruncate_spec may
    exact .inr (.mark _ up idle)
  | writeMeta =>
    obtain ⟨marked, eq⟩ := Option.ite_none_right_eq_some.mp run
    obtain rfl := Option.some.inj eq
    exact .inr (.writeMeta _ marked)
  | syncMeta =>
    obtain ⟨metaWritten, eq⟩ := Option.ite_none_right_eq_some.mp run
    obtain rfl := Option.some.inj eq
    exact .inr (.syncMeta _ metaWritten)
  | truncate =>
    obtain ⟨metaSynced, eq⟩ := Option.ite_none_right_eq_some.mp run
    obtain rfl := Option.some.inj eq
    exact .inr (.truncate _ metaSynced)
  | crash bytes metas pages =>
    obtain ⟨up, eq⟩ := Option.ite_none_left_eq_some.mp run
    obtain rfl := Option.some.inj eq
    exact .inr (.crash _ bytes metas up)
  | reopen =>
    obtain ⟨down, eq⟩ := Option.ite_none_right_eq_some.mp run
    obtain ⟨c, picked, rfl⟩ := Option.map_eq_some_iff.mp eq
    exact .inr (.reopen _ c down picked)
  | redo r =>
    obtain ⟨-, eq⟩ := Option.ite_none_right_eq_some.mp run
    exact .inl (redo_toJournal eq)

end Life

end PagerDB

import PagerDB.Lib.Ledger
import PagerDB.Recovery.Recount

/-! A database directory over its life. A handle works on it and makes checkpoints, the process crashes, and
`DB::Open` recovers, unless it crashes as well. Operations run one after another and outside of
transactions; those
under way at a crash have left records of unfinished groups. -/
namespace PagerDB

open LogWriter (fileBytes)
open LedgerLib MachineLib Store

inductive Stage where
  | up
  | down
  /-- Inside `Recover`: the records that the redo loop has yet to apply, and whether it has applied any. -/
  | redoing (todo : List LogRecord) (applied : Bool)
  deriving DecidableEq

/-- What a crash makes of a page: one of the versions that were written since the checkpoint, the
newest first, or
that of the checkpoint, or a torn one. -/
inductive PageFate where
  | version (i : Nat)
  | torn

structure Directory where
  stage : Stage
  base : Store
  store : Store
  /-- What was written to a page since the checkpoint, the newest first. -/
  wrote : PageId → List Page

inductive DirectoryEvent where
  | work (e : Work)
  /-- Of a handle that is up, or at the end of `Open`. -/
  | checkpoint
  /-- The log keeps what was synced and some bytes more. -/
  | crash (inFlight : List (TxId × LogBody)) (bytes : Nat) (pages : PageId → PageFate)
  /-- A crash in a checkpoint that has appended its marker. -/
  | crashAtMarker (bytes : Nat) (pages : PageId → PageFate)
  /-- A crash in a checkpoint whose meta page is durable, before the log is emptied. -/
  | crashBeforeTruncate
  | open
  | redo

namespace Store

def metaCopy (s : Store) : MetaCopy := ⟨s.metaPage.generation, s.metaPage.checkpointLsn⟩

def enforceWalRule (s : Store) (pid : PageId) : Store :=
  if s.isDirty pid ∧ (s.view pid).pageLsn ≠ kInvalidLsn then s.onLog LogWriter.flush else s

/-- The image that redo writes to the file over a page that cannot be read. -/
def healing (s : Store) (r : LogRecord) (p : PageId) : Option Page :=
  match r.body with
  | .pageImage q image => if p = q ∧ p < s.metaPage.numPages ∧ s.version p = none then some image else none
  | _ => none

def reopened (s : Store) (disk : PageId → Option Page) (filePages : Nat) (file : List Chunk) : Store :=
  { s with
    cache := fun _ => none
    disk := disk
    filePages := filePages
    wal := some (.open file (Journal.baseLsn (readAll file) s.metaCopy))
    io := [] }

end Store

/-- What is left of `Recover` after the redo loop. -/
def settle (undoTxid : TxId) (records : List LogRecord) (applied : Bool) : M Unit := do
  let checkpoint := (← get).metaPage.checkpointLsn
  undoLosers undoTxid checkpoint records
  onlyIf (applied || (lost checkpoint records).any (·.body.undoes)) recount

namespace Work

/-- `TxnManager` gives out ids from 1 on, and the marker of a checkpoint has id 0. -/
def autocommit : Work → Bool
  | call _ txid .. => txid ≠ kInvalidTxId
  | marker txid body => txid = kInvalidTxId ∧ body = .checkpoint
  | _ => true

def guarded (s : Store) : Work → Store
  | evict pid => s.enforceWalRule pid
  | _ => s

def writes (s : Store) : Work → PageId → Bool
  | evict pid, p => p = pid ∧ s.isDirty p
  | flushAll, p => s.isDirty p
  | _, _ => false

end Work

/-- Recovery itself may evict. -/
def Stage.admits : Stage → Work → Bool
  | up, e => e.autocommit
  | redoing .., .evict _ => true
  | _, _ => false

/-- The records of operations under way; none of them ends its group. -/
def LogWriter.loggedAll (w : LogWriter) (inFlight : List (TxId × LogBody)) : LogWriter :=
  inFlight.foldl (fun w f => w.logged f.1 false f.2) w

namespace Directory

def created (vol : Volume) : Directory :=
  let s := create vol (some (.open [] kFirstLsn))
  ⟨.up, s, s, fun _ => []⟩

def restarted (s : Store) : Directory := ⟨.up, s, s, fun _ => []⟩

def worked (d : Directory) (e : Work) (s : Store) : Directory :=
  { d with
    store := s
    wrote := fun p => if e.writes d.store p then d.store.view p :: d.wrote p else d.wrote p }

def redone (d : Directory) (r : LogRecord) (todo : List LogRecord) (applied : Bool) (s : Store) : Directory :=
  { d with
    stage := .redoing todo applied
    store := s
    wrote := fun p => (d.store.healing r p).toList ++ d.wrote p }

/-- The pages of the file after a crash. What lies past the end of it, as the meta page of the
checkpoint has it, is
overwritten before it is read. -/
def found (d : Directory) (pages : PageId → PageFate) (p : PageId) : Option Page :=
  if p < d.base.metaPage.numPages then
    match pages p with
    | .version i => ((d.wrote p)[i]?).or (d.base.disk p)
    | .torn => if d.wrote p = [] then d.base.disk p else none
  else none

def crashed (d : Directory) (w : LogWriter) (bytes : Nat) (pages : PageId → PageFate) : Directory :=
  { d with
    stage := .down
    store := d.base.reopened (d.found pages) d.store.filePages (w.crashed bytes) }

/-- What a checkpoint begins with. `Recover` draws the first id for its undo pass. -/
def beforeCheckpoint (d : Directory) : Option Store :=
  match d.stage with
  | .up => some d.store
  | .redoing [] applied => d.store.wal.bind fun w =>
    match settle 1 (readAll w.file) applied d.store with
    | .ok _ s => some s
    | .error .. => none
  | _ => none

/-- `none` when the event cannot happen. -/
def next (d : Directory) : DirectoryEvent → Option Directory
  | .work e => if d.stage.admits e then (work (e.guarded d.store) e).map (d.worked e) else none
  | .checkpoint => d.beforeCheckpoint.map fun s => restarted (s.checkpointed false)
  | .crash inFlight bytes pages =>
    if d.stage ≠ .down ∧ (d.stage = .up ∨ inFlight = []) ∧
      (∀ f ∈ inFlight, f.1 ≠ kInvalidTxId ∧ f.2.ofTree) then
      d.store.wal.map fun w => d.crashed (w.loggedAll inFlight) bytes pages
    else none
  | .crashAtMarker bytes pages => d.beforeCheckpoint.bind fun s => s.flushedAll.logMarker.wal.map fun w =>
    ({ d with store := s }.worked .flushAll s.flushedAll).crashed w bytes pages
  | .crashBeforeTruncate => d.beforeCheckpoint.bind fun s => s.flushedAll.marked.wal.map fun w =>
    (restarted (s.checkpointed false)).crashed w 0 fun _ => .version 0
  | .open =>
    if d.stage = .down then d.store.wal.map fun w =>
      if fileBytes w.file = 0 then restarted d.store
      else { d with stage := .redoing (applicable d.store.metaPage.checkpointLsn (readAll w.file)) false }
    else none
  | .redo =>
    match d.stage with
    | .redoing (r :: todo) applied =>
      match applyRecord r d.store with
      | .ok now s => some (d.redone r todo (applied || now) s)
      | .error .. => none
    | _ => none

def reopen (d : Directory) : Option Store := d.store.wal.bind fun w =>
  if fileBytes w.file = 0 then some d.store
  else
    match recover 1 (readAll w.file) d.store with
    | .ok _ s => some (s.checkpointed false)
    | .error .. => none

end Directory

namespace DirectoryEvent

/-- What the event does to the list of calls that the database has performed. -/
def Means : DirectoryEvent → LedgerEvent Call → Prop
  | work (.call c ..), k => k = .add c
  | work .flush, k | work .flushAll, k | checkpoint, k | crashBeforeTruncate, k => k = .sync
  | crash .., k | crashAtMarker .., k => ∃ kept, k = .crash kept
  | _, k => k = .idle

def performs : DirectoryEvent → List Call
  | work (.call c ..) => [c]
  | _ => []

def syncs : DirectoryEvent → Bool
  | work .flush | work .flushAll | checkpoint | crashBeforeTruncate => true
  | _ => false

variable {e : DirectoryEvent} {k : LedgerEvent Call}

theorem Means.added (means : e.Means k) : k.added = e.performs := by
  cases e with
  | work f =>
    cases f with
    | _ =>
      cases means
      rfl
  | crash inFlight bytes pages =>
    obtain ⟨kept, rfl⟩ := means
    rfl
  | crashAtMarker bytes pages =>
    obtain ⟨kept, rfl⟩ := means
    rfl
  | _ =>
    cases means
    rfl

theorem Means.sync (means : e.Means k) (syncs : e.syncs = true) : k = .sync := by
  cases e with
  | work f =>
    cases f with
    | flush | flushAll => exact means
    | _ => cases syncs
  | checkpoint | crashBeforeTruncate => exact means
  | _ => cases syncs

end DirectoryEvent

end PagerDB

import PagerDB.BTree.RecordSize
import PagerDB.Txn.Transaction
import PagerDB.Wal.LogSpec

/-! One open handle: `DbImpl`, its transactions and the steps that follow a tree operation, the
log flush and the automatic checkpoint. A call runs as one step. It is given the faults that its
tree operation meets and at most one later failure, at a step that it really takes; a step that
fails leaves in the file what it found there. An exception that leaves a call ends the process. -/
namespace PagerDB

structure Options where
  syncOnWrite : Bool
  maxWalBytes : Nat

/- Failures of the durable steps. -/

/-- `LogWriter::FlushLocked`: the write of the buffer, then the fsync. -/
inductive FlushFault where
  | write
  | sync
  deriving DecidableEq

inductive CheckpointFault where
  | flush (f : FlushFault)
  /-- `FlushAll` fails on a page once the others of the list are written. -/
  | page (pid : PageId) (written : List PageId)
  | dataSync
  | markerFlush (f : FlushFault)
  | metaWrite (fate : Fate)
  | metaSync
  | truncate
  | truncateSync
  deriving DecidableEq

namespace LogWriter

/-- `none` when the flush does not get to the step that fails. -/
def flushFault (w : LogWriter) : FlushFault → Option LogWriter
  | .write => if w.buffer = [] then none else some w
  | .sync =>
    if w.buffer = [] ∧ w.flushedLsn = w.endLsn then none
    else some { w with file := w.file ++ w.buffer.map .record, buffer := [] }

end LogWriter

namespace Store

def logSize (s : Store) : Nat := s.wal.elim 0 LogWriter.sizeBytes

def onLog (s : Store) (f : LogWriter → LogWriter) : Store := { s with wal := s.wal.map f }

def flushFault (s : Store) (f : FlushFault) : Option Store :=
  (s.wal.bind (·.flushFault f)).map fun w => { s with wal := some w }

def writePages (s : Store) (pages : PageId → Bool) : Store :=
  { s with
    cache := fun p => (s.cache p).map fun f => ⟨f.page, f.dirty && !pages p⟩
    disk := fun p =>
      match s.cache p with
      | some f => if f.dirty && pages p then some f.page else s.disk p
      | none => s.disk p }

def flushedAll (s : Store) : Store := (s.onLog LogWriter.flush).writePages fun _ => true

def logMarker (s : Store) : Store := s.onLog (·.append kInvalidTxId true .checkpoint)

/-- `SetCheckpointLsn(end_lsn())` once the marker is flushed. -/
def marked (s : Store) : Store :=
  let s := s.logMarker.onLog LogWriter.flush
  { s with metaPage := { s.metaPage with checkpointLsn := s.wal.elim kInvalidLsn LogWriter.endLsn } }

def nextMeta (s : Store) : MetaPage := { s.metaPage with generation := s.metaPage.generation + 1 }

def metaSlot (s : Store) : Bool := s.nextMeta.generation % 2 = 1

def persistMeta (s : Store) : Store :=
  { s with
    metaPage := s.nextMeta
    metaSlots := fun b => if b = s.metaSlot then some s.nextMeta else s.metaSlots b }

/-- A `PersistMeta` that fails takes its generation back, though its bytes may all have landed. -/
def persistFault (s : Store) (fate : Fate) : Store :=
  { s with metaSlots := fun b =>
      if b = s.metaSlot then fate.apply (some s.nextMeta) (s.metaSlots b) else s.metaSlots b }

/-- `CheckpointLocked` without a failure. With a begun transaction the log stays. -/
def checkpointed (s : Store) (begun : Bool) : Store :=
  if begun then s.flushedAll
  else
    let s := s.flushedAll.marked.persistMeta
    s.onLog (·.truncate s.metaPage.checkpointLsn)

def checkpointFault (s : Store) (begun : Bool) : CheckpointFault → Option Store
  | .flush f => s.flushFault f
  | .page pid written =>
    let s := s.onLog LogWriter.flush
    if s.isDirty pid ∧ pid ∉ written then some (s.writePages fun p => decide (p ∈ written)) else none
  | .dataSync => some s.flushedAll
  | .markerFlush f => if begun then none else s.flushedAll.logMarker.flushFault f
  | .metaWrite fate => if begun then none else some (s.flushedAll.marked.persistFault fate)
  | .metaSync | .truncate => if begun then none else some s.flushedAll.marked.persistMeta
  | .truncateSync =>
    if begun then none else some (s.flushedAll.marked.persistMeta.onLog LogWriter.holed)

end Store

/- The handle. -/

inductive Report where
  | ok
  | failed (s : Status)
  deriving DecidableEq

/-- The failure, if any, of the steps after the tree operation. -/
inductive Late where
  | flush (f : FlushFault) (error : Status)
  | checkpoint (f : CheckpointFault) (error : Status)
  deriving DecidableEq

structure Handle where
  store : Store
  options : Options
  nextTxid : TxId
  locks : LockManager
  txns : TxId → Option TxnImpl
  needsReopen : Bool
  activeBegunTxns : Nat

def Report.notActive : Report := .failed (.Internal "Transaction is not active")

def Report.needsReopen : Report :=
  .failed (.Internal "A prior write failed mid-operation; reopen the database")

/-- What Put and Delete say on a poisoned handle. -/
def Report.needsRecovery : Report :=
  .failed (.Internal ("A prior write failed mid-operation; reopen the database " ++
    "(recovery restores the last consistent state)"))

namespace Handle

def opened (s : Store) (options : Options) : Handle :=
  ⟨s, options, 1, .empty, fun _ => none, false, 0⟩

def setTxn (h : Handle) (t : TxId) (x : TxnImpl) : Handle :=
  { h with txns := Function.update h.txns t (some x) }

def checkpointLocked (h : Handle) : Option (CheckpointFault × Status) → Option (Report × Handle)
  | none =>
    if h.needsReopen then some (.needsReopen, h)
    else some (.ok, { h with store := h.store.checkpointed (0 < h.activeBegunTxns) })
  | some (f, e) =>
    if h.needsReopen then none
    else (h.store.checkpointFault (0 < h.activeBegunTxns) f).map fun s =>
      (.failed e, { h with store := s })

/-- The log has reached its limit and no begun transaction needs it. -/
def checkpointDue (h : Handle) : Bool :=
  h.options.maxWalBytes ≠ 0 ∧ h.options.maxWalBytes ≤ h.store.logSize ∧ h.activeBegunTxns = 0

def maybeAutoCheckpoint (h : Handle) (late : Option (CheckpointFault × Status)) :
    Option (Report × Handle) :=
  if h.checkpointDue then h.checkpointLocked late
  else if late.isNone then some (.ok, h) else none

def synced (h : Handle) : Handle :=
  if h.options.syncOnWrite then { h with store := h.store.onLog LogWriter.flush } else h

def syncFault (h : Handle) (f : FlushFault) : Option Handle :=
  if h.options.syncOnWrite then (h.store.flushFault f).map fun s => { h with store := s } else none

def finishWrite (h : Handle) : Option Late → Option (Report × Handle)
  | none => h.synced.maybeAutoCheckpoint none
  | some (.flush f e) => (h.syncFault f).map fun h => (.failed e, h)
  | some (.checkpoint f e) => h.synced.maybeAutoCheckpoint (some (f, e))

/-- The part of an autocommit call after its check of the handle. A failure of the kind that
changes nothing does not poison it. -/
def autocommit (h : Handle) (op : TxId → M (Option Bytes)) (harmless : Status → Bool)
    (io : List (Option Fault)) (late : Option Late) : Option (Report × Handle) :=
  match op h.nextTxid (h.store.facing io) with
  | .ok _ s => { h with store := s, nextTxid := h.nextTxid + 1 }.finishWrite late
  | .error (.status e) s =>
    if late.isNone then
      some (.failed e, { h with
        store := s
        nextTxid := h.nextTxid + 1
        needsReopen := h.needsReopen || !harmless e })
    else none
  | .error .. => none

def putBody (h : Handle) (key value : Bytes) : List (Option Fault) → Option Late →
    Option (Report × Handle) :=
  h.autocommit (fun t => treePut key value t false) fun e => e.code = .invalidArgument

def deleteBody (h : Handle) (key : Bytes) : List (Option Fault) → Option Late →
    Option (Report × Handle) :=
  h.autocommit (fun t => treeDelete key t false) fun e => e.code = .notFound

/-- `TxnImpl::Poison`: no undo, but the locks are released. -/
def poison (h : Handle) (t : TxId) (x : TxnImpl) : Handle :=
  { h.setTxn t { x with active := false } with
    needsReopen := true
    locks := h.locks.releaseAll t }

def txnWrite (h : Handle) (t : TxId) (x : TxnImpl) (key : Bytes) (op : M (Option Bytes))
    (harmless : Status → Bool) (io : List (Option Fault)) : Option (Report × Handle) :=
  let h := { h with activeBegunTxns := h.activeBegunTxns + if x.begun then 0 else 1 }
  let x := { x with begun := true }
  match op (h.store.facing io) with
  | .ok before s =>
    some (.ok, { h.setTxn t { x with undo := x.undo ++ [(key, before)] } with store := s })
  | .error (.status e) s =>
    if harmless e then some (.failed e, { h.setTxn t x with store := s })
    else some (.failed e, { h.poison t x with store := s })
  | .error .. => none

def txnPutBody (h : Handle) (t : TxId) (x : TxnImpl) (key value : Bytes) :
    List (Option Fault) → Option (Report × Handle) :=
  h.txnWrite t x key (txnPut t x.begun key value) fun e => e.code = .invalidArgument

def txnDeleteBody (h : Handle) (t : TxId) (x : TxnImpl) (key : Bytes) :
    List (Option Fault) → Option (Report × Handle) :=
  h.txnWrite t x key (txnDelete t x.begun key) fun e => e.code = .notFound

def ended (h : Handle) (t : TxId) (x : TxnImpl) : Handle :=
  { h.setTxn t { x with active := false } with
    activeBegunTxns := h.activeBegunTxns - if x.begun then 1 else 0
    locks := h.locks.releaseAll t }

def logged (h : Handle) (t : TxId) (body : LogBody) : Handle :=
  { h with store := h.store.onLog (·.append t true body) }

def commitBody (h : Handle) (t : TxId) (x : TxnImpl) : Option Late → Option (Report × Handle)
  | some (.flush f e) =>
    if x.begun then ((h.logged t .commit).syncFault f).map fun h => (.failed e, h.poison t x)
    else none
  | none => ((if x.begun then (h.logged t .commit).synced else h).ended t x).maybeAutoCheckpoint none
  | some (.checkpoint f e) =>
    ((if x.begun then (h.logged t .commit).synced else h).ended t x).maybeAutoCheckpoint (some (f, e))

/-- The inverse writes of a rollback, newest first. A key that is gone needs no delete. -/
def rollback (t : TxId) : List (Bytes × Option Bytes) → M Unit
  | [] => pure ()
  | (key, before) :: rest => do
    (fun s => match undoWrite t key before s with
      | .ok _ s => .ok () s
      | .error e s => if before = none ∧ isNotFound e then .ok () s else .error e s)
    rollback t rest

def abortBody (h : Handle) (t : TxId) (x : TxnImpl) (io : List (Option Fault)) :
    Option (Report × Handle) :=
  if x.begun then
    match rollback t x.undo.reverse (h.store.facing io) with
    | .ok _ s => some (.ok, ({ h with store := s }.logged t .abort).ended t x)
    | .error (.status e) s => some (.failed e, { h.poison t x with store := s })
    | .error .. => none
  else some (.ok, h.ended t x)

def beginTxn (h : Handle) (retryOf : TxId) : Handle :=
  let txid := h.nextTxid
  let priority := if retryOf = kInvalidTxId then txid else retryOf
  { h.setTxn txid ⟨priority, [], true, false⟩ with nextTxid := txid + 1 }

/- Calls. -/

def onTxn (h : Handle) (t : TxId) (body : TxnImpl → Option (Report × Handle)) :
    Option (Report × Handle) :=
  match h.txns t with
  | none => none
  | some x => if x.active then body x else some (.notActive, h)

/-- `Acquire`, and what follows once the lock is granted; `none` while it has to wait. -/
def locking (h : Handle) (r : Request) (timedOut : Bool)
    (body : Handle → Option (Report × Handle)) : Option (Report × Handle) :=
  match h.locks.check r with
  | .grant => body { h with locks := h.locks.grant r }
  | .die => some (.failed (.Busy "wait-die: transaction aborted to avoid deadlock"), h)
  | .wait => if timedOut then some (.failed (.Busy "lock wait timed out"), h) else none

end Handle

inductive DbCall where
  | put (key value : Bytes) (io : List (Option Fault)) (late : Option Late)
  | delete (key : Bytes) (io : List (Option Fault)) (late : Option Late)
  | sync (fault : Option (FlushFault × Status))
  | checkpoint (fault : Option (CheckpointFault × Status))
  | begin (retryOf : TxId)
  /-- The lock of a transaction's Get; the pages it reads are fetched on their own. -/
  | txnGet (t : TxId) (key : Bytes) (timedOut : Bool)
  | txnPut (t : TxId) (key value : Bytes) (timedOut : Bool) (io : List (Option Fault))
  | txnDelete (t : TxId) (key : Bytes) (timedOut : Bool) (io : List (Option Fault))
  | commit (t : TxId) (late : Option Late)
  | abort (t : TxId) (io : List (Option Fault))
  deriving DecidableEq

namespace Handle

/-- A call that was entered when the handle was poisoned, or was not; `none` when it cannot run
or return like this. -/
def perform (h : Handle) (poisoned : Bool) : DbCall → Option (Report × Handle)
  | .put key value io late =>
    if poisoned then some (.needsRecovery, h) else h.putBody key value io late
  | .delete key io late =>
    if poisoned then some (.needsRecovery, h) else h.deleteBody key io late
  | .sync none => some (.ok, { h with store := h.store.onLog LogWriter.flush })
  | .sync (some (f, e)) => (h.store.flushFault f).map fun s => (.failed e, { h with store := s })
  | .checkpoint fault => h.checkpointLocked fault
  | .begin retryOf =>
    if poisoned then some (.needsReopen, h) else some (.ok, h.beginTxn retryOf)
  | .txnGet t key timedOut =>
    h.onTxn t fun x => h.locking ⟨t, x.priority, key, .shared⟩ timedOut fun h => some (.ok, h)
  | .txnPut t key value timedOut io =>
    h.onTxn t fun x => h.locking ⟨t, x.priority, key, .exclusive⟩ timedOut fun h =>
      h.txnPutBody t x key value io
  | .txnDelete t key timedOut io =>
    h.onTxn t fun x => h.locking ⟨t, x.priority, key, .exclusive⟩ timedOut fun h =>
      h.txnDeleteBody t x key io
  | .commit t late => h.onTxn t fun x => h.commitBody t x late
  | .abort t io => h.onTxn t fun x => h.abortBody t x io

def call (h : Handle) (c : DbCall) : Option (Report × Handle) := h.perform h.needsReopen c

end Handle

inductive HandleEvent where
  | call (c : DbCall)
  | evict (pid : PageId)
  | fetch (pid : PageId) (io : List (Option Fault))

def Handle.next (h : Handle) : HandleEvent → Option Handle
  | .call c => (h.call c).map Prod.snd
  | .evict pid => (h.store.evict pid).map fun s => { h with store := s }
  | .fetch pid io =>
    match fetchPage pid (h.store.facing io) with
    | .ok _ s => some { h with store := s }
    | .error .. => none

end PagerDB

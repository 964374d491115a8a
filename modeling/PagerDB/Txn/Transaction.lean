import PagerDB.BTree.OrderedMap
import PagerDB.Lib.StrictLocking
import PagerDB.Txn.LockTable

/-! Explicit transactions over one handle: `Begin` and the calls of `TxnImpl`. A call is
cut where another thread can run: at each pass of the lock request, before the tree
operation, and between the inverse writes of a rollback. A call that meets a failing
tree operation or log flush poisons the handle and ends the run. -/
namespace PagerDB

open StrictLocking (Op)

structure TxnImpl where
  priority : TxId
  undo : List (Bytes × Option Bytes)
  active : Bool
  begun : Bool

inductive TxnCall where
  | get (key : Bytes)
  | put (key value : Bytes)
  | delete (key : Bytes)

namespace TxnCall

def key : TxnCall → Bytes
  | get k | put k _ | delete k => k

def mode : TxnCall → LockMode
  | get _ => .shared
  | _ => .exclusive

end TxnCall

inductive Phase where
  | idle
  | acquiring (c : TxnCall)
  | locked (c : TxnCall)
  | rollingBack

def Phase.rolling : Phase → Bool
  | rollingBack => true
  | _ => false

structure TxnDb where
  store : Store
  locks : LockManager
  nextTxid : TxId
  syncOnWrite : Bool
  txns : TxId → Option (TxnImpl × Phase)
  /-- What each transaction did and was told. -/
  done : TxId → List (Op Bytes Bytes)
  /-- The same of the committed ones, in commit order. -/
  committed : List (List (Op Bytes Bytes))

def logTxnMarker (txid : TxId) (body : LogBody) : M Unit := logPageEvent body txid true

def ensureBegun (txid : TxId) (begun : Bool) : M Unit := onlyIf (!begun) (logTxnMarker txid .begin)

def flushLog : M Unit := modify fun s => { s with wal := s.wal.map LogWriter.flush }

def txnPut (txid : TxId) (begun : Bool) (key value : Bytes) : M (Option Bytes) := do
  ensureBegun txid begun
  treePut key value txid true

def txnDelete (txid : TxId) (begun : Bool) (key : Bytes) : M (Option Bytes) := do
  ensureBegun txid begun
  treeDelete key txid true

def commitRecord (txid : TxId) (begun sync : Bool) : M Unit :=
  onlyIf begun do
    logTxnMarker txid .commit
    onlyIf sync flushLog

/-- The inverse of one write: put the old value back, or delete a key that was new. -/
def undoWrite (txid : TxId) (key : Bytes) : Option Bytes → M (Option Bytes)
  | some before => treePut key before txid false
  | none => treeDelete key txid false

inductive TxnEvent where
  | begin (retryOf : TxId)
  | call (t : TxId) (c : TxnCall)
  | pass (t : TxId)
  | timeout (t : TxId)
  | perform (t : TxId) (io : List (Option Fault))
  | commit (t : TxId)
  | abort (t : TxId)
  | undo (t : TxId) (io : List (Option Fault))
  | endAbort (t : TxId)

namespace TxnDb

def opened (s : Store) (syncOnWrite : Bool) : TxnDb :=
  ⟨s, .empty, 1, syncOnWrite, fun _ => none, fun _ => [], []⟩

def setTxn (d : TxnDb) (t : TxId) (x : TxnImpl) (phase : Phase) : TxnDb :=
  { d with txns := Function.update d.txns t (some (x, phase)) }

def reports (d : TxnDb) (t : TxId) (x : TxnImpl) (s : Store) (op : Op Bytes Bytes) : TxnDb :=
  { d.setTxn t x .idle with store := s, done := Function.update d.done t (d.done t ++ [op]) }

def begin_ (d : TxnDb) (retryOf : TxId) : TxnDb :=
  let txid := d.nextTxid
  let priority := if retryOf = kInvalidTxId then txid else retryOf
  { d.setTxn txid ⟨priority, [], true, false⟩ .idle with nextTxid := txid + 1 }

def granted (d : TxnDb) (t : TxId) (x : TxnImpl) (c : TxnCall) : TxnDb :=
  { d.setTxn t x (.locked c) with locks := d.locks.grant ⟨t, x.priority, c.key, c.mode⟩ }

def pass (d : TxnDb) (t : TxId) (x : TxnImpl) (c : TxnCall) : TxnDb :=
  match d.locks.check ⟨t, x.priority, c.key, c.mode⟩ with
  | .grant => d.granted t x c
  | .die => d.setTxn t x .idle
  | .wait => d

def perform (d : TxnDb) (t : TxId) (x : TxnImpl) (io : List (Option Fault)) :
    TxnCall → Option TxnDb
  | .get key =>
    match treeGet key (d.store.facing io) with
    | .ok value s => some (d.reports t x s (.get key (some value)))
    | .error e s => if isNotFound e then some (d.reports t x s (.get key none)) else none
  | .put key value =>
    match txnPut t x.begun key value (d.store.facing io) with
    | .ok before s =>
      some (d.reports t { x with undo := x.undo ++ [(key, before)], begun := true } s
        (.put key value))
    | .error .. => none
  | .delete key =>
    match txnDelete t x.begun key (d.store.facing io) with
    | .ok before s =>
      some (d.reports t { x with undo := x.undo ++ [(key, before)], begun := true } s
        (.delete key true))
    | .error e s =>
      if isNotFound e then some (d.reports t { x with begun := true } s (.delete key false))
      else none

def released (d : TxnDb) (t : TxId) (x : TxnImpl) (s : Store) : TxnDb :=
  { d.setTxn t { x with active := false } .idle with store := s, locks := d.locks.releaseAll t }

def commit (d : TxnDb) (t : TxId) (x : TxnImpl) : Option TxnDb :=
  match commitRecord t x.begun d.syncOnWrite d.store with
  | .ok _ s => some { d.released t x s with committed := d.committed ++ [d.done t] }
  | .error .. => none

def undone (d : TxnDb) (t : TxId) (x : TxnImpl) (s : Store) : TxnDb :=
  { d.setTxn t { x with undo := x.undo.dropLast } .rollingBack with store := s }

def undoLast (d : TxnDb) (t : TxId) (x : TxnImpl) (io : List (Option Fault)) : Option TxnDb :=
  match x.undo.getLast? with
  | none => none
  | some (key, before) =>
    match undoWrite t key before (d.store.facing io) with
    | .ok _ s => some (d.undone t x s)
    | .error e s => if before = none ∧ isNotFound e then some (d.undone t x s) else none

def endAbort (d : TxnDb) (t : TxId) (x : TxnImpl) : Option TxnDb :=
  if x.undo = [] then
    match onlyIf x.begun (logTxnMarker t .abort) d.store with
    | .ok _ s => some (d.released t x s)
    | .error .. => none
  else none

/-- A call on a transaction that has ended returns Internal and changes nothing. -/
def step (d : TxnDb) : TxnEvent → Option TxnDb
  | .begin retryOf => some (d.begin_ retryOf)
  | .call t c =>
    match d.txns t with
    | some (x, .idle) => some (if x.active then d.setTxn t x (.acquiring c) else d)
    | _ => none
  | .pass t =>
    match d.txns t with
    | some (x, .acquiring c) => some (d.pass t x c)
    | _ => none
  | .timeout t =>
    match d.txns t with
    | some (x, .acquiring _) => some (d.setTxn t x .idle)
    | _ => none
  | .perform t io =>
    match d.txns t with
    | some (x, .locked c) => d.perform t x io c
    | _ => none
  | .commit t =>
    match d.txns t with
    | some (x, .idle) => if x.active then d.commit t x else some d
    | _ => none
  | .abort t =>
    match d.txns t with
    | some (x, .idle) =>
      some (if x.active then d.setTxn t { x with active := false } .rollingBack else d)
    | _ => none
  | .undo t io =>
    match d.txns t with
    | some (x, .rollingBack) => d.undoLast t x io
    | _ => none
  | .endAbort t =>
    match d.txns t with
    | some (x, .rollingBack) => d.endAbort t x
    | _ => none

end TxnDb

end PagerDB

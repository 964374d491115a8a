import PagerDB.BTree.Node
import PagerDB.Storage.Store

/-! `BPlusTree`: Get, Put and Delete over the buffer pool, with the log records
they emit. One call runs at a time here; latches leave no trace. -/
namespace PagerDB

/- WAL emission. All of it is a no-op without a log. -/

def appendRecord (txid : TxId) (opEnd : Bool) (body : LogBody) : M (Option Lsn) := do
  match (← get).wal with
  | none => return none
  | some w =>
    modify fun s => { s with wal := some (w.append txid opEnd body) }
    return some w.endLsn

def logPageImage (pid : PageId) (txid : TxId) (opEnd : Bool) : M Unit := do
  markDirty pid
  match (← get).wal with
  | none => return ()
  | some w =>
    let page ← getPage pid
    setPage pid (page.stamp w.endLsn)
    modify fun s => { s with wal := some (w.appendPageImage pid page txid opEnd) }

def logPageEvent (body : LogBody) (txid : TxId) (opEnd : Bool) : M Unit := do
  let _ ← appendRecord txid opEnd body

/-- The delta record, whose LSN becomes the page's. -/
def logDelta (body : LogBody) (txid : TxId) (pid : PageId) (opEnd : Bool) : M Unit := do
  match ← appendRecord txid opEnd body with
  | none => return ()
  | some lsn =>
    let page ← getPage pid
    setPage pid (page.stamp lsn)

/-- The first record of a page since the last truncation is a full image. A
transactional write then still logs its delta, which carries the before-image. -/
def logKeyRecord (body : LogBody) (txid : TxId) (pid : PageId) (opEnd needsUndo : Bool) :
    M Unit := do
  markDirty pid
  match (← get).wal with
  | none => return ()
  | some w =>
    if w.needsImage pid then
      logPageImage pid txid (opEnd && !needsUndo)
      if needsUndo then logDelta body txid pid opEnd else return ()
    else logDelta body txid pid opEnd

/- Descents. A descent that visits more pages than exist walks a cycle. -/

/-- The crabbing descent of Get, Delete, FindLeaf and the optimistic Put. -/
def descend (key : Bytes) : Nat → PageId → M PageId
  | 0, _ => throw .diverges
  | fuel + 1, current => do
    fetchPage current
    let page ← getPage current
    if page.isLeaf then return current
    else
      let child := page.findChild key
      failIf (child = kInvalidPageId) (.status (.Internal "Invalid child pointer"))
      descend key fuel child

def findLeaf (key : Bytes) : M PageId := do
  let m := (← get).metaPage
  descend key (m.numPages + 1) m.rootPageId

/-- The pessimistic descent: the guard stack, root first, leaf last. -/
def descendPath (key : Bytes) : Nat → PageId → M (List PageId)
  | 0, _ => throw .diverges
  | fuel + 1, current => do
    fetchPage current
    let page ← getPage current
    if page.isLeaf then return [current]
    else
      let child := page.findChild key
      failIf (child = kInvalidPageId) (.status (.Internal "Invalid child pointer"))
      let rest ← descendPath key fuel child
      return current :: rest

def isEmpty : M Bool := do return (← get).metaPage.rootPageId = kInvalidPageId

def treeGet (key : Bytes) : M Bytes := do
  failIf (← isEmpty) (.status (.NotFound "Key not found (empty tree)"))
  let leaf ← findLeaf key
  match (← getPage leaf).getValue key with
  | some value => return value
  | none => fail (.NotFound "Key not found")

def deleteAtLeaf (key : Bytes) (txid : TxId) (wantBefore : Bool) (leaf : PageId) :
    M (Option Bytes) := do
  let node ← getPage leaf
  let (index, found) := node.findKeyIndex key
  failIf (!found) (.status (.NotFound "Key not found"))
  let before := if wantBefore then some (node.getValueAt index) else none
  let removed ← withNode leaf (·.deleteAt index)
  failIf (!removed) (.status (.Internal "DeleteAt failed for a found key"))
  logKeyRecord (.delete leaf key before) txid leaf true wantBefore
  addToNumKeys (-1)
  return before

def treeDelete (key : Bytes) (txid : TxId) (wantBefore : Bool) : M (Option Bytes) := do
  failIf (← isEmpty) (.status (.NotFound "Key not found (empty tree)"))
  let leaf ← findLeaf key
  deleteAtLeaf key txid wantBefore leaf

/- Splits. -/

def rebuildLeaf (pid : PageId) (overflow : String) : List (Bytes × Bytes) → M Unit
  | [] => return ()
  | (k, v) :: rest => do
    let inserted ← withNode pid (·.insertLeaf k v)
    failIf (!inserted) (.status (.Internal overflow))
    rebuildLeaf pid overflow rest

def rebuildInternal (pid : PageId) (overflow : String) : List (Bytes × PageId) → M Unit
  | [] => return ()
  | (k, c) :: rest => do
    let inserted ← withNode pid (·.insertInternal k c)
    failIf (!inserted) (.status (.Internal overflow))
    rebuildInternal pid overflow rest

def relinkSibling (oldNext new : PageId) (txid : TxId) : M Unit := do
  fetchPage oldNext
  let page ← getPage oldNext
  setPage oldNext (page.setPrevLeaf new)
  logPageImage oldNext txid false

/-- Returns the new right leaf and the first key of its half. -/
def splitLeaf (pid : PageId) (txid : TxId) : M (PageId × Bytes) := do
  let node ← getPage pid
  let splitIndex := node.numSlots / 2
  let new ← newPage
  logPageEvent (.allocPage new) txid false
  let rightEntries := node.recs.drop splitIndex
  let splitKey := node.getKey splitIndex
  let leftEntries := node.recs.take splitIndex
  let oldNext := node.getNextLeaf
  let oldPrev := node.getPrevLeaf
  setPage pid (.init pid (.leaf oldPrev new []))
  rebuildLeaf pid "Leaf split rebuild (left) overflow" leftEntries
  logPageImage pid txid false
  setPage new (.init new (.leaf pid oldNext []))
  rebuildLeaf new "Leaf split rebuild (right) overflow" rightEntries
  logPageImage new txid false
  onlyIf (oldNext ≠ kInvalidPageId) (relinkSibling oldNext new txid)
  return (new, splitKey)

/-- Returns the new right node and the promoted key. -/
def splitInternal (pid : PageId) (txid : TxId) : M (PageId × Bytes) := do
  let node ← getPage pid
  let splitIndex := node.numSlots / 2
  let new ← newPage
  logPageEvent (.allocPage new) txid false
  let splitKey := node.getKey splitIndex
  -- reserve(num_keys - split_index - 1) of a node without keys
  failIf (node.numSlots = 0) .lengthError
  let rightEntries := node.entries.drop (splitIndex + 1)
  let leftEntries := node.entries.take splitIndex
  let leftRightmost := node.getChild splitIndex
  let rightRightmost := node.getRightmostChild
  setPage pid (.init pid (.internal leftRightmost []))
  rebuildInternal pid "Internal split rebuild (left) overflow" leftEntries
  logPageImage pid txid false
  setPage new (.init new (.internal rightRightmost []))
  rebuildInternal new "Internal split rebuild (right) overflow" rightEntries
  logPageImage new txid false
  return (new, splitKey)

def createNewRoot (splitKey : Bytes) (left right : PageId) (txid : TxId) : M Unit := do
  let root ← newPage
  logPageEvent (.allocPage root) txid false
  setPage root (.init root (.internal kInvalidPageId []))
  let inserted ← withNode root (·.insertInternal splitKey left)
  failIf (!inserted) (.status (.Internal "Failed to insert split key into new root"))
  let page ← getPage root
  setPage root { page with body := .internal right page.entries }
  logPageImage root txid false
  logPageEvent (.rootChange root) txid true
  setRootPageId root

def insertIntoHalf (txid : TxId) (key newKey : Bytes) (left right parent new : PageId) : M Unit :=
  if key < newKey then do
    let inserted ← withNode parent (·.insertInternalAfterSplit key left right)
    failIf (!inserted) (.status (.Internal "insert into split internal (left)"))
    logPageImage parent txid false
  else do
    let inserted ← withNode new (·.insertInternalAfterSplit key left right)
    failIf (!inserted) (.status (.Internal "insert into split internal (right)"))
    logPageImage new txid false

def propagate (txid : TxId) : List PageId → Bytes → PageId → PageId → M Unit
  | [], key, left, right => createNewRoot key left right txid
  | parent :: rest, key, left, right => do
    if ← withNode parent (·.insertInternalAfterSplit key left right) then
      logPageImage parent txid true
    else
      let (new, newKey) ← splitInternal parent txid
      insertIntoHalf txid key newKey left right parent new
      propagate txid rest newKey parent new

/- Put. -/

def kMaxLeafRecordBytes : Nat := kPageSize - kPageHeaderSize - kSlotEntrySize

def insertSplit (key value : Bytes) (txid : TxId) (wantBefore : Bool) (before : Option Bytes)
    (splitKey : Bytes) (leaf new : PageId) : M Unit :=
  if key < splitKey then do
    let inserted ← withNode leaf (·.insertLeaf key value)
    failIf (!inserted) (.status (.Internal "Failed to insert after split (left)"))
    logKeyRecord (.put leaf key value before) txid leaf false wantBefore
  else do
    let inserted ← withNode new (·.insertLeaf key value)
    failIf (!inserted) (.status (.Internal "Failed to insert after split (right)"))
    logKeyRecord (.put new key value before) txid new false wantBefore

def putSplitting (key value : Bytes) (txid : TxId) (wantBefore : Bool) (before : Option Bytes)
    (replacing : Bool) (leaf : PageId) (ancestors : List PageId) : M Unit := do
  let (new, splitKey) ← splitLeaf leaf txid
  insertSplit key value txid wantBefore before splitKey leaf new
  onlyIf (!replacing) (addToNumKeys 1)
  propagate txid ancestors splitKey leaf new

/-- The first leaf of an empty tree. No record carries the before-image. -/
def putFirst (key value : Bytes) (txid : TxId) : M Unit := do
  let root ← newPage
  setPage root (.init root (.leaf kInvalidPageId kInvalidPageId []))
  let inserted ← withNode root (·.insertLeaf key value)
  failIf (!inserted) (.status (.Internal "Failed to insert into empty leaf"))
  logPageEvent (.allocPage root) txid false
  logPageImage root txid false
  logPageEvent (.rootChange root) txid true
  setRootPageId root
  addToNumKeys 1

/-- A grown value no longer fits: its old record goes before the new one is placed. -/
def removeGrown (leaf : PageId) (index : Nat) : M Unit := do
  let removed ← withNode leaf (·.deleteAt index)
  failIf (!removed) (.status (.Internal "Failed to remove record for oversized update"))
  markDirty leaf

def putHeld (key value : Bytes) (txid : TxId) (wantBefore : Bool) (leaf : PageId)
    (ancestors : List PageId) : M (Option Bytes) := do
  let node ← getPage leaf
  let (index, found) := node.findKeyIndex key
  let before := if wantBefore && found then some (node.getValueAt index) else none
  if ← withNode leaf fun p => if found then p.updateLeaf key value else (false, p) then
    logKeyRecord (.put leaf key value before) txid leaf true wantBefore
    return before
  else
    onlyIf found (removeGrown leaf index)
    if ← withNode leaf (·.insertLeaf key value) then
      logKeyRecord (.put leaf key value before) txid leaf true wantBefore
      onlyIf (!found) (addToNumKeys 1)
      return before
    else
      putSplitting key value txid wantBefore before found leaf ancestors
      return before

def putPessimistic (key value : Bytes) (txid : TxId) (wantBefore : Bool) :
    M (Option Bytes) := do
  if ← isEmpty then
    putFirst key value txid
    return none
  else
    let m := (← get).metaPage
    let stack ← descendPath key (m.numPages + 1) m.rootPageId
    putHeld key value txid wantBefore (stack.getLastD kInvalidPageId) stack.dropLast.reverse

/-- The write under the leaf's exclusive latch; `none` when the leaf cannot absorb it,
and then the leaf is as it was. -/
def putAtLeaf (key value : Bytes) (txid : TxId) (wantBefore : Bool) (leaf : PageId) :
    M (Option (Option Bytes)) := do
  let node ← getPage leaf
  let (index, found) := node.findKeyIndex key
  let before := if wantBefore && found then some (node.getValueAt index) else none
  if found then
    if ← withNode leaf (·.updateLeaf key value) then
      logKeyRecord (.put leaf key value before) txid leaf true wantBefore
      return some before
    else return none
  else
    if ← withNode leaf (·.insertLeaf key value) then
      logKeyRecord (.put leaf key value before) txid leaf true wantBefore
      addToNumKeys 1
      return some before
    else return none

def putOptimistic (key value : Bytes) (txid : TxId) (wantBefore : Bool) :
    M (Option (Option Bytes)) := do
  if ← isEmpty then return none
  else
    let leaf ← findLeaf key
    putAtLeaf key value txid wantBefore leaf

def treePut (key value : Bytes) (txid : TxId) (wantBefore : Bool) : M (Option Bytes) := do
  failIf (kMaxLeafRecordBytes < 4 + key.length + value.length)
    (.status (.InvalidArgument "key+value too large for a page (no overflow pages yet)"))
  match ← putOptimistic key value txid wantBefore with
  | some before => return before
  | none => putPessimistic key value txid wantBefore

def treeContains (key : Bytes) : M Bool := fun s =>
  match treeGet key s with
  | .ok _ s' => .ok true s'
  | .error (.status _) s' => .ok false s'
  | .error e s' => .error e s'

end PagerDB

import PagerDB.BTree.Tree

/-! The pessimistic Put, cut where it turns to another page. -/
namespace PagerDB

/-- Locals of `SplitLeaf` once the left half is written. -/
structure LeafCut where
  new : PageId
  splitKey : Bytes
  rightEntries : List (Bytes × Bytes)
  oldNext : PageId

def splitLeafLeft (pid : PageId) (txid : TxId) : M LeafCut := do
  let node ← getPage pid
  let splitIndex := node.numSlots / 2
  let new ← newPage
  logPageEvent (.allocPage new) txid false
  setPage pid (.init pid (.leaf node.getPrevLeaf new []))
  rebuildLeaf pid "Leaf split rebuild (left) overflow" (node.recs.take splitIndex)
  logPageImage pid txid false
  return ⟨new, node.getKey splitIndex, node.recs.drop splitIndex, node.getNextLeaf⟩

def splitLeafRight (pid : PageId) (txid : TxId) (cut : LeafCut) : M Unit := do
  setPage cut.new (.init cut.new (.leaf pid cut.oldNext []))
  rebuildLeaf cut.new "Leaf split rebuild (right) overflow" cut.rightEntries
  logPageImage cut.new txid false

theorem splitLeaf_eq (pid : PageId) (txid : TxId) : splitLeaf pid txid = (do
    let cut ← splitLeafLeft pid txid
    splitLeafRight pid txid cut
    onlyIf (cut.oldNext ≠ kInvalidPageId) (relinkSibling cut.oldNext cut.new txid)
    return (cut.new, cut.splitKey)) := by
  simp only [splitLeaf, splitLeafLeft, splitLeafRight, bind_assoc, pure_bind]

/-- Locals of `SplitInternal` once the left half is written. -/
structure NodeCut where
  new : PageId
  splitKey : Bytes
  rightEntries : List (Bytes × PageId)
  rightRightmost : PageId

def splitInternalLeft (pid : PageId) (txid : TxId) : M NodeCut := do
  let node ← getPage pid
  let splitIndex := node.numSlots / 2
  let new ← newPage
  logPageEvent (.allocPage new) txid false
  failIf (node.numSlots = 0) .lengthError
  setPage pid (.init pid (.internal (node.getChild splitIndex) []))
  rebuildInternal pid "Internal split rebuild (left) overflow" (node.entries.take splitIndex)
  logPageImage pid txid false
  return ⟨new, node.getKey splitIndex, node.entries.drop (splitIndex + 1), node.getRightmostChild⟩

def splitInternalRight (txid : TxId) (cut : NodeCut) : M Unit := do
  setPage cut.new (.init cut.new (.internal cut.rightRightmost []))
  rebuildInternal cut.new "Internal split rebuild (right) overflow" cut.rightEntries
  logPageImage cut.new txid false

theorem splitInternal_eq (pid : PageId) (txid : TxId) : splitInternal pid txid = (do
    let cut ← splitInternalLeft pid txid
    splitInternalRight txid cut
    return (cut.new, cut.splitKey)) := by
  simp only [splitInternal, splitInternalLeft, splitInternalRight, bind_assoc, pure_bind]

/-- What the pessimistic write finds and does at its leaf, short of splitting it. -/
structure AtLeaf where
  before : Option Bytes
  replacing : Bool
  absorbed : Bool

def putHeldLeaf (key value : Bytes) (txid : TxId) (wantBefore : Bool) (leaf : PageId) :
    M AtLeaf := do
  let node ← getPage leaf
  let (index, found) := node.findKeyIndex key
  let before := if wantBefore && found then some (node.getValueAt index) else none
  if ← withNode leaf fun p => if found then p.updateLeaf key value else (false, p) then
    logKeyRecord (.put leaf key value before) txid leaf true wantBefore
    return ⟨before, found, true⟩
  else
    onlyIf found (removeGrown leaf index)
    if ← withNode leaf (·.insertLeaf key value) then
      logKeyRecord (.put leaf key value before) txid leaf true wantBefore
      onlyIf (!found) (addToNumKeys 1)
      return ⟨before, found, true⟩
    else return ⟨before, found, false⟩

theorem putHeld_eq (key value : Bytes) (txid : TxId) (wantBefore : Bool) (leaf : PageId)
    (ancestors : List PageId) : putHeld key value txid wantBefore leaf ancestors = (do
    let r ← putHeldLeaf key value txid wantBefore leaf
    if r.absorbed then return r.before
    else
      putSplitting key value txid wantBefore r.before r.replacing leaf ancestors
      return r.before) := by
  simp only [putHeld, putHeldLeaf, bind_assoc]
  congr 1
  funext node
  congr 1
  funext updated
  cases updated
  · simp only [Bool.false_eq_true, if_false, bind_assoc]
    congr 1
    funext _
    congr 1
    funext inserted
    cases inserted <;> simp
  · simp

end PagerDB

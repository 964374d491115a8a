import PagerDB.Storage.Page

/-! `NodeView`: a page read as a B+ tree node. A mutator returns its boolean
result with the page it leaves behind, also when it refuses. -/
namespace PagerDB

namespace Page

def isLeaf (p : Page) : Bool :=
  match p.body with
  | .leaf .. => true
  | _ => false

def isInternal (p : Page) : Bool :=
  match p.body with
  | .internal .. => true
  | _ => false

def recs (p : Page) : List (Bytes × Bytes) :=
  match p.body with
  | .leaf _ _ recs => recs
  | _ => []

def entries (p : Page) : List (Bytes × PageId) :=
  match p.body with
  | .internal _ entries => entries
  | _ => []

def keys (p : Page) : List Bytes :=
  match p.body with
  | .leaf _ _ recs => recs.map Prod.fst
  | .internal _ entries => entries.map Prod.fst
  | _ => []

def getNextLeaf (p : Page) : PageId :=
  match p.body with
  | .leaf _ next _ => next
  | _ => kInvalidPageId

def getPrevLeaf (p : Page) : PageId :=
  match p.body with
  | .leaf prev _ _ => prev
  | _ => kInvalidPageId

def setPrevLeaf (p : Page) (prev : PageId) : Page :=
  match p.body with
  | .leaf _ next recs => { p with body := .leaf prev next recs }
  | _ => p

def getRightmostChild (p : Page) : PageId :=
  match p.body with
  | .internal r _ => r
  | _ => kInvalidPageId

def getKey (p : Page) (index : Nat) : Bytes := p.keys.getD index []

end Page

/-- The binary search of `FindKeyIndex` over `[left, right)`. The interval
shrinks in every round, so its length is enough fuel. -/
def searchLoop (keys : List Bytes) (key : Bytes) : Nat → Nat → Nat → Nat × Bool
  | 0, left, _ => (left, false)
  | fuel + 1, left, right =>
    if left < right then
      let mid := left + (right - left) / 2
      let midKey := keys.getD mid []
      if key = midKey then (mid, true)
      else if key < midKey then searchLoop keys key fuel left mid
      else searchLoop keys key fuel (mid + 1) right
    else (left, false)

namespace Page

def findKeyIndex (p : Page) (key : Bytes) : Nat × Bool :=
  searchLoop p.keys key p.numSlots 0 p.numSlots

def lowerBound (p : Page) (key : Bytes) : Nat := (p.findKeyIndex key).1

/- Leaf operations. -/

def getValueAt (p : Page) (index : Nat) : Bytes := (p.recs.getD index ([], [])).2

def getValue (p : Page) (key : Bytes) : Option Bytes :=
  if p.isLeaf then
    let (index, found) := p.findKeyIndex key
    if found then some (p.getValueAt index) else none
  else none

def ensureFit (p : Page) (needed : Nat) : Bool × Page :=
  if needed ≤ p.freeSpace then (true, p)
  else if needed ≤ p.freeSpace + p.deadBytes then
    (decide (needed ≤ p.compact.freeSpace), p.compact)
  else (false, p)

def insertRecordAt (p : Page) (index : Nat) (r : Bytes × Bytes) : Bool × Page :=
  match p.body with
  | .leaf prev next recs =>
    if recs.length < index then (false, p)
    else if p.canFit (leafRecordBytes r) then
      (true, { p with
        freeSpaceEnd := p.freeSpaceEnd - leafRecordBytes r
        body := .leaf prev next (recs.insertIdx index r) })
    else (false, p)
  | _ => (false, p)

def insertLeaf (p : Page) (key value : Bytes) : Bool × Page :=
  if p.isLeaf then
    let (fits, p) := p.ensureFit (kSlotEntrySize + 4 + key.length + value.length)
    if fits then
      let (index, found) := p.findKeyIndex key
      if found then (false, p) else p.insertRecordAt index (key, value)
    else (false, p)
  else (false, p)

/-- Shrinks in place, or moves the record to the free space, or compacts with the
old copy tombstoned and then places the new one. -/
def updateLeaf (p : Page) (key value : Bytes) : Bool × Page :=
  match p.body with
  | .leaf prev next recs =>
    let (index, found) := p.findKeyIndex key
    if found then
      let newLen := leafRecordBytes (key, value)
      let oldLen := leafRecordBytes (recs.getD index ([], []))
      let body := Body.leaf prev next (recs.set index (key, value))
      if newLen ≤ oldLen then
        (true, { p with deadBytes := p.deadBytes + (oldLen - newLen), body := body })
      else if p.freeSpace < newLen then
        if p.freeSpace + p.deadBytes + oldLen < newLen then (false, p)
        else
          (true, { p with
            freeSpaceEnd := kPageSize - (p.liveBytes - oldLen) - newLen
            deadBytes := 0
            body := body })
      else
        (true, { p with
          freeSpaceEnd := p.freeSpaceEnd - newLen
          deadBytes := p.deadBytes + oldLen
          body := body })
    else (false, p)
  | _ => (false, p)

def deleteAt (p : Page) (index : Nat) : Bool × Page :=
  match p.body with
  | .leaf prev next recs =>
    if recs.length ≤ index then (false, p)
    else
      (true, { p with
        deadBytes := p.deadBytes + leafRecordBytes (recs.getD index ([], []))
        body := .leaf prev next (recs.eraseIdx index) })
  | .internal r entries =>
    if entries.length ≤ index then (false, p)
    else
      (true, { p with
        deadBytes := p.deadBytes + internalRecordBytes (entries.getD index ([], 0))
        body := .internal r (entries.eraseIdx index) })
  | _ => (false, p)

/- Internal operations. -/

def getChild (p : Page) (index : Nat) : PageId :=
  (p.entries.getD index ([], kInvalidPageId)).2

/-- A key equal to a separator lives to the right of it. -/
def findChildIndex (p : Page) (key : Bytes) : Nat :=
  let (index, found) := p.findKeyIndex key
  if found then index + 1 else index

def findChild (p : Page) (key : Bytes) : PageId :=
  if p.isInternal then
    let childIndex := p.findChildIndex key
    if childIndex < p.numSlots then p.getChild childIndex else p.getRightmostChild
  else kInvalidPageId

def insertInternal (p : Page) (key : Bytes) (leftChild : PageId) : Bool × Page :=
  match p.body with
  | .internal .. =>
    let (fits, p) := p.ensureFit (kSlotEntrySize + 6 + key.length)
    if fits then
      let index := p.lowerBound key
      match p.body with
      | .internal r entries =>
        if p.canFit (internalRecordBytes (key, leftChild)) then
          (true, { p with
            freeSpaceEnd := p.freeSpaceEnd - internalRecordBytes (key, leftChild)
            body := .internal r (entries.insertIdx index (key, leftChild)) })
        else (false, p)
      | _ => (false, p)
    else (false, p)
  | _ => (false, p)

end Page

/-- The entry list `InsertInternalAfterSplit` collects: the separator takes the
left child, and the entry it displaces now leads to the right one. -/
def spliceEntries (splitKey : Bytes) (left right : PageId) :
    Nat → List (Bytes × PageId) → List (Bytes × PageId)
  | 0, [] => [(splitKey, left)]
  | 0, (k, _) :: es => (splitKey, left) :: (k, right) :: es
  | _ + 1, [] => []
  | i + 1, e :: es => e :: spliceEntries splitKey left right i es

namespace Page

def insertInternalAfterSplit (p : Page) (splitKey : Bytes) (left right : PageId) :
    Bool × Page :=
  match p.body with
  | .internal oldRightmost entries =>
    if kSlotEntrySize + 2 + splitKey.length + 4 ≤ p.freeSpace then
      let insertIndex := p.lowerBound splitKey
      let entries' := spliceEntries splitKey left right insertIndex entries
      let rightmost := if insertIndex = entries.length then right else oldRightmost
      let needed := (entries'.map fun e => kSlotEntrySize + 2 + e.1.length + 4).sum
      if kPageSize - kPageHeaderSize < needed then (false, p)
      else
        -- The total was checked, so none of the single inserts into the fresh page fails.
        (true, { init p.pageId (.internal rightmost entries') with
          pageLsn := p.pageLsn
          freeSpaceEnd := kPageSize - (entries'.map internalRecordBytes).sum })
    else (false, p)
  | _ => (false, p)

end Page

end PagerDB

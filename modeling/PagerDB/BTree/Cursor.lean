import PagerDB.BTree.Tree

/-! `Cursor`, `Seek`, `SeekToFirst` and `DB::Scan`: a private copy of one leaf and
a slot index, moved along the leaf chain. A failed page read is kept in the
cursor's status instead of ending the call. -/
namespace PagerDB

structure Cursor where
  page : Page
  index : Nat
  valid : Bool
  status : Option Failure

def Cursor.unpositioned : Cursor := ⟨.zeroed, 0, false, none⟩

def Cursor.key (c : Cursor) : Bytes := if c.valid then c.page.getKey c.index else []

def Cursor.value (c : Cursor) : Bytes := if c.valid then c.page.getValueAt c.index else []

/-- The result as a value, as the source's `Result` has it. -/
def attempt (x : M α) : M (Except Failure α) := fun s =>
  match x s with
  | .ok a s' => .ok (.ok a) s'
  | .error e s' => .ok (.error e) s'

/-- A chain longer than the file walks a cycle. -/
def skipToLiveEntry : Nat → Cursor → M Cursor
  | 0, _ => throw .diverges
  | fuel + 1, c =>
    if c.index < c.page.numSlots then return c
    else if c.page.getNextLeaf = kInvalidPageId then return { c with valid := false }
    else do
      match ← attempt (fetchPage c.page.getNextLeaf) with
      | .error e => return { c with valid := false, status := some e }
      | .ok _ =>
        let page ← getPage c.page.getNextLeaf
        if page.isLeaf then skipToLiveEntry fuel { c with page := page, index := 0 }
        else
          return { c with
            page := page
            valid := false
            status := some (.status (.Corruption "Leaf chain links to non-leaf page")) }

def chainFuel : M Nat := do return (← get).metaPage.numPages + 1

def Cursor.moveTo (c : Cursor) (pid : PageId) (index : Nat) : M Cursor := do
  match ← attempt (fetchPage pid) with
  | .error e => return { c with valid := false, status := some e }
  | .ok _ =>
    let page ← getPage pid
    let fuel ← chainFuel
    skipToLiveEntry fuel { c with page := page, index := index, valid := true }

def Cursor.next (c : Cursor) : M Cursor :=
  if c.valid then do
    let fuel ← chainFuel
    skipToLiveEntry fuel { c with index := c.index + 1 }
  else return c

def isNotFound : Failure → Bool
  | .status s => s.code = .notFound
  | _ => false

def findLeafOrEmpty (key : Bytes) : M PageId := do
  failIf (← isEmpty) (.status (.NotFound "Tree is empty"))
  findLeaf key

def seekInLeaf (key : Bytes) (leaf : PageId) : M Cursor := do
  match ← attempt (fetchPage leaf) with
  | .error e => return { Cursor.unpositioned with status := some e }
  | .ok _ =>
    let page ← getPage leaf
    Cursor.unpositioned.moveTo leaf (page.lowerBound key)

def seek (key : Bytes) : M Cursor := do
  match ← attempt (findLeafOrEmpty key) with
  | .error e =>
    if isNotFound e then return .unpositioned
    else return { Cursor.unpositioned with status := some e }
  | .ok leaf => seekInLeaf key leaf

def descendFirst : Nat → PageId → M PageId
  | 0, _ => throw .diverges
  | fuel + 1, current => do
    fetchPage current
    let page ← getPage current
    if page.isLeaf then return current
    else
      let next := if 0 < page.numSlots then page.getChild 0 else page.getRightmostChild
      failIf (next = kInvalidPageId) (.status (.Internal "Invalid child pointer"))
      descendFirst fuel next

def seekToFirst : M Cursor := do
  if ← isEmpty then return .unpositioned
  else
    let m := (← get).metaPage
    match ← attempt (descendFirst (m.numPages + 1) m.rootPageId) with
    | .error e => return { Cursor.unpositioned with status := some e }
    | .ok leaf => Cursor.unpositioned.moveTo leaf 0

/-- The loop of `DB::Scan`: what the callback was shown, in order, and the cursor
where the loop left it. -/
def scanLoop (endKey : Bytes) (callback : Bytes → Bytes → Bool) :
    Nat → Cursor → M (List (Bytes × Bytes) × Cursor)
  | 0, _ => throw .diverges
  | fuel + 1, c =>
    if c.valid then
      if endKey ≠ [] ∧ endKey ≤ c.key then return ([], c)
      else if callback c.key c.value then do
        let c' ← c.next
        let (seen, last) ← scanLoop endKey callback fuel c'
        return ((c.key, c.value) :: seen, last)
      else return ([(c.key, c.value)], c)
    else return ([], c)

def scanFuel : M Nat := do return (← get).metaPage.numPages * kPageSize + 1

def scan (start endKey : Bytes) (callback : Bytes → Bytes → Bool) :
    M (List (Bytes × Bytes) × Option Failure) := do
  let cursor ← seek start
  let fuel ← scanFuel
  let (seen, last) ← scanLoop endKey callback fuel cursor
  return (seen, last.status)

end PagerDB

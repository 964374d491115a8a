import PagerDB.BTree.OrderedMap
import PagerDB.Lib.Linearize
import PagerDB.Storage.Pool

/-! The tree under many threads. A call is a small machine whose steps are the
acquisition or release of `root_latch` and the accesses to one latched page; any call
whose latch is free may take the next step. The latches a call holds are read off its
program counter. -/
namespace PagerDB

/- Calls. -/

def rootPageId : M PageId := do return (← get).metaPage.rootPageId

namespace Crab

inductive Op where
  | get (key : Bytes)
  | delete (key : Bytes) (txid : TxId) (wantBefore : Bool)
  | put (key value : Bytes) (txid : TxId) (wantBefore : Bool)
  /-- A cursor: `Seek`, then `Next` as often as its owner likes. -/
  | seek (start : Bytes)
  | seekToFirst
  deriving DecidableEq

/-- Ok with the value or the before-image, or a status. -/
abbrev Answer := Except Status (Option Bytes)

/-- Locals of `PutPessimistic` once its leaf splits; ancestors nearest first. -/
structure Splitting where
  ancestors : List PageId
  leaf : PageId
  before : Option Bytes
  replacing : Bool
  opGuards : List PageId

inductive Pc where
  | idle
  | begin
  | rooted
  /-- The node is latched; the flag tells whether `root_latch` is still held. -/
  | crab (root : Bool) (node : PageId)
  /-- The optimistic Put between the leaf's two latches. -/
  | swap (leaf : PageId)
  | owned (root : Bool) (leaf : PageId)
  /-- The optimistic Put gave up and holds nothing. -/
  | slow
  | slowRooted
  | path (stack : List PageId) (node : PageId)
  | held (ancestors : List PageId) (leaf : PageId)
  | right (sp : Splitting) (cut : LeafCut)
  | relink (sp : Splitting) (cut : LeafCut)
  | place (sp : Splitting) (cut : LeafCut)
  | climb (sp : Splitting) (rest : List PageId) (key : Bytes) (left right : PageId)
  | innerRight (sp : Splitting) (rest : List PageId) (key : Bytes) (left right parent : PageId)
      (cut : NodeCut)
  | innerPlace (sp : Splitting) (rest : List PageId) (key : Bytes) (left right parent : PageId)
      (cut : NodeCut)
  /-- The guards die one by one; `root_latch` goes after `pages` and before `leaf`. -/
  | unwind (pages : List PageId) (root : Bool) (leaf : List PageId) (answer : Answer)
  | done (answer : Answer)
  /-- `Seek` between its steps: the leaf is found, then the slot. -/
  | found (leaf : PageId)
  | bounded (leaf : PageId) (index : Nat)
  /-- The cursor's copy of a leaf; what it has yielded so far. -/
  | walk (page : Page) (index : Nat) (seen : List (Bytes × Bytes))
  /-- The cursor is invalid with Ok status. -/
  | exhausted (seen : List (Bytes × Bytes))

namespace Op

def key : Op → Bytes
  | get key | delete key .. | put key .. => key
  | seek start => start
  | seekToFirst => []

def isPut : Op → Bool
  | put .. => true
  | _ => false

def isCursor : Op → Bool
  | seek _ | seekToFirst => true
  | _ => false

def mode : Op → LatchMode
  | delete .. => .exclusive
  | _ => .shared

def child (op : Op) (page : Page) : PageId :=
  match op with
  | seekToFirst => if 0 < page.numSlots then page.getChild 0 else page.getRightmostChild
  | op => page.findChild op.key

def apply : Op → RefMap → Except StatusCode (Option Bytes) × RefMap
  | get key, m =>
    match m key with
    | some value => (.ok (some value), m)
    | none => (.error .notFound, m)
  | delete key _ wantBefore, m =>
    match m key with
    | some old => (.ok (if wantBefore then some old else none), Function.update m key none)
    | none => (.error .notFound, m)
  | put key value _ wantBefore, m =>
    (.ok (if wantBefore then m key else none), Function.update m key (some value))
  | seek _, m | seekToFirst, m => (.ok none, m)

end Op

namespace Pc

def rootMode : Pc → Option LatchMode
  | rooted | crab true _ | swap _ | owned true _ => some .shared
  | slowRooted | path .. | held .. | right .. | relink .. | place .. | climb .. | innerRight ..
  | innerPlace .. | unwind _ true _ _ => some .exclusive
  | _ => none

/-- The pages the split holds: its path, the sibling and the new pages. -/
def guards (sp : Splitting) : List PageId := sp.opGuards ++ sp.ancestors.reverse ++ [sp.leaf]

def exclusives : Pc → List PageId
  | owned _ leaf => [leaf]
  | path stack _ => stack
  | held ancestors leaf => leaf :: ancestors
  | right sp cut | relink sp cut | place sp cut => cut.new :: guards sp
  | climb sp .. => guards sp
  | innerRight sp _ _ _ _ _ cut | innerPlace sp _ _ _ _ _ cut => cut.new :: guards sp
  | unwind pages _ leaf _ => pages ++ leaf
  | _ => []

end Pc

structure Task where
  op : Op
  pc : Pc

def Task.pageMode (t : Task) (p : PageId) : Option LatchMode :=
  match t.pc with
  | .crab _ node => if p = node then some t.op.mode else none
  | pc => if p ∈ pc.exclusives then some .exclusive else none

/-- Two holders of one latch get along only if both share it. -/
def clash : Option LatchMode → Option LatchMode → Bool
  | some .shared, some .shared => false
  | some _, some _ => true
  | _, _ => false

inductive Need where
  | nothing
  | root (mode : LatchMode)
  | page (p : PageId) (mode : LatchMode)

def need (op : Op) (s : Store) : Pc → Need
  | .begin => .root .shared
  | .rooted =>
    if s.metaPage.rootPageId = kInvalidPageId then .nothing else .page s.metaPage.rootPageId op.mode
  | .crab root node =>
    if root ∧ ¬ op.isPut ∨ (s.view node).isLeaf then .nothing else .page (op.child (s.view node)) op.mode
  | .swap leaf => .page leaf .exclusive
  | .slow => .root .exclusive
  | .path _ node => .page node .exclusive
  | .relink _ cut => if cut.oldNext = kInvalidPageId then .nothing else .page cut.oldNext .exclusive
  | .found leaf | .bounded leaf _ => .page leaf .shared
  | .walk page index _ =>
    if index < page.numSlots ∨ page.getNextLeaf = kInvalidPageId then .nothing
    else .page page.getNextLeaf .shared
  | _ => .nothing

/-- NotFound is an answer; any other failure is none. -/
def answering (x : M (Option Bytes)) : M Answer := fun s =>
  match x s with
  | .ok b s' => .ok (.ok b) s'
  | .error (.status e) s' => if e.code = .notFound then .ok (.error e) s' else .error (.status e) s'
  | .error e s' => .error e s'

def getAtLeaf (key : Bytes) (leaf : PageId) : M (Option Bytes) := do
  match (← getPage leaf).getValue key with
  | some value => return some value
  | none => fail (.NotFound "Key not found")

/- One step of a call: where it goes, and whether it took effect. -/

abbrev Advance := M (Pc × Bool)

def goto (pc : Pc) : Advance := return (pc, false)

def effect (pc : Pc) : Advance := return (pc, true)

def Op.atRoot (op : Op) : Advance := do
  if ← isEmpty then
    match op with
    | .get _ | .delete .. => effect (.done (.error (.NotFound "Key not found (empty tree)")))
    | .put .. => goto .slow
    | .seek _ | .seekToFirst => goto (.exhausted [])
  else
    let current ← rootPageId
    fetchPage current
    goto (.crab true current)

def Op.atLeaf (op : Op) (leaf : PageId) : Advance := do
  match op with
  | .get key => effect (.done (← answering (getAtLeaf key leaf)))
  | .delete key txid wantBefore => effect (.done (← answering (deleteAtLeaf key txid wantBefore leaf)))
  | .put .. => goto (.swap leaf)
  | .seek _ => goto (.found leaf)
  | .seekToFirst => goto (.bounded leaf 0)

/-- Latch coupling: the child's latch is taken under the parent's. Only the optimistic
Put keeps `root_latch` on its way down. -/
def Op.couple (op : Op) (root : Bool) (node : PageId) : Advance := do
  if root && !op.isPut then goto (.crab false node)
  else
    let page ← getPage node
    if page.isLeaf then op.atLeaf node
    else
      failIf (op.child page = kInvalidPageId) (.status (.Internal "Invalid child pointer"))
      fetchPage (op.child page)
      goto (.crab root (op.child page))

def putStep (key value : Bytes) (txid : TxId) (wantBefore : Bool) : Pc → Advance
  | .swap leaf => do
    fetchPage leaf
    goto (.owned true leaf)
  | .owned true leaf => goto (.owned false leaf)
  | .owned false leaf => do
    match ← putAtLeaf key value txid wantBefore leaf with
    | some before => effect (.done (.ok before))
    | none => goto .slow
  | .slow => goto .slowRooted
  | .slowRooted => do
    if ← isEmpty then
      putFirst key value txid
      effect (.unwind [] true [] (.ok none))
    else goto (.path [] (← rootPageId))
  | .path stack node => do
    fetchPage node
    let page ← getPage node
    if page.isLeaf then goto (.held stack node)
    else
      failIf (page.findChild key = kInvalidPageId) (.status (.Internal "Invalid child pointer"))
      goto (.path (node :: stack) (page.findChild key))
  | .held ancestors leaf => do
    let r ← putHeldLeaf key value txid wantBefore leaf
    if r.absorbed then effect (.unwind ancestors.reverse true [leaf] (.ok r.before))
    else
      let cut ← splitLeafLeft leaf txid
      goto (.right ⟨ancestors, leaf, r.before, r.replacing, []⟩ cut)
  | .right sp cut => do
    splitLeafRight sp.leaf txid cut
    goto (.relink sp cut)
  | .relink sp cut => do
    if cut.oldNext = kInvalidPageId then goto (.place sp cut)
    else
      relinkSibling cut.oldNext cut.new txid
      goto (.place { sp with opGuards := [cut.oldNext] } cut)
  | .place sp cut => do
    insertSplit key value txid wantBefore sp.before cut.splitKey sp.leaf cut.new
    onlyIf (!sp.replacing) (addToNumKeys 1)
    goto (.climb { sp with opGuards := sp.opGuards ++ [cut.new] } sp.ancestors cut.splitKey sp.leaf
      cut.new)
  | .climb sp [] key left right => do
    createNewRoot key left right txid
    effect (.unwind (Pc.guards sp) true [] (.ok sp.before))
  | .climb sp (parent :: rest) key left right => do
    if ← withNode parent (·.insertInternalAfterSplit key left right) then
      logPageImage parent txid true
      effect (.unwind (Pc.guards sp) true [] (.ok sp.before))
    else
      let cut ← splitInternalLeft parent txid
      goto (.innerRight sp rest key left right parent cut)
  | .innerRight sp rest key left right parent cut => do
    splitInternalRight txid cut
    goto (.innerPlace sp rest key left right parent cut)
  | .innerPlace sp rest key left right parent cut => do
    insertIntoHalf txid key cut.splitKey left right parent cut.new
    goto (.climb { sp with opGuards := sp.opGuards ++ [cut.new] } rest cut.splitKey parent cut.new)
  | .unwind (_ :: pages) root leaf answer => goto (.unwind pages root leaf answer)
  | .unwind [] true leaf answer => goto (.unwind [] false leaf answer)
  | .unwind [] false (_ :: leaf) answer => goto (.unwind [] false leaf answer)
  | .unwind [] false [] answer => goto (.done answer)
  | _ => throw .diverges

def cursorStep (start : Bytes) : Pc → Advance
  | .found leaf => do
    fetchPage leaf
    goto (.bounded leaf ((← getPage leaf).lowerBound start))
  | .bounded leaf index => do
    fetchPage leaf
    goto (.walk (← getPage leaf) index [])
  | .walk page index seen => do
    if index < page.numSlots then
      goto (.walk page (index + 1) (seen ++ [(page.getKey index, page.getValueAt index)]))
    else if page.getNextLeaf = kInvalidPageId then goto (.exhausted seen)
    else
      fetchPage page.getNextLeaf
      let copy ← getPage page.getNextLeaf
      failIf (!copy.isLeaf) (.status (.Corruption "Leaf chain links to non-leaf page"))
      goto (.walk copy 0 seen)
  | _ => throw .diverges

def Op.access (op : Op) : Pc → Advance
  | .begin => do
    match op with
    | .put key value .. =>
      failIf (kMaxLeafRecordBytes < 4 + key.length + value.length)
        (.status (.InvalidArgument "key+value too large for a page (no overflow pages yet)"))
      goto .rooted
    | _ => goto .rooted
  | .rooted => op.atRoot
  | .crab root node => op.couple root node
  | pc =>
    match op with
    | .put key value txid wantBefore => putStep key value txid wantBefore pc
    | op => if op.isCursor then cursorStep op.key pc else throw .diverges

/- The threads together. -/

abbrev Instance := Nat × Op

abbrev Outcome := Except StatusCode (Option Bytes)

structure State where
  store : Store
  initial : RefMap
  /-- Calls are numbered as they come in. -/
  next : Nat
  task : Nat → Task
  history : List (LinearizeLib.Event Instance Outcome)
  order : List Instance

inductive Event where
  | invoke (op : Op)
  | step (i : Nat)
  | evict (pid : PageId)

namespace State

def init (s : Store) (m : RefMap) : State := ⟨s, m, 0, fun _ => ⟨.seekToFirst, .idle⟩, [], []⟩

def available (σ : State) (i : Nat) : Need → Bool
  | .nothing => true
  | .root mode => ∀ j < σ.next, j ≠ i → clash (σ.task j).pc.rootMode (some mode) = false
  | .page p mode => ∀ j < σ.next, j ≠ i → clash ((σ.task j).pageMode p) (some mode) = false

def invoked (σ : State) (op : Op) : State :=
  { σ with
    next := σ.next + 1
    task := Function.update σ.task σ.next ⟨op, .begin⟩
    history := if op.isCursor then σ.history else σ.history ++ [.call (σ.next, op)] }

def moved (σ : State) (i : Nat) (s : Store) (pc : Pc) (point : Bool) : State :=
  { σ with
    store := s
    task := Function.update σ.task i ⟨(σ.task i).op, pc⟩
    history := match pc with
      | .done answer => σ.history ++ [.ret (i, (σ.task i).op) (answer.mapError Status.code)]
      | _ => σ.history
    order := if point then σ.order ++ [(i, (σ.task i).op)] else σ.order }

def step (σ : State) : Event → Option State
  | .invoke op => some (σ.invoked op)
  | .step i =>
    if i < σ.next ∧ σ.available i (need (σ.task i).op σ.store (σ.task i).pc) then
      match (σ.task i).op.access (σ.task i).pc σ.store with
      | .ok (pc, point) s => some (σ.moved i s pc point)
      | .error .. => none
    else none
  | .evict pid =>
    if ∀ j < σ.next, (σ.task j).pageMode pid = none then
      (σ.store.evict pid).map fun s => { σ with store := s }
    else none

def map (σ : State) : RefMap := LinearizeLib.final (fun i => i.2.apply) σ.initial σ.order

end State

end Crab

end PagerDB

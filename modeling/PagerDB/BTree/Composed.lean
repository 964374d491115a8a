import PagerDB.BTree.Cursor

/-! What Put and Delete are composed of. A property of computations that the calls of the pool, the pager and
the log have, and that sequencing keeps, is one of the whole operation. -/
namespace PagerDB

/-- A page is allocated, or another one is the root. -/
def LogBody.isPageEvent : LogBody → Bool
  | .allocPage _ | .rootChange _ => true
  | _ => false

/-- The calls that a tree operation makes have the property. Only `NotFound` may be out of its
reach, and the record
of a key. -/
structure Composes (txid : TxId) (P : ∀ {α : Type}, M α → Prop) : Prop where
  pure : ∀ {α : Type} (a : α), P (pure a : M α)
  bind : ∀ {α β : Type} {x : M α} {f : α → M β}, P x → (∀ a, P (f a)) → P (x >>= f)
  failIf : ∀ (c : Prop) [Decidable c] (e : Failure), isNotFound e = false → P (failIf c e)
  diverges : ∀ {α : Type}, P (throw .diverges : M α)
  isEmpty : P isEmpty
  root : ∀ {α : Type} {k : PageId → PageId → M α}, (∀ n r, P (k n r)) →
    P (get >>= fun s => k s.metaPage.numPages s.metaPage.rootPageId)
  fetchPage : ∀ pid, P (fetchPage pid)
  getPage : ∀ pid, P (getPage pid)
  setPage : ∀ pid page, P (setPage pid page)
  markDirty : ∀ pid, P (markDirty pid)
  newPage : P newPage
  appendRecord : ∀ opEnd body, body.isPageEvent = true → P (appendRecord txid opEnd body)
  logPageImage : ∀ pid opEnd, P (logPageImage pid txid opEnd)
  setRootPageId : ∀ pid, P (setRootPageId pid)
  addToNumKeys : ∀ d, P (addToNumKeys d)

namespace Composes

variable {P : ∀ {α : Type}, M α → Prop} {key value : Bytes} {txid : TxId} {wantBefore : Bool}

theorem ite {α : Type} {c : Prop} [Decidable c] {x y : M α} (yes : P x) (no : P y) :
    P (if c then x else y) := by
  split
  · exact yes
  · exact no

variable (composes : Composes txid P)

include composes

theorem onlyIf {c : Bool} {x : M Unit} (then_ : P x) : P (onlyIf c x) := ite then_ (composes.pure ())

theorem withNode (pid : PageId) (f : Page → Bool × Page) : P (withNode pid f) :=
  composes.bind (composes.getPage pid) fun _ => composes.bind (composes.setPage _ _) fun _ => composes.pure _

theorem logPageEvent (body : LogBody) (event : body.isPageEvent = true) (opEnd : Bool) :
    P (logPageEvent body txid opEnd) :=
  composes.bind (composes.appendRecord _ _ event) fun _ => composes.pure _

theorem descend (fuel : Nat) (pid : PageId) : P (descend key fuel pid) := by
  induction fuel generalizing pid with
  | zero => exact composes.diverges
  | succ fuel ih =>
    refine composes.bind (composes.fetchPage _) fun _ =>
      composes.bind (composes.getPage _) fun page => ite ?_ ?_
    · exact composes.pure _
    · exact composes.bind (composes.failIf _ _ rfl) fun _ => ih _

theorem findLeaf : P (findLeaf key) :=
  composes.root (k := fun n r => PagerDB.descend key (n + 1) r) fun _ _ => composes.descend _ _

theorem descendPath (fuel : Nat) (pid : PageId) : P (descendPath key fuel pid) := by
  induction fuel generalizing pid with
  | zero => exact composes.diverges
  | succ fuel ih =>
    refine composes.bind (composes.fetchPage _) fun _ =>
      composes.bind (composes.getPage _) fun page => ite ?_ ?_
    · exact composes.pure _
    · exact composes.bind (composes.failIf _ _ rfl) fun _ => composes.bind (ih _) fun _ => composes.pure _

/- Splits. -/

theorem rebuildLeaf (pid : PageId) (overflow : String) (recs : List (Bytes × Bytes)) :
    P (rebuildLeaf pid overflow recs) := by
  induction recs with
  | nil => exact composes.pure _
  | cons r rest ih =>
    exact composes.bind (composes.withNode _ _) fun _ => composes.bind (composes.failIf _ _ rfl) fun _ => ih

theorem rebuildInternal (pid : PageId) (overflow : String) (entries : List (Bytes × PageId)) :
    P (rebuildInternal pid overflow entries) := by
  induction entries with
  | nil => exact composes.pure _
  | cons r rest ih =>
    exact composes.bind (composes.withNode _ _) fun _ => composes.bind (composes.failIf _ _ rfl) fun _ => ih

theorem splitLeaf (pid : PageId) : P (splitLeaf pid txid) := by
  refine composes.bind (composes.getPage _) fun node => composes.bind composes.newPage fun new =>
    composes.bind (composes.logPageEvent _ rfl _) fun _ => composes.bind (composes.setPage _ _) fun _ =>
    composes.bind (composes.rebuildLeaf _ _ _) fun _ => composes.bind (composes.logPageImage _ _) fun _ =>
    composes.bind (composes.setPage _ _) fun _ => composes.bind (composes.rebuildLeaf _ _ _) fun _ =>
    composes.bind (composes.logPageImage _ _) fun _ =>
    composes.bind (composes.onlyIf ?_) fun _ => composes.pure _
  exact composes.bind (composes.fetchPage _) fun _ => composes.bind (composes.getPage _) fun _ =>
    composes.bind (composes.setPage _ _) fun _ => composes.logPageImage _ _

theorem splitInternal (pid : PageId) : P (splitInternal pid txid) :=
  composes.bind (composes.getPage _) fun _ => composes.bind composes.newPage fun _ =>
    composes.bind (composes.logPageEvent _ rfl _) fun _ => composes.bind (composes.failIf _ _ rfl) fun _ =>
    composes.bind (composes.setPage _ _) fun _ => composes.bind (composes.rebuildInternal _ _ _) fun _ =>
    composes.bind (composes.logPageImage _ _) fun _ => composes.bind (composes.setPage _ _) fun _ =>
    composes.bind (composes.rebuildInternal _ _ _) fun _ => composes.bind (composes.logPageImage _ _) fun _ =>
    composes.pure _

theorem createNewRoot (splitKey : Bytes) (left right : PageId) : P (createNewRoot splitKey left right txid) :=
  composes.bind composes.newPage fun _ => composes.bind (composes.logPageEvent _ rfl _) fun _ =>
    composes.bind (composes.setPage _ _) fun _ => composes.bind (composes.withNode _ _) fun _ =>
    composes.bind (composes.failIf _ _ rfl) fun _ => composes.bind (composes.getPage _) fun _ =>
    composes.bind (composes.setPage _ _) fun _ => composes.bind (composes.logPageImage _ _) fun _ =>
    composes.bind (composes.logPageEvent _ rfl _) fun _ => composes.setRootPageId _

theorem insertIntoHalf (newKey : Bytes) (left right parent new : PageId) :
    P (insertIntoHalf txid key newKey left right parent new) := by
  have half : ∀ pid (message : String), P (do
      let inserted ← PagerDB.withNode pid (·.insertInternalAfterSplit key left right)
      PagerDB.failIf (!inserted) (.status (.Internal message))
      PagerDB.logPageImage pid txid false) := fun pid message =>
    composes.bind (composes.withNode _ _) fun _ => composes.bind (composes.failIf _ _ rfl) fun _ =>
      composes.logPageImage _ _
  exact ite (half parent _) (half new _)

theorem propagate (ancestors : List PageId) (left right : PageId) :
    P (propagate txid ancestors key left right) := by
  induction ancestors generalizing key left right with
  | nil => exact composes.createNewRoot _ _ _
  | cons parent rest ih =>
    refine composes.bind (composes.withNode _ _) fun _ => ite (composes.logPageImage _ _) ?_
    exact composes.bind (composes.splitInternal _) fun _ =>
      composes.bind (composes.insertIntoHalf _ _ _ _ _) fun _ =>
      ih _ _

/- Put. -/

theorem putFirst : P (putFirst key value txid) :=
  composes.bind composes.newPage fun _ => composes.bind (composes.setPage _ _) fun _ =>
    composes.bind (composes.withNode _ _) fun _ => composes.bind (composes.failIf _ _ rfl) fun _ =>
    composes.bind (composes.logPageEvent _ rfl _) fun _ => composes.bind (composes.logPageImage _ _) fun _ =>
    composes.bind (composes.logPageEvent _ rfl _) fun _ => composes.bind (composes.setRootPageId _) fun _ =>
    composes.addToNumKeys _

section

variable (logs : ∀ pid before opEnd, P (logKeyRecord (.put pid key value before) txid pid opEnd wantBefore))

include logs

theorem insertSplit (before : Option Bytes) (splitKey : Bytes) (leaf new : PageId) :
    P (insertSplit key value txid wantBefore before splitKey leaf new) := by
  have half : ∀ pid (message : String), P (do
      let inserted ← PagerDB.withNode pid (·.insertLeaf key value)
      PagerDB.failIf (!inserted) (.status (.Internal message))
      PagerDB.logKeyRecord (.put pid key value before) txid pid false wantBefore) := fun pid message =>
    composes.bind (composes.withNode _ _) fun _ => composes.bind (composes.failIf _ _ rfl) fun _ =>
      logs _ _ _
  exact ite (half leaf _) (half new _)

theorem putSplitting (before : Option Bytes) (replacing : Bool) (leaf : PageId) (ancestors : List PageId) :
    P (putSplitting key value txid wantBefore before replacing leaf ancestors) :=
  composes.bind (composes.splitLeaf _) fun _ => composes.bind (composes.insertSplit logs _ _ _ _) fun _ =>
    composes.bind (composes.onlyIf (composes.addToNumKeys _)) fun _ => composes.propagate _ _ _

theorem putHeld (leaf : PageId) (ancestors : List PageId) :
    P (putHeld key value txid wantBefore leaf ancestors) := by
  refine composes.bind (composes.getPage _) fun _ => composes.bind (composes.withNode _ _) fun _ => ite ?_ ?_
  · exact composes.bind (logs _ _ _) fun _ => composes.pure _
  · refine composes.bind (composes.onlyIf ?_) fun _ =>
      composes.bind (composes.withNode _ _) fun _ => ite ?_ ?_
    · exact composes.bind (composes.withNode _ _) fun _ => composes.bind (composes.failIf _ _ rfl) fun _ =>
        composes.markDirty _
    · exact composes.bind (logs _ _ _) fun _ =>
        composes.bind (composes.onlyIf (composes.addToNumKeys _)) fun _ => composes.pure _
    · exact composes.bind (composes.putSplitting logs _ _ _ _) fun _ => composes.pure _

theorem putPessimistic : P (putPessimistic key value txid wantBefore) := by
  refine composes.bind composes.isEmpty fun _ => ite ?_ ?_
  · exact composes.bind composes.putFirst fun _ => composes.pure _
  · exact composes.root (k := fun n r => PagerDB.descendPath key (n + 1) r >>= fun stack =>
      PagerDB.putHeld key value txid wantBefore
        (stack.getLastD kInvalidPageId) stack.dropLast.reverse) fun _ _ =>
      composes.bind (composes.descendPath _ _) fun _ => composes.putHeld logs _ _

theorem putAtLeaf (leaf : PageId) : P (putAtLeaf key value txid wantBefore leaf) := by
  refine composes.bind (composes.getPage _) fun _ => ite ?_ ?_
  · refine composes.bind (composes.withNode _ _) fun _ => ite ?_ (composes.pure _)
    exact composes.bind (logs _ _ _) fun _ => composes.pure _
  · refine composes.bind (composes.withNode _ _) fun _ => ite ?_ (composes.pure _)
    exact composes.bind (logs _ _ _) fun _ => composes.bind (composes.addToNumKeys _) fun _ =>
      composes.pure _

theorem treePut : P (treePut key value txid wantBefore) := by
  refine composes.bind (composes.failIf _ _ rfl) fun _ => composes.bind ?_ fun done => ?_
  · exact composes.bind composes.isEmpty fun _ => ite (composes.pure _)
      (composes.bind composes.findLeaf fun _ => composes.putAtLeaf logs _)
  · cases done with
    | some before => exact composes.pure _
    | none => exact composes.putPessimistic logs

end

theorem treeDelete (logs : ∀ pid before, P (logKeyRecord (.delete pid key before) txid pid true wantBefore))
    (fails : ∀ (c : Prop) [Decidable c] (e : Failure),
      P (PagerDB.failIf c e)) : P (treeDelete key txid wantBefore) := by
  refine composes.bind composes.isEmpty fun _ => composes.bind (fails _ _) fun _ =>
    composes.bind composes.findLeaf fun leaf => composes.bind (composes.getPage _) fun node => ?_
  refine composes.bind (fails _ _) fun _ => composes.bind (composes.withNode _ _) fun _ =>
    composes.bind (fails _ _) fun _ => composes.bind (logs _ _) fun _ =>
    composes.bind (composes.addToNumKeys _) fun _ => composes.pure _

end Composes

end PagerDB

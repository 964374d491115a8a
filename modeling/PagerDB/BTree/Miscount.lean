import PagerDB.BTree.Composed
import PagerDB.Lib.Blind

/-! A store whose key count is off. No tree operation and no cursor looks at the count, so it does
what it does on the
store with the right count, and the difference stays. -/
namespace PagerDB

open BlindLib Store

def Store.miscounted (s : Store) (d : Int) : Store :=
  { s with metaPage := { s.metaPage with numKeys := s.metaPage.numKeys + d } }

variable {d : Int}

abbrev Blindly (d : Int) {α : Type} (x : M α) : Prop := Blind (·.miscounted d) x

namespace Blindly

theorem failIf (c : Prop) [Decidable c] (e : Failure) : Blindly d (failIf c e) := .ite (.throw _) (.pure _)

theorem ioPoint : Blindly d ioPoint := by
  intro s
  have same : (s.miscounted d).io = s.io := rfl
  unfold PagerDB.ioPoint
  rw [same]
  cases s.io with
  | nil => rfl
  | cons head rest =>
    cases head with
    | none => rfl
    | some e => rfl

theorem readPage (pid : PageId) : Blindly d (readPage pid) := by
  refine .get (fun _ => rfl) fun s => (failIf _ _).bind fun _ => (failIf _ _).bind fun _ =>
    ioPoint.bind fun _ => ?_
  cases s.disk pid with
  | some page => exact .pure _
  | none => exact .throw _

theorem fetchPage (pid : PageId) : Blindly d (fetchPage pid) := by
  refine .get (fun _ => rfl) fun s => ?_
  cases s.cache pid with
  | some f => exact .pure _
  | none => exact ioPoint.bind fun _ => (readPage pid).bind fun _ => .modify fun _ => rfl

theorem getPage (pid : PageId) : Blindly d (getPage pid) := fun _ => rfl

theorem setPage (pid : PageId) (page : Page) : Blindly d (setPage pid page) := fun _ => rfl

theorem markDirty (pid : PageId) : Blindly d (markDirty pid) := fun _ => rfl

theorem allocatePage : Blindly d allocatePage := by
  refine .get (fun _ => rfl) fun s => .ite ?_ ?_
  · refine (readPage _).bind fun page => ?_
    cases page.body with
    | free next => exact ioPoint.bind fun _ => .bind (.modify fun _ => rfl) fun _ => .pure _
    | _ => exact .throw _
  · exact ioPoint.bind fun _ => (failIf _ _).bind fun _ => .bind (.modify fun _ => rfl) fun _ => .pure _

theorem newPage : Blindly d newPage :=
  ioPoint.bind fun _ => allocatePage.bind fun _ => .bind (.modify fun _ => rfl) fun _ => .pure _

theorem appendRecord (txid : TxId) (opEnd : Bool) (body : LogBody) :
    Blindly d (appendRecord txid opEnd body) := by
  refine .get (fun _ => rfl) fun s => ?_
  cases s.wal with
  | none => exact .pure _
  | some w => exact .bind (.modify fun _ => rfl) fun _ => .pure _

theorem logPageImage (pid : PageId) (txid : TxId) (opEnd : Bool) :
    Blindly d (logPageImage pid txid opEnd) := by
  refine (markDirty pid).bind fun _ => .get (fun _ => rfl) fun s => ?_
  cases s.wal with
  | none => exact .pure _
  | some w => exact (getPage pid).bind fun _ => (setPage pid _).bind fun _ => .modify fun _ => rfl

theorem logDelta (body : LogBody) (txid : TxId) (pid : PageId) (opEnd : Bool) :
    Blindly d (logDelta body txid pid opEnd) := by
  refine (appendRecord txid opEnd body).bind fun lsn => ?_
  cases lsn with
  | none => exact .pure _
  | some lsn => exact (getPage pid).bind fun _ => setPage pid _

theorem logKeyRecord (body : LogBody) (txid : TxId) (pid : PageId) (opEnd needsUndo : Bool) :
    Blindly d (logKeyRecord body txid pid opEnd needsUndo) := by
  refine (markDirty pid).bind fun _ => .get (fun _ => rfl) fun s => ?_
  cases s.wal with
  | none => exact .pure _
  | some w =>
    refine .ite ((logPageImage pid txid _).bind fun _ => .ite ?_ (.pure _)) ?_
    · exact logDelta body txid pid opEnd
    · exact logDelta body txid pid opEnd

theorem composes (txid : TxId) : Composes txid (Blindly d) where
  pure := .pure
  bind := .bind
  failIf c _ e _ := failIf c e
  diverges := .throw _
  isEmpty _ := rfl
  root next := .get (fun _ => rfl) fun _ => next _ _
  fetchPage := fetchPage
  getPage := getPage
  setPage := setPage
  markDirty := markDirty
  newPage := newPage
  appendRecord opEnd body _ := appendRecord _ opEnd body
  logPageImage pid opEnd := logPageImage pid _ opEnd
  setRootPageId _ _ := rfl
  addToNumKeys e := .modify fun s => by
    simp only [Store.miscounted, Store.mk.injEq, MetaPage.mk.injEq, true_and, and_true]
    exact Int.add_right_comm _ _ _

/- Cursors. -/

theorem attempt {α : Type} {x : M α} (blind : Blindly d x) : Blindly d (attempt x) := by
  intro s
  unfold PagerDB.attempt
  rw [blind s]
  cases x s with
  | ok a t => rfl
  | error e t => rfl

theorem chainFuel : Blindly d chainFuel := fun _ => rfl

theorem skipToLiveEntry (fuel : Nat) (c : Cursor) : Blindly d (skipToLiveEntry fuel c) := by
  induction fuel generalizing c with
  | zero => exact .throw _
  | succ fuel ih =>
    refine .ite (.pure _) (.ite (.pure _) ((attempt (fetchPage _)).bind fun fetched => ?_))
    cases fetched with
    | error e => exact .pure _
    | ok _ => exact (getPage _).bind fun _ => .ite (ih _) (.pure _)

theorem moveTo (c : Cursor) (pid : PageId) (index : Nat) : Blindly d (c.moveTo pid index) := by
  refine (attempt (fetchPage pid)).bind fun fetched => ?_
  cases fetched with
  | error e => exact .pure _
  | ok _ => exact (getPage pid).bind fun _ => chainFuel.bind fun _ => skipToLiveEntry _ _

theorem next (c : Cursor) : Blindly d c.next := .ite (chainFuel.bind fun _ => skipToLiveEntry _ _) (.pure _)

theorem seek (key : Bytes) : Blindly d (seek key) := by
  have find : Blindly d (findLeafOrEmpty key) :=
    (composes kInvalidTxId).isEmpty.bind fun _ => (failIf _ _).bind fun _ => (composes kInvalidTxId).findLeaf
  refine (attempt find).bind fun found => ?_
  cases found with
  | error e => exact .ite (.pure _) (.pure _)
  | ok leaf =>
    refine (attempt (fetchPage leaf)).bind fun fetched => ?_
    cases fetched with
    | error e => exact .pure _
    | ok _ => exact (getPage leaf).bind fun _ => moveTo _ _ _

theorem descendFirst (fuel : Nat) (pid : PageId) : Blindly d (descendFirst fuel pid) := by
  induction fuel generalizing pid with
  | zero => exact .throw _
  | succ fuel ih =>
    exact (fetchPage pid).bind fun _ => (getPage pid).bind fun _ =>
      .ite (.pure _) ((failIf _ _).bind fun _ => ih _)

theorem seekToFirst : Blindly d seekToFirst := by
  refine (composes kInvalidTxId).isEmpty.bind fun _ => .ite (.pure _) (.get (fun _ => rfl) fun s => ?_)
  refine (attempt (descendFirst _ _)).bind fun reached => ?_
  cases reached with
  | error e => exact .pure _
  | ok leaf => exact moveTo _ _ _

theorem scanFuel : Blindly d scanFuel := fun _ => rfl

theorem scanLoop (endKey : Bytes) (callback : Bytes → Bytes → Bool) (fuel : Nat) (c : Cursor) :
    Blindly d (scanLoop endKey callback fuel c) := by
  induction fuel generalizing c with
  | zero => exact .throw _
  | succ fuel ih =>
    refine .ite (.ite (.pure _) (.ite ?_ (.pure _))) (.pure _)
    exact (next c).bind fun _ => (ih _).bind fun _ => .pure _

theorem scan (start endKey : Bytes) (callback : Bytes → Bytes → Bool) :
    Blindly d (scan start endKey callback) :=
  (seek start).bind fun _ => scanFuel.bind fun _ => (scanLoop _ _ _ _).bind fun _ => .pure _

end Blindly

end PagerDB

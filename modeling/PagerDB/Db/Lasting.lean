import PagerDB.BTree.TidyLeaves
import PagerDB.Db.StatusOutcome

/-! Properties of the store that last as long as a handle is open, whichever of its calls fail. Each tree
operation keeps them however it ends, and so does each of the steps that settle its outcome. -/
namespace PagerDB

open KeepsLib MachineLib Store

/-- What every step of a handle keeps. -/
structure Store.Lasting (I : Store → Prop) : Prop extends Settling I where
  put : ∀ key value txid wantBefore, KeepsAlways I (treePut key value txid wantBefore)
  delete : ∀ key txid wantBefore, KeepsAlways I (treeDelete key txid wantBefore)
  begins : ∀ txid, KeepsAlways I (logTxnMarker txid .begin)
  fetch : ∀ pid, KeepsAlways I (fetchPage pid)
  facing : ∀ s io, I s → I (s.facing io)
  evict : ∀ s s' pid, I s → s.evict pid = some s' → I s'
  commit : ∀ s txid, I s → I (s.onLog (·.append txid true .commit))
  abort : ∀ s txid, I s → I (s.onLog (·.append txid true .abort))

variable {I : Store → Prop} {s s' : Store} {txid : TxId}

theorem Store.Lasting.ends {α : Type} {x : M α} (lasting : Lasting I) (keeps : KeepsAlways I x) (start : I s)
    (io : List (Option Fault)) :
    (∀ a s', x (s.facing io) = .ok a s' → I s') ∧ ∀ e s', x (s.facing io) = .error e s' → I s' := by
  have after := keeps (s.facing io) (lasting.facing s io start)
  constructor
  · intro a s' run
    rwa [run] at after
  · intro e s' run
    rwa [run] at after

theorem Store.Lasting.begun {begun : Bool} {op : M (Option Bytes)} (lasting : Lasting I)
    (keeps : KeepsAlways I op) :
    KeepsAlways I (do ensureBegun txid begun; op) :=
  (KeepsAlways.ite (lasting.begins txid) (.pure ())).bind fun _ => keeps

namespace Handle

variable {h h' : Handle} {r : Report}

theorem lasting_autocommit {op : TxId → M (Option Bytes)} {harmless : Status → Bool}
    {io : List (Option Fault)}
    {late : Option Late} (lasting : Lasting I) (keeps : ∀ t, KeepsAlways I (op t)) (start : I h.store)
    (run : h.autocommit op harmless io late = some (r, h')) : I h'.store := by
  obtain ⟨ok, error⟩ := lasting.ends (keeps h.nextTxid) start io
  unfold Handle.autocommit at run
  split at run
  · have start : I { h with store := _, nextTxid := h.nextTxid + 1 }.store := ok _ _ ‹_›
    exact (settles_finishWrite lasting.toSettling start run).1
  · obtain ⟨-, eq⟩ := Option.ite_none_right_eq_some.mp run
    cases eq
    exact error _ _ ‹_›
  · cases run

theorem lasting_txnWrite {op : M (Option Bytes)} {harmless : Status → Bool}
    {io : List (Option Fault)} {t : TxId}
    {x : TxnImpl} {key : Bytes} (lasting : Lasting I) (keeps : KeepsAlways I op) (start : I h.store)
    (run : h.txnWrite t x key op harmless io = some (r, h')) : I h'.store := by
  obtain ⟨ok, error⟩ := lasting.ends keeps start io
  unfold Handle.txnWrite at run
  dsimp only at run
  split at run
  · cases run
    exact ok _ _ ‹_›
  · split at run
    · cases run
      exact error _ _ ‹_›
    · cases run
      exact error _ _ ‹_›
  · cases run

theorem lasting_commitBody {t : TxId} {x : TxnImpl} {late : Option Late} (lasting : Lasting I)
    (start : I h.store)
    (run : h.commitBody t x late = some (r, h')) : I h'.store := by
  have commit : I (h.logged t .commit).store := lasting.commit _ _ start
  have marked : I ((if x.begun then (h.logged t .commit).synced else h).ended t x).store := by
    split
    · exact (settles_synced lasting.toSettling commit).1
    · exact start
  match late with
  | none => exact (settles_maybeAutoCheckpoint lasting.toSettling marked run).1
  | some (.checkpoint f e) => exact (settles_maybeAutoCheckpoint lasting.toSettling marked run).1
  | some (.flush f e) =>
    obtain ⟨-, run⟩ := Option.ite_none_right_eq_some.mp run
    obtain ⟨g, fails, eq⟩ := Option.map_eq_some_iff.mp run
    cases eq
    have synced : I g.store := (settles_syncFault lasting.toSettling commit fails).1
    exact synced

theorem lasting_undoWrite (lasting : Lasting I) (t : TxId) (key : Bytes) (before : Option Bytes) :
    KeepsAlways I (undoWrite t key before) := by
  cases before with
  | some value => exact lasting.put key value t false
  | none => exact lasting.delete key t false

theorem lasting_rollback (lasting : Lasting I) (t : TxId) (undo : List (Bytes × Option Bytes)) :
    KeepsAlways I (rollback t undo) := by
  induction undo with
  | nil => exact .pure ()
  | cons w rest ih =>
    obtain ⟨key, before⟩ := w
    refine KeepsAlways.bind (fun s start => ?_) fun _ => ih
    have after := lasting_undoWrite lasting t key before s start
    cases run : undoWrite t key before s with
    | ok b u =>
      rw [run] at after
      exact after
    | error e u =>
      rw [run] at after
      by_cases gone : before = none ∧ isNotFound e = true
      · simpa only [gone, and_self, if_true] using after
      · simpa only [gone, if_false] using after

theorem lasting_abortBody {t : TxId} {x : TxnImpl} {io : List (Option Fault)} (lasting : Lasting I)
    (start : I h.store) (run : h.abortBody t x io = some (r, h')) : I h'.store := by
  obtain ⟨ok, error⟩ := lasting.ends (lasting_rollback lasting t x.undo.reverse) start io
  unfold Handle.abortBody at run
  split at run
  · split at run
    · cases run
      exact lasting.abort _ _ (ok _ _ ‹_›)
    · cases run
      exact error _ _ ‹_›
    · cases run
  · cases run
    exact start

theorem lasting_onTxn {t : TxId} {body : TxnImpl → Option (Report × Handle)} (start : I h.store)
    (next : ∀ x, body x = some (r, h') → I h'.store) (run : h.onTxn t body = some (r, h')) : I h'.store := by
  unfold Handle.onTxn at run
  split at run
  · cases run
  · split at run
    · exact next _ run
    · cases run
      exact start

theorem lasting_locking {q : Request} {timedOut : Bool} {body : Handle → Option (Report × Handle)}
    (start : I h.store) (next : ∀ g : Handle, I g.store → body g = some (r, h') → I h'.store)
    (run : h.locking q timedOut body = some (r, h')) : I h'.store := by
  unfold Handle.locking at run
  split at run
  · exact next { h with locks := h.locks.grant q } start run
  · cases run
    exact start
  · obtain ⟨-, eq⟩ := Option.ite_none_right_eq_some.mp run
    cases eq
    exact start

theorem lasting_call {c : DbCall} (lasting : Lasting I) (start : I h.store) (run : h.call c = some (r, h')) :
    I h'.store := by
  cases c with
  | put key value io late =>
    simp only [Handle.call, Handle.perform] at run
    split at run
    · cases run
      exact start
    · exact lasting_autocommit lasting (fun t => lasting.put key value t false) start run
  | delete key io late =>
    simp only [Handle.call, Handle.perform] at run
    split at run
    · cases run
      exact start
    · exact lasting_autocommit lasting (fun t => lasting.delete key t false) start run
  | sync fault =>
    cases fault with
    | none =>
      cases run
      exact lasting.flush _ start
    | some f =>
      obtain ⟨s, fails, eq⟩ := Option.map_eq_some_iff.mp run
      cases eq
      exact lasting.flushFault _ _ _ start fails
  | checkpoint fault => exact (settles_checkpointLocked lasting.toSettling start run).1
  | begin retryOf =>
    simp only [Handle.call, Handle.perform] at run
    split at run
    · cases run
      exact start
    · cases run
      exact start
  | txnGet t key timedOut =>
    refine lasting_onTxn start (fun x => lasting_locking start fun g start' run => ?_) run
    cases run
    exact start'
  | txnPut t key value timedOut io =>
    exact lasting_onTxn start (fun x => lasting_locking start fun g start' =>
      lasting_txnWrite lasting (lasting.begun (lasting.put key value t true)) start') run
  | txnDelete t key timedOut io =>
    exact lasting_onTxn start (fun x => lasting_locking start fun g start' =>
      lasting_txnWrite lasting (lasting.begun (lasting.delete key t true)) start') run
  | commit t late => exact lasting_onTxn start (fun x => lasting_commitBody lasting start) run
  | abort t io => exact lasting_onTxn start (fun x => lasting_abortBody lasting start) run

theorem lasting_next {ev : HandleEvent} (lasting : Lasting I) (start : I h.store)
    (step : h.next ev = some h') :
    I h'.store := by
  cases ev with
  | call c =>
    obtain ⟨⟨r, g⟩, run, rfl⟩ := Option.map_eq_some_iff.mp step
    exact lasting_call lasting start run
  | evict pid =>
    obtain ⟨s, run, rfl⟩ := Option.map_eq_some_iff.mp step
    exact lasting.evict _ _ _ start run
  | fetch pid io =>
    simp only [Handle.next] at step
    split at step
    · rename_i run
      cases step
      exact (lasting.ends (lasting.fetch pid) start io).1 _ _ run
    · cases step

end Handle

theorem Store.Lasting.always (lasting : Lasting I) (start : I s) (options : Options)
    (events : List HandleEvent) :
    EveryState Handle.next (fun h => I h.store) (.opened s options) events :=
  everyState_invariant (fun _ _ _ holds step => Handle.lasting_next lasting holds step) start

end PagerDB

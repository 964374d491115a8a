import PagerDB.Db.Handle

/-! What a failed status says about the outcome of Put, Delete and Commit. A handle that is not
poisoned shows the tree of a map; the steps that come after a tree operation move no page. -/
namespace PagerDB

open KeepsLib MachineLib Store

variable {s s' : Store} {m : RefMap} {entries : List (Bytes × Bytes)} {key value : Bytes}
  {txid : TxId}

/- Stores. -/

/-- Pages and meta page are as they were, but for the generation and the checkpoint LSN. -/
structure Store.Unmoved (s s' : Store) : Prop where
  view : s'.view = s.view
  root : s'.metaPage.rootPageId = s.metaPage.rootPageId
  pages : s'.metaPage.numPages = s.metaPage.numPages
  keys : s'.metaPage.numKeys = s.metaPage.numKeys
  free : s'.metaPage.freeListHead = s.metaPage.freeListHead
  readable : ∀ p, (s.disk p).isSome → (s'.disk p).isSome

namespace Store.Unmoved

theorem refl (s : Store) : Unmoved s s := ⟨rfl, rfl, rfl, rfl, rfl, fun _ h => h⟩

theorem trans {a b c : Store} (h : Unmoved a b) (g : Unmoved b c) : Unmoved a c :=
  ⟨g.view.trans h.view, g.root.trans h.root, g.pages.trans h.pages, g.keys.trans h.keys,
    g.free.trans h.free, fun p x => g.readable p (h.readable p x)⟩

theorem alike (kept : Unmoved s s') : Alike s s' := by
  refine ⟨funext fun p => ?_, fun p accounted => ?_, kept.root, kept.pages, kept.keys, kept.free,
    kept.readable⟩
  · simp only [Store.bodies, kept.view]
  · rwa [kept.view]

theorem onLog (s : Store) (f : LogWriter → LogWriter) : Unmoved s (s.onLog f) :=
  ⟨rfl, rfl, rfl, rfl, rfl, fun _ h => h⟩

theorem facing (s : Store) (io : List (Option Fault)) : Unmoved s (s.facing io) :=
  ⟨rfl, rfl, rfl, rfl, rfl, fun _ h => h⟩

theorem flushFault {f : FlushFault} (run : s.flushFault f = some s') : Unmoved s s' := by
  obtain ⟨w, -, rfl⟩ := Option.map_eq_some_iff.mp run
  exact ⟨rfl, rfl, rfl, rfl, rfl, fun _ h => h⟩

theorem writePages (s : Store) (pages : PageId → Bool) : Unmoved s (s.writePages pages) := by
  refine ⟨funext fun p => ?_, rfl, rfl, rfl, rfl, fun p readable => ?_⟩
  · cases frame : s.cache p with
    | some f => simp [Store.view, Store.writePages, frame]
    | none => simp [Store.view, Store.writePages, frame]
  · cases frame : s.cache p with
    | some f =>
      simp only [Store.writePages, frame]
      split
      · rfl
      · exact readable
    | none => simpa [Store.writePages, frame] using readable

theorem flushedAll (s : Store) : Unmoved s s.flushedAll :=
  (onLog s _).trans (writePages _ _)

theorem marked (s : Store) : Unmoved s s.marked := ⟨rfl, rfl, rfl, rfl, rfl, fun _ h => h⟩

theorem persistMeta (s : Store) : Unmoved s s.persistMeta := ⟨rfl, rfl, rfl, rfl, rfl, fun _ h => h⟩

theorem persistFault (s : Store) (fate : Fate) : Unmoved s (s.persistFault fate) :=
  ⟨rfl, rfl, rfl, rfl, rfl, fun _ h => h⟩

theorem checkpointed (s : Store) (begun : Bool) : Unmoved s (s.checkpointed begun) := by
  unfold Store.checkpointed
  split
  · exact flushedAll s
  · exact (flushedAll s).trans ((marked _).trans ((persistMeta _).trans (onLog _ _)))

theorem checkpointFault {begun : Bool} {f : CheckpointFault}
    (run : s.checkpointFault begun f = some s') : Unmoved s s' := by
  have persisted := (flushedAll s).trans ((marked _).trans (persistMeta _))
  cases f with
  | flush f => exact flushFault run
  | page pid written =>
    obtain ⟨-, eq⟩ := Option.ite_none_right_eq_some.mp run
    cases eq
    exact (onLog s _).trans (writePages _ _)
  | dataSync =>
    cases run
    exact flushedAll s
  | markerFlush f =>
    obtain ⟨-, run⟩ := Option.ite_none_left_eq_some.mp run
    exact ((flushedAll s).trans (onLog _ _)).trans (flushFault run)
  | metaWrite fate =>
    obtain ⟨-, eq⟩ := Option.ite_none_left_eq_some.mp run
    cases eq
    exact (flushedAll s).trans ((marked _).trans (persistFault _ fate))
  | metaSync =>
    obtain ⟨-, eq⟩ := Option.ite_none_left_eq_some.mp run
    cases eq
    exact persisted
  | truncate =>
    obtain ⟨-, eq⟩ := Option.ite_none_left_eq_some.mp run
    cases eq
    exact persisted
  | truncateSync =>
    obtain ⟨-, eq⟩ := Option.ite_none_left_eq_some.mp run
    cases eq
    exact persisted.trans (onLog _ _)

end Store.Unmoved

/-- What flushes and checkpoints keep. -/
structure Store.Settling (I : Store → Prop) : Prop where
  flush : ∀ s, I s → I (s.onLog LogWriter.flush)
  flushFault : ∀ s s' f, I s → s.flushFault f = some s' → I s'
  checkpointed : ∀ s begun, I s → I (s.checkpointed begun)
  checkpointFault : ∀ s s' begun f, I s → s.checkpointFault begun f = some s' → I s'

theorem Store.unmoved_settling (s : Store) : Settling (Unmoved s) where
  flush _ kept := kept.trans (.onLog _ _)
  flushFault _ _ _ kept run := kept.trans (.flushFault run)
  checkpointed _ _ kept := kept.trans (.checkpointed _ _)
  checkpointFault _ _ _ _ kept run := kept.trans (.checkpointFault run)

def Store.records (s : Store) : List LogRecord := s.wal.elim [] fun w => recordsOf w.chunks

/-- Pages move between the pool and the file, and the log gains checkpoint markers at most. -/
structure Store.Settles (s s' : Store) : Prop where
  cache : ∀ p f, s'.cache p = some f → ∃ g, s.cache p = some g ∧ g.page = f.page
  disk : ∀ p page, s'.disk p = some page → s.disk p = some page ∨ ∃ g, s.cache p = some g ∧ g.page = page
  log : ∀ r ∈ s'.records, r ∈ s.records ∨ r.body = .checkpoint

namespace Store.Settles

theorem trans {a b c : Store} (h : Settles a b) (g : Settles b c) : Settles a c := by
  refine ⟨fun p f here => ?_, fun p page here => ?_, fun r mem => ?_⟩
  · obtain ⟨x, there, same⟩ := g.cache p f here
    obtain ⟨y, origin, same'⟩ := h.cache p x there
    exact ⟨y, origin, same'.trans same⟩
  · rcases g.disk p page here with there | ⟨x, there, same⟩
    · exact h.disk p page there
    · obtain ⟨y, origin, same'⟩ := h.cache p x there
      exact .inr ⟨y, origin, same'.trans same⟩
  · exact (g.log r mem).elim (h.log r) .inr

theorem of_same (cache : s'.cache = s.cache) (disk : s'.disk = s.disk)
    (log : ∀ r ∈ s'.records, r ∈ s.records ∨ r.body = .checkpoint) : Settles s s' :=
  ⟨fun _ f here => ⟨f, cache ▸ here, rfl⟩, fun _ _ here => .inl (disk ▸ here), log⟩

theorem of_wal (cache : s'.cache = s.cache) (disk : s'.disk = s.disk) (same : s'.wal = s.wal) :
    Settles s s' := by
  refine of_same cache disk fun r mem => .inl ?_
  rwa [Store.records, same] at mem

theorem onLog {f : LogWriter → LogWriter}
    (kept : ∀ w, ∀ r ∈ recordsOf (f w).chunks, r ∈ recordsOf w.chunks ∨ r.body = .checkpoint) :
    Settles s (s.onLog f) := by
  refine of_same rfl rfl fun r mem => ?_
  unfold Store.records Store.onLog at *
  cases wal : s.wal with
  | none => simp [wal] at mem
  | some w =>
    simp only [wal, Option.map_some, Option.elim_some] at mem ⊢
    exact kept w r mem

theorem flush (s : Store) : Settles s (s.onLog LogWriter.flush) :=
  onLog fun w r mem => by
    rw [LogWriter.flush_chunks] at mem
    exact .inl mem

theorem flushFault {f : FlushFault} (run : s.flushFault f = some s') : Settles s s' := by
  obtain ⟨w', found, rfl⟩ := Option.map_eq_some_iff.mp run
  obtain ⟨w, wal, fault⟩ := Option.bind_eq_some_iff.mp found
  have chunks : w'.chunks = w.chunks := by
    cases f with
    | write =>
      obtain ⟨-, eq⟩ := Option.ite_none_left_eq_some.mp fault
      cases eq
      rfl
    | sync =>
      obtain ⟨-, eq⟩ := Option.ite_none_left_eq_some.mp fault
      cases eq
      simp [LogWriter.chunks]
  refine of_same rfl rfl fun r mem => .inl ?_
  simpa [Store.records, wal, chunks] using mem

theorem writePages (s : Store) (pages : PageId → Bool) : Settles s (s.writePages pages) := by
  refine ⟨fun p f here => ?_, fun p page here => ?_, fun r mem => .inl mem⟩
  · obtain ⟨g, there, rfl⟩ := Option.map_eq_some_iff.mp here
    exact ⟨g, there, rfl⟩
  · simp only [Store.writePages] at here
    split at here
    · rename_i f there
      split at here
      · exact .inr ⟨f, there, Option.some.inj here⟩
      · exact .inl here
    · exact .inl here

theorem flushedAll (s : Store) : Settles s s.flushedAll := (flush s).trans (writePages _ _)

theorem logMarker (s : Store) : Settles s s.logMarker := by
  refine onLog fun w r mem => ?_
  simp only [LogWriter.append, LogWriter.chunks, List.map_append, recordsOf_append, List.mem_append,
    List.map_cons, List.map_nil, recordsOf_singleton, List.mem_singleton] at mem ⊢
  rcases mem with mem | mem | rfl
  · exact .inl (.inl mem)
  · exact .inl (.inr mem)
  · exact .inr rfl

theorem marked (s : Store) : Settles s s.marked :=
  ((logMarker s).trans (flush _)).trans (of_wal rfl rfl rfl)

theorem persistMeta (s : Store) : Settles s s.persistMeta := of_wal rfl rfl rfl

theorem holed (s : Store) : Settles s (s.onLog LogWriter.holed) := by
  refine onLog fun w r mem => .inl ?_
  simp only [LogWriter.holed, LogWriter.chunks, recordsOf_append, List.mem_append] at mem ⊢
  exact mem.imp_left fun torn => absurd torn (by simp [recordsOf])

theorem truncate (s : Store) (base : Lsn) : Settles s (s.onLog (·.truncate base)) :=
  onLog fun w r mem => by simp [LogWriter.truncate, LogWriter.chunks, recordsOf] at mem

theorem checkpointed (s : Store) (begun : Bool) : Settles s (s.checkpointed begun) := by
  unfold Store.checkpointed
  split
  · exact flushedAll s
  · exact (flushedAll s).trans ((marked _).trans ((persistMeta _).trans (truncate _ _)))

theorem checkpointFault {begun : Bool} {f : CheckpointFault}
    (run : s.checkpointFault begun f = some s') : Settles s s' := by
  have marked : Settles s s.flushedAll.marked := (flushedAll s).trans (marked _)
  cases f with
  | flush f => exact flushFault run
  | page pid written =>
    obtain ⟨-, eq⟩ := Option.ite_none_right_eq_some.mp run
    cases eq
    exact (flush s).trans (writePages _ _)
  | dataSync =>
    cases run
    exact flushedAll s
  | markerFlush f =>
    obtain ⟨-, run⟩ := Option.ite_none_left_eq_some.mp run
    exact ((flushedAll s).trans (logMarker _)).trans (flushFault run)
  | metaWrite fate =>
    obtain ⟨-, eq⟩ := Option.ite_none_left_eq_some.mp run
    cases eq
    exact marked.trans (of_wal rfl rfl rfl)
  | metaSync =>
    obtain ⟨-, eq⟩ := Option.ite_none_left_eq_some.mp run
    cases eq
    exact marked.trans (of_wal rfl rfl rfl)
  | truncate =>
    obtain ⟨-, eq⟩ := Option.ite_none_left_eq_some.mp run
    cases eq
    exact marked.trans (of_wal rfl rfl rfl)
  | truncateSync =>
    obtain ⟨-, eq⟩ := Option.ite_none_left_eq_some.mp run
    cases eq
    exact (marked.trans (persistMeta _)).trans (holed _)

end Store.Settles

def Store.CommitsNone (s s' : Store) : Prop := ∀ r ∈ s'.records, r.body = .commit → r ∈ s.records

theorem Store.Settles.commitsNone (settles : Settles s s') : CommitsNone s s' := by
  intro r mem commit
  exact (settles.log r mem).resolve_right fun marker => by simp [marker] at commit

theorem Represents.unmoved (rep : Represents s entries) (kept : Unmoved s s') :
    Represents s' entries := rep.alike kept.alike

structure Healthy (s : Store) : Prop where
  models : ∃ m, Models s m
  neat : Neat False s

namespace Healthy

theorem unmoved (healthy : Healthy s) (kept : Unmoved s s') : Healthy s' := by
  obtain ⟨⟨m, entries, rep, agree⟩, neat⟩ := healthy
  exact ⟨⟨m, entries, rep.unmoved kept, agree⟩, False.elim, fun p => by
    rw [kept.view]
    exact neat.packed p⟩

theorem facing (healthy : Healthy s) (io : List (Option Fault)) : Healthy (s.facing io) :=
  healthy.unmoved (.facing s io)

theorem put {wantBefore : Bool} {b : Option Bytes} (healthy : Healthy s)
    (run : treePut key value txid wantBefore s = .ok b s') : Healthy s' := by
  obtain ⟨⟨m, entries, rep, agree⟩, neat⟩ := healthy
  obtain ⟨-, entries', after, -⟩ := treePut_ok rep run
  exact ⟨⟨_, entries', after, fun _ => rfl⟩, keeps_treePut key value txid wantBefore _ _ _ run neat⟩

theorem delete {wantBefore : Bool} {b : Option Bytes} (healthy : Healthy s)
    (run : treeDelete key txid wantBefore s = .ok b s') : Healthy s' := by
  obtain ⟨⟨m, entries, rep, agree⟩, neat⟩ := healthy
  have neat' := keeps_treeDelete key txid wantBefore _ _ _ run neat
  have removal := treeDelete_removal rep key txid wantBefore
  rw [run] at removal
  cases removal with
  | removed look after erased => exact ⟨⟨_, _, after, fun _ => rfl⟩, neat'⟩

theorem absent {wantBefore : Bool} {e : Failure} (healthy : Healthy s) (gone : isNotFound e = true)
    (run : treeDelete key txid wantBefore s = .error e s') :
    Untouched s s' ∧ Healthy s' := by
  obtain ⟨⟨m, entries, rep, agree⟩, neat⟩ := healthy
  have removal := treeDelete_removal rep key txid wantBefore
  rw [run] at removal
  cases removal with
  | absent look same untouched =>
    exact ⟨untouched, ⟨m, entries, rep.same same, agree⟩, untouched.neat neat⟩
  | fault foreign some =>
    rw [foreign] at gone
    cases gone

theorem marker {body : LogBody} {u : Unit} (healthy : Healthy s)
    (run : logTxnMarker txid body s = .ok u s') : Healthy s' := by
  obtain ⟨⟨m, entries, rep, agree⟩, neat⟩ := healthy
  exact ⟨⟨m, entries, rep.same (logPageEvent_same run), agree⟩,
    keeps_logPageEvent body txid true _ _ _ run neat⟩

theorem ensureBegun {begun : Bool} {u : Unit} (healthy : Healthy s)
    (run : ensureBegun txid begun s = .ok u s') : Healthy s' := by
  rcases onlyIf_ok.mp run with ⟨-, run⟩ | ⟨-, rfl⟩
  · exact healthy.marker run
  · exact healthy

end Healthy

theorem ensureBegun_runs (s : Store) (t : TxId) (begun : Bool) :
    ∃ s', ensureBegun t begun s = .ok () s' := by
  cases begun with
  | true => exact ⟨s, rfl⟩
  | false => exact logPageEvent_runs s .begin t true

/- Handles. -/

namespace Handle

variable {h h' : Handle} {r : Report} {I : Store → Prop}

/-- A step that leaves only the store changed. -/
def Settles (I : Store → Prop) (h h' : Handle) : Prop := I h'.store ∧ h' = { h with store := h'.store }

theorem settles_checkpointLocked {fault : Option (CheckpointFault × Status)} (settling : Settling I)
    (start : I h.store) (run : h.checkpointLocked fault = some (r, h')) : Settles I h h' := by
  cases fault with
  | none =>
    simp only [Handle.checkpointLocked] at run
    split at run
    · cases run
      exact ⟨start, rfl⟩
    · cases run
      exact ⟨settling.checkpointed _ _ start, rfl⟩
  | some f =>
    obtain ⟨-, run⟩ := Option.ite_none_left_eq_some.mp run
    obtain ⟨s, fails, eq⟩ := Option.map_eq_some_iff.mp run
    cases eq
    exact ⟨settling.checkpointFault _ _ _ _ start fails, rfl⟩

theorem settles_maybeAutoCheckpoint {fault : Option (CheckpointFault × Status)} (settling : Settling I)
    (start : I h.store) (run : h.maybeAutoCheckpoint fault = some (r, h')) : Settles I h h' := by
  unfold Handle.maybeAutoCheckpoint at run
  split at run
  · exact settles_checkpointLocked settling start run
  · obtain ⟨-, eq⟩ := Option.ite_none_right_eq_some.mp run
    cases eq
    exact ⟨start, rfl⟩

theorem settles_synced (settling : Settling I) (start : I h.store) : Settles I h h.synced := by
  unfold Handle.synced
  split
  · exact ⟨settling.flush _ start, rfl⟩
  · exact ⟨start, rfl⟩

theorem settles_syncFault {f : FlushFault} (settling : Settling I) (start : I h.store)
    (run : h.syncFault f = some h') : Settles I h h' := by
  obtain ⟨-, run⟩ := Option.ite_none_right_eq_some.mp run
  obtain ⟨s, fails, rfl⟩ := Option.map_eq_some_iff.mp run
  exact ⟨settling.flushFault _ _ _ start fails, rfl⟩

theorem settles_finishWrite {late : Option Late} (settling : Settling I) (start : I h.store)
    (run : h.finishWrite late = some (r, h')) : Settles I h h' := by
  have checkpoints : ∀ fault, h.synced.maybeAutoCheckpoint fault = some (r, h') → Settles I h h' := by
    intro fault run
    obtain ⟨flushed, same⟩ := settles_synced settling start
    obtain ⟨holds, eq⟩ := settles_maybeAutoCheckpoint settling flushed run
    rw [same] at eq
    exact ⟨holds, eq⟩
  match late with
  | none => exact checkpoints none run
  | some (.checkpoint f e) => exact checkpoints _ run
  | some (.flush f e) =>
    obtain ⟨g, fails, eq⟩ := Option.map_eq_some_iff.mp run
    cases eq
    exact settles_syncFault settling start fails

def Fit (h : Handle) : Prop := h.needsReopen = true ∨ Healthy h.store

theorem Fit.settles (fit : h.Fit) (settles : Settles (Unmoved h.store) h h') : h'.Fit := by
  obtain ⟨kept, same⟩ := settles
  refine fit.imp (fun poisoned => ?_) fun healthy => healthy.unmoved kept
  rw [same]
  exact poisoned

/-- An operation that keeps trees healthy, also when it ends with a harmless failure. -/
structure Safe (op : M (Option Bytes)) (harmless : Status → Bool) : Prop where
  ok : ∀ s b s', Healthy s → op s = .ok b s' → Healthy s'
  harmless : ∀ s e s', Healthy s → op s = .error (.status e) s' → harmless e = true → Healthy s'

theorem safe_put (key value : Bytes) (t : TxId) (wantBefore : Bool) :
    Safe (treePut key value t wantBefore) fun e => e.code = .invalidArgument := by
  refine ⟨fun s b s' healthy run => healthy.put run, fun s e s' healthy run invalid => ?_⟩
  obtain ⟨⟨m, entries, rep, agree⟩, neat⟩ := healthy
  rw [treePut_invalidArgument rep neat (of_decide_eq_true invalid) run]
  exact ⟨⟨m, entries, rep, agree⟩, neat⟩

theorem safe_delete (key : Bytes) (t : TxId) (wantBefore : Bool) :
    Safe (treeDelete key t wantBefore) fun e => e.code = .notFound :=
  ⟨fun _ _ _ healthy run => healthy.delete run,
    fun _ e _ healthy run gone => (healthy.absent (e := .status e) gone run).2⟩

theorem Safe.begun {op : M (Option Bytes)} {harmless : Status → Bool} (safe : Safe op harmless)
    (t : TxId) (begun : Bool) : Safe (do ensureBegun t begun; op) harmless := by
  refine ⟨fun s b s' healthy run => ?_, fun s e s' healthy run ok => ?_⟩
  · obtain ⟨_, u, first, run⟩ := bind_ok.mp run
    exact safe.ok _ _ _ (healthy.ensureBegun first) run
  · obtain ⟨u, first⟩ := ensureBegun_runs s t begun
    rw [bind_of_ok first] at run
    exact safe.harmless _ _ _ (healthy.ensureBegun first) run ok

theorem Fit.autocommit {op : TxId → M (Option Bytes)} {harmless : Status → Bool}
    {io : List (Option Fault)} {late : Option Late} (safe : ∀ t, Safe (op t) harmless) (fit : h.Fit)
    (run : h.autocommit op harmless io late = some (r, h')) : h'.Fit := by
  unfold Handle.autocommit at run
  split at run
  · rename_i b s done
    have fit' : Fit { h with store := s, nextTxid := h.nextTxid + 1 } :=
      fit.imp_right fun healthy => (safe _).ok _ _ _ (healthy.facing io) done
    exact fit'.settles (settles_finishWrite (unmoved_settling _) (.refl _) run)
  · rename_i e s fails
    obtain ⟨-, eq⟩ := Option.ite_none_right_eq_some.mp run
    cases eq
    rcases fit with poisoned | healthy
    · exact .inl (by simp [poisoned])
    · cases ok : harmless e with
      | true => exact .inr ((safe _).harmless _ _ _ (healthy.facing io) fails ok)
      | false => exact .inl (by simp)
  · cases run

theorem Fit.txnWrite {op : M (Option Bytes)} {harmless : Status → Bool} {io : List (Option Fault)}
    {t : TxId} {x : TxnImpl} (safe : Safe op harmless) (fit : h.Fit)
    (run : h.txnWrite t x key op harmless io = some (r, h')) : h'.Fit := by
  unfold Handle.txnWrite at run
  dsimp only at run
  split at run
  · rename_i b s done
    cases run
    exact fit.imp_right fun healthy => safe.ok _ _ _ (healthy.facing io) done
  · rename_i e s fails
    split at run
    · rename_i ok
      cases run
      exact fit.imp_right fun healthy => safe.harmless _ _ _ (healthy.facing io) fails ok
    · cases run
      exact .inl rfl
  · cases run

theorem Fit.logged (fit : h.Fit) (t : TxId) (body : LogBody) : (h.logged t body).Fit :=
  fit.imp_right fun healthy => healthy.unmoved (.onLog _ _)

theorem Fit.commitBody {t : TxId} {x : TxnImpl} {late : Option Late} (fit : h.Fit)
    (run : h.commitBody t x late = some (r, h')) : h'.Fit := by
  have marked : Fit ((if x.begun then (h.logged t .commit).synced else h).ended t x) := by
    split
    · have flushed := settles_synced (h := h.logged t .commit) (unmoved_settling _) (.refl _)
      have synced := (fit.logged t .commit).settles flushed
      exact synced
    · exact fit
  match late with
  | none => exact marked.settles (settles_maybeAutoCheckpoint (unmoved_settling _) (.refl _) run)
  | some (.checkpoint f e) =>
    exact marked.settles (settles_maybeAutoCheckpoint (unmoved_settling _) (.refl _) run)
  | some (.flush f e) =>
    obtain ⟨-, run⟩ := Option.ite_none_right_eq_some.mp run
    obtain ⟨g, -, eq⟩ := Option.map_eq_some_iff.mp run
    cases eq
    exact .inl rfl

theorem rollback_healthy {t : TxId} {undo : List (Bytes × Option Bytes)} {u : Unit}
    (healthy : Healthy s) (run : rollback t undo s = .ok u s') : Healthy s' := by
  induction undo generalizing s with
  | nil =>
    obtain ⟨-, rfl⟩ := pure_ok.mp run
    exact healthy
  | cons w rest ih =>
    obtain ⟨key, before⟩ := w
    obtain ⟨_, v, first, run⟩ := bind_ok.mp run
    refine ih ?_ run
    cases before with
    | some old =>
      simp only [undoWrite, reduceCtorEq, false_and, if_false] at first
      split at first
      · rename_i b s₁ done
        cases first
        exact healthy.put done
      · cases first
    | none =>
      simp only [undoWrite, true_and] at first
      split at first
      · rename_i b s₁ done
        cases first
        exact healthy.delete done
      · rename_i e s₁ fails
        split at first
        · rename_i gone
          cases first
          exact (healthy.absent gone fails).2
        · cases first

theorem Fit.abortBody {t : TxId} {x : TxnImpl} {io : List (Option Fault)} (fit : h.Fit)
    (run : h.abortBody t x io = some (r, h')) : h'.Fit := by
  unfold Handle.abortBody at run
  split at run
  · split at run
    · rename_i s done
      cases run
      have fit' : Fit { h with store := s } :=
        fit.imp_right fun healthy => rollback_healthy (healthy.facing io) done
      exact fit'.logged t .abort
    · cases run
      exact .inl rfl
    · cases run
  · cases run
    exact fit

theorem Fit.onTxn {t : TxId} {body : TxnImpl → Option (Report × Handle)} (fit : h.Fit)
    (next : ∀ x, body x = some (r, h') → h'.Fit) (run : h.onTxn t body = some (r, h')) : h'.Fit := by
  unfold Handle.onTxn at run
  split at run
  · cases run
  · split at run
    · exact next _ run
    · cases run
      exact fit

theorem Fit.locking {q : Request} {timedOut : Bool} {body : Handle → Option (Report × Handle)}
    (fit : h.Fit) (next : ∀ g : Handle, g.Fit → body g = some (r, h') → h'.Fit)
    (run : h.locking q timedOut body = some (r, h')) : h'.Fit := by
  unfold Handle.locking at run
  split at run
  · exact next { h with locks := h.locks.grant q } fit run
  · cases run
    exact fit
  · obtain ⟨-, eq⟩ := Option.ite_none_right_eq_some.mp run
    cases eq
    exact fit

theorem Fit.call {c : DbCall} (fit : h.Fit) (run : h.call c = some (r, h')) : h'.Fit := by
  cases c with
  | put key value io late =>
    simp only [Handle.call, Handle.perform] at run
    split at run
    · cases run
      exact fit
    · exact fit.autocommit (fun t => safe_put key value t false) run
  | delete key io late =>
    simp only [Handle.call, Handle.perform] at run
    split at run
    · cases run
      exact fit
    · exact fit.autocommit (fun t => safe_delete key t false) run
  | sync fault =>
    cases fault with
    | none =>
      cases run
      exact fit.imp_right fun healthy => healthy.unmoved (.onLog _ _)
    | some f =>
      obtain ⟨s, fails, eq⟩ := Option.map_eq_some_iff.mp run
      cases eq
      exact fit.imp_right fun healthy => healthy.unmoved (.flushFault fails)
  | checkpoint fault => exact fit.settles (settles_checkpointLocked (unmoved_settling _) (.refl _) run)
  | begin retryOf =>
    simp only [Handle.call, Handle.perform] at run
    split at run
    · cases run
      exact fit
    · cases run
      exact fit
  | txnGet t key timedOut =>
    refine fit.onTxn (fun x => fit.locking fun g fit' run => ?_) run
    cases run
    exact fit'
  | txnPut t key value timedOut io =>
    exact fit.onTxn (fun x => fit.locking fun g fit' =>
      fit'.txnWrite ((safe_put key value t true).begun t x.begun)) run
  | txnDelete t key timedOut io =>
    exact fit.onTxn (fun x => fit.locking fun g fit' =>
      fit'.txnWrite ((safe_delete key t true).begun t x.begun)) run
  | commit t late => exact fit.onTxn (fun x => fit.commitBody) run
  | abort t io => exact fit.onTxn (fun x => fit.abortBody) run

theorem Fit.next {ev : HandleEvent} (fit : h.Fit) (step : h.next ev = some h') : h'.Fit := by
  cases ev with
  | call c =>
    obtain ⟨⟨r, g⟩, run, rfl⟩ := Option.map_eq_some_iff.mp step
    exact fit.call run
  | evict pid =>
    obtain ⟨s, run, rfl⟩ := Option.map_eq_some_iff.mp step
    have same := evict_same run
    refine fit.imp_right fun healthy => healthy.unmoved
      ⟨evict_view run, ?_, ?_, ?_, ?_, same.readable⟩
    all_goals rw [same.metaPage]
  | fetch pid io =>
    simp only [Handle.next] at step
    split at step
    · rename_i s run
      cases step
      have same := fetchPage_same run
      have untouched := fetchPage_untouched run
      refine fit.imp_right fun healthy => (healthy.facing io).unmoved
        ⟨untouched.view, ?_, ?_, ?_, ?_, same.readable⟩
      all_goals rw [same.metaPage]
    · cases step

/- Statuses and outcomes. -/

def seen (h : Handle) (key : Bytes) : Option Bytes :=
  match treeGet key (h.store.facing []) with
  | .ok value _ => some value
  | .error .. => none

/-- An autocommit call is committed by a complete group, a transaction by its marker. -/
def commits (auto : Bool) (t : TxId) (r : LogRecord) : Bool :=
  r.txid = t ∧ if auto then r.opEnd else r.body = .commit

structure NoEffect (auto : Bool) (t : TxId) (h h' : Handle) : Prop where
  seen : ∀ key, h'.seen key = h.seen key
  log : ∀ r ∈ h'.store.records, commits auto t r → r ∈ h.store.records

end Handle

/-- A call that reports a failure has poisoned the handle or has had no effect. -/
def DbCall.Agrees (h : Handle) (r : Report) (h' : Handle) : DbCall → Prop
  | .put .. | .delete .. => r ≠ .ok → h'.needsReopen = true ∨ h.NoEffect true h.nextTxid h'
  | .commit t _ => r ≠ .ok → h'.needsReopen = true ∨ h.NoEffect false t h'
  | _ => True

/-- No step after the write fails: no log flush of an autocommit call, and no step of the
automatic checkpoint, which a Commit without writes may also run into. -/
def DbCall.clean (h : Handle) : DbCall → Bool
  | .put _ _ _ late | .delete _ _ late => late.isNone
  | .commit t (some (.checkpoint ..)) => (h.txns t).all fun x => !x.begun
  | _ => true

namespace Handle

variable {h h' : Handle} {r : Report}

theorem seen_models (models : Models h.store m) (key : Bytes) : h.seen key = m key := by
  have get := models.agrees.get key []
  unfold seen
  split
  · rename_i value t run
    rw [run] at get
    exact get.symm
  · rename_i e t run
    rw [run] at get
    exact (get.1 (get.2 rfl)).symm

theorem seen_unmoved (healthy : Healthy h.store) (kept : Unmoved h.store h'.store) (key : Bytes) :
    h'.seen key = h.seen key := by
  obtain ⟨⟨m, entries, rep, agree⟩, -⟩ := healthy
  rw [seen_models ⟨entries, rep, agree⟩, seen_models ⟨entries, rep.unmoved kept, agree⟩]

theorem NoEffect.refl (auto : Bool) (t : TxId) (h : Handle) : h.NoEffect auto t h :=
  ⟨fun _ => rfl, fun _ mem _ => mem⟩

theorem maybeAutoCheckpoint_ok (up : h.needsReopen = false)
    (run : h.maybeAutoCheckpoint none = some (r, h')) : r = .ok := by
  unfold maybeAutoCheckpoint at run
  split at run
  · simp only [checkpointLocked, up, Bool.false_eq_true, if_false, Option.some.injEq] at run
    cases run
    rfl
  · cases run
    rfl

theorem maybeAutoCheckpoint_needsReopen {fault : Option (CheckpointFault × Status)}
    (run : h.maybeAutoCheckpoint fault = some (r, h')) : h'.needsReopen = h.needsReopen := by
  rw [(settles_maybeAutoCheckpoint (unmoved_settling _) (.refl _) run).2]

theorem maybeAutoCheckpoint_fault {f : CheckpointFault} {e : Status}
    (run : h.maybeAutoCheckpoint (some (f, e)) = some (r, h')) : h.needsReopen = false ∧
      Unmoved h.store h'.store ∧ CommitsNone h.store h'.store := by
  unfold maybeAutoCheckpoint at run
  split at run
  · obtain ⟨up, run⟩ := Option.ite_none_left_eq_some.mp run
    obtain ⟨s, fails, eq⟩ := Option.map_eq_some_iff.mp run
    cases eq
    exact ⟨by simpa using up, .checkpointFault fails, (Settles.checkpointFault fails).commitsNone⟩
  · cases run

theorem synced_needsReopen (h : Handle) : h.synced.needsReopen = h.needsReopen := by
  unfold synced
  split <;> rfl

theorem autocommit_agrees {op : TxId → M (Option Bytes)} {harmless : Status → Bool}
    {io : List (Option Fault)} (up : h.needsReopen = false)
    (still : ∀ e s, op h.nextTxid (h.store.facing io) = .error (.status e) s → harmless e = true →
      Unmoved h.store s ∧ s.wal = h.store.wal) (healthy : Healthy h.store)
    (run : h.autocommit op harmless io none = some (r, h')) (failed : r ≠ .ok) :
    h'.needsReopen = true ∨ h.NoEffect true h.nextTxid h' := by
  unfold autocommit at run
  split at run
  · refine absurd (maybeAutoCheckpoint_ok ?_ run) failed
    rw [synced_needsReopen]
    exact up
  · rename_i e s fails
    obtain ⟨-, eq⟩ := Option.ite_none_right_eq_some.mp run
    cases eq
    cases ok : harmless e with
    | false => exact .inl (by simp)
    | true =>
      obtain ⟨kept, wal⟩ := still e s fails ok
      refine .inr ⟨seen_unmoved healthy kept, fun q mem _ => ?_⟩
      simpa only [Store.records, wal] using mem
  · cases run

theorem put_agrees {key value : Bytes} {io : List (Option Fault)} (fit : h.Fit)
    (run : h.call (.put key value io none) = some (r, h')) (failed : r ≠ .ok) :
    h'.needsReopen = true ∨ h.NoEffect true h.nextTxid h' := by
  simp only [call, perform] at run
  split at run
  · rename_i poisoned
    cases run
    exact .inl poisoned
  · rename_i up
    have healthy := fit.resolve_left up
    refine autocommit_agrees (by simpa using up) (fun e s fails invalid => ?_) healthy run failed
    obtain ⟨⟨m, entries, rep, agree⟩, neat⟩ := healthy
    rw [treePut_invalidArgument (rep.facing io) (neat.facing io) (of_decide_eq_true invalid) fails]
    exact ⟨.facing _ io, rfl⟩

theorem delete_agrees {key : Bytes} {io : List (Option Fault)} (fit : h.Fit)
    (run : h.call (.delete key io none) = some (r, h')) (failed : r ≠ .ok) :
    h'.needsReopen = true ∨ h.NoEffect true h.nextTxid h' := by
  simp only [call, perform] at run
  split at run
  · rename_i poisoned
    cases run
    exact .inl poisoned
  · rename_i up
    have healthy := fit.resolve_left up
    refine autocommit_agrees (by simpa using up) (fun e s fails gone => ?_) healthy run failed
    obtain ⟨⟨m, entries, rep, agree⟩, neat⟩ := healthy.facing io
    have removal := treeDelete_removal rep key h.nextTxid false
    rw [fails] at removal
    cases removal with
    | absent look same untouched =>
      refine ⟨⟨untouched.view, ?_, ?_, ?_, ?_, same.readable⟩, untouched.wal⟩
      all_goals rw [same.metaPage]; rfl
    | fault foreign _ =>
      have found : isNotFound (.status e) = true := gone
      rw [foreign] at found
      cases found

theorem commit_agrees {t : TxId} {late : Option Late} (fit : h.Fit)
    (clean : (DbCall.commit t late).clean h = true) (run : h.call (.commit t late) = some (r, h'))
    (failed : r ≠ .ok) : h'.needsReopen = true ∨ h.NoEffect false t h' := by
  simp only [call, perform, onTxn] at run
  split at run
  · cases run
  · rename_i x found
    split at run
    · match late with
      | none =>
        have same := maybeAutoCheckpoint_needsReopen run
        cases up : h'.needsReopen with
        | true => exact .inl rfl
        | false => exact absurd (maybeAutoCheckpoint_ok (same.symm.trans up) run) failed
      | some (.flush f e) =>
        obtain ⟨-, run⟩ := Option.ite_none_right_eq_some.mp run
        obtain ⟨g, -, eq⟩ := Option.map_eq_some_iff.mp run
        cases eq
        exact .inl rfl
      | some (.checkpoint f e) =>
        have idle : x.begun = false := by simpa [DbCall.clean, found] using clean
        simp only [commitBody, idle, Bool.false_eq_true, if_false] at run
        obtain ⟨up, kept, none⟩ := maybeAutoCheckpoint_fault run
        have healthy : Healthy h.store := fit.resolve_left (by simpa [ended, setTxn] using up)
        refine .inr ⟨seen_unmoved healthy kept, fun q mem marker => none q mem ?_⟩
        have both : q.txid = t ∧ q.body = .commit := by simpa [commits] using marker
        exact both.2
    · cases run
      exact .inr (.refl false t h)

end Handle

theorem healthy_create (vol : Volume) (wal : Option LogWriter) : Healthy (create vol wal) :=
  ⟨⟨_, create_models vol wal⟩, False.elim, fun _ => Page.packed_blank rfl⟩

/-- A handle over any sound tree, in every state it reaches: a failed Put, Delete or Commit has
poisoned it or has had no effect, unless a step after the write has failed. -/
theorem status_tells_outcome_of_clean_calls (s : Store) (options : Options) (healthy : Healthy s)
    (events : List HandleEvent) :
    EveryState Handle.next (fun h => ∀ c r h', h.call c = some (r, h') → c.clean h = true →
      c.Agrees h r h') (.opened s options) events := by
  have fit : EveryState Handle.next Handle.Fit (.opened s options) events :=
    everyState_invariant (fun _ _ _ fit step => fit.next step) (.inr healthy)
  refine fit.imp fun h fit c r h' run clean => ?_
  cases c with
  | put key value io late =>
    obtain rfl : late = none := Option.isNone_iff_eq_none.mp clean
    exact Handle.put_agrees fit run
  | delete key io late =>
    obtain rfl : late = none := Option.isNone_iff_eq_none.mp clean
    exact Handle.delete_agrees fit run
  | commit t late => exact Handle.commit_agrees fit clean run
  | _ => trivial

/-- The flush of a Commit fails after a write. -/
theorem failed_commit_poisons : ∃ h r h',
    run Handle.next (.opened (create ⟨100, by decide⟩ (some (.open [] 1))) ⟨true, 0⟩)
      [.call (.begin 0), .call (.txnPut 1 [1] [2] false [])] = some h ∧
    h.call (.commit 1 (some (.flush .sync (.IoError "fsync")))) = some (r, h') ∧
    r = .failed (.IoError "fsync") ∧ (h'.needsReopen = true ∨ h.NoEffect false 1 h') := by
  have reach : ((run Handle.next (.opened (create ⟨100, by decide⟩ (some (.open [] 1))) ⟨true, 0⟩)
      [.call (.begin 0), .call (.txnPut 1 [1] [2] false [])]).bind fun h =>
      (h.call (.commit 1 (some (.flush .sync (.IoError "fsync"))))).map Prod.fst) =
      some (.failed (.IoError "fsync")) := by
    decide +kernel
  obtain ⟨h, begun, rest⟩ := Option.bind_eq_some_iff.mp reach
  obtain ⟨⟨r, h'⟩, called, rfl⟩ := Option.map_eq_some_iff.mp rest
  refine ⟨h, _, h', begun, called, rfl, ?_⟩
  exact (status_tells_outcome_of_clean_calls _ _ (healthy_create _ _) _).last begun _ _ h' called rfl nofun

theorem failed_flush_leaves_the_write :
    ¬ ∀ (s : Store) (options : Options) (events : List HandleEvent), Healthy s →
      EveryState Handle.next (fun h => ∀ c r h', h.call c = some (r, h') → c.Agrees h r h')
        (.opened s options) events := by
  intro every
  let h : Handle := .opened (create ⟨100, by decide⟩ (some (.open [] 1))) ⟨true, 0⟩
  let put : DbCall := .put [1] [2] [] (some (.flush .sync (.IoError "fsync")))
  have outcome : (h.call put).map (fun o => (o.1, o.2.needsReopen, o.2.seen [1])) =
      some (.failed (.IoError "fsync"), false, some [2]) := by
    decide +kernel
  obtain ⟨⟨r, h'⟩, run, eq⟩ := Option.map_eq_some_iff.mp outcome
  obtain ⟨rfl, up, after⟩ : r = _ ∧ h'.needsReopen = _ ∧ h'.seen [1] = _ := by simpa using eq
  have agrees := (every _ _ [] (healthy_create _ _)).head put _ h' run
  rcases agrees nofun with poisoned | noEffect
  · rw [up] at poisoned
    cases poisoned
  · have before : h.seen [1] = none := by decide +kernel
    have same := noEffect.seen [1]
    rw [after, before] at same
    cases same

end PagerDB

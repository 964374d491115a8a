import PagerDB.Db.Poison
import PagerDB.Recovery.Recount
import PagerDB.Recovery.Trail

/-! What the steps of a handle do to the records of its log. A tree operation adds records of its own
transaction about its own key, however it ends; flushes and checkpoints add markers, or empty the log. -/
namespace PagerDB

open KeepsLib Store

def LogRecord.onKey (r : LogRecord) (key : Bytes) : Bool := r.body.write.any fun w => w.key = key

theorem LogRecord.onKey_iff {r : LogRecord} {key : Bytes} :
    r.onKey key = true ↔ ∃ w, r.body.write = some w ∧ w.key = key := by
  simp [onKey, Option.any_eq_true]

def LogRecord.isMarker (r : LogRecord) : Prop := r.txid = kInvalidTxId ∧ r.body = .checkpoint

/-- A record of an operation that writes this key and begins or ends nothing. -/
structure LogRecord.Of (t : TxId) (key : Bytes) (r : LogRecord) : Prop where
  txid : r.txid = t
  inner : r.body ≠ .begin ∧ r.body ≠ .commit ∧ r.body ≠ .abort
  keys : ∀ k, r.onKey k = true → k = key

/- LSNs. -/

structure LogWriter.Ascending (w : LogWriter) : Prop where
  sorted : (recordsOf w.chunks).Pairwise fun a b => a.lsn < b.lsn
  below : ∀ r ∈ recordsOf w.chunks, r.lsn < w.endLsn

def Store.Ascending (s : Store) : Prop := ∀ w, s.wal = some w → w.Ascending

namespace LogWriter.Ascending

variable {w w' : LogWriter}

theorem of_empty (empty : recordsOf w.chunks = []) : w.Ascending := by
  constructor
  · rw [empty]
    exact .nil
  · rw [empty]
    exact List.forall_mem_nil _

theorem same (ascending : w.Ascending) (chunks : w'.chunks = w.chunks) (ends : w'.endLsn = w.endLsn) :
    w'.Ascending := by
  constructor
  · rw [chunks]
    exact ascending.sorted
  · rw [chunks, ends]
    exact ascending.below

theorem logged (ascending : w.Ascending) (txid : TxId) (opEnd : Bool) (body : LogBody) :
    (w.logged txid opEnd body).Ascending := by
  have grows : w.endLsn < (w.logged txid opEnd body).endLsn := by
    rw [logged_endLsn]
    exact Nat.lt_add_of_pos_right (LogRecord.serializedSize_pos _)
  constructor
  · rw [logged_chunks, recordsOf_append, recordsOf_singleton, List.pairwise_append]
    refine ⟨ascending.sorted, List.pairwise_singleton _ _, fun r mem q new => ?_⟩
    rw [List.mem_singleton.mp new]
    exact ascending.below r mem
  · rw [logged_chunks, recordsOf_append, recordsOf_singleton]
    intro r mem
    rcases List.mem_append.mp mem with old | new
    · exact (ascending.below r old).trans grows
    · rw [List.mem_singleton.mp new]
      exact grows

end LogWriter.Ascending

/- Flushes, checkpoints and evictions. -/

/-- The log keeps what it has or is emptied, and gains checkpoint markers. -/
structure Store.Trims (s s' : Store) : Prop where
  log : ∃ kept new, s'.records = kept ++ new ∧ (kept = s.records ∨ kept = []) ∧ ∀ r ∈ new, r.isMarker
  ascends : s.Ascending → s'.Ascending

namespace Store.Trims

variable {s s' : Store}

theorem trans {a b c : Store} (h : Trims a b) (g : Trims b c) : Trims a c := by
  obtain ⟨kept, new, log, old, markers⟩ := h.log
  obtain ⟨kept', new', log', old', markers'⟩ := g.log
  refine ⟨?_, fun start => g.ascends (h.ascends start)⟩
  rcases old' with rfl | rfl
  · refine ⟨kept, new ++ new', by rw [log', log, List.append_assoc], old, fun r mem => ?_⟩
    exact (List.mem_append.mp mem).elim (markers r) (markers' r)
  · exact ⟨[], new', log', .inr rfl, markers'⟩

theorem of_wal (same : s'.wal = s.wal) : Trims s s' :=
  ⟨⟨s.records, [], by rw [Store.records, same, List.append_nil]; rfl, .inl rfl, List.forall_mem_nil _⟩,
    fun start w is => start w (same ▸ is)⟩

theorem refl (s : Store) : Trims s s := of_wal rfl

theorem emptied (empty : ∀ w, s'.wal = some w → recordsOf w.chunks = []) : Trims s s' := by
  refine ⟨⟨[], [], ?_, .inr rfl, List.forall_mem_nil _⟩, fun _ w is => .of_empty (empty w is)⟩
  unfold Store.records
  cases is : s'.wal with
  | none => rfl
  | some w => exact empty w is

theorem onLog {f : LogWriter → LogWriter} (chunks : ∀ w, (f w).chunks = w.chunks)
    (ends : ∀ w, (f w).endLsn = w.endLsn) : Trims s (s.onLog f) := by
  refine ⟨⟨s.records, [], ?_, .inl rfl, List.forall_mem_nil _⟩, fun start w is => ?_⟩
  · unfold Store.records Store.onLog
    cases s.wal with
    | none => rfl
    | some w => simp [chunks]
  · obtain ⟨v, there, rfl⟩ := Option.map_eq_some_iff.mp is
    exact (start v there).same (chunks v) (ends v)

theorem flush (s : Store) : Trims s (s.onLog LogWriter.flush) := onLog LogWriter.flush_chunks fun _ => rfl

theorem flushFault {f : FlushFault} (run : s.flushFault f = some s') : Trims s s' := by
  obtain ⟨w', found, rfl⟩ := Option.map_eq_some_iff.mp run
  obtain ⟨w, wal, fault⟩ := Option.bind_eq_some_iff.mp found
  have same : w'.chunks = w.chunks ∧ w'.endLsn = w.endLsn := by
    cases f with
    | write =>
      obtain ⟨-, eq⟩ := Option.ite_none_left_eq_some.mp fault
      cases eq
      exact ⟨rfl, rfl⟩
    | sync =>
      obtain ⟨-, eq⟩ := Option.ite_none_left_eq_some.mp fault
      cases eq
      exact ⟨by simp [LogWriter.chunks], rfl⟩
  refine ⟨⟨s.records, [], ?_, .inl rfl, List.forall_mem_nil _⟩, fun start v is => ?_⟩
  · simp [Store.records, wal, same.1]
  · obtain rfl := Option.some.inj is
    exact (start w wal).same same.1 same.2

theorem flushedAll (s : Store) : Trims s s.flushedAll := (flush s).trans (of_wal rfl)

theorem logMarker (s : Store) : Trims s s.logMarker := by
  have chunks (w : LogWriter) : (w.append kInvalidTxId true .checkpoint).chunks =
      w.chunks ++ [.record (w.recordOf kInvalidTxId true .checkpoint)] :=
    w.logged_chunks kInvalidTxId true .checkpoint
  refine ⟨?_, fun start v is => ?_⟩
  · unfold Store.records Store.logMarker Store.onLog
    cases s.wal with
    | none => exact ⟨[], [], rfl, .inr rfl, List.forall_mem_nil _⟩
    | some w =>
      refine ⟨_, [w.recordOf kInvalidTxId true .checkpoint], ?_, .inl rfl, fun r mem => ?_⟩
      · exact (congrArg recordsOf (chunks w)).trans (recordsOf_append _ _)
      · rw [List.mem_singleton.mp mem]
        exact ⟨rfl, rfl⟩
  · obtain ⟨w, there, rfl⟩ := Option.map_eq_some_iff.mp is
    exact (start w there).logged kInvalidTxId true .checkpoint

theorem marked (s : Store) : Trims s s.marked := ((logMarker s).trans (flush _)).trans (of_wal rfl)

theorem holed (s : Store) : Trims s (s.flushedAll.marked.persistMeta.onLog LogWriter.holed) := by
  refine emptied fun w is => ?_
  obtain ⟨v, there, rfl⟩ := Option.map_eq_some_iff.mp is
  obtain ⟨u, -, rfl⟩ := Option.map_eq_some_iff.mp there
  rfl

theorem checkpointed (s : Store) (begun : Bool) : Trims s (s.checkpointed begun) := by
  unfold Store.checkpointed
  split
  · exact flushedAll s
  · refine emptied fun w is => ?_
    obtain ⟨v, -, rfl⟩ := Option.map_eq_some_iff.mp is
    rfl

theorem checkpointFault {begun : Bool} {f : CheckpointFault} (run : s.checkpointFault begun f = some s') :
    Trims s s' := by
  have marked : Trims s s.flushedAll.marked := (flushedAll s).trans (marked _)
  cases f with
  | flush f => exact flushFault run
  | page pid written =>
    obtain ⟨-, eq⟩ := Option.ite_none_right_eq_some.mp run
    cases eq
    exact (flush s).trans (of_wal rfl)
  | dataSync =>
    cases run
    exact flushedAll s
  | markerFlush f =>
    obtain ⟨-, run⟩ := Option.ite_none_left_eq_some.mp run
    exact ((flushedAll s).trans (logMarker _)).trans (flushFault run)
  | metaWrite fate =>
    obtain ⟨-, eq⟩ := Option.ite_none_left_eq_some.mp run
    cases eq
    exact marked.trans (of_wal rfl)
  | metaSync =>
    obtain ⟨-, eq⟩ := Option.ite_none_left_eq_some.mp run
    cases eq
    exact marked.trans (of_wal rfl)
  | truncate =>
    obtain ⟨-, eq⟩ := Option.ite_none_left_eq_some.mp run
    cases eq
    exact marked.trans (of_wal rfl)
  | truncateSync =>
    obtain ⟨-, eq⟩ := Option.ite_none_left_eq_some.mp run
    cases eq
    exact holed s

end Store.Trims

/- Tree operations. -/

/-- Since the log was `old`, only such an operation has added to it. -/
structure Store.Grew (old : List LogRecord) (t : TxId) (key : Bytes) (s : Store) : Prop where
  ascending : s.Ascending
  log : ∃ new, s.records = old ++ new ∧ ∀ r ∈ new, r.Of t key

section

variable {old : List LogRecord} {t : TxId} {key : Bytes} {s s' : Store}

theorem Store.Grew.same (grew : s.Grew old t key) (wal : s'.wal = s.wal) : s'.Grew old t key :=
  ⟨fun w is => grew.ascending w (wal ▸ is), by rw [Store.records, wal]; exact grew.log⟩

theorem Store.Grew.refl (ascending : s.Ascending) (t : TxId) (key : Bytes) : s.Grew s.records t key :=
  ⟨ascending, [], (List.append_nil _).symm, List.forall_mem_nil _⟩

theorem Store.Grew.trans {u : Store} (grew : s.Grew old t key) (more : u.Grew s.records t key) :
    u.Grew old t key := by
  obtain ⟨new, log, mine⟩ := grew.log
  obtain ⟨new', log', mine'⟩ := more.log
  refine ⟨more.ascending, new ++ new', by rw [log', log, List.append_assoc], fun r mem => ?_⟩
  exact (List.mem_append.mp mem).elim (mine r) (mine' r)

theorem Store.Grew.logged (grew : s.Grew old t key) {w : LogWriter} (is : s.wal = some w) {opEnd : Bool}
    {body : LogBody} (own : (w.recordOf t opEnd body).Of t key)
      (wal : s'.wal = some (w.logged t opEnd body)) :
    s'.Grew old t key := by
  obtain ⟨new, log, mine⟩ := grew.log
  refine ⟨fun v is' => ?_, new ++ [w.recordOf t opEnd body], ?_, fun r mem => ?_⟩
  · cases wal.symm.trans is'
    exact (grew.ascending w is).logged t opEnd body
  · rw [← List.append_assoc, ← log]
    simp [Store.records, wal, is, LogWriter.logged_chunks]
  · rcases List.mem_append.mp mem with mem | mem
    · exact mine r mem
    · rw [List.mem_singleton.mp mem]
      exact own

abbrev Grows (old : List LogRecord) (t : TxId) (key : Bytes) {α : Type} (x : M α) : Prop :=
  KeepsAlways (Store.Grew old t key) x

theorem grows_of_wal {α : Type} {x : M α} (same : ∀ s, match x s with
    | .ok _ s' => s'.wal = s.wal
    | .error _ s' => s'.wal = s.wal) : Grows old t key x := by
  intro s grew
  have wal := same s
  cases run : x s with
  | ok a s' =>
    rw [run] at wal
    exact grew.same wal
  | error e s' =>
    rw [run] at wal
    exact grew.same wal

theorem grows_ioPoint : Grows old t key ioPoint := grows_of_wal fun s => by
  unfold ioPoint
  rcases s.io with _ | ⟨_ | fault, rest⟩
  · rfl
  · rfl
  · rfl

theorem grows_failIf (c : Prop) [Decidable c] (e : Failure) : Grows old t key (failIf c e) :=
  .ite (.throw e) (.pure ())

theorem grows_modify {f : Store → Store} (wal : ∀ s, (f s).wal = s.wal) : Grows old t key (modify f) :=
  .modify fun s grew => grew.same (wal s)

theorem grows_readPage (pid : PageId) : Grows old t key (readPage pid) := by
  refine KeepsAlways.get.bind fun s => (grows_failIf _ _).bind fun _ => (grows_failIf _ _).bind fun _ =>
    grows_ioPoint.bind fun _ => ?_
  cases s.disk pid with
  | some page => exact .pure _
  | none => exact .throw _

theorem grows_fetchPage (pid : PageId) : Grows old t key (fetchPage pid) := by
  refine KeepsAlways.get.bind fun s => ?_
  cases s.cache pid with
  | some f => exact .pure _
  | none => exact grows_ioPoint.bind fun _ => (grows_readPage pid).bind fun _ => grows_modify fun _ => rfl

theorem grows_newPage : Grows old t key newPage := by
  refine grows_ioPoint.bind fun _ => .bind ?_ fun pid => .bind (grows_modify fun _ => rfl) fun _ => .pure _
  refine KeepsAlways.get.bind fun s => .ite ?_ ?_
  · refine (grows_readPage _).bind fun page => ?_
    cases page.body with
    | free next => exact grows_ioPoint.bind fun _ => .bind (grows_modify fun _ => rfl) fun _ => .pure _
    | _ => exact .throw _
  · exact grows_ioPoint.bind fun _ => (grows_failIf _ _).bind fun _ =>
      .bind (grows_modify fun _ => rfl) fun _ => .pure _

theorem grows_appendRecord {opEnd : Bool} {body : LogBody} (plain : ∀ p page, body ≠ .pageImage p page)
    (own : ∀ lsn, (⟨lsn, t, opEnd, body⟩ : LogRecord).Of t key) : Grows old t key
      (appendRecord t opEnd body) := by
  intro s grew
  cases is : s.wal with
  | none =>
    have run : appendRecord t opEnd body s = .ok none s := by
      simp only [appendRecord, bind_of_ok get_run, is]
      rfl
    rw [run]
    exact grew
  | some w =>
    have run : appendRecord t opEnd body s =
        .ok (some w.endLsn) { s with wal := some (w.append t opEnd body) } := by
      simp only [appendRecord, bind_of_ok get_run, is]
      rfl
    have logged : w.logged t opEnd body = w.append t opEnd body ∧
      w.recordOf t opEnd body = ⟨w.endLsn, t, opEnd, body⟩ := by
      cases body with
      | pageImage p page => exact absurd rfl (plain p page)
      | _ => exact ⟨rfl, rfl⟩
    rw [run]
    exact grew.logged is (logged.2 ▸ own _) (congrArg some logged.1.symm)

theorem grows_logPageImage (pid : PageId) (opEnd : Bool) : Grows old t key (logPageImage pid t opEnd) := by
  intro s grew
  have dirtied : (s.dirtied pid).Grew old t key := grew.same rfl
  cases is : s.wal with
  | none =>
    have run : logPageImage pid t opEnd s = .ok () (s.dirtied pid) := by
      simp only [logPageImage, bind_of_ok (markDirty_run _), bind_of_ok get_run,
        show (s.dirtied pid).wal = none from is]
      rfl
    rw [run]
    exact dirtied
  | some w =>
    rw [Trail.logPageImage_eq is]
    have own : (w.recordOf t opEnd (.pageImage pid (s.view pid))).Of t key :=
      ⟨rfl, by simp [LogWriter.recordOf], fun k on => by cases on⟩
    exact dirtied.logged is own rfl

theorem grows (old : List LogRecord) (t : TxId) (key : Bytes) : Composes t (Grows old t key) where
  pure := .pure
  bind := .bind
  failIf c _ e _ := grows_failIf c e
  diverges := .throw _
  isEmpty _ grew := grew
  root next := KeepsAlways.get.bind fun _ => next _ _
  fetchPage := grows_fetchPage
  getPage _ _ grew := grew
  setPage _ _ := grows_of_wal fun _ => rfl
  markDirty _ := grows_of_wal fun _ => rfl
  newPage := grows_newPage
  appendRecord opEnd body event := by
    refine grows_appendRecord (fun p page is => ?_) fun lsn => ⟨rfl, ⟨?_, ?_, ?_⟩, fun k on => ?_⟩
    all_goals cases body <;> simp_all [LogBody.isPageEvent, LogRecord.onKey, LogBody.write]
  logPageImage := grows_logPageImage
  setRootPageId _ := grows_modify fun _ => rfl
  addToNumKeys _ := grows_modify fun _ => rfl

theorem Grows.ends {α : Type} {x : M α} (grows : ∀ old, Grows old t key x) (ascending : s.Ascending)
    (io : List (Option Fault)) : (∀ a s', x (s.facing io) = .ok a s' → s'.Grew s.records t key) ∧
      ∀ e s', x (s.facing io) = .error e s' → s'.Grew s.records t key := by
  have start : (s.facing io).Grew s.records t key := (Grew.refl ascending t key).same rfl
  have after := grows s.records (s.facing io) start
  constructor
  · intro a s' run
    rwa [run] at after
  · intro e s' run
    rwa [run] at after

end

end PagerDB

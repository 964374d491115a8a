import PagerDB.Recovery.RedoLoop

/-! Redo from any mix of page versions. A log suffix of complete operations leads from whatever a
crash has left
of the pages to those that it was written on, and a second run of the loop changes none of them. -/
namespace PagerDB

open KeepsLib MachineLib Store

/-- The records of complete operations that were written on the pages of a checkpoint. -/
structure LogSuffix (checkpoint : Lsn) (rs : List LogRecord) (x : Shape) : Prop where
  history : x.History rs
  firstImages : FirstImages 0 rs
  complete : Complete checkpoint rs
  since : ∀ r ∈ rs, checkpoint ≤ r.lsn

/-- From every mix of versions the loop ends with the pages of `y`, and so it does when it runs again. -/
def Converges (checkpoint : Lsn) (log rs : List LogRecord) (x y : Shape) : Prop :=
  ∀ (z : Shape) (t : Store), x.Crashed rs z → Mirrors z t → y.numPages ≤ max x.numPages t.vol.maxPages →
    ∃ b t', redoLoop checkpoint log t = .ok b t' ∧ Mirrors y t' ∧
      ∃ b' t'', redoLoop checkpoint log t' = .ok b' t'' ∧ Mirrors y t''

variable {checkpoint : Lsn} {old rs cut : List LogRecord} {x y z : Shape}

theorem Mirrors.agree {t : Store} (mirrors : Mirrors z t) (agree : y.Agree z) : Mirrors y t where
  root := mirrors.root.trans agree.root
  numPages := mirrors.numPages.trans agree.numPages
  pages p lt := (mirrors.pages p (agree.numPages ▸ lt)).trans (agree.pages p lt)
  frames p f here := agree.numPages ▸ mirrors.frames p f here
  free := mirrors.free
  io := mirrors.io

theorem LogSuffix.complete_after (suffix : LogSuffix checkpoint rs x)
    (skipped : ∀ r ∈ old, r.lsn < checkpoint) :
    Complete checkpoint (old ++ rs) := by
  have before : ∀ t, (old.filter fun r => checkpoint ≤ r.lsn ∧ r.txid = t) = [] := by
    intro t
    refine List.filter_eq_nil_iff.mpr fun r mem late => ?_
    simp only [decide_eq_true_eq] at late
    exact absurd (skipped r mem) (not_lt.mpr late.1)
  intro t r last
  rw [List.filter_append, before, List.nil_append] at last
  exact suffix.complete t r last

theorem LogSuffix.applicable_eq (suffix : LogSuffix checkpoint rs x)
    (skipped : ∀ r ∈ old, r.lsn < checkpoint) :
    applicable checkpoint (old ++ rs) = rs := by
  rw [applicable_of_complete (suffix.complete_after skipped), List.filter_append]
  have none : (old.filter fun r => checkpoint ≤ r.lsn) = [] :=
    List.filter_eq_nil_iff.mpr fun r mem => by simpa using skipped r mem
  have all : (rs.filter fun r => checkpoint ≤ r.lsn) = rs :=
    List.filter_eq_self.mpr fun r mem => by simpa using suffix.since r mem
  rw [none, all, List.nil_append]

theorem LogSuffix.redoes {t : Store} (suffix : LogSuffix checkpoint rs x)
    (skipped : ∀ r ∈ old, r.lsn < checkpoint)
    (opened : ∀ r ∈ cut, r.opEnd = false) (replay : Shape.redoAll rs x = some y) (mixed : x.Mixed rs z)
    (mirrors : Mirrors z t) (room : y.numPages ≤ max z.numPages t.vol.maxPages) :
    ∃ t', redoLoop checkpoint (old ++ rs ++ cut) t = .ok (rs.any z.applies) t' ∧ Mirrors y t' ∧
      Steady t t' := by
  obtain ⟨y', z', replay', redo, agree⟩ := mixed.converges suffix.history
  obtain rfl := Option.some.inj (replay.symm.trans replay')
  obtain ⟨t', run, mirrors', steady⟩ := mirrors.applyAll (agree.numPages ▸ room) redo false
  refine ⟨t', ?_, mirrors'.agree agree, steady⟩
  rw [redoLoop, applicable_cut opened, suffix.applicable_eq skipped]
  exact run

theorem LogSuffix.converges (suffix : LogSuffix checkpoint rs x) (skipped : ∀ r ∈ old, r.lsn < checkpoint) :
    ∃ y, Shape.redoAll rs x = some y ∧ Converges checkpoint (old ++ rs) rs x y := by
  obtain ⟨y, replay⟩ := suffix.history.replays
  refine ⟨y, replay, fun z t crashed mirrors room => ?_⟩
  have whole : old ++ rs ++ [] = old ++ rs := List.append_nil _
  have nothing : ∀ r ∈ ([] : List LogRecord), r.opEnd = false := List.forall_mem_nil _
  obtain ⟨t', run, mirrors', -⟩ := suffix.redoes skipped nothing replay
    (crashed.mixed suffix.firstImages) mirrors
    (crashed.numPages ▸ room)
  have same : y.Agree y := ⟨rfl, rfl, fun _ _ => rfl⟩
  obtain ⟨t'', again, mirrors'', -⟩ := suffix.redoes skipped nothing replay (same.mixed replay) mirrors'
    (le_max_left _ _)
  exact ⟨_, t', whole ▸ run, mirrors', _, t'', whole ▸ again, mirrors''⟩

/- Between two checkpoints. -/

/-- What happens to a store while no call fails, but for a Delete that does not find its key. -/
inductive Work where
  | call (c : Call) (txid : TxId) (wantBefore : Bool) (io : List (Option Fault))
  /-- A record of a transaction or a checkpoint. -/
  | marker (txid : TxId) (body : LogBody)
  | flush
  /-- A checkpoint while a transaction has begun. -/
  | flushAll
  | evict (pid : PageId)
  | fetch (pid : PageId) (io : List (Option Fault))

def work (s : Store) : Work → Option Store
  | .call c txid wantBefore io =>
    match c.perform txid wantBefore (s.facing io) with
    | .ok _ s' => some s'
    | .error e s' => if c.mayEndWith e then some s' else none
  | .marker txid body => if body.ofTree then none else some (s.onLog (·.append txid true body))
  | .flush => some (s.onLog LogWriter.flush)
  | .flushAll => some (s.checkpointed true)
  | .evict pid => s.evict pid
  | .fetch pid io =>
    match fetchPage pid (s.facing io) with
    | .ok _ s' => some s'
    | .error .. => none

theorem Store.flushedAll_version (s : Store) : s.flushedAll.version = s.version := by
  funext p
  cases frame : s.cache p with
  | none => simp [Store.version, Store.flushedAll, Store.writePages, Store.onLog, frame]
  | some f => simp [Store.version, Store.flushedAll, Store.writePages, Store.onLog, frame]

structure Store.AtCheckpoint (s : Store) (w : LogWriter) : Prop where
  wal : s.wal = some w
  chunks : w.chunks = []
  imaged : w.imaged = []
  start : s.metaPage.checkpointLsn ≤ w.endLsn

theorem Store.checkpointed_atCheckpoint {s : Store} {w : LogWriter} (wal : s.wal = some w) :
    ∃ w', (s.checkpointed false).AtCheckpoint w' := by
  have marked : s.flushedAll.marked.persistMeta.wal =
      some (((w.flush).append kInvalidTxId true .checkpoint).flush) := by
    simp [Store.marked, Store.flushedAll, Store.logMarker, Store.onLog, Store.writePages,
      Store.persistMeta, wal]
  have emptied : (s.checkpointed false).wal = some
      (((w.flush.append kInvalidTxId true .checkpoint).flush).truncate
        (s.checkpointed false).metaPage.checkpointLsn) :=
    congrArg (Option.map fun w : LogWriter => w.truncate (s.checkpointed false).metaPage.checkpointLsn) marked
  exact ⟨_, emptied, rfl, rfl, le_rfl⟩

/-- The log as it was written from `s₀` on, and what it leads to. -/
structure Written (s₀ : Store) (w₀ : LogWriter) (s : Store) (w : LogWriter) (rs : List LogRecord) : Prop where
  wal : s.wal = some w
  chunks : w.chunks = rs.map .record
  imaged : w.Imaged
  complete : Complete w₀.endLsn rs
  replay : Shape.redoAll rs s₀.shape = some s.shape
  history : s₀.shape.History rs
  since : ∀ r ∈ rs, w₀.endLsn ≤ r.lsn
  later : w₀.endLsn ≤ w.endLsn
  ahead : s.Ahead
  tidy : s.Tidy
  vol : s.vol = s₀.vol
  room : s.metaPage.numPages ≤ max s₀.metaPage.numPages s₀.vol.maxPages

theorem Complete.append {txid : TxId} {gs : List LogRecord} (complete : Complete checkpoint rs)
    (group : Group txid true gs) (since : ∀ r ∈ gs, checkpoint ≤ r.lsn) : Complete checkpoint (rs ++ gs) := by
  obtain ⟨init, last, rfl, opened, id, ends⟩ := group
  intro t r final
  by_cases same : t = txid
  · subst same
    have late := since last (by simp)
    rw [← List.append_assoc, List.filter_append] at final
    have joins : ([last].filter fun r => checkpoint ≤ r.lsn ∧ r.txid = t) = [last] := by simp [late, id]
    rw [joins, List.getLast?_concat] at final
    exact Option.some.inj final ▸ ends
  · have out : ((init ++ [last]).filter fun r => checkpoint ≤ r.lsn ∧ r.txid = t) = [] := by
      refine List.filter_eq_nil_iff.mpr fun r mem both => ?_
      simp only [decide_eq_true_eq] at both
      rcases List.mem_append.mp mem with mem | mem
      · exact same (both.2.symm.trans (opened r mem).1)
      · rw [List.mem_singleton.mp mem] at both
        exact same (both.2.symm.trans id)
    rw [List.filter_append, out, List.append_nil] at final
    exact complete t r final

namespace Written

variable {s₀ s s' : Store} {w₀ w : LogWriter} {txid : TxId}

theorem start (at_ : s₀.AtCheckpoint w₀) (ahead : s₀.Ahead) (tidy : s₀.Tidy) : Written s₀ w₀ s₀ w₀ [] where
  wal := at_.wal
  chunks := at_.chunks
  imaged := by
    constructor
    · rw [at_.chunks]
      exact nofun
    · intro p known
      simp [LogWriter.needsImage, at_.imaged] at known
  complete := nofun
  replay := rfl
  history := trivial
  since := nofun
  later := le_rfl
  ahead := ahead
  tidy := tidy
  vol := rfl
  room := le_max_left _ _

theorem called {c : Call} {wantBefore : Bool} {io : List (Option Fault)} {b : Option Bytes}
    (written : Written s₀ w₀ s w rs) (run : c.perform txid wantBefore (s.facing io) = .ok b s') :
    ∃ w' gs, Trail (s.facing io) w txid true [] s' w' gs s'.shape ∧ Written s₀ w₀ s' w' (rs ++ gs) := by
  have tidy : (s.facing io).Tidy := ⟨written.tidy.cache, written.tidy.disk⟩
  have ahead := ahead_lasting.facing s io written.ahead
  obtain ⟨w', gs, x, tr⟩ := call_trail ahead tidy written.wal c run
  obtain rfl := tr.shape_eq
  refine ⟨w', gs, tr, tr.wal, ?_, tr.imaged written.imaged, ?_, ?_, ?_, ?_, ?_, ?_, ?_, ?_, ?_⟩
  · rw [tr.chunks, written.chunks, List.map_append]
  · exact written.complete.append tr.group fun r mem => written.later.trans (tr.since r mem)
  · rw [Shape.redoAll_append, written.replay]
    exact tr.redone
  · exact written.history.append written.replay tr.history
  · exact List.forall_mem_append.mpr ⟨written.since, fun r mem => written.later.trans (tr.since r mem)⟩
  · exact written.later.trans tr.later
  · exact tr.ahead
  · exact tidy.after (fun _ => logs_perform c txid wantBefore) run
  · exact tr.vol.trans written.vol
  · refine tr.room.trans (max_le written.room (le_max_of_le_right ?_))
    exact (congrArg Volume.maxPages written.vol).le

theorem marker {body : LogBody} (written : Written s₀ w₀ s w rs) (marks : body.ofTree = false) :
    Written s₀ w₀ (s.onLog (·.append txid true body)) (w.append txid true body) (rs ++
      [⟨w.endLsn, txid, true, body⟩]) := by
  obtain ⟨target, plain, step⟩ : body.target = none ∧ w.logged txid true body = w.append txid true body ∧
      s.shape.redo ⟨w.endLsn, txid, true, body⟩ = some s.shape := by
    cases body with
    | checkpoint | begin | commit | abort => exact ⟨rfl, rfl, rfl⟩
    | _ => cases marks
  have tidy : (s.onLog (·.append txid true body)).Tidy := ⟨written.tidy.cache, written.tidy.disk⟩
  have wal : (s.onLog (·.append txid true body)).wal = some (w.append txid true body) := by
    simp [Store.onLog, written.wal]
  have late : ∀ r ∈ [(⟨w.endLsn, txid, true, body⟩ : LogRecord)], w₀.endLsn ≤ r.lsn :=
    List.forall_mem_singleton.mpr written.later
  refine ⟨wal, ?_, ?_, ?_, ?_, ?_, ?_, ?_, ?_, tidy, written.vol, written.room⟩
  · simp [LogWriter.append, LogWriter.chunks, ← written.chunks]
  · rw [← plain]
    exact written.imaged.logged fun p here => by rw [target] at here; cases here
  · exact written.complete.append ⟨[], _, rfl, List.forall_mem_nil _, rfl, rfl⟩ late
  · exact Shape.redoAll_snoc written.replay step
  · refine written.history.snoc written.replay (written.ahead.pos w written.wal)
      (written.ahead.older w written.wal)
      (fun p page image => ?_) step
    have image : body = .pageImage p page := image
    rw [image] at target
    cases target
  · exact List.forall_mem_append.mpr ⟨written.since, late⟩
  · exact written.later.trans (Nat.le_add_right _ _)
  · exact written.ahead.moved (fun _ f here => ⟨f, here⟩)
      (fun _ _ here => here) rfl rfl (GoesOn.append s body)

theorem moved {w' : LogWriter} (written : Written s₀ w₀ s w rs) (wal : s'.wal = some w')
    (chunks : w'.chunks = w.chunks) (imaged : w'.imaged = w.imaged) (same : w'.endLsn = w.endLsn)
    (shape : s'.shape = s.shape) (vol : s'.vol = s.vol) (ahead : s'.Ahead) (tidy : s'.Tidy) :
    Written s₀ w₀ s' w' rs where
  wal := wal
  chunks := chunks.trans written.chunks
  imaged := by
    refine ⟨chunks ▸ written.imaged.first, fun p known => ?_⟩
    rw [chunks]
    refine written.imaged.known p ?_
    unfold LogWriter.needsImage at known ⊢
    rwa [imaged] at known
  complete := written.complete
  replay := by rw [shape]; exact written.replay
  history := written.history
  since := written.since
  later := written.later.trans same.ge
  ahead := ahead
  tidy := tidy
  vol := vol.trans written.vol
  room := (congrArg Shape.numPages shape).le.trans written.room

theorem misses {key : Bytes} {wantBefore : Bool} {io : List (Option Fault)} {e : Failure}
    (written : Written s₀ w₀ s w rs) (run : treeDelete key txid wantBefore (s.facing io) = .error e s')
    (gone : isNotFound e = true) :
    Trail (s.facing io) w txid false [] s' w [] (s.facing io).shape ∧ Written s₀ w₀ s' w rs := by
  have start := (ahead_lasting.facing s io written.ahead).trail (w := w) written.wal txid
  have tr := misses_trail start run gone
  have kept := (ahead_lasting.ends (ahead_lasting.delete key txid wantBefore) written.ahead io).2 _ _ run
  obtain ⟨old, logged⟩ := written.tidy.logged
  have tidy := (logged_lasting.ends (logged_lasting.delete key txid wantBefore) logged io).2 _ _ run
  exact ⟨tr, written.moved tr.wal rfl rfl rfl tr.shape_eq.symm tr.vol kept tidy.tidy⟩

theorem flushed (written : Written s₀ w₀ s w rs) : Written s₀ w₀ (s.onLog LogWriter.flush) w.flush rs :=
  written.moved (by simp [Store.onLog, written.wal]) (LogWriter.flush_chunks w) rfl rfl rfl rfl
    (ahead_lasting.flush s written.ahead) ⟨written.tidy.cache, written.tidy.disk⟩

theorem flushedAll (written : Written s₀ w₀ s w rs) : Written s₀ w₀ s.flushedAll w.flush rs := by
  obtain ⟨old, logged⟩ := written.tidy.logged
  have shape : s.flushedAll.shape = s.shape := by
    simp only [Store.shape, Store.flushedAll_version]
    rfl
  have wal : s.flushedAll.wal = some w.flush := congrArg (Option.map LogWriter.flush) written.wal
  exact written.moved wal (LogWriter.flush_chunks w) rfl rfl shape rfl
    (ahead_lasting.checkpointed s true written.ahead) (logged_lasting.checkpointed s true logged).tidy

theorem evicted {pid : PageId} (written : Written s₀ w₀ s w rs) (run : s.evict pid = some s') :
    Written s₀ w₀ s' w rs := by
  obtain ⟨-, version, page, wal, vol⟩ := evict_eq run
  have shape : s'.shape = s.shape := by simp only [Store.shape, version, page]
  have tidy := written.tidy.step (show callStep s (.evict pid) = some s' from run)
  exact written.moved (wal.trans written.wal) rfl rfl rfl shape vol (written.ahead.evict run) tidy

theorem fetched {pid : PageId} {io : List (Option Fault)} {u : Unit} (written : Written s₀ w₀ s w rs)
    (run : fetchPage pid (s.facing io) = .ok u s') : Written s₀ w₀ s' w rs := by
  have ahead := ahead_lasting.facing s io written.ahead
  have tidy : (s.facing io).Tidy := ⟨written.tidy.cache, written.tidy.disk⟩
  obtain ⟨-, -, version, -⟩ := ahead.resident.fetch run
  have same := fetchPage_same run
  have shape : s'.shape = s.shape := by
    simp only [Store.shape, version, same.metaPage]
    rfl
  have kept := (ahead_lasting.ends (ahead_lasting.fetch pid) written.ahead io).1 _ _ run
  exact written.moved ((fetchPage_wal run).trans written.wal) rfl rfl rfl shape same.vol kept
    (tidy.after (fun _ => logs_fetchPage pid) run)

theorem step {e : Work} (written : Written s₀ w₀ s w rs) (run : work s e = some s') :
    ∃ w' rs', Written s₀ w₀ s' w' rs' := by
  cases e with
  | call c txid wantBefore io =>
    simp only [work] at run
    split at run
    · rename_i ends
      cases run
      obtain ⟨w', gs, -, after⟩ := written.called ends
      exact ⟨w', _, after⟩
    · rename_i ends
      obtain ⟨may, eq⟩ := Option.ite_none_right_eq_some.mp run
      cases eq
      cases c with
      | put key value => cases may
      | delete key => exact ⟨w, rs, (written.misses ends may).2⟩
  | marker txid body =>
    obtain ⟨marks, eq⟩ := Option.ite_none_left_eq_some.mp run
    cases eq
    exact ⟨_, _, written.marker (Bool.eq_false_iff.mpr marks)⟩
  | flush =>
    cases run
    exact ⟨_, rs, written.flushed⟩
  | flushAll =>
    cases run
    exact ⟨_, rs, written.flushedAll⟩
  | evict pid => exact ⟨w, rs, written.evicted run⟩
  | fetch pid io =>
    simp only [work] at run
    split at run
    · rename_i ends
      cases run
      exact ⟨w, rs, written.fetched ends⟩
    · cases run

theorem logSuffix (written : Written s₀ w₀ s w rs) (at_ : s₀.AtCheckpoint w₀) :
    LogSuffix s₀.metaPage.checkpointLsn rs s₀.shape := by
  have since : ∀ r ∈ rs, s₀.metaPage.checkpointLsn ≤ r.lsn :=
    fun r mem => at_.start.trans (written.since r mem)
  have records : recordsOf w.chunks = rs := by
    rw [written.chunks]
    simp [recordsOf]
  refine ⟨written.history, records ▸ written.imaged.first, fun t r last => written.complete t r ?_, since⟩
  have same : (rs.filter fun r => w₀.endLsn ≤ r.lsn ∧ r.txid = t) =
      rs.filter fun r => s₀.metaPage.checkpointLsn ≤ r.lsn ∧ r.txid = t := by
    refine List.filter_congr fun r mem => ?_
    simp only [written.since r mem, since r mem, true_and]
  rwa [same]

theorem run {works : List Work} (at_ : s₀.AtCheckpoint w₀) (ahead : s₀.Ahead) (tidy : s₀.Tidy)
    (reach : run work s₀ works = some s) : ∃ w rs, Written s₀ w₀ s w rs := by
  have step : ∀ s e t, (∃ w rs, Written s₀ w₀ s w rs) → work s e = some t → ∃ w rs, Written s₀ w₀ t w rs :=
    fun s e t written next => by
      obtain ⟨w, rs, written⟩ := written
      exact written.step next
  exact run_invariant step ⟨w₀, [], start at_ ahead tidy⟩ reach

end Written

/-- Redo converges from every mix of page versions, of which one is unreadable only where the
suffix has a record of
the page; and what is logged from a checkpoint on, while no call fails, is such a suffix and leads
to its pages. -/
theorem redo_converges :
    (∀ (checkpoint : Lsn) (old rs : List LogRecord) (x : Shape), LogSuffix checkpoint rs x →
      (∀ r ∈ old, r.lsn < checkpoint) →
      ∃ y, Shape.redoAll rs x = some y ∧ Converges checkpoint (old ++ rs) rs x y) ∧
    ∀ (s₀ s : Store) (w₀ : LogWriter) (works : List Work), s₀.AtCheckpoint w₀ → s₀.Ahead → s₀.Tidy →
      run work s₀ works = some s → ∃ w rs, s.wal = some w ∧ w.chunks = rs.map .record ∧
        LogSuffix s₀.metaPage.checkpointLsn rs s₀.shape ∧ Shape.redoAll rs s₀.shape = some s.shape ∧
        s.metaPage.numPages ≤ max s₀.metaPage.numPages s₀.vol.maxPages := by
  refine ⟨fun checkpoint old rs x suffix skipped => suffix.converges skipped, ?_⟩
  intro s₀ s w₀ works at_ ahead tidy reach
  have step : ∀ s e t, (∃ w rs, Written s₀ w₀ s w rs) → work s e = some t → ∃ w rs, Written s₀ w₀ t w rs :=
    fun s e t written next => by
      obtain ⟨w, rs, written⟩ := written
      exact written.step next
  obtain ⟨w, rs, written⟩ := run_invariant step ⟨w₀, [], Written.start at_ ahead tidy⟩ reach
  exact ⟨w, rs, written.wal, written.chunks, written.logSuffix at_, written.replay, written.room⟩

/- A torn page. -/

/-- The file as a reopened handle finds it, one of its pages unreadable. -/
def Store.torn (s : Store) (pid : PageId) : Store :=
  { s with cache := fun _ => none, disk := fun p => if p = pid then none else s.disk p, io := [] }

theorem Store.Ahead.mirrors_torn {s : Store} (ahead : s.Ahead) (pid : PageId) :
    Mirrors (s.torn pid).shape (s.torn pid) :=
  ⟨rfl, rfl, fun _ _ => rfl, nofun, ahead.resident.free, rfl⟩

def fourPuts : Option Handle := run Handle.next
    (.opened (create ⟨100, by decide⟩ (some (.open [] 1))) ⟨true, 0⟩)
  ([1, 2, 3, 4].map (fun k => .call (.put [k] (List.replicate 1300 0) [] none)) ++ [.call (.checkpoint none)])

def updateFourth : Work := .call (.put [4] [9]) 2 false []

/-- The second leaf, page 3, is in the log. The first leaf is not, and redo does not read it. -/
theorem fourPuts_torn : ∃ h w₀ s, fourPuts = some h ∧ h.store.AtCheckpoint w₀ ∧ h.store.Ahead ∧ h.store.Tidy ∧
    run work h.store [updateFourth] = some s ∧
    (∀ pid < h.store.metaPage.numPages, ∀ p < h.store.metaPage.numPages, p ≠ pid →
      (h.store.torn pid).version p = h.store.version p) ∧
    (∃ r ∈ s.records, r.body.target = some 3) ∧ 3 < h.store.metaPage.numPages ∧ (s.version 2).isSome ∧
    ∃ b t, redoLoop h.store.metaPage.checkpointLsn s.records (h.store.torn 2) = .ok b t ∧
      t.version 2 = none := by
  have decided : (fourPuts.bind fun h => h.store.wal.bind fun w =>
    (run work h.store [updateFourth]).map fun s =>
      decide ((w.chunks = [] ∧ w.imaged = [] ∧ h.store.metaPage.checkpointLsn ≤ w.endLsn) ∧
        (∀ pid < h.store.metaPage.numPages, ∀ p < h.store.metaPage.numPages, p ≠ pid →
          (h.store.torn pid).version p = h.store.version p) ∧
        (s.records.any fun r => decide (r.body.target = some 3)) ∧ 3 < h.store.metaPage.numPages ∧
        (s.version 2).isSome ∧
        (do let _ ← redoLoop h.store.metaPage.checkpointLsn s.records; return (← get).version 2 : M _).run'
          (h.store.torn 2) = some none)) = some true := by
    decide +kernel
  obtain ⟨h, reach, decided⟩ := Option.bind_eq_some_iff.mp decided
  obtain ⟨w₀, wal, decided⟩ := Option.bind_eq_some_iff.mp decided
  obtain ⟨s, update, decided⟩ := Option.map_eq_some_iff.mp decided
  obtain ⟨⟨chunks, imaged, start⟩, others, about, pages, leaf, redo⟩ := of_decide_eq_true decided
  have ahead : (create ⟨100, by decide⟩ (some (.open [] 1))).Ahead :=
    create_ahead _ _ fun w is => Option.some.inj is ▸ by decide
  obtain ⟨old, logged⟩ := (create_tidy ⟨100, by decide⟩ (some (.open [] 1))).logged
  obtain ⟨r, mem, target⟩ := List.any_eq_true.mp about
  refine ⟨h, w₀, s, reach, ⟨wal, chunks, imaged, start⟩, (ahead_lasting.always ahead _ _).last reach,
    ((logged_lasting.always logged _ _).last reach).tidy, update, others, ⟨r, mem, of_decide_eq_true target⟩,
    pages, leaf, ?_⟩
  obtain ⟨_, ends⟩ := ok_of_result redo
  obtain ⟨b, t, ends, rest⟩ := bind_ok.mp ends
  obtain ⟨_, _, got, returned⟩ := bind_ok.mp rest
  cases got
  exact ⟨b, t, ends, (pure_ok.mp returned).1⟩

theorem torn_leaf_heals : ∃ h s rs b t, fourPuts = some h ∧ run work h.store [updateFourth] = some s ∧
    redoLoop h.store.metaPage.checkpointLsn rs (h.store.torn 3) = .ok b t ∧ Mirrors s.shape t := by
  obtain ⟨h, w₀, s, reach, at_, ahead, tidy, update, others, ⟨r, mem, target⟩, pages, -⟩ := fourPuts_torn
  obtain ⟨converges, written⟩ := redo_converges
  obtain ⟨w, rs, wal, log, suffix, replay, room⟩ := written h.store s w₀ _ at_ ahead tidy update
  obtain ⟨y, replay', heals⟩ := converges _ [] rs _ suffix nofun
  obtain rfl := Option.some.inj (replay.symm.trans replay')
  have torn : h.store.shape.Crashed rs (h.store.torn 3).shape := by
    refine ⟨rfl, rfl, fun p lt => ?_⟩
    by_cases leaf : p = 3
    · subst leaf
      refine .inr ⟨by simp [Store.shape, Store.torn, Store.version], r, ?_, target⟩
      simpa [Store.records, wal, log, recordsOf] using mem
    · exact .inl (.here (others 3 pages p lt leaf))
  obtain ⟨b, t, ends, mirrors, -⟩ := heals _ _ torn (ahead.mirrors_torn 3) room
  exact ⟨h, s, rs, b, t, reach, update, ends, mirrors⟩

theorem unlogged_leaf_stays_torn : ∃ (h : Handle) (s : Store) (w : LogWriter) (rs : List LogRecord) (b : Bool)
    (t : Store), fourPuts = some h ∧ run work h.store [updateFourth] = some s ∧
    s.wal = some w ∧ w.chunks = rs.map .record ∧ LogSuffix h.store.metaPage.checkpointLsn rs h.store.shape ∧
    Shape.redoAll rs h.store.shape = some s.shape ∧
    (∀ p < h.store.metaPage.numPages, p ≠ 2 → (h.store.torn 2).version p = h.store.version p) ∧
    (h.store.torn 2).version 2 = none ∧ Mirrors (h.store.torn 2).shape (h.store.torn 2) ∧
    redoLoop h.store.metaPage.checkpointLsn rs (h.store.torn 2) = .ok b t ∧ ¬Mirrors s.shape t := by
  obtain ⟨h, w₀, s, reach, at_, ahead, tidy, update, others, -, pages, leaf, b, t, ends, gone⟩ :=
    fourPuts_torn
  obtain ⟨mid, once, last⟩ := Option.bind_eq_some_iff.mp update
  cases last
  obtain ⟨w, rs, written⟩ := (Written.start at_ ahead tidy).step once
  have records : s.records = rs := by simp [Store.records, written.wal, written.chunks, recordsOf]
  rw [records] at ends
  have two : 2 < h.store.metaPage.numPages := lt_trans (by decide) pages
  refine ⟨h, s, w, rs, b, t, reach, update, written.wal, written.chunks, written.logSuffix at_,
    written.replay,
    others 2 two, by simp [Store.torn, Store.version], ahead.mirrors_torn 2, ends, fun mirrors => ?_⟩
  have grown : 2 < s.metaPage.numPages := two.trans_le (Shape.redoAll_grows written.replay)
  have same : t.version 2 = s.version 2 := mirrors.pages 2 grown
  rw [← same, gone] at leaf
  cases leaf

end PagerDB

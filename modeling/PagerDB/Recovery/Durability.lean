import PagerDB.Recovery.Survival

/-! Durability. Whatever happens to a database directory, a handle that is up answers as a map that
has performed the
calls that the crashes have left, in their order, and these are all that were flushed and some more. -/
namespace PagerDB

open LogWriter (fileBytes)
open LedgerLib MachineLib Store

inductive Directory.Holds (d : Directory) (l : Ledger Call) : Prop where
  | up {w₀ w : LogWriter} {rs : List LogRecord} (running : Running d l w₀ w rs)
  | down {w₀ w' w : LogWriter} {s : Store} {rk : List LogRecord} (fallen : Fallen d l w₀ w' s w rk)
  | redoing {w₀ w' w : LogWriter} {s : Store} {rk todo : List LogRecord} {applied : Bool}
    (redoing : Redoing d l w₀ w' s w rk todo applied)

section

variable {d d' : Directory} {l l' : Ledger Call} {w₀ w w' : LogWriter} {s s' : Store}
    {rs rk ts : List LogRecord}
  {c : Call} {txid : TxId} {wantBefore : Bool} {io : List
    (Option Fault)} {pid p : PageId} {m : RefMap} {e : Work}

theorem Directory.worked_wrote (idle : ∀ p, e.writes d.store p = false) : (d.worked e s).wrote = d.wrote := by
  funext p
  simp [Directory.worked, idle]

namespace Running

theorem retains (running : Running d l w₀ w rs) : Retains d l w₀ w rs :=
  ⟨running.remains.recorded.sound, running.remains.recorded.base, running.remains.recorded.chunks,
    running.survives⟩

theorem called {b : Option Bytes} (running : Running d l w₀ w rs) (id : txid ≠ kInvalidTxId)
    (run : c.perform txid wantBefore (d.store.facing io) = .ok b s') :
    ∃ w' gs, Running (d.worked (.call c txid wantBefore io) s') ⟨l.entries ++ [c],
      l.durable⟩ w₀ w' (rs ++ gs) := by
  have wrote : (d.worked (.call c txid wantBefore io) s').wrote = d.wrote :=
    Directory.worked_wrote fun _ => rfl
  have old := running.remains
  obtain ⟨w', gs, recorded, file, group, tree⟩ := old.recorded.called run
  have remains : Remains (d.worked (.call c txid wantBefore io) s') (l.entries ++
    [c]) w₀ s' w' (rs ++ gs) := by
    refine Remains.moved (d := d) ⟨old.founded, recorded, ?_, old.wrote.mono gs⟩ rfl fun p _ =>
      congrFun wrote p
    rw [effects_snoc]
    exact old.maps.perform run
  have sound : (⟨l.entries ++ [c], l.durable⟩ : Ledger Call).Sound :=
    Ledger.next_sound (e := .add c) running.sound rfl
  have before : Retains (d.worked (.call c txid wantBefore io) s') ⟨l.entries ++ [c], l.durable⟩ w₀ w rs :=
    ⟨old.recorded.sound, old.recorded.base, old.recorded.chunks, fun ts least most =>
      (running.survives ts least most).moved rfl (fun p _ => congrFun wrote p) (List.prefix_append _ _) rfl⟩
  have after := before.appended recorded.sound
    (recorded.base.trans old.recorded.base.symm) file recorded.chunks
    fun survives us pre => by
      obtain ⟨init, last, rfl, opened, -, -⟩ := group
      rcases List.prefix_concat_iff.mp pre with rfl | part
      · exact remains.survives sound
      · refine survives.loose fun r mem => .inl ?_
        obtain ⟨same, ends⟩ := opened r (part.subset mem)
        refine ⟨ends, same ▸ id, fun is => ?_⟩
        have tree := tree r (List.mem_append_left _ (part.subset mem))
        rw [is] at tree
        cases tree
  exact ⟨w', gs, running.stage, remains, after.survives, sound⟩

theorem quiet (running : Running d l w₀ w rs) (idle : ∀ p, e.writes d.store p = false)
    (recorded : Recorded d.base w₀ s' w rs) (more : List Call)
      (maps : s'.Maps (effects (l.entries ++ more))) :
    Running (d.worked e s') ⟨l.entries ++ more, l.durable⟩ w₀ w rs := by
  have wrote : (d.worked e s').wrote = d.wrote := Directory.worked_wrote idle
  refine ⟨running.stage, Remains.moved (d := d) ⟨running.remains.founded, recorded, maps,
    running.remains.wrote⟩ rfl
    fun p _ => congrFun wrote p, fun ts least most => ?_, ?_⟩
  · exact (running.survives ts least most).moved rfl (fun p _ =>
      congrFun wrote p) (List.prefix_append _ _) rfl
  · exact running.sound.trans (List.prefix_append _ _).length_le

theorem settled (running : Running d l w₀ w rs) (recorded : Recorded d.base w₀ s' w' rs)
    (whole : w'.buffer = [])
    (maps : s'.Maps (effects l.entries)) (wrote : (d.worked e s').Wrote rs) (same : l'.entries = l.entries)
    (sound : l'.Sound) : Running (d.worked e s') l' w₀ w' rs := by
  have remains : Remains (d.worked e s') l'.entries w₀ s' w' rs :=
    ⟨running.remains.founded, recorded, same ▸ maps, wrote⟩
  refine ⟨running.stage, remains, fun ts least most => ?_, sound⟩
  obtain ⟨-, all⟩ := LogWriter.split_chunks recorded.chunks
  rw [whole, List.append_nil] at all
  obtain rfl : ts = rs := most.eq_of_length (le_antisymm most.length_le (all ▸ least.length_le))
  exact remains.survives sound

theorem written (running : Running d l w₀ w rs) (dirty : d.store.isDirty p = true) :
    (Shape.Later rs d.base.shape fun y => y.pages p = some (d.store.view p)) ∧ ∃ r ∈ rs,
      r.body.target = some p := by
  have recorded := running.remains.recorded
  refine ⟨.last recorded.replay ?_, recorded.dirty p dirty⟩
  cases frame : d.store.cache p with
  | none => simp [Store.isDirty, frame] at dirty
  | some f => simp [Store.shape, Store.version, Store.view, frame]

theorem flushed (running : Running d l w₀ w rs) (same : l'.entries = l.entries) (sound : l'.Sound) :
    Running (d.worked .flush (d.store.onLog LogWriter.flush)) l' w₀ w.flush rs :=
  running.settled running.remains.recorded.flushed rfl (running.remains.maps.alike (Unmoved.onLog _ _).alike)
    (running.remains.wrote.worked fun _ writes => absurd writes Bool.false_ne_true) same sound

theorem flushedAll (running : Running d l w₀ w rs) (same : l'.entries = l.entries) (sound : l'.Sound) :
    Running (d.worked .flushAll d.store.flushedAll) l' w₀ w.flush rs :=
  running.settled running.remains.recorded.flushedAll rfl
    (running.remains.maps.alike (Unmoved.flushedAll _).alike)
    (running.remains.wrote.worked fun _ dirty => running.written dirty) same sound

theorem evicted (running : Running d l w₀ w rs) (run : (d.store.enforceWalRule pid).evict pid = some s') :
    ∃ w', Running (d.worked (.evict pid) s') l w₀ w' rs := by
  have recorded := running.remains.recorded
  have maps := running.remains.maps
  cases dirty : d.store.isDirty pid with
  | true =>
    have flushes : d.store.enforceWalRule pid = d.store.onLog LogWriter.flush :=
      if_pos ⟨dirty, recorded.dirty_stamped dirty⟩
    rw [flushes] at run
    refine ⟨w.flush, running.settled (recorded.flushed.evicted run) rfl ?_
      (running.remains.wrote.worked fun p writes => ?_)
      rfl running.sound⟩
    · exact (maps.alike (Unmoved.onLog _ _).alike).alike (evict_same run).alike
    · exact running.written (of_decide_eq_true writes).2
  | false =>
    have kept : d.store.enforceWalRule pid = d.store := if_neg (by simp [dirty])
    rw [kept] at run
    have idle : ∀ p, Work.writes d.store (.evict pid) p = false := by
      intro p
      refine decide_eq_false fun both => ?_
      rw [both.1, dirty] at both
      cases both.2
    have after := running.quiet idle (recorded.evicted run) []
      (by rw [List.append_nil]; exact maps.alike (evict_same run).alike)
    rw [List.append_nil] at after
    exact ⟨w, after⟩

theorem fetched {u : Unit} (running : Running d l w₀ w rs)
    (run : fetchPage pid (d.store.facing io) = .ok u s') :
    Running (d.worked (.fetch pid io) s') l w₀ w rs := by
  obtain ⟨δ, models⟩ := running.remains.maps
  have start : Models ((d.store.facing io).miscounted δ) (effects l.entries) := models.facing io
  have maps : s'.Maps (effects l.entries) := ⟨δ, start.alike ((fetchPage_same run).alike.miscounted δ)⟩
  have after := running.quiet (e := .fetch pid io) (fun _ => rfl) (running.remains.recorded.fetched run) []
    (by rw [List.append_nil]; exact maps)
  rwa [List.append_nil] at after

theorem marked (running : Running d l w₀ w rs) :
    Running (d.worked (.marker kInvalidTxId .checkpoint)
      (d.store.onLog (·.append kInvalidTxId true .checkpoint))) l w₀
      (w.append kInvalidTxId true .checkpoint) (rs ++ [⟨w.endLsn, kInvalidTxId, true, .checkpoint⟩]) := by
  have wrote := Directory.worked_wrote (d := d) (s := d.store.onLog (·.append kInvalidTxId true .checkpoint))
    (e := .marker kInvalidTxId .checkpoint) fun _ => rfl
  have old := running.remains
  refine ⟨running.stage, Remains.moved (d := d) ⟨old.founded, old.recorded.marker,
    old.maps.alike (Unmoved.onLog _ _).alike, old.wrote.mono _⟩ rfl fun p _ => congrFun wrote p,
    fun ts least most => ?_, running.sound⟩
  exact (running.retains.marked.survives ts least most).moved rfl (fun p _ =>
    congrFun wrote p) List.prefix_rfl rfl

theorem work (running : Running d l w₀ w rs) (admits : e.autocommit = true)
    (step : PagerDB.work (e.guarded d.store) e = some s') :
    ∃ k l', (DirectoryEvent.work e).Means k ∧ l.next k = some l' ∧ (d.worked e s').Holds l' := by
  cases e with
  | call c txid wantBefore io =>
    refine ⟨.add c, ⟨l.entries ++ [c], l.durable⟩, rfl, rfl, ?_⟩
    simp only [PagerDB.work, Work.guarded] at step
    split at step
    · rename_i ends
      cases step
      obtain ⟨w', gs, after⟩ := running.called (of_decide_eq_true admits) ends
      exact .up after
    · rename_i ends
      obtain ⟨may, eq⟩ := Option.ite_none_right_eq_some.mp step
      cases eq
      refine .up (running.quiet (fun _ => rfl) (running.remains.recorded.misses ends may) [c] ?_)
      rw [effects_snoc]
      exact running.remains.maps.misses ends may
  | marker txid body =>
    obtain ⟨rfl, rfl⟩ := of_decide_eq_true admits
    cases step
    exact ⟨.idle, l, rfl, rfl, .up running.marked⟩
  | flush =>
    cases step
    exact ⟨.sync, _, rfl, rfl, .up (running.flushed rfl le_rfl)⟩
  | flushAll =>
    cases step
    exact ⟨.sync, _, rfl, rfl, .up (running.flushedAll rfl le_rfl)⟩
  | evict pid =>
    obtain ⟨w', after⟩ := running.evicted step
    exact ⟨.idle, l, rfl, rfl, .up after⟩
  | fetch pid io =>
    simp only [PagerDB.work, Work.guarded] at step
    split at step
    · rename_i ends
      cases step
      exact ⟨.idle, l, rfl, rfl, .up (running.fetched ends)⟩
    · cases step

end Running

/- Recovery. -/

theorem Halted.crash (halted : Halted d l w₀ w' s w rk) : l.next (.crash l.entries.length) = some l := by
  have same : (⟨l.entries.take l.entries.length, l.entries.length⟩ : Ledger Call) = l := by
    rw [List.take_length, ← halted.durable]
  exact (if_pos ⟨halted.durable.le, le_rfl⟩).trans (congrArg some same)

theorem Halted.enforceWalRule (halted : Halted d l w₀ w' s w rk) (pid : PageId) :
    d.store.enforceWalRule pid = d.store := by
  unfold Store.enforceWalRule
  split
  · have same : d.store.wal.map LogWriter.flush = d.store.wal := by
      rw [halted.wal, Option.map_some, halted.left.flush]
    exact congrArg (fun wal => { d.store with wal := wal }) same
  · rfl

namespace Redoing

variable {todo : List LogRecord} {applied : Bool} {r : LogRecord}

theorem written (redoing : Redoing d l w₀ w' s w rk todo applied) (dirty : d.store.isDirty p = true) :
    (Shape.Later rk d.base.shape fun y => y.pages p = some (d.store.view p)) ∧ ∃ r ∈ rk,
      r.body.target = some p := by
  refine ⟨?_, redoing.rebuilding.dirty p dirty⟩
  cases frame : d.store.cache p with
  | none => simp [Store.isDirty, frame] at dirty
  | some f =>
    refine redoing.rebuilding.version (redoing.rebuilding.frame_lt frame) ?_
    simp [Store.version, Store.view, frame]

theorem evicted (redoing : Redoing d l w₀ w' s w rk todo applied)
    (run : (d.store.enforceWalRule pid).evict pid = some s') :
    Redoing (d.worked (.evict pid) s') l w₀ w' s w rk todo applied := by
  rw [redoing.enforceWalRule] at run
  have wrote : (d.worked (.evict pid) s').Wrote rk :=
    redoing.remains.wrote.worked fun p writes => redoing.written (of_decide_eq_true writes).2
  obtain ⟨-, -, -, wal, -⟩ := evict_eq run
  exact ⟨⟨⟨redoing.remains.founded, redoing.remains.recorded, redoing.remains.maps, wrote⟩, redoing.left,
    wal.trans redoing.wal, redoing.durable⟩, redoing.stage, redoing.rebuilding.evicted run⟩

theorem redone (redoing : Redoing d l w₀ w' s w rk (r :: todo) applied) :
    ∃ now s', applyRecord r d.store = .ok now s' ∧
      Redoing (d.redone r todo (applied || now) s') l w₀ w' s w rk todo (applied || now) := by
  have room : s.shape.numPages ≤ max d.base.metaPage.numPages d.base.vol.maxPages :=
    redoing.remains.recorded.room
  obtain ⟨now, s', run, wal, rebuilding, heals⟩ := redoing.rebuilding.redo room
  refine ⟨now, s', run, ⟨⟨redoing.remains.founded, redoing.remains.recorded, redoing.remains.maps,
    fun p lt page mem => ?_,
    fun p lt some => ?_⟩, redoing.left, wal.trans redoing.wal, redoing.durable⟩, rfl, rebuilding⟩
  · rcases List.mem_append.mp mem with healed | old
    · obtain ⟨lt', here, -⟩ := heals p page (Option.mem_toList.mp healed)
      exact rebuilding.version lt' here
    · exact redoing.remains.wrote.versions p lt page old
  · cases healed : d.store.healing r p with
    | some page => exact (heals p page healed).2.2
    | none =>
      refine redoing.remains.wrote.logged p lt fun never => some ?_
      simp [Directory.redone, healed, never]

theorem settles (redoing : Redoing d l w₀ w' s w rk [] applied) :
    ∃ t, d.beforeCheckpoint = some t ∧ settle 1 (readAll w'.file) applied d.store = .ok () t ∧
      Rebuilt d.base rk s.shape w' (effects l.entries) t := by
  have calm := redoing.left.calm redoing.remains.recorded.calm
  obtain ⟨t, run, rebuilt⟩ := redoing.rebuilding.settles redoing.remains.maps redoing.wal
    (fun r mem _ => calm r mem) 1
    applied
  refine ⟨t, ?_, run, rebuilt⟩
  simp [Directory.beforeCheckpoint, redoing.stage, redoing.wal, run]

end Redoing

theorem Directory.Holds.ready (holds : d.Holds l) (before : d.beforeCheckpoint = some s) :
    ∃ w, Ready s w (effects l.entries) := by
  cases holds with
  | up running =>
    simp only [Directory.beforeCheckpoint, running.stage, Option.some.injEq] at before
    subst before
    exact ⟨_, running.remains.recorded.ready running.remains.maps⟩
  | down fallen =>
    simp only [Directory.beforeCheckpoint, fallen.stage] at before
    cases before
  | redoing redoing =>
    rename_i w₀ w' w s₁ rk todo applied
    cases todo with
    | nil =>
      obtain ⟨t, now, -, rebuilt⟩ := redoing.settles
      obtain rfl := Option.some.inj (now.symm.trans before)
      exact ⟨w', rebuilt.ready redoing.remains.recorded redoing.left⟩
    | cons r todo =>
      simp only [Directory.beforeCheckpoint, redoing.stage] at before
      cases before

/- Steps. -/

theorem Running.crashed (running : Running d l w₀ w rs) {inFlight : List (TxId × LogBody)}
    (all : ∀ f ∈ inFlight, f.1 ≠ kInvalidTxId ∧ f.2.ofTree) (bytes : Nat) (pages : PageId → PageFate) :
    ∃ k l', l.next (.crash k) = some l' ∧ (d.crashed (w.loggedAll inFlight) bytes pages).Holds l' := by
  obtain ⟨fs, continues, buffer, loose⟩ := w.loggedAll_spec all
  obtain ⟨k, l', w', s, wk, rk, cut, fallen⟩ :=
    (running.retains.loose continues buffer loose).crashed bytes pages
  exact ⟨k, l', cut, .down fallen⟩

theorem Running.crashedAtMarker (running : Running d l w₀ w rs) (bytes : Nat) (pages : PageId → PageFate) :
    ∃ k l', l.next (.crash k) = some l' ∧
      ((d.worked .flushAll d.store.flushedAll).crashed
        (w.flush.append kInvalidTxId true .checkpoint) bytes pages).Holds l' := by
  obtain ⟨k, l', w', s, wk, rk, cut, fallen⟩ :=
    (running.flushedAll rfl running.sound).retains.marked.crashed bytes pages
  exact ⟨k, l', cut, .down fallen⟩

namespace Redoing

variable {todo : List LogRecord} {applied : Bool}

theorem crashed (redoing : Redoing d l w₀ w' s w rk todo applied) (bytes : Nat) (pages : PageId → PageFate) :
    (d.crashed w' bytes pages).Holds l := by
  have file : w'.crashed bytes = w'.file := LogWriter.crashed_flushed redoing.left.buffer bytes
  have left := redoing.left
  rw [left.opened] at left
  obtain ⟨w'', fallen⟩ := redoing.toHalted.crashed d rfl redoing.remains.wrote file left pages
  exact .down fallen

theorem crashedAtMarker (redoing : Redoing d l w₀ w' s w rk todo applied) {t : Store}
    (rebuilt : Rebuilt d.base rk s.shape w' m t) (bytes : Nat) (pages : PageId → PageFate) :
    (({ d with store := t }.worked .flushAll t.flushedAll).crashed
      (w'.flush.append kInvalidTxId true .checkpoint) bytes
      pages).Holds l := by
  have again : Redoing { d with stage := .redoing [] applied, store := t } l w₀ w' s w rk [] applied :=
    ⟨⟨⟨redoing.remains.founded, redoing.remains.recorded, redoing.remains.maps,
      redoing.remains.wrote.versions,
      redoing.remains.wrote.logged⟩, redoing.left, rebuilt.wal, redoing.durable⟩, rfl, rebuilt.rebuilding⟩
  have wrote : ({ d with store := t }.worked .flushAll t.flushedAll).Wrote rk :=
    Directory.Wrote.worked ⟨redoing.remains.wrote.versions, redoing.remains.wrote.logged⟩ fun p dirty =>
      again.written dirty
  rw [redoing.left.flush]
  obtain ⟨w'', fallen⟩ := redoing.toHalted.crashed
    ({ d with store := t }.worked .flushAll t.flushedAll) rfl wrote rfl
    (redoing.left.marked bytes) pages
  exact .down fallen

end Redoing

theorem Fallen.rebuilt (fallen : Fallen d l w₀ w' s w []) :
    Rebuilt d.base [] s.shape w' (effects l.entries) d.store := by
  obtain ⟨m, founded⟩ := fallen.remains.founded
  have skipped : ∀ r ∈ ([] : List LogRecord), r.lsn < d.base.metaPage.checkpointLsn := List.forall_mem_nil _
  have start := Rebuilding.start fallen.remains.recorded founded fallen.opened fallen.past skipped
    (List.forall_mem_nil _)
  obtain ⟨d', entries, rep, agree⟩ := fallen.remains.maps
  exact ⟨start, fallen.wal, _, entries, start.mirrors.represents start.backed rep, agree⟩

theorem Fallen.opened_empty (fallen : Fallen d l w₀ w' s w rk) (empty : fileBytes w'.file = 0) :
    Running (.restarted d.store) l w' w' [] := by
  have file : w'.file = [] := eq_nil_of_no_bytes fallen.left.sizes empty
  obtain ⟨old, tail, read, -, -⟩ := fallen.left.parts
  obtain rfl : rk = [] := by
    rw [file] at read
    obtain ⟨front, -⟩ := List.append_eq_nil_iff.mp read.symm
    exact (List.append_eq_nil_iff.mp front).2
  have ready := fallen.rebuilt.ready fallen.remains.recorded fallen.left
  have start : w'.endLsn = d.store.metaCopy.logStart := by
    have ends : w'.endLsn = Journal.baseLsn (readAll w'.file) d.base.metaCopy + fileBytes w'.file := by
      conv_lhs => rw [fallen.left.opened]
      rfl
    have same : d.store.metaCopy.logStart = d.base.metaCopy.logStart := by
      unfold MetaCopy.logStart
      rw [Store.metaCopy, fallen.opened.checkpoint]
      rfl
    rw [ends, empty, file, same]
    rfl
  have imaged : w'.imaged = [] := by
    rw [fallen.left.opened]
    rfl
  have cold : ∀ p, d.store.version p = d.store.disk p :=
    fun p => by simp [Store.version, fallen.opened.cold p]
  have founded : d.store.Founded w' (effects l.entries) := by
    refine ⟨⟨fallen.wal, fallen.left.chunks.trans file, imaged,
      start ▸ d.store.metaCopy.le_logStart⟩, fallen.left.sound,
      start, ready.ahead, ⟨fun p f here => ?_, fun p page here => ?_⟩, ready.coherent, fun p => ?_,
        ready.maps⟩
    · cases (fallen.opened.cold p).symm.trans here
    · exact ready.tidy p page ((cold p).trans here)
    · simp [Store.isDirty, fallen.opened.cold p]
  have remains : Remains (.restarted d.store) l.entries w' d.store w' [] :=
    ⟨⟨_, founded⟩, founded.recorded, ready.maps, .start fun _ => rfl⟩
  refine ⟨rfl, remains, fun ts _ most => ?_, fallen.durable.le⟩
  obtain rfl := List.prefix_nil.mp most
  exact remains.survives fallen.durable.le

theorem Fallen.opens (fallen : Fallen d l w₀ w' s w rk) :
    Redoing { d with stage := .redoing (applicable d.store.metaPage.checkpointLsn
      (readAll w'.file)) false } l w₀ w' s w rk
      (applicable d.store.metaPage.checkpointLsn (readAll w'.file)) false := by
  obtain ⟨m, founded⟩ := fallen.remains.founded
  obtain ⟨old, tail, read, skipped, loose⟩ := fallen.left.parts
  have start := Rebuilding.start fallen.remains.recorded founded fallen.opened fallen.past
    (fun r mem => (skipped r mem).1) loose
  rw [← read, ← fallen.opened.checkpoint] at start
  exact ⟨⟨⟨fallen.remains.founded, fallen.remains.recorded, fallen.remains.maps,
    fallen.remains.wrote.versions,
    fallen.remains.wrote.logged⟩, fallen.left, fallen.wal, fallen.durable⟩, rfl, start⟩

namespace Directory.Holds

variable {event : DirectoryEvent} {todo : List LogRecord} {applied : Bool}

theorem work (holds : d.Holds l) (step : d.next (.work e) = some d') :
    ∃ k l', (DirectoryEvent.work e).Means k ∧ l.next k = some l' ∧ d'.Holds l' := by
  obtain ⟨admits, step⟩ := Option.ite_none_right_eq_some.mp step
  obtain ⟨s', run, rfl⟩ := Option.map_eq_some_iff.mp step
  cases holds with
  | up running =>
    rw [running.stage] at admits
    exact running.work admits run
  | down fallen =>
    rw [fallen.stage] at admits
    cases admits
  | redoing redoing =>
    rw [redoing.stage] at admits
    cases e with
    | evict pid => exact ⟨.idle, l, rfl, rfl, .redoing (redoing.evicted run)⟩
    | _ => cases admits

theorem checkpoint (holds : d.Holds l) (step : d.next .checkpoint = some d') :
    d'.Holds ⟨l.entries, l.entries.length⟩ := by
  obtain ⟨s, before, rfl⟩ := Option.map_eq_some_iff.mp step
  obtain ⟨w, ready⟩ := holds.ready before
  exact .up ready.checkpointed

theorem crash {inFlight : List (TxId × LogBody)} {bytes : Nat} {pages : PageId → PageFate} (holds : d.Holds l)
    (step : d.next (.crash inFlight bytes pages) = some d') : ∃ k l', l.next (.crash k) = some l' ∧
      d'.Holds l' := by
  obtain ⟨⟨alive, stage, all⟩, step⟩ := Option.ite_none_right_eq_some.mp step
  obtain ⟨w, wal, rfl⟩ := Option.map_eq_some_iff.mp step
  cases holds with
  | up running =>
    obtain rfl := Option.some.inj (running.remains.recorded.wal.symm.trans wal)
    exact running.crashed all bytes pages
  | down fallen => exact absurd fallen.stage alive
  | redoing redoing =>
    obtain rfl := Option.some.inj (redoing.wal.symm.trans wal)
    obtain rfl : inFlight = [] := stage.resolve_left fun up => by cases redoing.stage.symm.trans up
    exact ⟨_, l, redoing.crash, redoing.crashed bytes pages⟩

theorem crashAtMarker {bytes : Nat} {pages : PageId → PageFate} (holds : d.Holds l)
    (step : d.next (.crashAtMarker bytes pages) = some d') : ∃ k l', l.next (.crash k) = some l' ∧
      d'.Holds l' := by
  obtain ⟨s, before, step⟩ := Option.bind_eq_some_iff.mp step
  obtain ⟨v, last, rfl⟩ := Option.map_eq_some_iff.mp step
  have marked : s.flushedAll.logMarker.wal =
      s.wal.map fun w => w.flush.append kInvalidTxId true .checkpoint := by
    simp [Store.logMarker, Store.flushedAll, Store.onLog, Store.writePages, Option.map_map, Function.comp_def]
  obtain ⟨w, wal, rfl⟩ := Option.map_eq_some_iff.mp (marked.symm.trans last)
  cases holds with
  | up running =>
    simp only [beforeCheckpoint, running.stage, Option.some.injEq] at before
    subst before
    obtain rfl := Option.some.inj (running.remains.recorded.wal.symm.trans wal)
    exact running.crashedAtMarker bytes pages
  | down fallen =>
    simp only [beforeCheckpoint, fallen.stage] at before
    cases before
  | redoing redoing =>
    rename_i todo applied
    cases todo with
    | nil =>
      obtain ⟨t, now, -, rebuilt⟩ := redoing.settles
      obtain rfl := Option.some.inj (now.symm.trans before)
      obtain rfl := Option.some.inj (rebuilt.wal.symm.trans wal)
      exact ⟨_, l, redoing.crash, redoing.crashedAtMarker rebuilt bytes pages⟩
    | cons r todo =>
      simp only [beforeCheckpoint, redoing.stage] at before
      cases before

theorem crashBeforeTruncate (holds : d.Holds l) (step : d.next .crashBeforeTruncate = some d') :
    d'.Holds ⟨l.entries, l.entries.length⟩ := by
  obtain ⟨s, before, step⟩ := Option.bind_eq_some_iff.mp step
  obtain ⟨w', wal, rfl⟩ := Option.map_eq_some_iff.mp step
  obtain ⟨w, ready⟩ := holds.ready before
  obtain ⟨marked, -, -⟩ := checkpointed_wal ready.wal
  obtain rfl := Option.some.inj (marked.symm.trans wal)
  obtain ⟨w', s', w₁, fallen⟩ := ready.beforeTruncate fun _ => .version 0
  exact .down fallen

theorem «open» (holds : d.Holds l) (step : d.next .open = some d') : d'.Holds l := by
  obtain ⟨stage, step⟩ := Option.ite_none_right_eq_some.mp step
  obtain ⟨w, wal, rfl⟩ := Option.map_eq_some_iff.mp step
  cases holds with
  | up running => cases running.stage.symm.trans stage
  | down fallen =>
    obtain rfl := Option.some.inj (fallen.wal.symm.trans wal)
    split
    · rename_i empty
      exact .up (fallen.opened_empty empty)
    · exact .redoing fallen.opens
  | redoing redoing => cases redoing.stage.symm.trans stage

theorem redo (holds : d.Holds l) (step : d.next .redo = some d') : d'.Holds l := by
  cases holds with
  | up running =>
    simp only [next, running.stage] at step
    cases step
  | down fallen =>
    simp only [next, fallen.stage] at step
    cases step
  | redoing redoing =>
    rename_i todo applied
    cases todo with
    | nil =>
      simp only [next, redoing.stage] at step
      cases step
    | cons r todo =>
      obtain ⟨now, s', run, after⟩ := redoing.redone
      simp only [next, redoing.stage, run, Option.some.injEq] at step
      subst step
      exact .redoing after

theorem next (holds : d.Holds l) (step : d.next event = some d') :
    ∃ k l', event.Means k ∧ l.next k = some l' ∧ d'.Holds l' := by
  cases event with
  | work e => exact holds.work step
  | checkpoint => exact ⟨.sync, _, rfl, rfl, holds.checkpoint step⟩
  | crash inFlight bytes pages =>
    obtain ⟨k, l', cut, after⟩ := holds.crash step
    exact ⟨_, l', ⟨k, rfl⟩, cut, after⟩
  | crashAtMarker bytes pages =>
    obtain ⟨k, l', cut, after⟩ := holds.crashAtMarker step
    exact ⟨_, l', ⟨k, rfl⟩, cut, after⟩
  | crashBeforeTruncate => exact ⟨.sync, _, rfl, rfl, holds.crashBeforeTruncate step⟩
  | «open» => exact ⟨.idle, l, rfl, rfl, holds.open step⟩
  | redo => exact ⟨.idle, l, rfl, rfl, holds.redo step⟩

end Directory.Holds

/- Runs. -/

theorem Redoing.loops {todo : List LogRecord} {applied : Bool}
    (redoing : Redoing d l w₀ w' s w rk todo applied) :
    ∃ d' now, run Directory.next d (todo.map fun _ => .redo) = some d' ∧ d'.base = d.base ∧
      applyAll todo applied d.store = .ok now d'.store ∧ Redoing d' l w₀ w' s w rk [] now := by
  induction todo generalizing d applied with
  | nil => exact ⟨d, applied, rfl, rfl, rfl, redoing⟩
  | cons r todo ih =>
    obtain ⟨now, s', apply, after⟩ := redoing.redone
    obtain ⟨d', all, reach, base, loop, last⟩ := ih after
    have step : d.next .redo = some (d.redone r todo (applied || now) s') := by
      simp only [Directory.next, redoing.stage, apply]
    refine ⟨d', all, ?_, base, ?_, last⟩
    · exact (congrArg (Option.bind · fun d => run Directory.next d
        (todo.map fun _ => .redo)) step).trans reach
    · exact (bind_of_ok apply).trans loop

theorem Redoing.finishes {todo : List LogRecord} {applied : Bool}
    (redoing : Redoing d l w₀ w' s w rk todo applied) :
    ∃ now u t, applyAll todo applied d.store = .ok now u ∧
      u.metaPage.checkpointLsn = d.store.metaPage.checkpointLsn ∧
        settle 1 (readAll w'.file) now u = .ok () t ∧
      run Directory.next d ((todo.map fun _ => .redo) ++ [.checkpoint]) =
        some (.restarted (t.checkpointed false)) ∧
      t.Maps (effects l.entries) := by
  obtain ⟨d', now, reach, base, loop, last⟩ := redoing.loops
  obtain ⟨t, before, settles, rebuilt⟩ := last.settles
  have checkpoint : d'.store.metaPage.checkpointLsn = d.store.metaPage.checkpointLsn := by
    rw [last.rebuilding.checkpoint, base, redoing.rebuilding.checkpoint]
  refine ⟨now, d'.store, t, loop, checkpoint, settles, ?_, rebuilt.maps⟩
  have step : d'.next .checkpoint = some (.restarted (t.checkpointed false)) := congrArg (Option.map _) before
  rw [run_append, reach]
  exact (congrArg (Option.bind · some) step)

theorem Fallen.recovers (fallen : Fallen d l w₀ w' s w rk) (some_ : fileBytes w'.file ≠ 0) : ∃ t,
    recover 1 (readAll w'.file) d.store = .ok () t ∧ t.Maps (effects l.entries) ∧
      run Directory.next d (.open :: (applicable d.store.metaPage.checkpointLsn (readAll w'.file)).map
        (fun _ => DirectoryEvent.redo) ++ [.checkpoint]) = some (.restarted (t.checkpointed false)) := by
  obtain ⟨now, u, t, loop, checkpoint, settles, reach, maps⟩ := fallen.opens.finishes
  have redo : redoLoop d.store.metaPage.checkpointLsn (readAll w'.file) d.store = .ok now u := loop
  refine ⟨t, ?_, maps, ?_⟩
  · unfold settle at settles
    rw [bind_of_ok get_run, checkpoint] at settles
    unfold recover
    rw [bind_of_ok get_run, bind_of_ok redo]
    exact settles
  · have step : d.next .open = some { d with
        stage := .redoing (applicable d.store.metaPage.checkpointLsn (readAll w'.file)) false } := by
      simp only [Directory.next, fallen.stage, if_true, fallen.wal, Option.map_some, if_neg some_]
    exact (congrArg (Option.bind · fun d => run Directory.next d _) step).trans reach

theorem Directory.Holds.created (vol : Volume) : (Directory.created vol).Holds .empty := by
  have founded : (create vol (some (.open [] kFirstLsn))).Founded (.open [] kFirstLsn) (effects []) :=
    ⟨⟨rfl, rfl, rfl, Nat.zero_le _⟩, .truncate (.open [] kFirstLsn) kFirstLsn, rfl,
      create_ahead _ _ fun w is => Option.some.inj is ▸ Nat.one_pos, create_tidy _ _,
        (fun p f here => by cases here), fun _ => rfl, 0,
      (create_models _ _).miscounted_zero⟩
  have remains : Remains (Directory.created vol) [] (.open [] kFirstLsn)
    (create vol (some (.open [] kFirstLsn)))
      (.open [] kFirstLsn) [] :=
    ⟨⟨_, founded⟩, founded.recorded, founded.maps, .start fun _ => rfl⟩
  refine .up ⟨rfl, remains, fun ts _ most => ?_, le_rfl⟩
  obtain rfl := List.prefix_nil.mp most
  exact remains.survives (l := .empty) le_rfl

end

/-- A handle answers as this map, now or when `Open` is through. -/
structure Directory.Shows (d : Directory) (m : RefMap) : Prop where
  up : d.stage = .up → d.store.Answers m
  down : d.stage = .down → ∃ s, d.reopen = some s ∧ s.Answers m
  redoing : ∀ todo applied, d.stage = .redoing todo applied → ∃ s,
    run Directory.next d ((todo.map fun _ => .redo) ++ [.checkpoint]) = some (.restarted s) ∧ s.Answers m

theorem Directory.Holds.shows {d : Directory} {l : Ledger Call} (holds : d.Holds l) :
    d.Shows (effects l.entries) := by
  cases holds with
  | up running =>
    refine ⟨fun _ => running.remains.maps.answers, fun down => ?_, fun todo applied redoing => ?_⟩
    · cases running.stage.symm.trans down
    · cases running.stage.symm.trans redoing
  | down fallen =>
    refine ⟨fun up => ?_, fun _ => ?_, fun todo applied redoing => ?_⟩
    · cases fallen.stage.symm.trans up
    · unfold Directory.reopen
      rw [fallen.wal, Option.bind_some]
      split
      · rename_i empty
        exact ⟨d.store, rfl, (fallen.opened_empty empty).remains.maps.answers⟩
      · rename_i some_
        obtain ⟨t, run, maps, -⟩ := fallen.recovers some_
        rw [run]
        exact ⟨t.checkpointed false, rfl, (maps.alike (Unmoved.checkpointed t false).alike).answers⟩
    · cases fallen.stage.symm.trans redoing
  | redoing redoing =>
    refine ⟨fun up => ?_, fun down => ?_, fun todo applied stage => ?_⟩
    · cases redoing.stage.symm.trans up
    · cases redoing.stage.symm.trans down
    · cases redoing.stage.symm.trans stage
      obtain ⟨now, u, t, -, -, -, reach, maps⟩ := redoing.finishes
      exact ⟨t.checkpointed false, reach, (maps.alike (Unmoved.checkpointed t false).alike).answers⟩

theorem Directory.Holds.reaches {d d' : Directory} {l : Ledger Call} {events : List DirectoryEvent}
    (holds : d.Holds l)
    (reach : run Directory.next d events = some d') : ∃ ledger l',
      List.Forall₂ DirectoryEvent.Means events ledger ∧
      run Ledger.next l ledger = some l' ∧ d'.Holds l' :=
  run_simulated (R := Directory.Holds) (fun _ _ _ _ holds step => holds.next step) holds reach

/-- In every run from the created database on, crashes in recoveries included, a handle answers as
a map that has
performed the calls of the run, but for those that a crash has taken from the end of the list and
that were not durable. -/
theorem calls_survive_crashes (vol : Volume) (events : List DirectoryEvent) (d : Directory)
    (reach : run Directory.next (.created vol) events = some d) :
    ∃ ledger l, List.Forall₂ DirectoryEvent.Means events ledger ∧ run Ledger.next .empty ledger = some l ∧
      d.Shows (effects l.entries) := by
  obtain ⟨ledger, l, means, reach', holds⟩ := (Directory.Holds.created vol).reaches reach
  exact ⟨ledger, l, means, reach', holds.shows⟩

/-- A leaf that a flushed Put has changed is torn, healed by a recovery, and torn again in a crash
of the recovery. -/
def tornTwice : List DirectoryEvent :=
  [.work (.call (.put [1] [2]) 1 false []), .checkpoint, .work (.call (.put [1] [3]) 2 false []),
    .work .flush,
    .work (.evict 2), .crash [] 0 fun _ => .torn, .open, .redo, .crash [] 0 fun _ => .torn]

theorem torn_twice_recovers : ∃ d s, run Directory.next (.created ⟨70, by decide⟩) tornTwice = some d ∧
    d.store.disk 2 = none ∧ d.reopen = some s ∧ s.Answers (effects [.put [1] [2], .put [1] [3]]) := by
  have decided : ((run Directory.next (.created ⟨70, by decide⟩) tornTwice).map fun d =>
      decide (d.store.disk 2 = none ∧ d.stage = .down)) = some true := by
    decide +kernel
  obtain ⟨d, reach, decided⟩ := Option.map_eq_some_iff.mp decided
  obtain ⟨torn, down⟩ := of_decide_eq_true decided
  obtain ⟨ledger, l, means, reach', shows⟩ := calls_survive_crashes _ _ d reach
  obtain ⟨s, opened, answers⟩ := shows.down down
  refine ⟨d, s, reach, torn, opened, ?_⟩
  simp only [tornTwice, List.forall₂_cons_left_iff, DirectoryEvent.Means, List.forall₂_nil_left_iff] at means
  obtain ⟨_, _, rfl, ⟨_, _, rfl, ⟨_, _, rfl, ⟨_, _, rfl,
    ⟨_, _, rfl, ⟨_, _, ⟨k, rfl⟩, ⟨_, _, rfl, ⟨_, _, rfl, ⟨_, _, ⟨j, rfl⟩,
    rfl, rfl⟩, rfl⟩, rfl⟩, rfl⟩, rfl⟩, rfl⟩, rfl⟩, rfl⟩, rfl⟩ := means
  have cut : run Ledger.next (⟨[.put [1] [2], .put [1] [3]], 2⟩ : Ledger Call) [.crash k, .idle,
    .idle, .crash j] = some l :=
    reach'
  obtain ⟨t, first, cut⟩ := Option.bind_eq_some_iff.mp cut
  obtain ⟨⟨least, most⟩, eq⟩ := Option.ite_none_right_eq_some.mp first
  obtain rfl : k = 2 := le_antisymm most least
  cases eq
  have again : run Ledger.next (⟨[.put [1] [2], .put [1] [3]], 2⟩ : Ledger Call) [.crash j] = some l := cut
  obtain ⟨u, second, last⟩ := Option.bind_eq_some_iff.mp again
  obtain ⟨⟨least, most⟩, eq⟩ := Option.ite_none_right_eq_some.mp second
  obtain rfl : j = 2 := le_antisymm most least
  cases eq
  cases last
  exact answers

theorem DirectoryEvent.Means.all {events : List DirectoryEvent} {ledger : List (LedgerEvent Call)}
    (means : List.Forall₂ DirectoryEvent.Means events ledger) :
    ledger.flatMap LedgerEvent.added = events.flatMap DirectoryEvent.performs := by
  induction means with
  | nil => rfl
  | cons one _ ih => rw [List.flatMap_cons, List.flatMap_cons, one.added, ih]

/-- What a handle has answered after a flush or a checkpoint, every later handle answers, but for
the calls since then. -/
theorem flushed_calls_stay (vol : Volume) (before after : List DirectoryEvent) (e : DirectoryEvent)
    (d₁ d₂ : Directory)
    (syncs : e.syncs = true) (reach : run Directory.next (.created vol) (before ++ [e]) = some d₁)
    (later : run Directory.next d₁ after = some d₂) :
    ∃ calls more, calls.Sublist (before.flatMap DirectoryEvent.performs) ∧
      more.Sublist (after.flatMap DirectoryEvent.performs) ∧ d₁.Shows (effects calls) ∧
      d₂.Shows (effects (calls ++ more)) := by
  rw [run_append] at reach
  obtain ⟨d, first, last⟩ := Option.bind_eq_some_iff.mp reach
  obtain ⟨ks, l, means, reach₀, holds⟩ := (Directory.Holds.created vol).reaches first
  obtain ⟨d₁', step, same⟩ := Option.bind_eq_some_iff.mp last
  obtain rfl := Option.some.inj same
  obtain ⟨k, l₁, means₁, sync, holds₁⟩ := holds.next step
  obtain rfl := means₁.sync syncs
  obtain ⟨js, l₂, means₂, reach₂, holds₂⟩ := holds₁.reaches later
  have sound : l.Sound := (Ledger.run_synced (l := .empty) le_rfl reach₀).1
  have kept : l.entries <+: l₂.entries := Ledger.sync_keeps sound sync reach₂
  obtain ⟨more, all⟩ := kept
  have same : l₁.entries = l.entries := by
    cases sync
    rfl
  have early := Ledger.run_sublist reach₀
  have late := Ledger.run_sublist reach₂
  rw [DirectoryEvent.Means.all means] at early
  rw [DirectoryEvent.Means.all means₂, ← all, same, List.append_sublist_append_left] at late
  refine ⟨l.entries, more, early, late, same ▸ holds₁.shows, ?_⟩
  rw [all]
  exact holds₂.shows

def crashAfterFlush : List DirectoryEvent :=
  [.crash [] 0 fun _ => .version 0, .open, .redo, .redo, .redo, .checkpoint]

theorem flushed_put_stays : ∃ d₁ d₂ calls,
    run Directory.next (.created ⟨70, by decide⟩) ([.work (.call (.put [1] [2]) 1 false [])] ++
      [.work .flush]) = some d₁ ∧
      run Directory.next d₁ crashAfterFlush = some d₂ ∧ d₁.store.Answers (effects calls) ∧
      d₂.store.Answers (effects calls) := by
  have decided : ((run Directory.next (.created ⟨70, by decide⟩)
      ([.work (.call (.put [1] [2]) 1 false [])] ++ [.work .flush])).bind fun d₁ =>
        (run Directory.next d₁ crashAfterFlush).map fun d₂ =>
          decide (d₁.stage = .up ∧ d₂.stage = .up)) = some true := by
    decide +kernel
  obtain ⟨d₁, reach, decided⟩ := Option.bind_eq_some_iff.mp decided
  obtain ⟨d₂, later, decided⟩ := Option.map_eq_some_iff.mp decided
  obtain ⟨up₁, up₂⟩ := of_decide_eq_true decided
  obtain ⟨calls, more, -, none, shows₁, shows₂⟩ :=
    flushed_calls_stay _ _ crashAfterFlush _ d₁ d₂ rfl reach later
  obtain rfl := List.sublist_nil.mp none
  rw [List.append_nil] at shows₂
  exact ⟨d₁, d₂, calls, reach, later, shows₁.up up₁, shows₂.up up₂⟩

/-- After any crash `Recover` succeeds, and it does what the steps of the directory do. -/
theorem recover_succeeds (vol : Volume) (events : List DirectoryEvent) (d : Directory)
    (reach : run Directory.next (.created vol) events = some d) (down : d.stage = .down) :
    ∃ w, d.store.wal = some w ∧ (fileBytes w.file ≠ 0 → ∃ t, recover 1 (readAll w.file) d.store = .ok () t ∧
      run Directory.next d (.open :: (applicable d.store.metaPage.checkpointLsn (readAll w.file)).map
        (fun _ => DirectoryEvent.redo) ++ [.checkpoint]) = some (.restarted (t.checkpointed false))) := by
  obtain ⟨ledger, l, -, -, holds⟩ := (Directory.Holds.created vol).reaches reach
  cases holds with
  | up running => cases running.stage.symm.trans down
  | down fallen =>
    refine ⟨_, fallen.wal, fun some_ => ?_⟩
    obtain ⟨t, run, -, steps⟩ := fallen.recovers some_
    exact ⟨t, run, steps⟩
  | redoing redoing => cases redoing.stage.symm.trans down

theorem torn_twice_recover_succeeds : ∃ d w t, run Directory.next
    (.created ⟨70, by decide⟩) tornTwice = some d ∧
    d.store.disk 2 = none ∧ d.store.wal = some w ∧ recover 1 (readAll w.file) d.store = .ok () t := by
  have decided : ((run Directory.next (.created ⟨70, by decide⟩) tornTwice).bind fun d =>
    d.store.wal.map fun w =>
      decide (d.store.disk 2 = none ∧ d.stage = .down ∧ fileBytes w.file ≠ 0)) = some true := by
    decide +kernel
  obtain ⟨d, reach, decided⟩ := Option.bind_eq_some_iff.mp decided
  obtain ⟨w, wal, decided⟩ := Option.map_eq_some_iff.mp decided
  obtain ⟨torn, down, some_⟩ := of_decide_eq_true decided
  obtain ⟨w', wal', recovers⟩ := recover_succeeds _ _ d reach down
  obtain rfl := Option.some.inj (wal.symm.trans wal')
  obtain ⟨t, run, -⟩ := recovers some_
  exact ⟨d, w, t, reach, torn, wal, run⟩

/-- Write-ahead: when a dirty page is evicted, the log is durable, leads to this page and every
other, and tells of it. -/
theorem evicted_page_is_logged (vol : Volume) (events : List DirectoryEvent) (d d' : Directory) (pid : PageId)
    (reach : run Directory.next (.created vol) events = some d) (up : d.stage = .up)
      (dirty : d.store.isDirty pid = true)
    (step : d.next (.work (.evict pid)) = some d') :
    d'.store.disk pid = some (d.store.view pid) ∧ ∃ w rs, d'.store.wal = some w ∧ w.buffer = [] ∧
      w.file = rs.map .record ∧ Shape.redoAll rs d.base.shape = some d'.store.shape ∧
      (∃ r ∈ rs, r.body.target = some pid) ∧
      (∀ r ∈ rs, r.body.target = some pid → r.lsn ≤ (d.store.view pid).pageLsn) ∧
      (d.store.view pid).pageLsn < w.endLsn := by
  obtain ⟨ledger, l, -, -, holds⟩ := (Directory.Holds.created vol).reaches reach
  obtain ⟨-, step⟩ := Option.ite_none_right_eq_some.mp step
  obtain ⟨s', run, rfl⟩ := Option.map_eq_some_iff.mp step
  cases holds with
  | up running =>
    rename_i w₀ w rs
    have recorded := running.remains.recorded
    have flushes : d.store.enforceWalRule pid = d.store.onLog LogWriter.flush :=
      if_pos ⟨dirty, recorded.dirty_stamped dirty⟩
    have run : (d.store.enforceWalRule pid).evict pid = some s' := run
    rw [flushes] at run
    have after := recorded.flushed.evicted run
    obtain ⟨-, version, -, -, -⟩ := evict_eq run
    cases frame : d.store.cache pid with
    | none => simp [Store.isDirty, frame] at dirty
    | some f =>
      have holds := recorded.ahead.resident.frames pid f frame
      have here : d.store.version pid = some (d.store.view pid) := by simp [Store.version, Store.view, frame]
      have newest : (d.store.view pid).pageLsn < w.endLsn := recorded.ahead.view_lt recorded.wal holds.2
      refine ⟨?_, w.flush, rs, after.wal, rfl, recorded.chunks, after.replay, recorded.dirty pid dirty,
        fun r mem target => ?_, newest⟩
      · have gone : s'.cache pid = none := by
          cases still : s'.cache pid with
          | none => rfl
          | some g => exact absurd rfl (Recorded.evict_kept run still).1
        have same : s'.version pid = d.store.version pid := congrFun version pid
        rw [here] at same
        rw [Store.version, gone] at same
        exact same
      · obtain ⟨-, page, there, le⟩ := recorded.history.stamps recorded.replay mem target
        obtain rfl := Option.some.inj (here.symm.trans there)
        exact le
  | down fallen => cases fallen.stage.symm.trans up
  | redoing redoing => cases redoing.stage.symm.trans up

theorem new_root_is_logged : ∃ d d' w, ∃ rs : List LogRecord,
    run Directory.next (.created ⟨70, by decide⟩) [.work (.call (.put [1] [2]) 1 false [])] = some d ∧
      d.next (.work (.evict 2)) = some d' ∧ d'.store.disk 2 = some (d.store.view 2) ∧ d'.store.wal = some w ∧
      w.file = rs.map .record ∧ ∃ r ∈ rs, r.body.target = some 2 := by
  have decided : ((run Directory.next (.created ⟨70,
    by decide⟩) [.work (.call (.put [1] [2]) 1 false [])]).bind fun d =>
      (d.next (.work (.evict 2))).map fun _ => decide (d.stage = .up ∧ d.store.isDirty 2 = true)) =
        some true := by
    decide +kernel
  obtain ⟨d, reach, decided⟩ := Option.bind_eq_some_iff.mp decided
  obtain ⟨d', step, decided⟩ := Option.map_eq_some_iff.mp decided
  obtain ⟨up, dirty⟩ := of_decide_eq_true decided
  obtain ⟨disk, w, rs, wal, -, file, -, about, -⟩ := evicted_page_is_logged _ _ d d' 2 reach up dirty step
  exact ⟨d, d', w, rs, reach, step, disk, wal, file, about⟩

end PagerDB

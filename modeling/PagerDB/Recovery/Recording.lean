import PagerDB.Recovery.Directory
import PagerDB.Wal.CutLog

/-! A handle between two checkpoints, as a crash may find it. Its log leads from the pages of the
checkpoint to those
it has, a dirty page has a record that it is no older than, and a clean frame is as its page in the file. -/
namespace PagerDB

open LogWriter (fileBytes)
open KeepsLib MachineLib Store

def effects (calls : List Call) : RefMap := calls.foldl (fun m c => c.apply m) fun _ => none

theorem effects_snoc (calls : List Call) (c : Call) : effects (calls ++ [c]) = c.apply (effects calls) := by
  simp [effects]

/-- The tree holds this map, whatever the key count says. -/
def Store.Maps (s : Store) (m : RefMap) : Prop := ∃ d, Models (s.miscounted d) m

section

variable {s s' : Store} {m : RefMap} {c : Call} {txid : TxId} {wantBefore : Bool} {io : List (Option Fault)}

theorem Store.Maps.alike (maps : s.Maps m) (alike : Alike s s') : s'.Maps m := by
  obtain ⟨d, models⟩ := maps
  exact ⟨d, models.alike (alike.miscounted d)⟩

theorem Store.Maps.perform {b : Option Bytes} (maps : s.Maps m)
    (run : c.perform txid wantBefore (s.facing io) = .ok b s') : s'.Maps (c.apply m) := by
  obtain ⟨d, models⟩ := maps
  have start : Models ((s.facing io).miscounted d) m := models.facing io
  have blind := (Blindly.perform (d := d) c txid wantBefore).ok run
  cases c with
  | put key value => exact ⟨d, (start.put blind).2⟩
  | delete key => exact ⟨d, (start.delete blind).2.2⟩

theorem Store.Maps.misses {e : Failure} (maps : s.Maps m)
    (run : c.perform txid wantBefore (s.facing io) = .error e s') (may : c.mayEndWith e = true) :
    s'.Maps (c.apply m) := by
  obtain ⟨d, models⟩ := maps
  have start : Models ((s.facing io).miscounted d) m := models.facing io
  have blind := (Blindly.perform (d := d) c txid wantBefore).error run
  cases c with
  | put key value => cases may
  | delete key =>
    obtain ⟨absent, after⟩ := start.delete_absent blind may
    have same : Function.update m key none = m := by rw [← absent, Function.update_eq_self]
    rw [Call.apply, same]
    exact ⟨d, after⟩

structure Store.Answers (s : Store) (m : RefMap) : Prop where
  get : ∀ key io, match treeGet key (s.facing io) with
    | .ok value _ => m key = some value
    | .error e _ => (isNotFound e = true → m key = none) ∧ (io = [] → isNotFound e = true)
  scan : ∀ start endKey, ∃ seen s', scan start endKey (fun _ _ => true) (s.facing []) = .ok (seen, none) s' ∧
    (seen.map Prod.fst).Pairwise (· < ·) ∧ ∀ key value, (key, value) ∈ seen ↔
      m key = some value ∧ start ≤ key ∧ (endKey ≠ [] → key < endKey)

theorem Blindly.treeGet {d : Int} (key : Bytes) : Blindly d (treeGet key) := by
  refine (Blindly.composes kInvalidTxId).isEmpty.bind fun _ => (Blindly.failIf _ _).bind fun _ =>
    (Blindly.composes kInvalidTxId).findLeaf.bind fun leaf => (Blindly.getPage leaf).bind fun page => ?_
  cases page.getValue key with
  | some value => exact .pure _
  | none => exact .throw _

theorem Store.Maps.answers (maps : s.Maps m) : s.Answers m := by
  obtain ⟨d, models⟩ := maps
  have agrees := models.agrees
  constructor
  · intro key io
    have answer := agrees.get key io
    have same : treeGet key ((s.miscounted d).facing io) = _ := Blindly.treeGet (d := d) key (s.facing io)
    rw [same] at answer
    cases run : treeGet key (s.facing io) with
    | ok value s' =>
      rw [run] at answer
      exact answer
    | error e s' =>
      rw [run] at answer
      exact answer
  · intro start endKey
    obtain ⟨seen, s', run, sorted, all⟩ := agrees.scan start endKey
    obtain ⟨s'', run, -⟩ := (Blindly.scan start endKey fun _ _ => true).of_ok (s := s.facing []) run
    exact ⟨seen, s'', run, sorted, all⟩

end

/- What a crash may leave of a page. -/

namespace Shape

variable {x y : Shape} {rs ts : List LogRecord} {r : LogRecord} {p : PageId} {P : Shape → Prop}

theorem Later.mono (later : Later rs x P) (ts : List LogRecord) : Later (rs ++ ts) x P := by
  obtain ⟨us, vs, y, cut, replay, here⟩ := later
  exact ⟨us, vs ++ ts, y, by rw [cut, List.append_assoc], replay, here⟩

theorem Later.last (replay : redoAll rs x = some y) (here : P y) : Later rs x P :=
  ⟨rs, [], y, (List.append_nil rs).symm, replay, here⟩

theorem Later.after (replay : redoAll rs x = some y) (later : Later ts y P) : Later (rs ++ ts) x P := by
  obtain ⟨us, vs, z, cut, replay', here⟩ := later
  refine ⟨rs ++ us, vs, z, by rw [cut, List.append_assoc], ?_, here⟩
  rw [redoAll_append, replay]
  exact replay'

theorem redo_stamps (run : x.redo r = some y) (stamped : r.Stamped) (target : r.body.target = some p) :
    p < y.numPages ∧ ∃ page, y.pages p = some page ∧ r.lsn ≤ page.pageLsn := by
  have edits : ∀ {change : Page → Bool × Page}, x.edit p r.lsn change = some y →
      p < y.numPages ∧ ∃ page, y.pages p = some page ∧ r.lsn ≤ page.pageLsn := by
    intro change run
    obtain ⟨page, here, holds, ⟨rfl, newer⟩ | ⟨-, -, rfl⟩⟩ := edit_cases run
    · exact ⟨holds.2, page, here, newer⟩
    · exact ⟨holds.2, _, set_pages_self _ _ _, le_rfl⟩
  unfold redo at run
  cases body : r.body with
  | put q key value before =>
    rw [body] at run target
    obtain rfl := Option.some.inj target
    exact edits run
  | delete q key before =>
    rw [body] at run target
    obtain rfl := Option.some.inj target
    exact edits run
  | pageImage q image =>
    rw [body] at run target
    obtain rfl := Option.some.inj target
    obtain ⟨holds, ⟨page, here, newer, rfl⟩ | ⟨-, rfl⟩⟩ := restore_cases run
    · exact ⟨holds.2, page, here, newer⟩
    · exact ⟨holds.2, image, set_pages_self _ _ _, (stamped q image body).ge⟩
  | _ =>
    rw [body] at target
    cases target

theorem History.stamps (history : History rs x) (replay : redoAll rs x = some y) (mem : r ∈ rs)
    (target : r.body.target = some p) : 0 < r.lsn ∧ ∃ page, y.pages p = some page ∧ r.lsn ≤ page.pageLsn := by
  induction rs generalizing x with
  | nil => cases mem
  | cons q rs ih =>
    obtain ⟨pos, -, stamped, x₁, first, rest⟩ := history
    obtain ⟨x₂, first', later⟩ := Option.bind_eq_some_iff.mp replay
    obtain rfl := Option.some.inj (first.symm.trans first')
    rcases List.mem_cons.mp mem with same | mem
    · subst same
      obtain ⟨lt, page, here, le⟩ := redo_stamps first stamped target
      obtain ⟨page', last, le'⟩ := redoAll_newer later rest.stamped lt here
      exact ⟨pos, page', last, le.trans le'⟩
    · exact ih rest later mem

end Shape

/- Between two checkpoints. -/

/-- A handle at a checkpoint: nothing is in the log, and the file has what the pool has. -/
structure Store.Founded (s : Store) (w : LogWriter) (m : RefMap) : Prop where
  at_ : s.AtCheckpoint w
  sound : w.Sound
  start : w.endLsn = s.metaCopy.logStart
  ahead : s.Ahead
  tidy : s.Tidy
  coherent : s.Coherent
  clean : ∀ p, s.isDirty p = false
  maps : s.Maps m

/-- What was written from a checkpoint on, with what a crash relies on. -/
structure Recorded (s₀ : Store) (w₀ : LogWriter) (s : Store) (w : LogWriter) (rs : List LogRecord) : Prop
    extends Written s₀ w₀ s w rs where
  sound : w.Sound
  base : w.baseLsn = w₀.baseLsn
  coherent : s.Coherent
  dirty : ∀ p, s.isDirty p = true → ∃ r ∈ rs, r.body.target = some p
  calm : ∀ r ∈ rs, r.body ≠ .begin

theorem Store.flushedAll_cache {s : Store} {p : PageId} {f : Frame} (here : s.flushedAll.cache p = some f) :
    ∃ g, s.cache p = some g ∧ f = ⟨g.page, false⟩ := by
  obtain ⟨g, frame, rfl⟩ := Option.map_eq_some_iff.mp here
  have clean : (g.dirty && !true) = false := by simp
  exact ⟨g, frame, by rw [clean]⟩

theorem Store.flushedAll_clean (s : Store) (p : PageId) : s.flushedAll.isDirty p = false := by
  cases frame : s.flushedAll.cache p with
  | none => simp [Store.isDirty, frame]
  | some f =>
    obtain ⟨g, -, rfl⟩ := flushedAll_cache frame
    exact isDirty_eq frame

theorem Store.Coherent.flushedAll_disk {s : Store} (coherent : s.Coherent) :
    s.flushedAll.disk = s.version := by
  funext p
  cases frame : s.cache p with
  | none => simp [Store.flushedAll, Store.writePages, Store.onLog, Store.version, frame]
  | some f =>
    cases dirty : f.dirty with
    | true => simp [Store.flushedAll, Store.writePages, Store.onLog, Store.version, frame, dirty]
    | false =>
      have disk := coherent p f frame dirty
      simpa [Store.flushedAll, Store.writePages, Store.onLog, Store.version, frame, dirty] using disk

theorem Store.Coherent.flushedAll {s : Store} (coherent : s.Coherent) : s.flushedAll.Coherent := by
  intro p f here _
  obtain ⟨g, frame, rfl⟩ := flushedAll_cache here
  rw [coherent.flushedAll_disk]
  simp [Store.version, frame]

def LogWriter.marked (w : LogWriter) : LogWriter := (w.flush.append kInvalidTxId true .checkpoint).flush

theorem Store.checkpointed_wal {s : Store} {w : LogWriter} (wal : s.wal = some w) :
    s.flushedAll.marked.wal = some w.marked ∧ (s.checkpointed false).metaPage.checkpointLsn =
      w.marked.endLsn ∧
      (s.checkpointed false).wal = some (w.marked.truncate w.marked.endLsn) := by
  have marked : s.flushedAll.marked.wal = some w.marked := by
    simp [Store.marked, Store.flushedAll, Store.logMarker, Store.onLog, Store.writePages,
      LogWriter.marked, wal]
  have checkpoint : (s.checkpointed false).metaPage.checkpointLsn = w.marked.endLsn := by
    have names : (s.checkpointed false).metaPage.checkpointLsn =
      s.flushedAll.marked.wal.elim kInvalidLsn LogWriter.endLsn := rfl
    rw [names, marked]
    rfl
  refine ⟨marked, checkpoint, ?_⟩
  have emptied : (s.checkpointed false).wal =
      s.flushedAll.marked.wal.map (·.truncate (s.checkpointed false).metaPage.checkpointLsn) := rfl
  rw [emptied, marked, checkpoint]
  rfl

theorem Store.Ahead.founded {s : Store} {w : LogWriter} {m : RefMap} (ahead : s.Ahead) (wal : s.wal = some w)
    (coherent : s.Coherent) (tidy : ∀ p page, s.version p = some page → page.Tidy) (maps : s.Maps m) :
    (s.checkpointed false).Founded (w.marked.truncate w.marked.endLsn) m := by
  obtain ⟨-, checkpoint, emptied⟩ := checkpointed_wal wal
  have ahead' := ahead_lasting.checkpointed s false ahead
  have pos : 0 < w.marked.endLsn := by
    have pos := ahead'.pos _ emptied
    exact pos
  refine ⟨⟨emptied, rfl, rfl, checkpoint.le⟩, .truncate _ _, ?_, ahead',
    ⟨fun p f here => ?_, fun p page here => ?_⟩,
    coherent.flushedAll, s.flushedAll_clean, maps.alike (Unmoved.checkpointed s false).alike⟩
  · have copy : (s.checkpointed false).metaCopy.checkpointLsn = w.marked.endLsn := checkpoint
    rw [MetaCopy.logStart_of_pos (copy ▸ pos), copy]
    rfl
  · have here : s.flushedAll.cache p = some f := here
    obtain ⟨g, frame, rfl⟩ := flushedAll_cache here
    exact tidy p g.page (by simp [Store.version, frame])
  · have here : s.flushedAll.disk p = some page := here
    rw [coherent.flushedAll_disk] at here
    exact tidy p page here

theorem Store.Founded.base_eq {s : Store} {w : LogWriter} {m : RefMap} (founded : s.Founded w m) :
    w.baseLsn = s.metaCopy.logStart := by
  have ends := founded.sound.ends
  rw [founded.at_.chunks] at ends
  exact ends.symm.trans founded.start

theorem Store.Founded.recorded {s : Store} {w : LogWriter} {m : RefMap} (founded : s.Founded w m) :
    Recorded s w s w [] where
  toWritten := .start founded.at_ founded.ahead founded.tidy
  sound := founded.sound
  base := rfl
  coherent := founded.coherent
  dirty p dirty := by
    rw [founded.clean p] at dirty
    cases dirty
  calm := List.forall_mem_nil _

namespace Recorded

variable {s₀ s s' : Store} {w₀ w : LogWriter} {rs : List LogRecord} {txid : TxId} {c : Call}
    {wantBefore : Bool}
  {io : List (Option Fault)} {pid p : PageId}

theorem evict_kept {f : Frame} (run : s.evict pid = some s') (here : s'.cache p = some f) :
    p ≠ pid ∧ s.cache p = some f ∧ s'.disk p = s.disk p := by
  unfold Store.evict at run
  cases frame : s.cache pid with
  | none => simp [frame] at run
  | some g =>
    simp only [frame, Option.ite_none_right_eq_some, Option.some.injEq] at run
    obtain ⟨-, rfl⟩ := run
    obtain ⟨other, here⟩ := Option.ite_none_left_eq_some.mp here
    exact ⟨other, here, if_neg other⟩

theorem endLsn_eq (recorded : Recorded s₀ w₀ s w rs) :
    w.endLsn = w₀.baseLsn + fileBytes (rs.map .record) := by
  rw [recorded.sound.ends, recorded.base, recorded.chunks]

theorem placed (recorded : Recorded s₀ w₀ s w rs) : Placed w₀.baseLsn (rs.map .record) := by
  rw [← recorded.base, ← recorded.chunks]
  exact recorded.sound.placed

theorem dirty_stamped (recorded : Recorded s₀ w₀ s w rs) (dirty : s.isDirty p = true) :
    (s.view p).pageLsn ≠ kInvalidLsn := by
  obtain ⟨r, mem, target⟩ := recorded.dirty p dirty
  obtain ⟨pos, page, here, le⟩ := recorded.history.stamps recorded.replay mem target
  rw [view_of_version here]
  exact (pos.trans_le le).ne'

theorem flagged {gs : List LogRecord} (recorded : Recorded s₀ w₀ s w rs)
    (flagged : Flagged (s.facing io) [] gs s') :
    s'.Coherent ∧ ∀ p, s'.isDirty p = true → ∃ r ∈ rs ++ gs, r.body.target = some p := by
  refine ⟨fun p f here clean => flagged.clean recorded.coherent p f List.not_mem_nil here clean,
    fun p dirty => ?_⟩
  rcases flagged.dirty p List.not_mem_nil dirty with old | ⟨r, mem, target⟩
  · obtain ⟨r, mem, target⟩ := recorded.dirty p old
    exact ⟨r, List.mem_append_left _ mem, target⟩
  · exact ⟨r, List.mem_append_right _ mem, target⟩

theorem called {b : Option Bytes} (recorded : Recorded s₀ w₀ s w rs)
    (run : c.perform txid wantBefore (s.facing io) = .ok b s') :
    ∃ w' gs, Recorded s₀ w₀ s' w' (rs ++ gs) ∧ w'.file = w.file ∧ Group txid true gs ∧
      ∀ r ∈ gs, r.body.ofTree = true := by
  obtain ⟨w', gs, tr, written⟩ := recorded.toWritten.called run
  obtain ⟨coherent, dirty⟩ := recorded.flagged tr.flagged
  refine ⟨w', gs, ⟨written, tr.continues.sound recorded.sound,
    tr.continues.base.trans recorded.base, coherent, dirty,
    List.forall_mem_append.mpr ⟨recorded.calm, fun r mem is => ?_⟩⟩, tr.continues.file, tr.group, tr.tree⟩
  have tree := tr.tree r mem
  rw [is] at tree
  cases tree

theorem misses {e : Failure} (recorded : Recorded s₀ w₀ s w rs)
    (run : c.perform txid wantBefore (s.facing io) = .error e s') (may : c.mayEndWith e = true) :
    Recorded s₀ w₀ s' w rs := by
  cases c with
  | put key value => cases may
  | delete key =>
    obtain ⟨tr, written⟩ := recorded.toWritten.misses run may
    obtain ⟨coherent, dirty⟩ := recorded.flagged tr.flagged
    rw [List.append_nil] at dirty
    exact ⟨written, recorded.sound, recorded.base, coherent, dirty, recorded.calm⟩

theorem marker (recorded : Recorded s₀ w₀ s w rs) :
    Recorded s₀ w₀ (s.onLog (·.append kInvalidTxId true .checkpoint))
    (w.append kInvalidTxId true .checkpoint) (rs ++ [⟨w.endLsn, kInvalidTxId, true, .checkpoint⟩]) where
  toWritten := recorded.toWritten.marker rfl
  sound := recorded.sound.logged kInvalidTxId true .checkpoint
  base := recorded.base
  coherent := recorded.coherent
  dirty p dirty := by
    obtain ⟨r, mem, target⟩ := recorded.dirty p dirty
    exact ⟨r, List.mem_append_left _ mem, target⟩
  calm := List.forall_mem_append.mpr ⟨recorded.calm, List.forall_mem_singleton.mpr fun same => by cases same⟩

theorem flushed (recorded : Recorded s₀ w₀ s w rs) : Recorded s₀ w₀ (s.onLog LogWriter.flush) w.flush rs :=
  ⟨recorded.toWritten.flushed, recorded.sound.flush, recorded.base, recorded.coherent,
    recorded.dirty, recorded.calm⟩

theorem flushedAll (recorded : Recorded s₀ w₀ s w rs) : Recorded s₀ w₀ s.flushedAll w.flush rs where
  toWritten := recorded.toWritten.flushedAll
  sound := recorded.sound.flush
  base := recorded.base
  coherent := recorded.coherent.flushedAll
  dirty p dirty := by
    rw [s.flushedAll_clean p] at dirty
    cases dirty
  calm := recorded.calm

theorem evicted (recorded : Recorded s₀ w₀ s w rs) (run : s.evict pid = some s') :
    Recorded s₀ w₀ s' w rs := by
  refine ⟨recorded.toWritten.evicted run, recorded.sound, recorded.base, fun p f here clean => ?_,
    fun p dirty => ?_,
    recorded.calm⟩
  · obtain ⟨other, same, disk⟩ := evict_kept run here
    rw [disk]
    exact recorded.coherent p f same clean
  · cases frame : s'.cache p with
    | none => simp [Store.isDirty, frame] at dirty
    | some f =>
      obtain ⟨other, same, disk⟩ := evict_kept run frame
      refine recorded.dirty p ?_
      rwa [isDirty_eq frame, ← isDirty_eq same] at dirty

theorem fetched {u : Unit} (recorded : Recorded s₀ w₀ s w rs) (run : fetchPage pid (s.facing io) = .ok u s') :
    Recorded s₀ w₀ s' w rs := by
  obtain ⟨coherent, dirty⟩ := recorded.flagged ((Flagged.start (s.facing io)).fetch run)
  rw [List.append_nil] at dirty
  exact ⟨recorded.toWritten.fetched run, recorded.sound, recorded.base, coherent, dirty, recorded.calm⟩

end Recorded

end PagerDB

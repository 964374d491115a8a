import PagerDB.Recovery.Recording

/-! The way up from a crash. The redo loop takes the pages, record by record, from whatever the
crash has left to those
that the complete operations of the log lead to, and every page that is written meanwhile has a
version that another
recovery can begin with. -/
namespace PagerDB

open LogWriter (fileBytes)
open KeepsLib MachineLib Store

theorem LogWriter.loggedAll_spec {inFlight : List (TxId × LogBody)} (w : LogWriter)
    (all : ∀ f ∈ inFlight, f.1 ≠ kInvalidTxId ∧ f.2.ofTree) :
    ∃ fs, w.Continues (w.loggedAll inFlight) ∧ (w.loggedAll inFlight).buffer = w.buffer ++ fs ∧
      ∀ r ∈ fs, r.Loose := by
  induction inFlight generalizing w with
  | nil => exact ⟨[], .refl w, (List.append_nil _).symm, List.forall_mem_nil _⟩
  | cons f inFlight ih =>
    obtain ⟨⟨id, tree⟩, others⟩ := List.forall_mem_cons.mp all
    obtain ⟨fs, continues, buffer, loose⟩ := ih (w.logged f.1 false f.2) others
    have first := (Continues.refl w).logged f.1 false f.2
    have one : (w.logged f.1 false f.2).buffer = w.buffer ++ [w.recordOf f.1 false f.2] := by
      cases f.2 with
      | _ => rfl
    refine ⟨w.recordOf f.1 false f.2 :: fs, ⟨continues.file.trans first.file, continues.base.trans first.base,
      fun sound => continues.sound (first.sound sound)⟩, ?_,
        List.forall_mem_cons.mpr ⟨.inl ⟨rfl, id, fun is => ?_⟩, loose⟩⟩
    · change ((w.logged f.1 false f.2).loggedAll inFlight).buffer = _
      rw [buffer, one, List.append_assoc]
      rfl
    · have tree' := (w.recordOf_ofTree f.1 false f.2).trans tree
      rw [is] at tree'
      cases tree'

/- What a crash leaves. -/

/-- The log leads to each version that was written since the checkpoint, and tells of the page. -/
structure Directory.Wrote (d : Directory) (rs : List LogRecord) : Prop where
  versions : ∀ p, p < d.base.metaPage.numPages → ∀ page ∈ d.wrote p,
    Shape.Later rs d.base.shape fun y => y.pages p = some page
  logged : ∀ p, p < d.base.metaPage.numPages → d.wrote p ≠ [] → ∃ r ∈ rs, r.body.target = some p

theorem Directory.Wrote.start {d : Directory} (none : ∀ p, d.wrote p = []) : d.Wrote [] where
  versions p _ page mem := by
    rw [none p] at mem
    cases mem
  logged p _ some := absurd (none p) some

/-- Behind records from before the checkpoint, those of complete operations are what the log has,
and then such as the
crash has cut. -/
structure LeftLog (base : Store) (rk : List LogRecord) (ends : Lsn) (w : LogWriter) : Prop where
  opened : w = .open w.file (Journal.baseLsn (readAll w.file) base.metaCopy)
  sound : w.Sound
  start : w.baseLsn ≤ base.metaCopy.logStart
  sizes : ∀ c ∈ w.file, 0 < c.size
  parts : ∃ old tail, readAll w.file = old ++ rk ++ tail ∧
    (∀ r ∈ old, r.lsn < base.metaPage.checkpointLsn ∧ r.body ≠ .begin) ∧ ∀ r ∈ tail, r.Loose
  ends : ends ≤ w.endLsn

structure Remains (d : Directory) (calls : List Call) (w₀ : LogWriter) (s : Store) (w : LogWriter)
    (rk : List LogRecord) : Prop where
  founded : ∃ m, d.base.Founded w₀ m
  recorded : Recorded d.base w₀ s w rk
  maps : s.Maps (effects calls)
  wrote : d.Wrote rk

theorem Store.Founded.version_eq {s : Store} {w : LogWriter} {m : RefMap} (founded : s.Founded w m) :
    s.version = s.disk := by
  funext p
  cases frame : s.cache p with
  | none => simp [Store.version, frame]
  | some f =>
    have clean := founded.clean p
    rw [isDirty_eq frame] at clean
    simp [Store.version, frame, founded.coherent p f frame clean]

theorem Directory.Wrote.reopened {d : Directory} {rs : List LogRecord} {w₀ : LogWriter} {m : RefMap}
    (wrote : d.Wrote rs) (founded : d.base.Founded w₀ m) (pages : PageId → PageFate) (filePages : Nat)
    (file : List Chunk) : Reopened d.base rs (d.base.reopened (d.found pages) filePages file) := by
  have version := founded.version_eq
  refine ⟨⟨rfl, rfl, fun p lt => ?_⟩, fun _ => rfl, founded.ahead.resident.free, rfl, rfl, rfl, rfl⟩
  have lt : p < d.base.metaPage.numPages := lt
  have there : d.base.shape.pages p = d.base.disk p := congrFun version p
  have found : (d.base.reopened (d.found pages) filePages file).shape.pages p = d.found pages p := rfl
  rw [found]
  unfold Directory.found
  rw [if_pos lt]
  cases pages p with
  | version i =>
    cases chosen : (d.wrote p)[i]? with
    | none =>
      dsimp only
      rw [chosen]
      exact .inl (.here there.symm)
    | some page =>
      dsimp only
      rw [chosen]
      obtain ⟨ts, us, y, cut, replay, here⟩ := wrote.versions p lt page (List.mem_of_getElem? chosen)
      exact .inl ⟨ts, us, y, cut, replay, here.symm⟩
  | torn =>
    by_cases never : d.wrote p = []
    · dsimp only
      rw [if_pos never]
      exact .inl (.here there.symm)
    · dsimp only
      rw [if_neg never]
      exact .inr ⟨rfl, wrote.logged p lt never⟩

/- Redo, record by record. -/

structure Rebuilding (s₀ : Store) (rk todo : List LogRecord) (y : Shape) (t : Store) : Prop where
  vol : t.vol = s₀.vol
  checkpoint : t.metaPage.checkpointLsn = s₀.metaPage.checkpointLsn
  grown : s₀.metaPage.numPages ≤ t.metaPage.numPages
  backed : t.Backed
  past : ∀ p, t.metaPage.numPages ≤ p → t.disk p = none
  dirty : ∀ p, t.isDirty p = true → ∃ r ∈ rk, r.body.target = some p
  mixed : ∃ done left markers x z, rk = done ++ left ∧ todo = left ++ markers ∧
    (∀ r ∈ markers, r.body = .checkpoint) ∧
    Shape.redoAll done s₀.shape = some x ∧ Shape.redoAll left x = some y ∧ x.History left ∧
      x.Mixed left z ∧ Mirrors z t

section Dirty

variable {P : PageId → Prop} {pid : PageId} {s : Store}

abbrev DirtyOnly (P : PageId → Prop) (s : Store) : Prop := ∀ p, s.isDirty p = true → P p

theorem DirtyOnly.of_cache {s' : Store} (only : DirtyOnly P s) (same : s'.cache = s.cache) :
    DirtyOnly P s' := by
  intro p dirty
  unfold Store.isDirty at dirty
  rw [same] at dirty
  exact only p dirty

theorem DirtyOnly.setFrame {f : Frame} (only : DirtyOnly P s) (may : f.dirty = true → P pid) :
    DirtyOnly P (s.setFrame pid f) := by
  intro p dirty
  by_cases same : p = pid
  · subst same
    refine may ?_
    simpa [Store.isDirty, Store.setFrame] using dirty
  · refine only p ?_
    simpa [Store.isDirty, Store.setFrame, same] using dirty

theorem dirtyOnly_ioPoint : KeepsAlways (DirtyOnly P) ioPoint := by
  intro s only
  unfold ioPoint
  rcases s.io with _ | ⟨_ | fault, rest⟩
  · exact only
  · exact only.of_cache rfl
  · exact only.of_cache rfl

theorem dirtyOnly_failIf (c : Prop) [Decidable c] (e : Failure) : KeepsAlways (DirtyOnly P) (failIf c e) :=
  .ite (.throw _) (.pure _)

theorem dirtyOnly_fetchPage (pid : PageId) : KeepsAlways (DirtyOnly P) (fetchPage pid) := by
  intro s only
  cases run : fetchPage pid s with
  | ok u s' =>
    rcases fetchPage_eq run with ⟨f, -, rfl⟩ | ⟨page, io, -, -, -, -, rfl⟩
    · exact only
    · have same : DirtyOnly P { s with io := io } := only.of_cache rfl
      exact same.setFrame fun dirty => absurd dirty Bool.false_ne_true
  | error e s' =>
    obtain ⟨io, rfl⟩ := fetchPage_faulted run
    exact only.of_cache rfl

theorem dirtyOnly_readPage (pid : PageId) : KeepsAlways (DirtyOnly P) (readPage pid) := by
  refine KeepsAlways.get.bind fun s => (dirtyOnly_failIf _ _).bind fun _ =>
    (dirtyOnly_failIf _ _).bind fun _ =>
    dirtyOnly_ioPoint.bind fun _ => ?_
  cases s.disk pid with
  | some page => exact .pure _
  | none => exact .throw _

theorem dirtyOnly_writePage (pid : PageId) (page : Page) : KeepsAlways (DirtyOnly P) (writePage pid page) :=
  KeepsAlways.get.bind fun _ => (dirtyOnly_failIf _ _).bind fun _ => (dirtyOnly_failIf _ _).bind fun _ =>
    dirtyOnly_ioPoint.bind fun _ => .modify fun _ only => only.of_cache rfl

theorem dirtyOnly_allocatePage : KeepsAlways (DirtyOnly P) allocatePage := by
  refine KeepsAlways.get.bind fun s => .ite ?_ ?_
  · refine (dirtyOnly_readPage _).bind fun page => ?_
    cases page.body with
    | free next =>
      exact dirtyOnly_ioPoint.bind fun _ => .bind (.modify fun _ only => only.of_cache rfl) fun _ => .pure _
    | _ => exact .throw _
  · refine dirtyOnly_ioPoint.bind fun _ => (dirtyOnly_failIf _ _).bind fun _ =>
      .bind (.modify fun _ only => only.of_cache rfl) fun _ => .pure _

theorem dirtyOnly_ensurePageExists (pid : PageId) : KeepsAlways (DirtyOnly P) (ensurePageExists pid) := by
  have loop : ∀ fuel, KeepsAlways (DirtyOnly P) (ensureLoop pid fuel) := by
    intro fuel
    induction fuel with
    | zero => exact .throw _
    | succ fuel ih =>
      refine KeepsAlways.get.bind fun s => .ite (.pure _) ?_
      exact dirtyOnly_allocatePage.bind fun _ => KeepsAlways.get.bind fun _ =>
        (dirtyOnly_failIf _ _).bind fun _ => ih
  exact KeepsAlways.get.bind fun _ => loop _

theorem dirtyOnly_setPage (may : P pid) (page : Page) : KeepsAlways (DirtyOnly P) (setPage pid page) :=
  fun _ only => only.setFrame fun _ => may

theorem dirtyOnly_markDirty (may : P pid) : KeepsAlways (DirtyOnly P) (markDirty pid) :=
  fun _ only => only.setFrame fun _ => may

theorem dirtyOnly_applyRecord {r : LogRecord} (may : ∀ p, r.body.target = some p → P p) :
    KeepsAlways (DirtyOnly P) (applyRecord r) := by
  have delta : ∀ {pid} {redone : Page → Bool × Page} {message : Page → String}, P pid →
      KeepsAlways (DirtyOnly P) (applyDelta pid r.lsn redone message) := by
    intro pid redone message may
    refine (dirtyOnly_fetchPage pid).bind fun _ => .bind (fun _ only => only) fun page => .ite ?_ (.pure _)
    refine .bind (.bind (fun _ only => only) fun _ => (dirtyOnly_setPage may _).bind fun _ =>
      .pure _) fun _ => ?_
    refine (dirtyOnly_failIf _ _).bind fun _ => .bind (fun _ only => only) fun page => ?_
    exact (dirtyOnly_setPage may _).bind fun _ => (dirtyOnly_markDirty may).bind fun _ => .pure _
  unfold applyRecord
  cases body : r.body with
  | allocPage q => exact (dirtyOnly_ensurePageExists q).bind fun _ => .pure _
  | pageImage q image =>
    have may : P q := may q (by rw [body]; rfl)
    refine (dirtyOnly_ensurePageExists q).bind fun _ => fun s only => ?_
    have fetched := dirtyOnly_fetchPage (P := P) q s only
    unfold applyImage
    cases run : fetchPage q s with
    | ok u s' =>
      rw [run] at fetched
      by_cases older : (s'.view q).pageLsn < r.lsn
      · simp only [older, if_true]
        exact ((dirtyOnly_setPage may image).bind fun _ => (dirtyOnly_markDirty may).bind fun _ =>
          .pure true) s' fetched
      · simp only [older, if_false]
        exact fetched
    | error e s' =>
      rw [run] at fetched
      cases e with
      | status e =>
        by_cases torn : e.code = .corruption
        · simp only [torn, if_true]
          exact ((dirtyOnly_writePage q image).bind fun _ => .pure true) s' fetched
        · simp only [torn, if_false]
          exact fetched
      | _ => exact fetched
  | put q key value before => exact delta (may q (by rw [body]; rfl))
  | delete q key before => exact delta (may q (by rw [body]; rfl))
  | rootChange q => exact .bind (.modify fun _ only => only.of_cache rfl) fun _ => .pure _
  | _ => exact .pure _

end Dirty

section Reading

variable {J : Store → Prop}

theorem reads_attempt {α : Type} {x : M α} (keeps : KeepsAlways J x) : KeepsAlways J (attempt x) := by
  intro s inv
  have after := keeps s inv
  unfold attempt
  cases run : x s with
  | ok a s' =>
    rw [run] at after
    exact after
  | error e s' =>
    rw [run] at after
    exact after

theorem reads_skipToLiveEntry (fetch : ∀ pid, KeepsAlways J (fetchPage pid)) (fuel : Nat) (c : Cursor) :
    KeepsAlways J (skipToLiveEntry fuel c) := by
  induction fuel generalizing c with
  | zero => exact .throw _
  | succ fuel ih =>
    refine .ite (.pure _) (.ite (.pure _) ((reads_attempt (fetch _)).bind fun fetched => ?_))
    cases fetched with
    | error e => exact .pure _
    | ok _ => exact .bind (fun _ inv => inv) fun page => .ite (ih _) (.pure _)

theorem reads_moveTo (fetch : ∀ pid, KeepsAlways J (fetchPage pid)) (c : Cursor) (pid : PageId)
    (index : Nat) :
    KeepsAlways J (c.moveTo pid index) := by
  refine (reads_attempt (fetch pid)).bind fun fetched => ?_
  cases fetched with
  | error e => exact .pure _
  | ok _ =>
    exact .bind (fun _ inv => inv) fun page => .bind (fun _ inv => inv) fun fuel =>
      reads_skipToLiveEntry fetch _ _

theorem reads_next (fetch : ∀ pid, KeepsAlways J (fetchPage pid)) (c : Cursor) : KeepsAlways J c.next :=
  .ite (.bind (fun _ inv => inv) fun _ => reads_skipToLiveEntry fetch _ _) (.pure _)

theorem reads_descendFirst (fetch : ∀ pid, KeepsAlways J (fetchPage pid)) (fuel : Nat) (pid : PageId) :
    KeepsAlways J (descendFirst fuel pid) := by
  induction fuel generalizing pid with
  | zero => exact .throw _
  | succ fuel ih =>
    exact (fetch pid).bind fun _ => .bind (fun _ inv => inv) fun page => .ite (.pure _) (.bind
      (.ite (.throw _) (.pure _)) fun _ => ih _)

theorem reads_seekToFirst (fetch : ∀ pid, KeepsAlways J (fetchPage pid)) : KeepsAlways J seekToFirst := by
  refine .bind (fun _ inv => inv) fun none => .ite (.pure _) (KeepsAlways.get.bind fun s => ?_)
  refine (reads_attempt (reads_descendFirst fetch _ _)).bind fun reached => ?_
  cases reached with
  | error e => exact .pure _
  | ok leaf => exact reads_moveTo fetch _ _ _

theorem reads_recount (fetch : ∀ pid, KeepsAlways J (fetchPage pid))
    (count : ∀ n, KeepsAlways J (setNumKeys n)) :
    KeepsAlways J recount := by
  have loop : ∀ fuel c n, KeepsAlways J (countLoop fuel c n) := by
    intro fuel
    induction fuel with
    | zero => exact fun _ _ => .throw _
    | succ fuel ih => exact fun c n => .ite ((reads_next fetch c).bind fun c' => ih c' (n + 1)) (.pure _)
  refine (reads_seekToFirst fetch).bind fun c => .bind (fun _ inv => inv) fun fuel =>
    (loop fuel c 0).bind fun ended => ?_
  obtain ⟨last, seen⟩ := ended
  cases status : last.status with
  | some e =>
    simp only [status]
    exact .throw e
  | none =>
    simp only [status]
    exact count seen

end Reading

namespace Rebuilding

variable {s₀ s t t' : Store} {w₀ w : LogWriter} {old rk todo tail : List LogRecord} {y : Shape}
    {r : LogRecord}
  {p pid : PageId} {page : Page} {m : RefMap}

theorem start (recorded : Recorded s₀ w₀ s w rk) (founded : s₀.Founded w₀ m) (opened : Reopened s₀ rk t)
    (past : ∀ p, t.metaPage.numPages ≤ p → t.disk p = none)
    (skipped : ∀ r ∈ old, r.lsn < s₀.metaPage.checkpointLsn) (loose : ∀ r ∈ tail, r.Loose) :
    Rebuilding s₀ rk (applicable s₀.metaPage.checkpointLsn (old ++ rk ++ tail)) s.shape t := by
  have suffix := recorded.logSuffix founded.at_
  obtain ⟨markers, all, marks, -⟩ := applicable_loose (suffix.complete_after skipped) loose
  rw [suffix.applicable_eq skipped] at all
  have numPages : t.metaPage.numPages = s₀.metaPage.numPages := opened.crashed.numPages
  refine ⟨opened.vol, opened.checkpoint, numPages.ge, opened.backed, past, fun p dirty => ?_, [],
    rk, markers, s₀.shape,
    t.shape, rfl, all, marks, rfl, recorded.replay, recorded.history, opened.crashed.mixed suffix.firstImages,
    opened.mirrors⟩
  rw [Store.isDirty, opened.cold p] at dirty
  cases dirty

theorem version (rebuilding : Rebuilding s₀ rk todo y t) (lt : p < t.metaPage.numPages)
    (here : t.version p = some page) : Shape.Later rk s₀.shape fun y => y.pages p = some page := by
  obtain ⟨done, left, markers, x, z, cut, -, -, replay, -, -, mixed, mirrors⟩ := rebuilding.mixed
  have lt : p < z.numPages := mirrors.numPages ▸ lt
  have there : z.pages p = some page := (mirrors.pages p lt).symm.trans here
  rw [cut]
  refine .after replay ?_
  rcases mixed.pages p lt with ⟨ts, us, u, cut', replay', -, same⟩ | ⟨gone, -⟩
  · exact ⟨ts, us, u, cut', replay', same.symm.trans there⟩
  · cases there.symm.trans gone

theorem healed {z z' : Shape} {image : Page} (mirrors : Mirrors z t) (step : z.redo r = some z')
    (here : t.healing r p = some image) : p < z.numPages ∧ r.body.target = some p ∧
      z'.pages p = some image := by
  unfold Store.healing at here
  cases body : r.body with
  | pageImage q old =>
    rw [body] at here
    obtain ⟨⟨rfl, lt, gone⟩, eq⟩ := Option.ite_none_right_eq_some.mp here
    obtain rfl := Option.some.inj eq
    have lt : p < z.numPages := mirrors.numPages ▸ lt
    have unreadable : z.pages p = none := (mirrors.pages p lt).symm.trans gone
    simp only [Shape.redo, body, Shape.extended_of_lt lt] at step
    obtain ⟨-, ⟨page, readable, -⟩ | ⟨-, rfl⟩⟩ := Shape.restore_cases step
    · cases unreadable.symm.trans readable
    · exact ⟨lt, rfl, Shape.set_pages_self z p old⟩
  | _ =>
    rw [body] at here
    cases here

theorem redo (rebuilding : Rebuilding s₀ rk (r :: todo) y t)
    (room : y.numPages ≤ max s₀.metaPage.numPages s₀.vol.maxPages) :
    ∃ now t', applyRecord r t = .ok now t' ∧ t'.wal = t.wal ∧ Rebuilding s₀ rk todo y t' ∧
      ∀ p image, t.healing r p = some image →
        p < t'.metaPage.numPages ∧ t'.version p = some image ∧ ∃ r ∈ rk, r.body.target = some p := by
  obtain ⟨done, left, markers, x, z, cut, all, marks, replay, rest, history, mixed, mirrors⟩ :=
    rebuilding.mixed
  cases left with
  | nil =>
    -- Only the markers of checkpoints are left.
    obtain rfl : r :: todo = markers := all
    obtain ⟨marker, marks⟩ := List.forall_mem_cons.mp marks
    refine ⟨false, t, ?_, rfl, ⟨rebuilding.vol, rebuilding.checkpoint, rebuilding.grown, rebuilding.backed,
      rebuilding.past, rebuilding.dirty, done, [], todo, x, z, cut, rfl, marks, replay, rest,
        history, mixed, mirrors⟩,
      fun p image here => ?_⟩
    · simp only [applyRecord, marker]
      rfl
    · simp only [Store.healing, marker] at here
      cases here
  | cons q left =>
    obtain ⟨rfl, rfl⟩ := List.cons.inj all
    obtain ⟨pos, before, stamped, x₁, first, later⟩ := history
    obtain ⟨x₂, first', rest'⟩ := Option.bind_eq_some_iff.mp rest
    obtain rfl := Option.some.inj (first.symm.trans first')
    obtain ⟨z', step, mixed'⟩ := mixed.step first pos before later.stamped
    obtain ⟨y', z'', replay', redo, agree⟩ := mixed'.converges later
    obtain rfl := Option.some.inj (rest'.symm.trans replay')
    have mem : r ∈ rk := by simp [cut]
    have room' : z'.numPages ≤ max z.numPages t.vol.maxPages := by
      have grown : s₀.metaPage.numPages ≤ z.numPages := rebuilding.grown.trans mirrors.numPages.le
      calc z'.numPages ≤ z''.numPages := Shape.redoAll_grows redo
        _ = y.numPages := agree.numPages
        _ ≤ max s₀.metaPage.numPages s₀.vol.maxPages := room
        _ ≤ max z.numPages t.vol.maxPages := max_le_max grown (by rw [rebuilding.vol])
    obtain ⟨t', apply, mirrors', steady⟩ := mirrors.applyRecord room' step
    have dirty := dirtyOnly_applyRecord (P := fun p => ∃ r ∈ rk, r.body.target = some p)
      (fun p target => ⟨r, mem, target⟩) t rebuilding.dirty
    rw [apply] at dirty
    refine ⟨_, t', apply, steady.wal, ⟨steady.vol.trans rebuilding.vol,
      steady.checkpoint.trans rebuilding.checkpoint,
      rebuilding.grown.trans steady.grows, steady.backed rebuilding.backed, fun p past => ?_, dirty,
        done ++ [r], left,
      markers, x₁, z', ?_, rfl, marks, ?_, rest', later, mixed', mirrors'⟩, fun p image here => ?_⟩
    · exact (steady.beyond p past).trans (rebuilding.past p (steady.grows.trans past))
    · rw [cut, List.append_assoc]
      rfl
    · exact Shape.redoAll_snoc replay first
    · obtain ⟨lt, target, healed⟩ := healed mirrors step here
      have lt : p < z'.numPages := lt.trans_le (Shape.redo_grows step)
      exact ⟨mirrors'.numPages ▸ lt, (mirrors'.pages p lt).trans healed, r, mem, target⟩

theorem moved (rebuilding : Rebuilding s₀ rk todo y t)
    (same : t'.metaPage.rootPageId = t.metaPage.rootPageId ∧
      t'.metaPage.numPages = t.metaPage.numPages ∧ t'.metaPage.checkpointLsn = t.metaPage.checkpointLsn ∧
      t'.metaPage.freeListHead = t.metaPage.freeListHead) (vol : t'.vol = t.vol)
    (version : t'.version = t.version) (frames : ∀ p f, t'.cache p = some f → p < t.metaPage.numPages)
    (backed : t'.Backed) (past : ∀ p, t.metaPage.numPages ≤ p → t'.disk p = t.disk p)
    (dirty : ∀ p, t'.isDirty p = true → t.isDirty p = true)
      (io : t'.io = []) : Rebuilding s₀ rk todo y t' := by
  obtain ⟨root, pages, checkpoint, free⟩ := same
  obtain ⟨done, left, markers, x, z, cut, all, marks, replay, rest, history, mixed, mirrors⟩ :=
    rebuilding.mixed
  refine ⟨vol.trans rebuilding.vol, checkpoint.trans rebuilding.checkpoint,
    rebuilding.grown.trans pages.ge, backed,
    fun p out => (past p (pages ▸ out)).trans (rebuilding.past p (pages ▸ out)),
    fun p now => rebuilding.dirty p (dirty p now), done, left, markers, x, z, cut, all, marks,
      replay, rest, history,
    mixed, root.trans mirrors.root, pages.trans mirrors.numPages, fun p lt => ?_, fun p f here => ?_,
    free.trans mirrors.free, io⟩
  · rw [version]
    exact mirrors.pages p lt
  · exact mirrors.numPages ▸ frames p f here

theorem frame_lt {f : Frame} (rebuilding : Rebuilding s₀ rk todo y t) (here : t.cache p = some f) :
    p < t.metaPage.numPages := by
  obtain ⟨done, left, markers, x, z, -, -, -, -, -, -, -, mirrors⟩ := rebuilding.mixed
  exact mirrors.numPages ▸ mirrors.frames p f here

theorem io (rebuilding : Rebuilding s₀ rk todo y t) : t.io = [] := by
  obtain ⟨done, left, markers, x, z, -, -, -, -, -, -, -, mirrors⟩ := rebuilding.mixed
  exact mirrors.io

theorem evicted (rebuilding : Rebuilding s₀ rk todo y t) (run : t.evict pid = some t') :
    Rebuilding s₀ rk todo y t' := by
  obtain ⟨kept, version, page, wal, vol⟩ := evict_eq run
  refine rebuilding.moved ⟨by rw [page], by rw [page], by rw [page], by rw [page]⟩ vol version
    (fun p f here => rebuilding.frame_lt (kept p f here)) (fun p f here => ?_)
      (fun p out => ?_) (fun p dirty => ?_) ?_
  · obtain ⟨other, same, disk⟩ := Recorded.evict_kept run here
    rw [disk]
    exact rebuilding.backed p f same
  · have absent : t.cache p = none := by
      cases frame : t.cache p with
      | none => rfl
      | some f => exact absurd (rebuilding.frame_lt frame) (not_lt.mpr out)
    have gone : t'.cache p = none := by
      cases frame : t'.cache p with
      | none => rfl
      | some f => cases absent.symm.trans (kept p f frame)
    simpa [Store.version, absent, gone] using congrFun version p
  · cases frame : t'.cache p with
    | none => simp [Store.isDirty, frame] at dirty
    | some f =>
      rw [isDirty_eq frame] at dirty
      rwa [isDirty_eq (kept p f frame)]
  · exact (evict_same run).io rebuilding.io

theorem recounts (todo : List LogRecord) (y : Shape) (log : Option LogWriter) :
    KeepsAlways (fun u => Rebuilding s₀ rk todo y u ∧ u.wal = log) recount := by
  refine reads_recount (fun pid u both => ?_) fun n u both => ⟨both.1.moved ⟨rfl, rfl, rfl, rfl⟩ rfl rfl
    (fun p f here => both.1.frame_lt here) both.1.backed (fun _ _ => rfl) (fun _ => id) both.1.io, both.2⟩
  obtain ⟨rebuilding, wal⟩ := both
  have calm : Composes kInvalidTxId (KeepsAlways Quiet) := quiet
  have io := calm.fetchPage pid u rebuilding.io
  have dirty := dirtyOnly_fetchPage (P := fun p => u.isDirty p = true) pid u fun _ => id
  cases run : fetchPage pid u with
  | ok _ v =>
    rw [run] at io dirty
    have log := fetchPage_wal run
    rcases fetchPage_eq run with ⟨f, -, rfl⟩ | ⟨page, rest, absent, first, lt, disk, rfl⟩
    · exact ⟨rebuilding, wal⟩
    · refine ⟨rebuilding.moved ⟨rfl, rfl, rfl, rfl⟩ rfl (funext fun p => ?_)
        (fun p f here => ?_) ?_ (fun _ _ => rfl)
        dirty io, log.trans wal⟩
      · rw [version_setFrame]
        split
        · rename_i here
          simp [Store.version, here, absent, disk]
        · rfl
      · by_cases same : p = pid
        · exact same ▸ lt
        · simp only [Store.setFrame, same, if_false] at here
          exact rebuilding.frame_lt here
      · exact (Steady.load (t := { u with io := rest }) first disk).backed rebuilding.backed
  | error e v =>
    rw [run] at io dirty
    obtain ⟨rest, rfl⟩ := fetchPage_faulted run
    exact ⟨rebuilding.moved ⟨rfl, rfl, rfl, rfl⟩ rfl rfl (fun p f here => rebuilding.frame_lt here)
      rebuilding.backed (fun _ _ => rfl) dirty io, wal⟩

theorem mirrors (rebuilding : Rebuilding s₀ rk [] y t) : Mirrors y t := by
  obtain ⟨done, left, markers, x, z, -, all, -, -, rest, history, mixed, mirrors⟩ := rebuilding.mixed
  obtain ⟨rfl, rfl⟩ := List.nil_eq_append_iff.mp all
  obtain ⟨y', z', replay, redo, agree⟩ := mixed.converges history
  obtain rfl := Option.some.inj (rest.symm.trans replay)
  obtain rfl := Option.some.inj redo
  exact mirrors.agree agree

end Rebuilding

/-- A handle that has redone the log is as coherent as the one that wrote it. -/
structure Rebuilt (s₀ : Store) (rk : List LogRecord) (y : Shape) (w : LogWriter) (m : RefMap)
    (t : Store) : Prop where
  rebuilding : Rebuilding s₀ rk [] y t
  wal : t.wal = some w
  maps : t.Maps m

namespace Rebuilt

variable {s₀ s t : Store} {w₀ w w' : LogWriter} {rk records : List LogRecord} {y : Shape}
    {m : RefMap} {p : PageId}
  {page : Page}

theorem coherent (rebuilt : Rebuilt s₀ rk y w m t) : t.Coherent := by
  intro p f here clean
  obtain ⟨-, page, disk, same⟩ := rebuilt.rebuilding.backed p f here
  rw [disk, same clean]

theorem version_lt (rebuilt : Rebuilt s₀ rk y w m t) (here : t.version p = some page) :
    p < t.metaPage.numPages := by
  by_contra out
  have past := rebuilt.rebuilding.past p (not_lt.mp out)
  cases frame : t.cache p with
  | none => simp [Store.version, frame, past] at here
  | some f => exact out (rebuilt.rebuilding.frame_lt frame)

theorem version_eq (rebuilt : Rebuilt s₀ rk s.shape w m t) (here : t.version p = some page) :
    p < s.metaPage.numPages ∧ s.version p = some page := by
  have mirrors := rebuilt.rebuilding.mirrors
  have lt : p < s.metaPage.numPages := (rebuilt.version_lt here).trans_eq mirrors.numPages
  exact ⟨lt, (mirrors.pages p lt).symm.trans here⟩

theorem tidy (rebuilt : Rebuilt s₀ rk s.shape w m t) (tidy : s.Tidy)
    (here : t.version p = some page) : page.Tidy := by
  have there := (rebuilt.version_eq here).2
  cases frame : s.cache p with
  | some f =>
    obtain rfl : f.page = page := by simpa [Store.version, frame] using there
    exact tidy.cache p f frame
  | none => exact tidy.disk p page (by simpa [Store.version, frame] using there)

theorem ahead (rebuilt : Rebuilt s₀ rk s.shape w' m t) (recorded : Recorded s₀ w₀ s w rk)
    (ends : w.endLsn ≤ w'.endLsn) :
    t.Ahead := by
  have mirrors := rebuilt.rebuilding.mirrors
  have pages : t.metaPage.numPages = s.metaPage.numPages := mirrors.numPages
  refine ⟨⟨mirrors.free, pages ▸ recorded.ahead.resident.first, fun p f here => ?_⟩, fun u wal => ?_,
    fun u wal p page lt here => ?_⟩
  · exact ⟨(rebuilt.rebuilding.backed p f here).1, rebuilt.rebuilding.frame_lt here⟩
  · obtain rfl := Option.some.inj (rebuilt.wal.symm.trans wal)
    exact (recorded.ahead.pos w recorded.wal).trans_le ends
  · obtain rfl := Option.some.inj (rebuilt.wal.symm.trans wal)
    obtain ⟨lt, there⟩ := rebuilt.version_eq here
    exact (recorded.ahead.older w recorded.wal p page lt there).trans_le ends

end Rebuilt

theorem lost_eq_nil {checkpoint : Lsn} {records : List LogRecord}
    (calm : ∀ r ∈ records, checkpoint ≤ r.lsn → r.body ≠ .begin) : lost checkpoint records = [] := by
  have winners : ∀ t, isLoser checkpoint records t = false := by
    intro t
    have never : (records.any fun r => checkpoint ≤ r.lsn ∧ r.txid = t ∧ r.body = .begin) = false := by
      refine List.any_eq_false.mpr fun r mem begun => ?_
      obtain ⟨late, -, begun⟩ := of_decide_eq_true begun
      exact calm r mem late begun
    rw [isLoser, never, Bool.false_and]
  unfold lost
  rw [List.filter_eq_nil_iff.mpr fun r _ both => ?_, List.map_nil]
  obtain ⟨-, -, loser⟩ := of_decide_eq_true both
  rw [winners] at loser
  cases loser

theorem Rebuilding.settles {s₀ s t : Store} {w' : LogWriter} {rk records : List LogRecord} {m : RefMap}
    (rebuilding : Rebuilding s₀ rk [] s.shape t) (maps : s.Maps m) (wal : t.wal = some w')
    (calm : ∀ r ∈ records, s₀.metaPage.checkpointLsn ≤ r.lsn →
      r.body ≠ .begin) (undoTxid : TxId) (applied : Bool) :
    ∃ t', settle undoTxid records applied t = .ok () t' ∧ Rebuilt s₀ rk s.shape w' m t' := by
  obtain ⟨d, entries, rep, agree⟩ := maps
  have rep' := rebuilding.mirrors.represents rebuilding.backed rep
  have none := lost_eq_nil calm
  unfold settle
  rw [bind_of_ok get_run, rebuilding.checkpoint, undoLosers, none]
  cases applied with
  | false => exact ⟨t, rfl, rebuilding, wal, _, entries, rep', agree⟩
  | true =>
    obtain ⟨t', counts, models⟩ := recount_counts ⟨entries, rep', agree⟩ rebuilding.io
    have kept := Rebuilding.recounts [] s.shape (some w') t ⟨rebuilding, wal⟩
    rw [counts] at kept
    exact ⟨t', counts, kept.1, kept.2, 0, models.miscounted_zero⟩

end PagerDB

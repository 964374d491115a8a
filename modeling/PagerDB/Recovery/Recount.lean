import PagerDB.BTree.Miscount
import PagerDB.Recovery.Suffix

/-! `DbImpl::Recover`: redo, the undo of losers and the recount of the keys, which is left out when
nothing has been
applied. From then on the count is as far off as the recovery has left it. -/
namespace PagerDB

open KeepsLib BlindLib MachineLib Store

def countLoop : Nat → Cursor → Int → M (Cursor × Int)
  | 0, _, _ => throw .diverges
  | fuel + 1, c, count =>
    if c.valid then do
      let c' ← c.next
      countLoop fuel c' (count + 1)
    else return (c, count)

def recount : M Unit := do
  let cursor ← seekToFirst
  let fuel ← scanFuel
  let (last, count) ← countLoop fuel cursor 0
  match last.status with
  | some e => throw e
  | none => setNumKeys count

def recover (undoTxid : TxId) (records : List LogRecord) : M Unit := do
  let checkpoint := (← get).metaPage.checkpointLsn
  let applied ← redoLoop checkpoint records
  undoLosers undoTxid checkpoint records
  onlyIf (applied || (lost checkpoint records).any (·.body.undoes)) recount

/-- A full scan visits so many entries. -/
def Store.Shows (s : Store) (n : Int) : Prop :=
  ∃ seen s', scan [] [] (fun _ _ => true) (s.facing []) = .ok (seen, none) s' ∧ seen.length = n

/-- `ApproximateKeyCount` is exact. -/
def Store.Counted (s : Store) : Prop := s.Shows s.metaPage.numKeys

/- A store whose count is off. -/

section

variable {s s' t : Store} {d n : Int} {m : RefMap} {entries : List (Bytes × Bytes)}

theorem Store.Alike.miscounted (alike : Alike s s') (d : Int) : Alike (s.miscounted d) (s'.miscounted d) where
  bodies := alike.bodies
  accounted := alike.accounted
  root := alike.root
  pages := alike.pages
  keys := congrArg (· + d) alike.keys
  free := alike.free
  readable := alike.readable

theorem Models.alike (models : Models s m) (alike : Alike s s') : Models s' m := by
  obtain ⟨entries, rep, agree⟩ := models
  exact ⟨entries, rep.alike alike, agree⟩

theorem Models.miscounted_zero (models : Models s m) : Models (s.miscounted 0) m := by
  have same : s.miscounted 0 = s := by rw [Store.miscounted, add_zero]
  rwa [same]

theorem Represents.recounted (rep : Represents (s.miscounted d) entries) :
    Represents { s with metaPage := { s.metaPage with numKeys := entries.length } } entries where
  sound := ⟨rep.sound.free, rep.sound.first, rep.sound.limit, rep.sound.readable⟩
  count := rfl
  tree := by
    rcases rep.tree with ⟨root, nil⟩ | ⟨h, tree, eq⟩
    · exact .inl ⟨root, nil⟩
    · exact .inr ⟨h, ⟨tree.inner, tree.nodup, tree.range, tree.row, tree.accounted⟩, eq⟩

theorem Represents.shows_iff (rep : Represents (s.miscounted d) entries) :
    s.Shows n ↔ entries.length = n := by
  obtain ⟨u, -, run⟩ := scan_shows (rep.facing []) rfl [] [] fun _ _ => true
  have all : shown [] (fun _ _ => true) (entries.filter fun r => [] ≤ r.1) = entries := by
    have filter : (entries.filter fun r => ([] : Bytes) ≤ r.1) = entries :=
      List.filter_eq_self.mpr fun r _ => decide_eq_true (nil_le_bytes r.1)
    rw [filter, shown_all rep.asc]
    simp
  rw [all] at run
  obtain ⟨s', run, -⟩ := (Blindly.scan [] [] fun _ _ => true).of_ok (s := s.facing []) run
  constructor
  · rintro ⟨seen, s'', again, count⟩
    cases run.symm.trans again
    exact count
  · intro count
    exact ⟨entries, s', run, count⟩

theorem Represents.counted_iff (rep : Represents (s.miscounted d) entries) : s.Counted ↔ d = 0 := by
  have count : s.metaPage.numKeys + d = entries.length := rep.count
  rw [Store.Counted, rep.shows_iff]
  omega

/- The recount. -/

theorem countLoop_eq {fuel : Nat} {c last : Cursor} {seen : List (Bytes × Bytes)} {count : Int}
    (loop : scanLoop [] (fun _ _ => true) fuel c s = .ok (seen, last) s') :
    countLoop fuel c count s = .ok (last, count + seen.length) s' := by
  induction fuel generalizing s c count seen with
  | zero => cases loop
  | succ fuel ih =>
    unfold scanLoop at loop
    unfold countLoop
    by_cases valid : c.valid = true
    · have unbounded : ¬ (([] : Bytes) ≠ [] ∧ [] ≤ c.key) := fun both => both.1 rfl
      rw [if_pos valid, if_neg unbounded, if_pos rfl] at loop
      obtain ⟨c', t, next, loop⟩ := bind_ok.mp loop
      obtain ⟨⟨seen', last'⟩, u, loop, ret⟩ := bind_ok.mp loop
      cases ret
      rw [if_pos valid, bind_of_ok next, ih loop, List.length_cons]
      simp only [Nat.cast_add, Nat.cast_one, EStateM.Result.ok.injEq, Prod.mk.injEq, true_and, and_true]
      omega
    · rw [if_neg valid] at loop
      cases loop
      rw [if_neg valid]
      simp

theorem recount_counts (models : Models (s.miscounted d) m) (io : s.io = []) :
    ∃ s', recount s = .ok () s' ∧ Models s' m := by
  obtain ⟨entries, rep, agree⟩ := models
  obtain ⟨c, u, first, same, status, positioned⟩ := seekToFirst_positions rep io
  have rep' := rep.same same
  obtain ⟨last, v, loop, same', status'⟩ := scanLoop_shows []
    (fun _ _ => true) rep'.sound (same.io io) positioned
    (Nat.lt_succ_of_le rep'.length_le)
  have all : shown [] (fun _ _ => true) entries = entries := by
    rw [shown_all rep.asc]
    simp
  rw [all] at loop
  obtain ⟨u, seek, rfl⟩ := Blindly.seekToFirst.of_ok first
  obtain ⟨v, shows, rfl⟩ := (Blindly.scanLoop [] (fun _ _ => true) _ c).of_ok loop
  refine ⟨{ v with metaPage := { v.metaPage with numKeys := entries.length } }, ?_, entries,
    (rep'.same same').recounted, agree⟩
  have counts : countLoop (u.metaPage.numPages * kPageSize + 1) c 0 u = .ok (last, 0 + entries.length) v :=
    countLoop_eq shows
  unfold recount
  rw [bind_of_ok seek, bind_of_ok (scanFuel_run u), bind_of_ok counts]
  simp only [status', status, zero_add]
  rfl

/- After redo. -/

theorem Tree.within {h : Nat} (tree : Tree s h) (root : t.metaPage.rootPageId = s.metaPage.rootPageId)
    (pages : t.metaPage.numPages = s.metaPage.numPages)
    (same : ∀ p, p < s.metaPage.numPages → t.view p = s.view p) :
    Tree t h ∧ contents t.bodies (t.leaves h) = contents s.bodies (s.leaves h) := by
  have bodies : ∀ i ∈ idsOf s.bodies h s.top, t.bodies i = s.bodies i := fun i mem =>
    congrArg Page.body (same i (tree.range i mem).2)
  have top : t.top = s.top := by rw [Store.top, Store.top, root]
  obtain ⟨leaves, ids, inner⟩ := levels_congr h s.top fun i mem => bodies i (List.mem_append_left _ mem)
  have below : ∀ l ∈ s.leaves h, t.bodies l.2 = s.bodies l.2 := fun l mem => bodies l.2 (leaf_mem_ids mem)
  have row : t.leaves h = s.leaves h := by rw [Store.leaves, Store.leaves, top, leaves]
  have all : idsOf t.bodies h t.top = idsOf s.bodies h s.top := by rw [top, idsOf, idsOf, ids, leaves]
  refine ⟨⟨?_, ?_, ?_, ?_, ?_⟩, ?_⟩
  · rw [top]
    exact inner tree.inner
  · rw [all]
    exact tree.nodup
  · rw [all, pages]
    exact tree.range
  · rw [row]
    exact tree.row.congr below
  · rw [row]
    intro l mem
    rw [same l.2 (tree.range _ (leaf_mem_ids mem)).2]
    exact tree.accounted l mem
  · rw [row]
    exact contents_congr _ _ _ fun l mem => by rw [below l mem]

theorem Mirrors.represents (mirrors : Mirrors s.shape t) (backed : t.Backed)
    (rep : Represents (s.miscounted d) entries) :
    Represents (t.miscounted (s.metaPage.numKeys + d - t.metaPage.numKeys)) entries := by
  have version : ∀ p, p < s.metaPage.numPages → t.version p = s.version p := mirrors.pages
  have views : ∀ p, p < s.metaPage.numPages → t.view p = s.view p := fun p lt => by
    rw [Store.view_eq_version, Store.view_eq_version, version p lt]
  refine ⟨⟨mirrors.free, ?_, ?_, fun p lo hi => ?_⟩, ?_, ?_⟩
  · exact rep.sound.first.trans mirrors.numPages.ge
  · exact mirrors.numPages.le.trans rep.sound.limit
  · have lt : p < s.metaPage.numPages := hi.trans_eq mirrors.numPages
    have readable : (s.version p).isSome := by
      have disk : (s.disk p).isSome := rep.sound.readable p lo lt
      cases frame : s.cache p with
      | some f => simp [Store.version, frame]
      | none => simpa [Store.version, frame] using disk
    rw [← version p lt] at readable
    change (t.disk p).isSome
    cases frame : t.cache p with
    | some f =>
      obtain ⟨-, page, disk, -⟩ := backed p f frame
      rw [disk]
      rfl
    | none => simpa [Store.version, frame] using readable
  · have count : s.metaPage.numKeys + d = entries.length := rep.count
    change t.metaPage.numKeys + (s.metaPage.numKeys + d - t.metaPage.numKeys) = entries.length
    omega
  · rcases rep.tree with ⟨root, nil⟩ | ⟨h, tree, eq⟩
    · exact .inl ⟨mirrors.root.trans root, nil⟩
    · obtain ⟨tree', same⟩ := tree.within (t := t.miscounted (s.metaPage.numKeys + d - t.metaPage.numKeys))
        mirrors.root mirrors.numPages views
      exact .inr ⟨h, tree', same.trans eq⟩

/- The undo of losers. -/

theorem Blindly.tolerant {op : M (Option Bytes)} (blind : Blindly d op) : Blindly d (tolerant op) := by
  intro s
  unfold PagerDB.tolerant
  rw [blind s]
  cases op s with
  | ok b s' => rfl
  | error e s' =>
    simp only [changed]
    split
    · rfl
    · rfl

theorem Blindly.undoLoop (undoTxid : TxId) (rs : List LogRecord) : Blindly d (undoLoop undoTxid rs) := by
  have put : ∀ key value, Blindly d (treePut key value undoTxid false) := fun _ _ =>
    (Blindly.composes undoTxid).treePut fun _ _ _ => Blindly.logKeyRecord _ _ _ _ _
  induction rs with
  | nil => exact .pure _
  | cons r rest ih =>
    refine Blind.bind ?_ fun _ => ih
    cases r.body with
    | put page key value before =>
      cases before with
      | some before => exact Blindly.tolerant (put key before)
      | none =>
        refine Blindly.tolerant ((Blindly.composes undoTxid).treeDelete (fun _ _ => ?_) fun c _ e =>
          Blindly.failIf c e)
        exact Blindly.logKeyRecord _ _ _ _ _
    | delete page key before =>
      cases before with
      | some before => exact (put key before).bind fun _ => .pure _
      | none => exact .pure _
    | _ => exact .pure _

theorem Blindly.perform (c : Call) (txid : TxId) (wantBefore : Bool) :
    Blindly d (c.perform txid wantBefore) := by
  cases c with
  | put key value => exact (Blindly.composes txid).treePut fun _ _ _ => Blindly.logKeyRecord _ _ _ _ _
  | delete key =>
    exact (Blindly.composes txid).treeDelete (fun _ _ => Blindly.logKeyRecord _ _ _ _ _) fun c _ e =>
      Blindly.failIf c e

abbrev Quiet (s : Store) : Prop := s.io = []

theorem quiet_of_ok {α : Type} {x : M α} (ends : ∀ s, ∃ a s', x s = .ok a s' ∧ (s.io = [] → s'.io = [])) :
    KeepsAlways Quiet x := by
  intro s io
  obtain ⟨a, s', run, kept⟩ := ends s
  rw [run]
  exact kept io

theorem quiet_ioPoint : KeepsAlways Quiet ioPoint := by
  intro s io
  rw [ioPoint_nil io]
  exact io

theorem quiet_failIf (c : Prop) [Decidable c] (e : Failure) : KeepsAlways Quiet (failIf c e) :=
  .ite (.throw _) (.pure _)

theorem quiet_readPage (pid : PageId) : KeepsAlways Quiet (readPage pid) := by
  refine KeepsAlways.get.bind fun s => (quiet_failIf _ _).bind fun _ => (quiet_failIf _ _).bind fun _ =>
    quiet_ioPoint.bind fun _ => ?_
  cases s.disk pid with
  | some page => exact .pure _
  | none => exact .throw _

theorem quiet_logKeyRecord (body : LogBody) (txid : TxId) (pid : PageId) (opEnd needsUndo : Bool) :
    KeepsAlways Quiet (logKeyRecord body txid pid opEnd needsUndo) := quiet_of_ok fun s => by
  obtain ⟨s', run⟩ := logKeyRecord_succeeds s body txid pid opEnd needsUndo
  exact ⟨(), s', run, (logKeyRecord_same run).io⟩

theorem quiet {txid : TxId} : Composes txid (KeepsAlways Quiet) where
  pure := .pure
  bind := .bind
  failIf c _ e _ := quiet_failIf c e
  diverges := .throw _
  isEmpty := quiet_of_ok fun s => ⟨_, s, isEmpty_run, id⟩
  root next := KeepsAlways.get.bind fun _ => next _ _
  fetchPage pid := by
    refine KeepsAlways.get.bind fun s => ?_
    cases s.cache pid with
    | some f => exact .pure _
    | none => exact quiet_ioPoint.bind fun _ => (quiet_readPage pid).bind fun _ => .modify fun _ io => io
  getPage _ := quiet_of_ok fun s => ⟨_, s, rfl, id⟩
  setPage _ _ := quiet_of_ok fun s => ⟨_, _, rfl, id⟩
  markDirty _ := quiet_of_ok fun s => ⟨_, _, rfl, id⟩
  newPage := by
    refine quiet_ioPoint.bind fun _ => .bind ?_ fun pid => .bind (.modify fun _ io => io) fun _ => .pure _
    refine KeepsAlways.get.bind fun s => .ite ?_ ?_
    · refine (quiet_readPage _).bind fun page => ?_
      cases page.body with
      | free next => exact quiet_ioPoint.bind fun _ => .bind (.modify fun _ io => io) fun _ => .pure _
      | _ => exact .throw _
    · exact quiet_ioPoint.bind fun _ => (quiet_failIf _ _).bind fun _ =>
        .bind (.modify fun _ io => io) fun _ => .pure _
  appendRecord opEnd body _ := quiet_of_ok fun s => by
    obtain ⟨r, s', run⟩ := appendRecord_succeeds s _ opEnd body
    exact ⟨r, s', run, (appendRecord_same run).io⟩
  logPageImage pid opEnd := quiet_of_ok fun s => by
    obtain ⟨s', run⟩ := logPageImage_succeeds s pid _ opEnd
    exact ⟨(), s', run, (logPageImage_same run).io⟩
  setRootPageId _ := .modify fun _ io => io
  addToNumKeys _ := .modify fun _ io => io

theorem quiet_tolerant {op : M (Option Bytes)} (quiet : KeepsAlways Quiet op) :
    KeepsAlways Quiet (tolerant op) := by
  intro s io
  have after := quiet s io
  unfold tolerant
  cases run : op s with
  | ok b s' =>
    rw [run] at after
    exact after
  | error e s' =>
    rw [run] at after
    by_cases gone : isNotFound e = true
    · simp only [gone, if_true]
      exact after
    · simp only [gone]
      exact after

theorem quiet_undoLoop (undoTxid : TxId) (rs : List LogRecord) :
    KeepsAlways Quiet (undoLoop undoTxid rs) := by
  have put : ∀ key value, KeepsAlways Quiet (treePut key value undoTxid false) := fun _ _ =>
    quiet.treePut fun _ _ _ => quiet_logKeyRecord _ _ _ _ _
  induction rs with
  | nil => exact .pure _
  | cons r rest ih =>
    refine KeepsAlways.bind ?_ fun _ => ih
    cases r.body with
    | put page key value before =>
      cases before with
      | some before => exact quiet_tolerant (put key before)
      | none =>
        refine quiet_tolerant (quiet.treeDelete (fun _ _ => ?_) fun c _ e => quiet_failIf c e)
        exact quiet_logKeyRecord _ _ _ _ _
    | delete page key before =>
      cases before with
      | some before => exact (put key before).bind fun _ => .pure _
      | none => exact .pure _
    | _ => exact .pure _

theorem undoLosers_models {undoTxid : TxId} {checkpoint : Lsn} {records : List LogRecord}
    (models : Models (s.miscounted d) m) (io : s.io = [])
      (run : undoLosers undoTxid checkpoint records s = .ok () s') :
    (∃ m', Models (s'.miscounted d) m') ∧ s'.io = [] := by
  refine ⟨⟨_, undoLoop_writes models ((Blindly.undoLoop undoTxid _).ok run)⟩, ?_⟩
  have after := quiet_undoLoop undoTxid (lost checkpoint records).reverse s io
  unfold undoLosers at run
  rwa [run] at after

theorem work_models {e : Work} (models : Models (s.miscounted d) m) (step : work s e = some s') :
    ∃ m', Models (s'.miscounted d) m' := by
  have moves : ∀ {u}, Alike s u → ∃ m', Models (u.miscounted d) m' := fun alike =>
    ⟨m, models.alike (alike.miscounted d)⟩
  cases e with
  | call c txid wantBefore io =>
    have start : Models ((s.facing io).miscounted d) m := models.facing io
    simp only [work] at step
    split at step
    · rename_i ends
      cases step
      have blind := (Blindly.perform (d := d) c txid wantBefore).ok ends
      cases c with
      | put key value => exact ⟨_, (start.put blind).2⟩
      | delete key => exact ⟨_, (start.delete blind).2.2⟩
    · rename_i ends
      obtain ⟨may, eq⟩ := Option.ite_none_right_eq_some.mp step
      cases eq
      have blind := (Blindly.perform (d := d) c txid wantBefore).error ends
      cases c with
      | put key value => cases may
      | delete key => exact ⟨m, (start.delete_absent blind may).2⟩
  | marker txid body =>
    obtain ⟨-, eq⟩ := Option.ite_none_left_eq_some.mp step
    cases eq
    exact moves (Unmoved.onLog s _).alike
  | flush =>
    cases step
    exact moves (Unmoved.onLog s _).alike
  | flushAll =>
    cases step
    exact moves (Unmoved.flushedAll s).alike
  | evict pid => exact moves (evict_same step).alike
  | fetch pid io =>
    simp only [work] at step
    split at step
    · rename_i ends
      cases step
      have start : Models ((s.facing io).miscounted d) m := models.facing io
      exact ⟨m, start.alike ((fetchPage_same ends).alike.miscounted d)⟩
    · cases step

theorem run_models {works : List Work} (models : Models (s.miscounted d) m)
    (reach : run work s works = some s') :
    ∃ m', Models (s'.miscounted d) m' := by
  have step : ∀ t e t', (∃ m', Models (t.miscounted d) m') → work t e = some t' →
    ∃ m', Models (t'.miscounted d) m' :=
    fun _ _ _ inv step => by
      obtain ⟨m', models⟩ := inv
      exact work_models models step
  exact run_invariant step ⟨m, models⟩ reach

theorem everyState_counted {P : Prop} (models : Models (s.miscounted d) m) (right : d = 0 ↔ P)
    (later : List Work) :
    EveryState work (fun u => u.Counted ↔ P) s later := by
  have always : EveryState work (fun u => ∃ m', Models (u.miscounted d) m') s later :=
    everyState_invariant (fun _ _ _ inv step => by
      obtain ⟨m', models⟩ := inv
      exact work_models models step) ⟨m, models⟩
  refine always.imp fun u inv => ?_
  obtain ⟨m', entries, rep, -⟩ := inv
  exact rep.counted_iff.trans right

end

/- Recovery. -/

/-- A reopened handle: nothing is in the pool, the meta page is that of the checkpoint, and of each
page the file has
some version. -/
structure Reopened (s₀ : Store) (rs : List LogRecord) (t : Store) : Prop where
  crashed : s₀.shape.Crashed rs t.shape
  cold : ∀ p, t.cache p = none
  free : t.metaPage.freeListHead = kInvalidPageId
  io : t.io = []
  keys : t.metaPage.numKeys = s₀.metaPage.numKeys
  checkpoint : t.metaPage.checkpointLsn = s₀.metaPage.checkpointLsn
  vol : t.vol = s₀.vol

theorem Reopened.mirrors {s₀ t : Store} {rs : List LogRecord} (opened : Reopened s₀ rs t) :
    Mirrors t.shape t where
  root := rfl
  numPages := rfl
  pages _ _ := rfl
  frames p f here := by
    rw [opened.cold p] at here
    cases here
  free := opened.free
  io := opened.io

theorem Reopened.backed {s₀ t : Store} {rs : List LogRecord} (opened : Reopened s₀ rs t) : t.Backed := by
  intro p f here
  rw [opened.cold p] at here
  cases here

/-- A record of the suffix is newer than its page in the file or changes the root, or a loser's
write is undone, or
the tree that the log leads to has as many entries as the checkpoint has counted. -/
def Recounts (rs records : List LogRecord) (t s : Store) : Prop :=
  (∃ r ∈ rs, t.shape.applies r = true) ∨
    (∃ r ∈ lost t.metaPage.checkpointLsn records, r.body.undoes = true) ∨ s.Shows t.metaPage.numKeys

section

variable {s₀ s t t' : Store} {w₀ w : LogWriter} {old rs cut : List LogRecord} {d : Int} {m : RefMap}
    {undoTxid : TxId}

theorem Written.recover_models (written : Written s₀ w₀ s w rs) (at_ : s₀.AtCheckpoint w₀)
    (models : Models (s.miscounted d) m) (skipped : ∀ r ∈ old, r.lsn < s₀.metaPage.checkpointLsn)
    (open_ : ∀ r ∈ cut, r.opEnd = false) (opened : Reopened s₀ rs t)
    (run : recover undoTxid (old ++ rs ++ cut) t = .ok () t') :
    ∃ d' m', Models (t'.miscounted d') m' ∧ (d' = 0 ↔ Recounts rs (old ++ rs ++ cut) t s) := by
  have suffix := written.logSuffix at_
  have room : s.metaPage.numPages ≤ max t.shape.numPages t.vol.maxPages := by
    rw [opened.crashed.numPages, opened.vol]
    exact written.room
  obtain ⟨t₁, redo, mirrors, steady⟩ := suffix.redoes skipped open_ written.replay
    (opened.crashed.mixed suffix.firstImages) opened.mirrors room
  rw [← opened.checkpoint] at redo
  obtain ⟨entries, rep, agree⟩ := models
  have keys : t₁.metaPage.numKeys = t.metaPage.numKeys := steady.keys
  have rep₁ := mirrors.represents (steady.backed opened.backed) rep
  simp only [recover, bind_ok, get_run] at run
  obtain ⟨_, _, ⟨rfl, rfl⟩, applied, _, redo', _, t₂, undo, count⟩ := run
  cases redo.symm.trans redo'
  obtain ⟨⟨m₂, models₂⟩, io⟩ := undoLosers_models ⟨entries, rep₁, agree⟩ mirrors.io undo
  have shows : s.Shows t.metaPage.numKeys ↔ s.metaPage.numKeys + d - t₁.metaPage.numKeys = 0 := by
    have count : s.metaPage.numKeys + d = entries.length := rep.count
    rw [rep.shows_iff, keys]
    omega
  rcases onlyIf_ok.mp count with ⟨anew, count⟩ | ⟨kept, rfl⟩
  · obtain ⟨t₃, counts, models₃⟩ := recount_counts models₂ io
    cases counts.symm.trans count
    refine ⟨0, m₂, models₃.miscounted_zero, iff_of_true rfl ?_⟩
    rcases Bool.or_eq_true_iff.mp anew with applied | undone
    · exact .inl (List.any_eq_true.mp applied)
    · exact .inr (.inl (List.any_eq_true.mp undone))
  · refine ⟨_, m₂, models₂, shows.symm.trans ⟨fun right => .inr (.inr right), fun recounts => ?_⟩⟩
    obtain ⟨idle, none⟩ := Bool.or_eq_false_iff.mp kept
    rcases recounts with applied | undone | right
    · rw [List.any_eq_true.mpr applied] at idle
      cases idle
    · rw [List.any_eq_true.mpr undone] at none
      cases none
    · exact right

end

/-- After a crash and from the recovery on, whatever is done then, the key count is exact if and
only if it has been
taken anew or the checkpoint's count happens to be that of the recovered tree. -/
theorem key_count_after_recovery (s₀ s : Store) (w₀ : LogWriter) (works : List Work) (d : Int) (m : RefMap)
    (at_ : s₀.AtCheckpoint w₀) (ahead : s₀.Ahead) (tidy : s₀.Tidy) (models : Models (s₀.miscounted d) m)
    (reach : run work s₀ works = some s) :
    ∃ w rs, s.wal = some w ∧ w.chunks = rs.map .record ∧
      ∀ (old cut : List LogRecord) (t t' : Store) (undoTxid : TxId) (later : List Work),
        (∀ r ∈ old, r.lsn < s₀.metaPage.checkpointLsn) → (∀ r ∈ cut, r.opEnd = false) → Reopened s₀ rs t →
        recover undoTxid (old ++ rs ++ cut) t = .ok () t' →
        EveryState work (fun u => u.Counted ↔ Recounts rs (old ++ rs ++ cut) t s)
          (t'.checkpointed false) later := by
  obtain ⟨w, rs, written⟩ := Written.run at_ ahead tidy reach
  obtain ⟨m', models'⟩ := run_models models reach
  refine ⟨w, rs, written.wal, written.chunks, fun old cut t t' undoTxid later skipped open_ opened run => ?_⟩
  obtain ⟨d', m'', models'', right⟩ := written.recover_models at_ models' skipped open_ opened run
  exact everyState_counted (models''.alike ((Unmoved.checkpointed t' false).alike.miscounted d')) right later

/- One record, and another after the checkpoint. -/

def Store.over (s₀ s : Store) : Store :=
  { s₀ with cache := fun _ => none, disk := s.disk, filePages := s.filePages, io := [] }

def onePut : Option Store :=
  (run work (create ⟨60, by decide⟩ (some (.open [] 1))) [.call (.put [1] [2]) 1 false []]).map
    (·.checkpointed false)

def secondPut : List Work := [.call (.put [2] [3]) 2 false [], .flushAll]

theorem onePut_holds : ∃ s₀ w₀ m, onePut = some s₀ ∧ s₀.AtCheckpoint w₀ ∧ s₀.Ahead ∧ s₀.Tidy ∧
    Models (s₀.miscounted 0) m := by
  have puts : (run work (create ⟨60, by decide⟩ (some (.open [] 1))) [.call
    (.put [1] [2]) 1 false []]).isSome := by
    decide +kernel
  obtain ⟨s, reach⟩ := Option.isSome_iff_exists.mp puts
  have ahead := create_ahead ⟨60, by decide⟩ (some (.open [] 1)) fun w is => Option.some.inj is ▸ by decide
  have start : (create ⟨60, by decide⟩ (some (.open [] 1))).AtCheckpoint (.open [] 1) :=
    ⟨rfl, rfl, rfl, Nat.zero_le _⟩
  obtain ⟨w, rs, written⟩ := Written.run start ahead (create_tidy _ _) reach
  obtain ⟨w₀, at_⟩ := checkpointed_atCheckpoint written.wal
  obtain ⟨old, logged⟩ := written.tidy.logged
  obtain ⟨once, put, last⟩ := Option.bind_eq_some_iff.mp reach
  cases last
  obtain ⟨m, models⟩ := work_models (create_models _ _).miscounted_zero put
  exact ⟨s.checkpointed false, w₀, m, congrArg (Option.map fun s : Store => s.checkpointed false) reach, at_,
    ahead_lasting.checkpointed s false written.ahead, (logged_lasting.checkpointed s false logged).tidy,
    models.alike ((Unmoved.checkpointed s false).alike.miscounted 0)⟩

theorem Written.records {s₀ s : Store} {w₀ w : LogWriter} {rs : List LogRecord}
    (written : Written s₀ w₀ s w rs) :
    s.records = rs := by
  simp [Store.records, written.wal, written.chunks, recordsOf]

theorem Store.Ahead.reopened {s₀ s : Store} {rs : List LogRecord} (ahead : s₀.Ahead)
    (pages : ∀ p, p < s₀.metaPage.numPages → Shape.Later rs s₀.shape fun y =>
      (s₀.over s).version p = y.pages p) :
    Reopened s₀ rs (s₀.over s) :=
  ⟨⟨rfl, rfl, fun p lt => .inl (pages p lt)⟩, fun _ => rfl, ahead.resident.free, rfl, rfl, rfl, rfl⟩

/-- When the file has nothing of the second record the keys are counted, and the count is right
after a Delete as
well. When it has all of it they are not. -/
theorem second_key_counted_unless_written : ∃ s₀ s t v u, onePut = some s₀ ∧ run work s₀ secondPut = some s ∧
    recover 9 s.records (s₀.over s₀) = .ok () t ∧ recover 9 s.records (s₀.over s) = .ok () v ∧
    run work (t.checkpointed false) [.call (.delete [2]) 3 false []] = some u ∧ u.Counted ∧
    ¬(v.checkpointed false).Counted := by
  have decided : (onePut.bind fun s₀ => (run work s₀ secondPut).bind fun s =>
      ((do recover 9 s.records; get : M Store).run' (s₀.over s₀)).bind fun t =>
      ((do recover 9 s.records; get : M Store).run' (s₀.over s)).bind fun _ =>
      (run work (t.checkpointed false) [.call (.delete [2]) 3 false []]).map fun _ =>
        decide ((∀ p < s₀.metaPage.numPages, (s₀.over s₀).version p = s₀.version p) ∧
          (∀ p < s₀.metaPage.numPages, (s₀.over s).version p = s.version p) ∧
          s.records.any (s₀.over s₀).shape.applies = true ∧ s.records.any (s₀.over s).shape.applies = false ∧
          lost s₀.metaPage.checkpointLsn s.records = [] ∧ s.metaPage.numKeys ≠ s₀.metaPage.numKeys)) =
        some true := by
    decide +kernel
  obtain ⟨s₀, founded, decided⟩ := Option.bind_eq_some_iff.mp decided
  obtain ⟨s, second, decided⟩ := Option.bind_eq_some_iff.mp decided
  obtain ⟨t, redone, decided⟩ := Option.bind_eq_some_iff.mp decided
  obtain ⟨v, kept, decided⟩ := Option.bind_eq_some_iff.mp decided
  obtain ⟨u, deleted, decided⟩ := Option.map_eq_some_iff.mp decided
  obtain ⟨before, after, newer, current, none, grown⟩ := of_decide_eq_true decided
  have ends : ∀ {x : M Unit} {a b : Store}, (do x; get : M Store).run' a = some b → x a = .ok () b := by
    intro x a b kept
    obtain ⟨c, whole⟩ := ok_of_result kept
    obtain ⟨_, t, run, got⟩ := bind_ok.mp whole
    cases got
    exact run
  obtain ⟨s₀', w₀, m, founded', at_, ahead, tidy, models⟩ := onePut_holds
  obtain rfl := Option.some.inj (founded.symm.trans founded')
  obtain ⟨w₁, rs₁, written⟩ := Written.run at_ ahead tidy second
  obtain ⟨w, rs, wal, chunks, counts⟩ :=
    key_count_after_recovery s₀ s w₀ secondPut 0 m at_ ahead tidy models second
  have records : s.records = rs := by simp [Store.records, wal, chunks, recordsOf]
  have same : [] ++ rs ++ [] = s.records := by rw [records, List.nil_append, List.append_nil]
  have replay : Shape.redoAll rs s₀.shape = some s.shape := by
    rw [← records, written.records]
    exact written.replay
  have nothing : ∀ r ∈ ([] : List LogRecord), r.opEnd = false := List.forall_mem_nil _
  have lostPages : Reopened s₀ rs (s₀.over s₀) := ahead.reopened fun p lt => .here (before p lt)
  have allPages : Reopened s₀ rs (s₀.over s) := ahead.reopened fun p lt =>
    ⟨rs, [], s.shape, (List.append_nil rs).symm, replay, after p lt⟩
  have counted := counts [] [] _ t 9 [.call (.delete [2]) 3 false []]
    (List.forall_mem_nil _) nothing lostPages
    (same ▸ ends redone)
  have stale := counts [] [] _ v 9 [] (List.forall_mem_nil _) nothing allPages (same ▸ ends kept)
  rw [same] at counted stale
  refine ⟨s₀, s, t, v, u, founded, second, ends redone, ends kept, deleted, ?_, fun exact => ?_⟩
  · exact (counted.last deleted).mpr (.inl (List.any_eq_true.mp (records ▸ newer)))
  · rcases (stale.last rfl).mp exact with ⟨r, mem, applies⟩ | ⟨r, mem, -⟩ | shows
    · rw [List.any_eq_true.mpr ⟨r, records ▸ mem, applies⟩] at current
      cases current
    · have mem : r ∈ lost s₀.metaPage.checkpointLsn s.records := mem
      rw [none] at mem
      cases mem
    · obtain ⟨m', entries, rep, -⟩ := run_models models second
      have length : entries.length = s₀.metaPage.numKeys := rep.shows_iff.mp shows
      have count : s.metaPage.numKeys + 0 = entries.length := rep.count
      omega

end PagerDB

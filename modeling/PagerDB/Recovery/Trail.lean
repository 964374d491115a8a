import PagerDB.Recovery.Converge

/-! The trail that a tree operation leaves in the log. While it runs, the redo of the records it has
appended leads from the pages it began with to those it has now, but for the pages that it has changed
and not yet logged. -/
namespace PagerDB

open Store

/-- Records of one id, none of which ends its operation. -/
def OpenGroup (txid : TxId) (rs : List LogRecord) : Prop := ∀ r ∈ rs, r.txid = txid ∧ r.opEnd = false

/-- The last record of a closed group, and no other, ends the operation. -/
def Group (txid : TxId) : Bool → List LogRecord → Prop
  | false, rs => OpenGroup txid rs
  | true, rs => ∃ init last, rs = init ++ [last] ∧ OpenGroup txid init ∧
      last.txid = txid ∧ last.opEnd = true

theorem Group.snoc {txid : TxId} {rs : List LogRecord} {r : LogRecord} (group : Group txid false rs)
    (id : r.txid = txid) : Group txid r.opEnd (rs ++ [r]) := by
  cases ends : r.opEnd with
  | true => exact ⟨rs, r, rfl, group, id, ends⟩
  | false =>
    intro q mem
    rcases List.mem_append.mp mem with old | new
    · exact group q old
    · obtain rfl := List.mem_singleton.mp new
      exact ⟨id, ends⟩

/-- The pages that the writer knows to be imaged have records in the log, and the first of them is an
image. -/
structure LogWriter.Imaged (w : LogWriter) : Prop where
  first : FirstImages 0 (recordsOf w.chunks)
  known : ∀ p, w.needsImage p = false → ∃ r ∈ recordsOf w.chunks, r.body.target = some p

theorem LogWriter.Imaged.logged {w : LogWriter} {txid : TxId} {e : Bool} {body : LogBody} (imaged : w.Imaged)
    (next : ∀ p, body.target = some p → body.isImage = true ∨ w.needsImage p = false) :
    (w.logged txid e body).Imaged := by
  have records : recordsOf (w.logged txid e body).chunks =
      recordsOf w.chunks ++ [w.recordOf txid e body] := by
    rw [LogWriter.logged_chunks, recordsOf_append, recordsOf_singleton]
  constructor
  · rw [records]
    refine imaged.first.snoc fun p target => ?_
    rw [LogWriter.recordOf_target] at target
    rw [LogWriter.recordOf_isImage]
    refine (next p target).imp_right fun known => ?_
    obtain ⟨r, mem, here⟩ := imaged.known p known
    exact ⟨r, mem, Nat.zero_le _, here⟩
  · intro p known
    rw [records]
    rcases LogWriter.needsImage_logged known with known | target
    · obtain ⟨r, mem, here⟩ := imaged.known p known
      exact ⟨r, List.mem_append_left _ mem, here⟩
    · refine ⟨w.recordOf txid e body, List.mem_append_right _ (List.mem_singleton_self _), ?_⟩
      rw [LogWriter.recordOf_target]
      exact target

structure LogWriter.Continues (w₀ w : LogWriter) : Prop where
  file : w.file = w₀.file
  base : w.baseLsn = w₀.baseLsn
  sound : w₀.Sound → w.Sound

theorem LogWriter.Continues.refl (w : LogWriter) : w.Continues w := ⟨rfl, rfl, id⟩

theorem LogWriter.Continues.logged {w₀ w : LogWriter} (continues : w₀.Continues w) (txid : TxId) (e : Bool)
    (body : LogBody) : w₀.Continues (w.logged txid e body) := by
  obtain ⟨base, -, file⟩ := w.logged_same txid e body
  exact ⟨file.trans continues.file, base.trans continues.base, fun sound =>
    (continues.sound sound).logged txid e body⟩

theorem LogWriter.recordOf_ofTree (w : LogWriter) (txid : TxId) (e : Bool) (body : LogBody) :
    (w.recordOf txid e body).body.ofTree = body.ofTree := by
  cases body with
  | _ => rfl

theorem LogWriter.recordOf_stamped (w : LogWriter) (txid : TxId) (e : Bool) (body : LogBody) :
    (w.recordOf txid e body).Stamped := by
  intro p page image
  cases body with
  | pageImage q old =>
    cases image
    rfl
  | _ => cases image

/-- The file has of its old pages what it had. But for the pages in `D`, clean frames are as in the
file, and of a page
that has become dirty there is a record. -/
structure Flagged (s₀ : Store) (D : List PageId) (rs : List LogRecord) (s : Store) : Prop where
  disk : ∀ p, p < s₀.metaPage.numPages → s.disk p = s₀.disk p
  clean : s₀.Coherent → ∀ p f, p ∉ D → s.cache p = some f → f.dirty = false → s.disk p = some f.page
  dirty : ∀ p, p ∉ D → s.isDirty p = true → s₀.isDirty p = true ∨ ∃ r ∈ rs, r.body.target = some p

namespace Flagged

variable {s₀ s s' : Store} {D D' : List PageId} {rs rs' : List LogRecord}

theorem start (s : Store) : Flagged s [] [] s :=
  ⟨fun _ _ => rfl, fun coherent p f _ => coherent p f, fun _ _ => .inl⟩

theorem moved (flagged : Flagged s₀ D rs s) (disk : s'.disk = s.disk) (log : ∀ r ∈ rs, r ∈ rs')
    (cache : ∀ p, p ∉ D' → s'.cache p = s.cache p ∧ p ∉ D ∨
      s'.isDirty p = true ∧ ∃ r ∈ rs', r.body.target = some p) : Flagged s₀ D' rs' s' where
  disk p lt := by rw [disk, flagged.disk p lt]
  clean coherent p f out here clean := by
    rcases cache p out with ⟨same, old⟩ | ⟨dirty, -⟩
    · rw [disk]
      exact flagged.clean coherent p f old (same ▸ here) clean
    · rw [isDirty_eq here, clean] at dirty
      cases dirty
  dirty p out now := by
    rcases cache p out with ⟨same, old⟩ | ⟨-, logged⟩
    · have was : s.isDirty p = true := by
        unfold isDirty at now ⊢
        rwa [same] at now
      obtain dirty | ⟨r, mem, target⟩ := flagged.dirty p old was
      · exact .inl dirty
      · exact .inr ⟨r, log r mem, target⟩
    · exact .inr logged

theorem setFrame {pid : PageId} (flagged : Flagged s₀ D rs s) (mem : pid ∈ D) (f : Frame) :
    Flagged s₀ D rs (s.setFrame pid f) := by
  refine flagged.moved rfl (fun _ => id) fun p out => .inl ⟨if_neg ?_, out⟩
  rintro rfl
  exact out mem

theorem logged {r : LogRecord} (flagged : Flagged s₀ D rs s) (disk : s'.disk = s.disk)
    (cache : s'.cache = s.cache) :
    Flagged s₀ D (rs ++ [r]) s' :=
  flagged.moved disk (fun _ => List.mem_append_left _) fun _ out => .inl ⟨congrFun cache _, out⟩

theorem stamped {pid : PageId} {r : LogRecord} (flagged : Flagged s₀ D rs s) (sub : D ⊆ pid :: D')
    (target : r.body.target = some pid) (disk : s'.disk = s.disk) (dirty : s'.isDirty pid = true)
    (others : ∀ p, p ≠ pid → s'.cache p = s.cache p) : Flagged s₀ D' (rs ++ [r]) s' := by
  refine flagged.moved disk (fun _ => List.mem_append_left _) fun p out => ?_
  by_cases same : p = pid
  · exact .inr ⟨same ▸ dirty, r, List.mem_append_right _ (List.mem_singleton_self r), same ▸ target⟩
  · exact .inl ⟨others p same, fun mem => (List.mem_cons.mp (sub mem)).elim same out⟩

theorem loaded {pid : PageId} {page : Page} (flagged : Flagged s₀ D rs s) (disk : s.disk pid = some page)
    (same : s'.disk = s.disk) (cache : s'.cache =
      (s.setFrame pid ⟨page, false⟩).cache) : Flagged s₀ D rs s' := by
  have others : ∀ p, p ≠ pid → s'.cache p = s.cache p := fun p ne => (congrFun cache p).trans (if_neg ne)
  have here : s'.cache pid = some ⟨page, false⟩ := (congrFun cache pid).trans (if_pos rfl)
  refine ⟨fun p lt => ?_, fun coherent p f out frame clean => ?_, fun p out now => ?_⟩
  · rw [same, flagged.disk p lt]
  · rw [same]
    by_cases it : p = pid
    · subst it
      cases here.symm.trans frame
      exact disk
    · exact flagged.clean coherent p f out ((others p it).symm.trans frame) clean
  · by_cases it : p = pid
    · subst it
      rw [isDirty_eq here] at now
      cases now
    · refine flagged.dirty p out ?_
      unfold isDirty at now ⊢
      rwa [others p it] at now

theorem fetch {pid : PageId} {u : Unit} (flagged : Flagged s₀ D rs s) (run : fetchPage pid s = .ok u s') :
    Flagged s₀ D rs s' := by
  rcases fetchPage_eq run with ⟨f, -, rfl⟩ | ⟨page, io, miss, -, -, disk, rfl⟩
  · exact flagged
  · exact flagged.loaded disk rfl rfl

theorem rewrite {pid : PageId} (flagged : Flagged s₀ D rs s) (leaf : (s.view pid).isLeaf = true) :
    Flagged s₀ D rs (s.putPage pid (s.view pid)) := by
  cases frame : s.cache pid with
  | some f =>
    refine flagged.moved rfl (fun _ => id) fun p out => .inl ⟨?_, out⟩
    by_cases same : p = pid
    · subst same
      simp [putPage, Store.setFrame, view, isDirty, frame]
    · exact if_neg same
  | none =>
    have disk : s.disk pid = some (s.view pid) := by
      have here := version_of_leaf leaf
      unfold Store.version at here
      rwa [frame] at here
    exact flagged.loaded disk rfl (by simp [putPage, Store.setFrame, isDirty, frame])

theorem newPage {new : PageId} (flagged : Flagged s₀ D rs s) (free : s.metaPage.freeListHead = kInvalidPageId)
    (grown : s₀.metaPage.numPages ≤ s.metaPage.numPages) (run : newPage s = .ok new s') :
    Flagged s₀ (new :: D) rs s' := by
  obtain ⟨fresh, -, io, eq⟩ := newPage_eq free run
  have cache : ∀ p, p ≠ new → s'.cache p = s.cache p := fun p ne => by
    rw [eq]
    exact if_neg ne
  have disk : ∀ p, p ≠ new → s'.disk p = s.disk p := fun p ne => by
    rw [eq]
    exact if_neg ne
  refine ⟨fun p lt => ?_, fun coherent p f out frame clean => ?_, fun p out now => ?_⟩
  · exact (disk p ((lt.trans_le grown).trans_eq fresh.symm).ne).trans (flagged.disk p lt)
  · obtain ⟨ne, old⟩ := not_or.mp (List.mem_cons.not.mp out)
    exact (disk p ne).trans (flagged.clean coherent p f old ((cache p ne).symm.trans frame) clean)
  · obtain ⟨ne, old⟩ := not_or.mp (List.mem_cons.not.mp out)
    refine flagged.dirty p old ?_
    unfold isDirty at now ⊢
    rwa [cache p ne] at now

end Flagged

/-- From `s₀` with log `w₀` to `s`: the records `rs` of one group lead to the pages of `x`, which
are those of `s` but for the ones in `D`. -/
structure Trail (s₀ : Store) (w₀ : LogWriter) (txid : TxId) (closed : Bool) (D : List PageId)
    (s : Store) (w : LogWriter) (rs : List LogRecord) (x : Shape) : Prop where
  wal : s.wal = some w
  chunks : w.chunks = w₀.chunks ++ rs.map .record
  continues : w₀.Continues w
  imaged : w₀.Imaged → w.Imaged
  group : Group txid closed rs
  tree : ∀ r ∈ rs, r.body.ofTree = true
  redone : Shape.redoAll rs s₀.shape = some x
  history : Shape.History rs s₀.shape
  since : ∀ r ∈ rs, w₀.endLsn ≤ r.lsn
  later : w₀.endLsn ≤ w.endLsn
  pos : 0 < w.endLsn
  before : x.Before w.endLsn
  root : x.root = s.metaPage.rootPageId
  pages : ∀ p, p ∉ D → x.pages p = s.version p
  grown : x.numPages ≤ s.metaPage.numPages
  fresh : ∀ p, x.numPages ≤ p → p < s.metaPage.numPages → p ∈ D
  resident : s.Resident
  flagged : Flagged s₀ D rs s
  vol : s.vol = s₀.vol
  room : s.metaPage.numPages ≤ max s₀.metaPage.numPages s₀.vol.maxPages

def Trails (s₀ : Store) (w₀ : LogWriter) (txid : TxId) (closed : Bool) (D : List PageId)
    (s : Store) : Prop := ∃ w rs x, Trail s₀ w₀ txid closed D s w rs x

namespace Trail

variable {s₀ s s' : Store} {w₀ w : LogWriter} {txid : TxId} {closed e : Bool} {D D' : List PageId}
  {rs : List LogRecord} {x y : Shape} {body : LogBody} {pid : PageId}

theorem append (tr : Trail s₀ w₀ txid false D s w rs x) (ofTree : body.ofTree = true)
    (step : x.redo (w.recordOf txid e body) = some y)
    (before : y.Before (w.logged txid e body).endLsn)
    (known : ∀ p, body.target = some p → body.isImage = true ∨ w.needsImage p = false)
    (wal : s'.wal = some (w.logged txid e body)) (root : y.root = s'.metaPage.rootPageId)
    (pages : ∀ p, p ∉ D' → y.pages p = s'.version p) (same : s'.metaPage.numPages = s.metaPage.numPages)
    (grown : y.numPages ≤ s.metaPage.numPages) (fresh : ∀ p, y.numPages ≤ p →
      p < s.metaPage.numPages → p ∈ D')
    (resident : s'.Resident) (flagged : Flagged s₀ D' (rs ++ [w.recordOf txid e body]) s')
      (vol : s'.vol = s.vol) :
    Trail s₀ w₀ txid e D' s' (w.logged txid e body) (rs ++ [w.recordOf txid e body]) y where
  wal := wal
  chunks := by
    rw [LogWriter.logged_chunks, tr.chunks, List.append_assoc, List.map_append]
    rfl
  continues := tr.continues.logged txid e body
  imaged imaged := (tr.imaged imaged).logged known
  group := Group.snoc (r := w.recordOf txid e body) tr.group rfl
  tree := List.forall_mem_append.mpr ⟨tr.tree, List.forall_mem_singleton.mpr
    ((w.recordOf_ofTree txid e body).trans ofTree)⟩
  redone := Shape.redoAll_snoc tr.redone step
  history := tr.history.snoc tr.redone tr.pos tr.before (w.recordOf_stamped txid e body) step
  since := List.forall_mem_append.mpr ⟨tr.since, List.forall_mem_singleton.mpr tr.later⟩
  later := by
    rw [LogWriter.logged_endLsn]
    exact tr.later.trans (Nat.le_add_right _ _)
  pos := by
    rw [LogWriter.logged_endLsn]
    exact Nat.add_pos_left tr.pos _
  before := before
  root := root
  pages := pages
  grown := by rw [same]; exact grown
  fresh := by rw [same]; exact fresh
  resident := resident
  flagged := flagged
  vol := vol.trans tr.vol
  room := by rw [same]; exact tr.room

theorem quiet (tr : Trail s₀ w₀ txid closed D s w rs x) (wal : s'.wal = s.wal)
    (root : s'.metaPage.rootPageId = s.metaPage.rootPageId)
    (same : s'.metaPage.numPages = s.metaPage.numPages)
    (pages : ∀ p, p ∉ D' → s'.version p = s.version p) (resident : s'.Resident)
      (flagged : Flagged s₀ D' rs s')
    (vol : s'.vol = s.vol) (more : D ⊆ D') : Trail s₀ w₀ txid closed D' s' w rs x where
  wal := wal.trans tr.wal
  chunks := tr.chunks
  continues := tr.continues
  imaged := tr.imaged
  group := tr.group
  tree := tr.tree
  redone := tr.redone
  history := tr.history
  since := tr.since
  later := tr.later
  pos := tr.pos
  before := tr.before
  root := tr.root.trans root.symm
  pages p out := (tr.pages p fun mem => out (more mem)).trans (pages p out).symm
  grown := by rw [same]; exact tr.grown
  fresh p new lt := more (tr.fresh p new (same ▸ lt))
  resident := resident
  flagged := flagged
  vol := vol.trans tr.vol
  room := by rw [same]; exact tr.room

theorem relist (tr : Trail s₀ w₀ txid closed D s w rs x) (D' : List PageId) (more : D ⊆ D') :
    Trail s₀ w₀ txid closed D' s w rs x :=
  tr.quiet rfl rfl rfl (fun _ _ => rfl) tr.resident
    (tr.flagged.moved rfl (fun _ => id) fun _ out => .inl ⟨rfl, fun mem => out (more mem)⟩) rfl more

theorem putPageAgain (tr : Trail s₀ w₀ txid closed D s w rs x) (holds : s.Holds pid) (mem : pid ∈ D)
    (q : Page) :
    Trail s₀ w₀ txid closed D (s.putPage pid q) w rs x := by
  refine tr.quiet rfl rfl rfl (fun p out => ?_) (tr.resident.setFrame holds _) (tr.flagged.setFrame mem _) rfl
    (List.Subset.refl _)
  have ne : p ≠ pid := fun same => out (same ▸ mem)
  exact (s.version_putPage pid p q).trans (if_neg ne)

theorem putPage (tr : Trail s₀ w₀ txid closed D s w rs x) (holds : s.Holds pid) (q : Page) :
    Trail s₀ w₀ txid closed (pid :: D) (s.putPage pid q) w rs x :=
  (tr.relist (pid :: D) (List.subset_cons_self _ _)).putPageAgain holds List.mem_cons_self q

theorem dirtied (tr : Trail s₀ w₀ txid closed D s w rs x) (holds : s.Holds pid) (mem : pid ∈ D) :
    Trail s₀ w₀ txid closed D (s.dirtied pid) w rs x := by
  refine tr.quiet rfl rfl rfl (fun p out => ?_) (tr.resident.setFrame holds _) (tr.flagged.setFrame mem _) rfl
    (List.Subset.refl _)
  have ne : p ≠ pid := fun same => out (same ▸ mem)
  exact (s.version_setFrame pid p _).trans (if_neg ne)

theorem rewrite (tr : Trail s₀ w₀ txid closed D s w rs x) (holds : s.Holds pid) {page : Page}
    (leaf : (s.view pid).isLeaf = true) (same : page = s.view pid) :
    Trail s₀ w₀ txid closed D (s.putPage pid page) w rs x := by
  subst same
  refine tr.quiet rfl rfl rfl (fun p _ => ?_) (tr.resident.setFrame holds _) (tr.flagged.rewrite leaf) rfl
    (List.Subset.refl _)
  rw [version_putPage]
  split
  · rename_i here
    rw [here, version_of_leaf leaf]
  · rfl

theorem counted (tr : Trail s₀ w₀ txid closed D s w rs x) (n : Int) :
    Trail s₀ w₀ txid closed D { s with metaPage := { s.metaPage with numKeys := n } } w rs x :=
  tr.quiet rfl rfl rfl (fun _ _ => rfl) ⟨tr.resident.free, tr.resident.first, tr.resident.frames⟩
    (tr.flagged.moved rfl (fun _ => id) fun _ out => .inl ⟨rfl, out⟩) rfl (List.Subset.refl _)

/- Logging. -/

theorem logPageEvent_eq (wal : s.wal = some w) :
    logPageEvent body txid e s = .ok () { s with wal := some (w.append txid e body) } := by
  unfold logPageEvent appendRecord
  rw [bind_of_ok (bind_of_ok get_run |>.trans (by rw [wal]; rfl))]
  rfl

theorem logPageImage_eq (wal : s.wal = some w) : logPageImage pid txid e s =
    .ok () { (s.dirtied pid).putPage pid ((s.view pid).stamp w.endLsn) with
      wal := some (w.appendPageImage pid (s.view pid) txid e) } := by
  have wal' : (s.dirtied pid).wal = some w := wal
  unfold logPageImage
  rw [bind_of_ok (markDirty_run pid), bind_of_ok get_run, wal']
  change (getPage pid >>= _) _ = _
  rw [bind_of_ok (getPage_run pid), bind_of_ok (setPage_run pid _), modify_run, view_dirtied]

theorem logDelta_eq (wal : s.wal = some w) : logDelta body txid pid e s =
    .ok () ({ s with wal := some (w.append txid e body) }.putPage pid
      ((s.view pid).stamp w.endLsn)) := by
  have append : appendRecord txid e body s =
      .ok (some w.endLsn) { s with wal := some (w.append txid e body) } := by
    unfold appendRecord
    rw [bind_of_ok get_run, wal]
    rfl
  unfold logDelta
  rw [bind_of_ok append]
  rfl

theorem endLsn_lt (w : LogWriter) (txid : TxId) (e : Bool) (body : LogBody) :
    w.endLsn < (w.logged txid e body).endLsn := by
  rw [LogWriter.logged_endLsn]
  exact Nat.lt_add_of_pos_right (LogRecord.serializedSize_pos _)

theorem alloc {u : Unit} (tr : Trail s₀ w₀ txid false D s w rs x) (lt : pid < s.metaPage.numPages)
    (run : logPageEvent (.allocPage pid) txid e s = .ok u s') : Trails s₀ w₀ txid e D s' := by
  cases (logPageEvent_eq tr.wal).symm.trans run
  have later := (endLsn_lt w txid e (.allocPage pid)).le
  refine ⟨w.logged txid e (.allocPage pid), rs ++ [w.recordOf txid e (.allocPage pid)], x.extended pid,
    tr.append rfl rfl ((tr.before.mono later).extended (tr.pos.trans_le later) pid) nofun rfl tr.root
      (fun p out => ?_) rfl (max_le tr.grown lt) (fun p new lt' => ?_)
      ⟨tr.resident.free, tr.resident.first, tr.resident.frames⟩ (tr.flagged.logged rfl rfl) rfl⟩
  · refine Eq.trans ?_ (tr.pages p out)
    exact if_neg fun both => out (tr.fresh p both.1 (both.2.trans_lt lt))
  · exact tr.fresh p ((le_max_left _ _).trans new) lt'

theorem rootChange {u : Unit} (tr : Trail s₀ w₀ txid false D s w rs x)
    (run : logPageEvent (.rootChange pid) txid e s = .ok u s') :
    Trails s₀ w₀ txid e D { s' with metaPage := { s'.metaPage with rootPageId := pid } } := by
  cases (logPageEvent_eq tr.wal).symm.trans run
  exact ⟨w.logged txid e (.rootChange pid), rs ++ [w.recordOf txid e (.rootChange pid)],
    { x with root := pid }, tr.append rfl rfl (tr.before.mono
      (endLsn_lt w txid e (.rootChange pid)).le) nofun rfl rfl
      tr.pages rfl tr.grown tr.fresh ⟨tr.resident.free, tr.resident.first, tr.resident.frames⟩
      (tr.flagged.logged rfl rfl) rfl⟩

theorem image {u : Unit} (D' : List PageId) (tr : Trail s₀ w₀ txid false D s w rs x) (holds : s.Holds pid)
    (sub : D ⊆ pid :: D') (run : logPageImage pid txid e s = .ok u s') :
    Trails s₀ w₀ txid e D' s' ∧ s'.metaPage = s.metaPage ∧
      s'.version = Function.update s.version pid (some ((s.view pid).stamp w.endLsn)) := by
  cases (logPageImage_eq tr.wal).symm.trans run
  have known : ∀ p, p ∉ D' → p ≠ pid → p ∉ D := fun p out ne mem =>
    (List.mem_cons.mp (sub mem)).elim ne out
  have version : ∀ p, ((s.dirtied pid).putPage pid ((s.view pid).stamp w.endLsn)).version p =
      Function.update s.version pid (some ((s.view pid).stamp w.endLsn)) p := by
    intro p
    rw [version_putPage, Function.update_apply, Store.dirtied, version_setFrame]
    split
    · rfl
    · rfl
  have later := endLsn_lt w txid e (.pageImage pid (s.view pid))
  have dirty : ((s.dirtied pid).putPage pid ((s.view pid).stamp w.endLsn)).isDirty pid = true := by
    rw [isDirty_putPage, isDirty_dirtied]
  have dirtied : (s.dirtied pid).Resident := tr.resident.setFrame holds _
  have resident := dirtied.setFrame holds ⟨(s.view pid).stamp w.endLsn, (s.dirtied pid).isDirty pid⟩
  have older : (x.extended pid).Before w.endLsn := tr.before.extended tr.pos pid
  have within : (x.extended pid).Holds pid := ⟨holds.1, lt_max_of_lt_right (Nat.lt_succ_self pid)⟩
  refine ⟨⟨w.logged txid e (.pageImage pid (s.view pid)),
    rs ++ [w.recordOf txid e (.pageImage pid (s.view pid))],
    (x.extended pid).set pid ((s.view pid).stamp w.endLsn),
    tr.append rfl (Shape.restore_of_older within fun page => older pid page within.2)
      ((older.mono later.le).set later pid) (fun p _ => .inl rfl) rfl tr.root (fun p out => ?_) rfl
      (max_le tr.grown holds.2) (fun p new lt' => ?_)
      ⟨resident.free, resident.first, resident.frames⟩ (tr.flagged.stamped sub rfl rfl dirty fun p ne =>
        (if_neg ne).trans (if_neg ne)) rfl⟩, rfl,
    funext version⟩
  · refine Eq.trans ?_ (version p).symm
    by_cases here : p = pid
    · subst here
      rw [Shape.set_pages_self, Function.update_self]
    · rw [Shape.set_pages_of_ne here, Function.update_of_ne here]
      refine Eq.trans ?_ (tr.pages p (known p out here))
      exact if_neg fun both => known p out here (tr.fresh p both.1 (both.2.trans_lt holds.2))
  · have above : pid < p := Nat.lt_of_succ_le ((le_max_right _ _).trans new)
    exact (List.mem_cons.mp (sub (tr.fresh p ((le_max_left _ _).trans new) lt'))).resolve_left above.ne'

theorem delta {u : Unit} {q : Page} (tr : Trail s₀ w₀ txid false D s w rs x) (here : x.pages pid = some q)
    (redoes : body.Redoes q (s.view pid)) (target : body.target = some pid) (holds : s.Holds pid)
    (lt : pid < x.numPages) (dirty : s.isDirty pid = true) (known : w.needsImage pid = false)
      (sub : D ⊆ pid :: D')
    (run : logDelta body txid pid e s = .ok u s') : Trails s₀ w₀ txid e D' s' := by
  cases (logDelta_eq tr.wal).symm.trans run
  have older := tr.before pid q lt here
  have plain : w.logged txid e body = w.append txid e body ∧ body.ofTree = true ∧
      x.redo (w.recordOf txid e body) = some (x.set pid ((s.view pid).stamp w.endLsn)) := by
    cases body with
    | put p key value before =>
      obtain rfl := Option.some.inj target
      exact ⟨rfl, rfl, Shape.edit_of_older ⟨holds.1, lt⟩ here older redoes⟩
    | delete p key before =>
      obtain rfl := Option.some.inj target
      exact ⟨rfl, rfl, Shape.edit_of_older ⟨holds.1, lt⟩ here older redoes⟩
    | _ => exact redoes.elim
  obtain ⟨logged, ofTree, step⟩ := plain
  have later := endLsn_lt w txid e body
  have resident := tr.resident.setFrame holds ⟨(s.view pid).stamp w.endLsn, s.isDirty pid⟩
  refine ⟨w.logged txid e body, rs ++ [w.recordOf txid e body],
    x.set pid ((s.view pid).stamp w.endLsn), tr.append ofTree step ((tr.before.mono later.le).set later pid)
      (fun p same => ?_) (by rw [logged]; rfl) tr.root (fun p out => ?_) rfl tr.grown (fun p new lt' => ?_)
      ⟨resident.free, resident.first, resident.frames⟩
      (tr.flagged.stamped sub ((w.recordOf_target txid e body).trans target) rfl
        ((isDirty_putPage s pid pid _).trans dirty) fun p ne => if_neg ne) rfl⟩
  · obtain rfl := Option.some.inj (target.symm.trans same)
    exact .inr known
  · rw [version_putPage]
    by_cases same : p = pid
    · subst same
      rw [Shape.set_pages_self, if_pos rfl]
    · rw [Shape.set_pages_of_ne same, if_neg same]
      exact tr.pages p fun mem => (List.mem_cons.mp (sub mem)).elim same out
  · exact (List.mem_cons.mp (sub (tr.fresh p new lt'))).resolve_left (lt.trans_le new).ne'

theorem lt_numPages (tr : Trail s₀ w₀ txid closed [] s w rs x) (lt : pid < s.metaPage.numPages) :
    pid < x.numPages := by
  by_contra new
  cases tr.fresh pid (not_lt.mp new) lt

theorem keyRecord {needsUndo : Bool} {u : Unit} {q : Page} (tr : Trail s₀ w₀ txid false [pid] s w rs x)
    (here : x.pages pid = some q) (redoes : body.Redoes q (s.view pid))
    (again : ∀ lsn, body.Redoes ((s.view pid).stamp lsn) ((s.view pid).stamp lsn))
    (target : body.target = some pid) (holds : s.Holds pid) (lt : pid < x.numPages)
    (run : logKeyRecord body txid pid e needsUndo s = .ok u s') : Trails s₀ w₀ txid e [] s' := by
  have tr₁ := tr.dirtied holds (List.mem_singleton_self pid)
  have holds₁ : (s.dirtied pid).Holds pid := holds
  rw [← view_dirtied s pid pid] at redoes again
  have wal₁ := tr₁.wal
  have dirty₁ := s.isDirty_dirtied pid
  simp only [logKeyRecord, bind_ok, markDirty_run, get_run] at run
  obtain ⟨_, _, dirty, _, _, ⟨rfl, rfl⟩, run⟩ := run
  cases dirty
  generalize s.dirtied pid = s₁ at *
  rw [wal₁] at run
  dsimp only at run
  split at run
  · obtain ⟨_, s₂, imaged, run⟩ := bind_ok.mp run
    obtain ⟨⟨w₂, rs₂, x₂, tr₂⟩, page, version⟩ := tr₁.image [] holds₁ (List.Subset.refl _) imaged
    have holds₂ : s₂.Holds pid := by
      rw [Store.Holds, page]
      exact holds₁
    split at run
    · rename_i undo
      rw [undo, Bool.not_true, Bool.and_false] at tr₂
      have now : s₂.version pid = some ((s₁.view pid).stamp w.endLsn) := by
        rw [version, Function.update_self]
      have known : w₂.needsImage pid = false := by
        have wal := tr₂.wal
        cases (logPageImage_eq wal₁).symm.trans imaged
        cases wal
        simp [LogWriter.needsImage, LogWriter.appendPageImage]
      have dirty₂ : s₂.isDirty pid = true := by
        cases (logPageImage_eq wal₁).symm.trans imaged
        exact (isDirty_putPage (s₁.dirtied pid) pid pid _).trans (isDirty_dirtied s₁ pid)
      refine tr₂.delta ((tr₂.pages pid List.not_mem_nil).trans now) ?_ target holds₂
        (tr₂.lt_numPages holds₂.2) dirty₂
        known (List.nil_subset _) run
      rw [view_of_version now]
      exact again _
    · rename_i undo
      obtain ⟨-, rfl⟩ := pure_ok.mp run
      have plain : (e && !needsUndo) = e := by simp [undo]
      rw [plain] at tr₂
      exact ⟨w₂, rs₂, x₂, tr₂⟩
  · rename_i needs
    exact tr₁.delta here redoes target holds₁ lt dirty₁ (by simpa using needs) (List.Subset.refl _) run

/- Pages that come in. -/

theorem fetch {u : Unit} (tr : Trail s₀ w₀ txid closed D s w rs x) (run : fetchPage pid s = .ok u s') :
    Trail s₀ w₀ txid closed D s' w rs x ∧ s'.Holds pid ∧ s'.metaPage = s.metaPage := by
  obtain ⟨resident, holds, version, -⟩ := tr.resident.fetch run
  have same := fetchPage_same run
  refine ⟨tr.quiet (fetchPage_wal run) ?_ ?_ (fun p _ =>
    congrFun version p) resident (tr.flagged.fetch run) same.vol
    (List.Subset.refl _), holds, same.metaPage⟩
  · rw [same.metaPage]
  · rw [same.metaPage]

theorem newPage {new : PageId} (tr : Trail s₀ w₀ txid closed D s w rs x) (run : newPage s = .ok new s') :
    Trail s₀ w₀ txid closed (new :: D) s' w rs x ∧ s'.Holds new ∧ new = s.metaPage.numPages ∧
      s'.metaPage = { s.metaPage with numPages := new + 1 } := by
  obtain ⟨resident, fresh, page, version⟩ := tr.resident.newPage run
  obtain ⟨-, room, io, eq⟩ := newPage_eq tr.resident.free run
  have pages : s'.metaPage.numPages = new + 1 := by rw [page]
  have holds : s'.Holds new := ⟨tr.resident.first.trans fresh.ge, pages ▸ Nat.lt_succ_self new⟩
  refine ⟨⟨?_, tr.chunks, tr.continues, tr.imaged, tr.group, tr.tree, tr.redone, tr.history,
    tr.since, tr.later,
    tr.pos, tr.before, ?_, fun p out => ?_, ?_,
    fun p new' lt => ?_, resident, ?_, ?_, ?_⟩, holds, fresh, page⟩
  · rw [eq]
    exact tr.wal
  · rw [page]
    exact tr.root
  · rw [List.mem_cons, not_or] at out
    rw [tr.pages p out.2, version, Function.update_of_ne out.1]
  · rw [pages, fresh]
    exact tr.grown.trans (Nat.le_succ _)
  · rw [pages] at lt
    rcases Nat.lt_succ_iff_lt_or_eq.mp lt with lt | rfl
    · exact List.mem_cons_of_mem _ (tr.fresh p new' (fresh ▸ lt))
    · exact List.mem_cons_self
  · exact tr.flagged.newPage tr.resident.free ((Shape.redoAll_grows tr.redone).trans tr.grown) run
  · rw [eq]
    exact tr.vol
  · rw [pages]
    exact le_max_of_le_right (tr.vol ▸ Nat.succ_le_of_lt room)

end Trail

end PagerDB

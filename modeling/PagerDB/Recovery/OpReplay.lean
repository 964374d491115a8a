import PagerDB.Db.RecordBounds
import PagerDB.Recovery.Apply
import PagerDB.Recovery.OpTrail

/-! The records of a Put or Delete, applied to the pages from before it, give those from after it: the
same root, the same number of pages and the same version of each page, its LSN included. It holds in
every state that a handle reaches, also behind calls that have failed. -/
namespace PagerDB

open KeepsLib MachineLib Store

variable {s s' : Store} {w : LogWriter} {txid : TxId} {wantBefore : Bool} {b : Option Bytes}

/- The log of an open handle does not go back. -/

def Store.GoesOn (s s' : Store) : Prop :=
  ∀ w', s'.wal = some w' → ∃ w, s.wal = some w ∧ w.endLsn ≤ w'.endLsn

namespace Store.GoesOn

theorem trans {a b c : Store} (h : GoesOn a b) (g : GoesOn b c) : GoesOn a c := by
  intro w'' wal
  obtain ⟨w', wal', le'⟩ := g w'' wal
  obtain ⟨w, was, le⟩ := h w' wal'
  exact ⟨w, was, le.trans le'⟩

theorem of_wal (same : s'.wal = s.wal) : GoesOn s s' := fun w' wal => ⟨w', same ▸ wal, le_rfl⟩

theorem onLog {f : LogWriter → LogWriter} (later : ∀ w, w.endLsn ≤ (f w).endLsn) : GoesOn s (s.onLog f) := by
  intro w' wal
  obtain ⟨w, was, rfl⟩ := Option.map_eq_some_iff.mp wal
  exact ⟨w, was, later w⟩

theorem flush (s : Store) : GoesOn s (s.onLog LogWriter.flush) := onLog fun _ => le_rfl

theorem append (s : Store) (body : LogBody) : GoesOn s (s.onLog (·.append txid true body)) :=
  onLog fun _ => Nat.le_add_right _ _

theorem flushFault {f : FlushFault} (run : s.flushFault f = some s') : GoesOn s s' := by
  obtain ⟨w', found, rfl⟩ := Option.map_eq_some_iff.mp run
  obtain ⟨w, wal, fault⟩ := Option.bind_eq_some_iff.mp found
  have same : w'.endLsn = w.endLsn := by
    cases f with
    | write =>
      obtain ⟨-, eq⟩ := Option.ite_none_left_eq_some.mp fault
      cases eq
      rfl
    | sync =>
      obtain ⟨-, eq⟩ := Option.ite_none_left_eq_some.mp fault
      cases eq
      rfl
  intro v is
  obtain rfl := Option.some.inj is
  exact ⟨w, wal, same.ge⟩

theorem flushedAll (s : Store) : GoesOn s s.flushedAll := (flush s).trans (of_wal rfl)

theorem logMarker (s : Store) : GoesOn s s.logMarker := append s .checkpoint

theorem marked (s : Store) : GoesOn s s.marked := ((logMarker s).trans (flush _)).trans (of_wal rfl)

theorem checkpointed (s : Store) (begun : Bool) : GoesOn s (s.checkpointed begun) := by
  unfold Store.checkpointed
  split
  · exact flushedAll s
  · refine ((flushedAll s).trans (marked _)).trans fun w' wal => ?_
    obtain ⟨w, was, rfl⟩ := Option.map_eq_some_iff.mp wal
    refine ⟨w, was, ?_⟩
    have here : (s.flushedAll.logMarker.onLog LogWriter.flush).wal = some w := was
    change w.endLsn ≤ (s.flushedAll.logMarker.onLog LogWriter.flush).wal.elim kInvalidLsn LogWriter.endLsn
    rw [here]
    exact le_rfl

theorem checkpointFault {begun : Bool} {f : CheckpointFault}
    (run : s.checkpointFault begun f = some s') : GoesOn s s' := by
  have marked : GoesOn s s.flushedAll.marked := (flushedAll s).trans (marked _)
  cases f with
  | flush f => exact flushFault run
  | page pid written =>
    obtain ⟨-, eq⟩ := Option.ite_none_right_eq_some.mp run
    cases eq
    exact (flush s).trans (of_wal rfl)
  | dataSync =>
    cases run
    exact flushedAll s
  | markerFlush f =>
    obtain ⟨-, run⟩ := Option.ite_none_left_eq_some.mp run
    exact ((flushedAll s).trans (logMarker _)).trans (flushFault run)
  | metaWrite fate =>
    obtain ⟨-, eq⟩ := Option.ite_none_left_eq_some.mp run
    cases eq
    exact marked.trans (of_wal rfl)
  | metaSync =>
    obtain ⟨-, eq⟩ := Option.ite_none_left_eq_some.mp run
    cases eq
    exact marked.trans (of_wal rfl)
  | truncate =>
    obtain ⟨-, eq⟩ := Option.ite_none_left_eq_some.mp run
    cases eq
    exact marked.trans (of_wal rfl)
  | truncateSync =>
    obtain ⟨-, eq⟩ := Option.ite_none_left_eq_some.mp run
    cases eq
    exact (marked.trans (of_wal rfl)).trans (onLog fun _ => le_rfl)

end Store.GoesOn

theorem evict_eq {pid : PageId} (run : s.evict pid = some s') :
    (∀ p f, s'.cache p = some f → s.cache p = some f) ∧ s'.version = s.version ∧ s'.metaPage = s.metaPage ∧
      s'.wal = s.wal ∧ s'.vol = s.vol := by
  unfold Store.evict at run
  cases frame : s.cache pid with
  | none => simp [frame] at run
  | some f =>
    simp only [frame, Option.ite_none_right_eq_some, Option.some.injEq] at run
    obtain ⟨-, rfl⟩ := run
    refine ⟨fun p g here => ?_, funext fun p => ?_, rfl, rfl, rfl⟩
    · simp only [Option.ite_none_left_eq_some] at here
      exact here.2
    · by_cases same : p = pid
      · subst same
        simp [Store.version, Store.setDisk, frame]
      · simp [Store.version, Store.setDisk, same]

namespace Store.Ahead

theorem settled (ahead : s.Ahead) (unmoved : Unmoved s s') (settles : Settles s s') (goesOn : GoesOn s s') :
    s'.Ahead := by
  refine ahead.moved (fun p f here => ?_) (fun p page here => ?_) unmoved.free unmoved.pages goesOn
  · obtain ⟨g, there, -⟩ := settles.cache p f here
    exact ⟨g, there⟩
  · have seen : s.view p = page := (congrFun unmoved.view p).symm.trans (view_of_version here)
    cases frame : s.cache p with
    | some g => simpa [Store.version, Store.view, frame] using seen
    | none =>
      cases disk : s.disk p with
      | some q => simpa [Store.version, Store.view, frame, disk] using seen
      | none =>
        unfold Store.version at here
        split at here
        · rename_i f there
          obtain ⟨g, was, -⟩ := settles.cache p f there
          cases frame.symm.trans was
        · rcases settles.disk p page here with was | ⟨g, was, -⟩
          · cases disk.symm.trans was
          · cases frame.symm.trans was

theorem evict {pid : PageId} (ahead : s.Ahead) (run : s.evict pid = some s') : s'.Ahead := by
  obtain ⟨cache, shape, page, wal, -⟩ := evict_eq run
  exact ahead.moved (fun p g here => ⟨g, cache p g here⟩) (fun p q here => (congrFun shape p).symm.trans here)
    (by rw [page]) (by rw [page]) (GoesOn.of_wal wal)

end Store.Ahead

theorem Guards.ahead {α : Type} {x : M α} (guards : Guards [] x) : KeepsAlways Store.Ahead x :=
  fun s ahead => guards.weaken (fun _ holding => holding.ahead) s ⟨ahead, nofun⟩

theorem ahead_lasting : Lasting Store.Ahead where
  put _ _ _ _ := Guards.ahead guards_treePut
  delete _ _ _ := Guards.ahead guards_treeDelete
  begins txid := Guards.ahead (guards_logPageEvent txid true)
  fetch _ := Guards.ahead guards_fetchPage
  facing _ _ ahead := ahead.moved (fun _ f here => ⟨f, here⟩)
    (fun _ _ here => here) rfl rfl (GoesOn.of_wal rfl)
  evict _ _ _ ahead run := ahead.evict run
  commit s _ ahead := ahead.moved (fun _ f here => ⟨f, here⟩)
    (fun _ _ here => here) rfl rfl (GoesOn.append s .commit)
  abort s _ ahead := ahead.moved (fun _ f here => ⟨f, here⟩)
    (fun _ _ here => here) rfl rfl (GoesOn.append s .abort)
  flush s ahead := ahead.settled (.onLog _ _) (.flush s) (.flush s)
  flushFault _ _ _ ahead run := ahead.settled (.flushFault run) (.flushFault run) (.flushFault run)
  checkpointed s begun ahead := ahead.settled (.checkpointed s begun) (.checkpointed s begun)
    (.checkpointed s begun)
  checkpointFault _ _ _ _ ahead run :=
    ahead.settled (.checkpointFault run) (.checkpointFault run) (.checkpointFault run)

theorem create_ahead (vol : Volume) (wal : Option LogWriter) (pos : ∀ w, wal = some w → 0 < w.endLsn) :
    (create vol wal).Ahead where
  resident := ⟨rfl, le_rfl, nofun⟩
  pos := pos
  older _ _ _ _ _ here := by cases here

/- Groups. -/

/-- The records lead from any store with the pages of `s` to one with those of `s'`. -/
def Reproduces (rs : List LogRecord) (s s' : Store) : Prop :=
  ∀ t : Store, Mirrors s.shape t → t.vol = s.vol →
    ∃ b t', applyAll rs false t = .ok b t' ∧ Mirrors s'.shape t'

theorem Store.Ahead.mirrors (ahead : s.Ahead) : Mirrors s.shape (s.facing []) where
  root := rfl
  numPages := rfl
  pages _ _ := rfl
  frames p f here := (ahead.resident.frames p f here).2
  free := ahead.resident.free
  io := rfl

/-- What a call that ends well appends is one closed group of its id, which reproduces it. -/
def Store.Replayable (s : Store) : Prop :=
  ∀ (c : Call) (txid : TxId) (wantBefore : Bool) (io : List (Option Fault)) (b : Option Bytes) (s' : Store)
    (w : LogWriter), s.wal = some w → c.perform txid wantBefore (s.facing io) = .ok b s' →
    ∃ rs w', s'.wal = some w' ∧ w'.chunks = w.chunks ++ rs.map .record ∧ Group txid true rs ∧
      Reproduces rs s s'

theorem Store.Ahead.trail (ahead : s.Ahead) (wal : s.wal = some w) (txid : TxId) :
    Trail s w txid false [] s w [] s.shape where
  wal := wal
  chunks := (List.append_nil _).symm
  continues := .refl w
  imaged := id
  group := nofun
  tree := nofun
  redone := rfl
  history := trivial
  since := nofun
  later := le_rfl
  pos := ahead.pos w wal
  before := ahead.older w wal
  root := rfl
  pages _ _ := rfl
  grown := le_rfl
  fresh _ new lt := absurd lt (not_lt.mpr new)
  resident := ahead.resident
  flagged := .start s
  vol := rfl
  room := le_max_left _ _

theorem Trail.shape_eq {s₀ : Store} {w₀ : LogWriter} {closed : Bool} {rs : List LogRecord} {x : Shape}
    (tr : Trail s₀ w₀ txid closed [] s w rs x) : x = s.shape := by
  refine Shape.ext (funext fun p => tr.pages p List.not_mem_nil) tr.root (le_antisymm tr.grown ?_)
  by_contra more
  cases tr.fresh x.numPages le_rfl (not_le.mp more)

theorem Trail.ahead {s₀ : Store} {w₀ : LogWriter} {closed : Bool} {rs : List LogRecord} {x : Shape}
    (tr : Trail s₀ w₀ txid closed [] s w rs x) : s.Ahead := by
  obtain rfl := tr.shape_eq
  refine ⟨tr.resident, fun w' wal => ?_, fun w' wal => ?_⟩
  · obtain rfl := Option.some.inj (tr.wal.symm.trans wal)
    exact tr.pos
  · obtain rfl := Option.some.inj (tr.wal.symm.trans wal)
    exact tr.before

theorem call_trail (ahead : s.Ahead) (tidy : s.Tidy) (wal : s.wal = some w) (c : Call)
    (run : c.perform txid wantBefore s = .ok b s') : Trails s w txid true [] s' := by
  have start := ahead.trail wal txid
  cases c with
  | put key value => exact treePut_trail start tidy run
  | delete key => exact treeDelete_trail start tidy run

theorem Store.Ahead.replayable (ahead : s.Ahead) (tidy : s.Tidy) : s.Replayable := by
  intro c txid wantBefore io b s' w wal run
  have facing : (s.facing io).Tidy := ⟨tidy.cache, tidy.disk⟩
  obtain ⟨w', rs, x, tr⟩ := call_trail (ahead_lasting.facing s io ahead) facing wal c run
  refine ⟨rs, w', tr.wal, tr.chunks, tr.group, fun t mirrors vol => ?_⟩
  obtain rfl := tr.shape_eq
  have room : s'.metaPage.numPages ≤ max s.metaPage.numPages t.vol.maxPages := by
    rw [vol]
    exact tr.room
  obtain ⟨t', replay, mirrors', -⟩ := mirrors.applyAll room tr.redone false
  exact ⟨_, t', replay, mirrors'⟩

/-- In every state that a handle reaches over a store whose pages are tidy and older than the log's end. -/
theorem op_groups_reproduce (s : Store) (options : Options) (events : List HandleEvent) (tidy : s.Tidy)
    (ahead : s.Ahead) : EveryState Handle.next (fun h => h.store.Replayable) (.opened s options) events := by
  obtain ⟨old, logged⟩ := tidy.logged
  have tidies := logged_lasting.always logged options events
  have both := tidies.along (I := fun h => h.store.Ahead)
    (fun _ _ _ ahead _ step => Handle.lasting_next ahead_lasting ahead step) ahead
  exact both.imp fun h both => both.1.replayable both.2.tidy

theorem update_group_reproduces : ∃ h s' rs,
    run Handle.next (.opened (create ⟨100, by decide⟩ (some (.open [] 1))) ⟨true, 0⟩) firstPut = some h ∧
      (Call.put [1] [5, 6]).perform 2 true (h.store.facing []) = .ok (some [2]) s' ∧
      Group 2 true rs ∧ ∃ b t', applyAll rs false (h.store.facing []) = .ok b t' ∧ Mirrors s'.shape t' := by
  have updates : ((run Handle.next
    (.opened (create ⟨100, by decide⟩ (some (.open [] 1))) ⟨true, 0⟩) firstPut).bind
      fun h => h.store.wal.bind fun _ => ((Call.put [1] [5, 6]).perform 2 true).run' (h.store.facing [])) =
        some (some [2]) := by
    decide +kernel
  obtain ⟨h, reach, updates⟩ := Option.bind_eq_some_iff.mp updates
  obtain ⟨w, wal, updates⟩ := Option.bind_eq_some_iff.mp updates
  have start : (create ⟨100, by decide⟩ (some (.open [] 1))).Ahead :=
    create_ahead _ _ fun w is => Option.some.inj is ▸ by decide
  have ahead := (ahead_lasting.always start ⟨true, 0⟩ firstPut).last reach
  have always := op_groups_reproduce (create ⟨100, by decide⟩ (some (.open [] 1))) ⟨true, 0⟩ firstPut
    (create_tidy _ _) start
  obtain ⟨s', ends⟩ := ok_of_result updates
  obtain ⟨rs, -, -, -, group, reproduces⟩ := always.last reach _ _ _ _ _ _ _ wal ends
  exact ⟨h, s', rs, reach, ends, group, reproduces _ ahead.mirrors rfl⟩

end PagerDB

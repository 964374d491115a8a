import PagerDB.BTree.Packed
import PagerDB.Recovery.Redo

/-! The next record is newer than every page. The calls keep it so however they end: they change pages
that they hold, keep the LSN of a page that they edit and stamp it with no LSN but a record's own. -/
namespace PagerDB

open KeepsLib Store

/- Edits keep the LSN. -/

namespace Page

variable (p : Page) (key value : Bytes)

theorem ensureFit_pageLsn (needed : Nat) : (p.ensureFit needed).2.pageLsn = p.pageLsn :=
  (p.ensureFit_header needed).2

theorem insertLeaf_pageLsn : (p.insertLeaf key value).2.pageLsn = p.pageLsn := by
  have fit := p.ensureFit_pageLsn (kSlotEntrySize + 4 + key.length + value.length)
  unfold insertLeaf insertRecordAt
  dsimp only
  repeat' split
  all_goals first | exact fit | rfl

theorem updateLeaf_pageLsn : (p.updateLeaf key value).2.pageLsn = p.pageLsn := by
  unfold updateLeaf
  dsimp only
  repeat' split
  all_goals rfl

theorem deleteAt_pageLsn (index : Nat) : (p.deleteAt index).2.pageLsn = p.pageLsn := by
  unfold deleteAt
  repeat' split
  all_goals rfl

theorem setPrevLeaf_pageLsn (prev : PageId) : (p.setPrevLeaf prev).pageLsn = p.pageLsn := by
  unfold setPrevLeaf
  split
  · rfl
  · rfl

theorem insertInternal_pageLsn (child : PageId) : (p.insertInternal key child).2.pageLsn = p.pageLsn := by
  have fit := p.ensureFit_pageLsn (kSlotEntrySize + 6 + key.length)
  unfold insertInternal
  dsimp only
  repeat' split
  all_goals first | exact fit | rfl

theorem insertInternalAfterSplit_pageLsn (left right : PageId) :
    (p.insertInternalAfterSplit key left right).2.pageLsn = p.pageLsn := by
  unfold insertInternalAfterSplit
  dsimp only
  repeat' split
  all_goals rfl

end Page

/-- Frames hold data pages, and every page is older than the next record. -/
structure Store.Ahead (s : Store) : Prop where
  resident : s.Resident
  pos : ∀ w, s.wal = some w → 0 < w.endLsn
  older : ∀ w, s.wal = some w → s.shape.Before w.endLsn

namespace Store.Ahead

variable {s s' : Store} {pid : PageId} {w : LogWriter}

theorem view_lt (ahead : s.Ahead) (wal : s.wal = some w) (lt : pid < s.metaPage.numPages) :
    (s.view pid).pageLsn < w.endLsn := by
  cases here : s.version pid with
  | some page =>
    rw [view_of_version here]
    exact ahead.older w wal pid page lt here
  | none =>
    have blank : s.view pid = .zeroed := by
      unfold version at here
      unfold view
      cases frame : s.cache pid with
      | some f => simp [frame] at here
      | none =>
        rw [frame] at here
        simp only [here, Option.getD_none]
    rw [blank]
    exact ahead.pos w wal

theorem setFrame (ahead : s.Ahead) (holds : s.Holds pid) (f : Frame)
    (older : ∀ w, s.wal = some w → f.page.pageLsn < w.endLsn) : (s.setFrame pid f).Ahead where
  resident := ahead.resident.setFrame holds f
  pos := ahead.pos
  older w wal p page lt here := by
    have version := (s.version_setFrame pid p f).symm.trans here
    split at version
    · exact Option.some.inj version ▸ older w wal
    · exact ahead.older w wal p page lt version

theorem putPage (ahead : s.Ahead) (holds : s.Holds pid) (page : Page)
    (older : ∀ w, s.wal = some w → page.pageLsn < w.endLsn) : (s.putPage pid page).Ahead :=
  ahead.setFrame holds _ older

theorem dirtied (ahead : s.Ahead) (holds : s.Holds pid) : (s.dirtied pid).Ahead :=
  ahead.setFrame holds _ fun _ wal => ahead.view_lt wal holds.2

theorem moved (ahead : s.Ahead) (cache : ∀ p f, s'.cache p = some f → ∃ g, s.cache p = some g)
    (version : ∀ p page, s'.version p = some page → s.version p = some page)
    (free : s'.metaPage.freeListHead = s.metaPage.freeListHead)
    (pages : s'.metaPage.numPages = s.metaPage.numPages)
    (log : ∀ w', s'.wal = some w' → ∃ w, s.wal = some w ∧ w.endLsn ≤ w'.endLsn) : s'.Ahead where
  resident := by
    refine ⟨free.trans ahead.resident.free, pages ▸ ahead.resident.first, fun p f here => ?_⟩
    obtain ⟨g, there⟩ := cache p f here
    exact (ahead.resident.frames p g there).mono pages.ge
  pos w' wal := by
    obtain ⟨w, was, le⟩ := log w' wal
    exact (ahead.pos w was).trans_le le
  older w' wal p page lt here := by
    obtain ⟨w, was, le⟩ := log w' wal
    exact (ahead.older w was p page (lt.trans_eq pages) (version p page here)).trans_le le

end Store.Ahead

structure Holding (held : List PageId) (s : Store) : Prop where
  ahead : s.Ahead
  held : ∀ p ∈ held, s.Holds p

/-- However the computation ends, given that these pages are held. -/
abbrev Guards {α : Type} (held : List PageId) (x : M α) : Prop := KeepsAlways (Holding held) x

variable {s s' : Store} {held : List PageId} {pid : PageId} {α : Type}

theorem Holding.less {held' : List PageId} (holding : Holding held s) (sub : held' ⊆ held) :
    Holding held' s :=
  ⟨holding.ahead, fun p mem => holding.held p (sub mem)⟩

theorem Holding.next (holding : Holding held s) (ahead : s'.Ahead)
    (le : s.metaPage.numPages ≤ s'.metaPage.numPages) : Holding held s' :=
  ⟨ahead, fun p mem => (holding.held p mem).mono le⟩

/- Primitives. -/

section Primitives

theorem guards_modify {f : Store → Store} (cache : ∀ s, (f s).cache = s.cache)
    (disk : ∀ s, (f s).disk = s.disk)
    (wal : ∀ s, (f s).wal = s.wal) (free : ∀ s, (f s).metaPage.freeListHead = s.metaPage.freeListHead)
    (pages : ∀ s, (f s).metaPage.numPages = s.metaPage.numPages) : Guards held (modify f) := by
  refine KeepsAlways.modify fun s holding => holding.next ?_ (pages s).ge
  refine holding.ahead.moved (fun p g here => ⟨g, cache s ▸ here⟩) (fun p page here => ?_) (free s) (pages s)
    fun w here => ⟨w, wal s ▸ here, le_rfl⟩
  unfold Store.version at here ⊢
  rwa [cache, disk] at here

theorem guards_failIf (c : Prop) [Decidable c] (e : Failure) : Guards held (failIf c e) :=
  KeepsAlways.ite (.throw e) (.pure ())

theorem guards_onlyIf (c : Bool) {x : M Unit} (keep : Guards held x) : Guards held (onlyIf c x) :=
  KeepsAlways.ite keep (.pure ())

theorem Holding.facing (holding : Holding held s) (io : List (Option Fault)) :
    Holding held { s with io := io } :=
  holding.next (holding.ahead.moved (fun _ g here => ⟨g, here⟩) (fun _ _ here => here) rfl rfl
    fun w here => ⟨w, here, le_rfl⟩) le_rfl

theorem guards_fetchPage : Guards held (fetchPage pid) := by
  intro s holding
  cases run : fetchPage pid s with
  | ok u s' =>
    rcases fetchPage_eq run with ⟨f, -, same⟩ | ⟨page, io, miss, lo, hi, disk, rfl⟩
    · exact same ▸ holding
    · have faced := holding.facing io
      refine faced.next (faced.ahead.setFrame ⟨lo, hi⟩ _ fun w wal => ?_) le_rfl
      have here : s.version pid = some page := by rw [Store.version, miss, disk]
      exact holding.ahead.older w wal pid page hi here
  | error e s' =>
    obtain ⟨io, rfl⟩ := fetchPage_faulted run
    exact holding.facing io

theorem guards_fetch {f : Unit → M α} (next : Guards (pid :: held) (f ())) :
    Guards held (fetchPage pid >>= f) := by
  refine guards_fetchPage.bind_at fun s u t was run holding => ?_
  obtain ⟨-, here, -⟩ := was.ahead.resident.fetch run
  exact next.weaken (fun _ more => more.less (List.subset_cons_self _ _)) t
    ⟨holding.ahead, List.forall_mem_cons.mpr ⟨here, holding.held⟩⟩

theorem guards_newPage : Guards held newPage := by
  intro s holding
  have free := holding.ahead.resident.free
  cases run : newPage s with
  | ok new s' =>
    obtain ⟨resident, fresh, page, version⟩ := holding.ahead.resident.newPage run
    obtain ⟨-, -, io, eq⟩ := newPage_eq free run
    have wal : s'.wal = s.wal := by rw [eq]; rfl
    have more : s.metaPage.numPages ≤ s'.metaPage.numPages := by
      rw [page, fresh]
      exact Nat.le_succ _
    refine holding.next ⟨resident, wal ▸ holding.ahead.pos, fun w here p q lt there => ?_⟩ more
    rw [wal] at here
    have now : Function.update s.version new (some .zeroed) p = some q := version ▸ there
    by_cases same : p = new
    · rw [same, Function.update_self] at now
      exact Option.some.inj now ▸ holding.ahead.pos w here
    · rw [Function.update_of_ne same] at now
      refine holding.ahead.older w here p q ?_ now
      have within : p < new + 1 := by
        have lt : p < s'.metaPage.numPages := lt
        rwa [page] at lt
      exact (lt_of_le_of_ne (Nat.le_of_lt_succ within) same).trans_eq fresh
  | error e s' =>
    obtain ⟨io, rfl⟩ := newPage_faulted free run
    exact holding.facing io

theorem guards_fresh {f : PageId → M α} (next : ∀ new, Guards (new :: held) (f new)) :
    Guards held (newPage >>= f) := by
  refine guards_newPage.bind_at fun s new t was run holding => ?_
  obtain ⟨-, fresh, page, -⟩ := was.ahead.resident.newPage run
  have here : t.Holds new := by
    refine ⟨fresh ▸ was.ahead.resident.first, ?_⟩
    rw [page]
    exact Nat.lt_succ_self new
  exact (next new).weaken (fun _ more => more.less (List.subset_cons_self _ _)) t
    ⟨holding.ahead, List.forall_mem_cons.mpr ⟨here, holding.held⟩⟩

theorem guards_edit {f : Page → M α} (g : Page → Page) (mem : pid ∈ held)
    (same : ∀ p, (g p).pageLsn = p.pageLsn)
    (next : ∀ page, Guards held (f page)) :
    Guards held (getPage pid >>= fun page => setPage pid (g page) >>= fun _ => f page) := by
  intro s holding
  have holds := holding.held pid mem
  refine next (s.view pid) _ (holding.next (holding.ahead.putPage holds
    (g (s.view pid)) fun w wal => ?_) le_rfl)
  rw [same]
  exact holding.ahead.view_lt wal holds.2

theorem guards_withNode {f : Page → Bool × Page} (mem : pid ∈ held)
    (same : ∀ p, (f p).2.pageLsn = p.pageLsn) : Guards held (withNode pid f) :=
  guards_edit (fun p => (f p).2) mem same fun _ => .pure _

theorem guards_init {id : PageId} {body : Body} (mem : pid ∈ held) :
    Guards held (setPage pid (.init id body)) :=
  fun _ holding => holding.next (holding.ahead.putPage (holding.held pid mem) _ holding.ahead.pos) le_rfl

theorem guards_markDirty (mem : pid ∈ held) : Guards held (markDirty pid) :=
  fun _ holding => holding.next (holding.ahead.dirtied (holding.held pid mem)) le_rfl

end Primitives

/- The log. -/

section Logging

variable (txid : TxId) (opEnd : Bool) {body : LogBody}

theorem Store.Ahead.wrote {w w' : LogWriter} (ahead : s.Ahead) (wal : s.wal = some w)
    (le : w.endLsn ≤ w'.endLsn) :
    Store.Ahead { s with wal := some w' } :=
  ahead.moved (fun _ g here => ⟨g, here⟩) (fun _ _ here => here) rfl rfl fun _ here =>
    ⟨w, wal, Option.some.inj here ▸ le⟩

theorem guards_appendRecord : Guards held (appendRecord txid opEnd body) := by
  intro s holding
  unfold appendRecord
  rw [bind_of_ok get_run]
  cases wal : s.wal with
  | none => exact holding
  | some w => exact holding.next (holding.ahead.wrote wal (Nat.le_add_right _ _)) le_rfl

theorem guards_logPageEvent : Guards held (logPageEvent body txid opEnd) :=
  (guards_appendRecord txid opEnd).bind fun _ => .pure ()

theorem Store.Ahead.stamped {w w' : LogWriter} (ahead : s.Ahead) (holds : s.Holds pid) (wal : s.wal = some w)
    (lt : w.endLsn < w'.endLsn) (page : Page) :
    Store.Ahead { s.putPage pid (page.stamp w.endLsn) with wal := some w' } := by
  refine Store.Ahead.putPage (ahead.wrote wal lt.le) holds _ fun v here => ?_
  exact Option.some.inj here ▸ lt

theorem guards_logPageImage (mem : pid ∈ held) : Guards held (logPageImage pid txid opEnd) := by
  refine (guards_markDirty mem).bind fun _ => ?_
  intro s holding
  rw [bind_of_ok get_run]
  cases wal : s.wal with
  | none => exact holding
  | some w =>
    have lt : w.endLsn < (w.appendPageImage pid (s.view pid) txid opEnd).endLsn :=
      Nat.lt_add_of_pos_right (LogRecord.serializedSize_pos _)
    exact holding.next (holding.ahead.stamped (holding.held pid mem) wal lt (s.view pid)) le_rfl

theorem guards_logDelta (mem : pid ∈ held) : Guards held (logDelta body txid pid opEnd) := by
  intro s holding
  cases wal : s.wal with
  | none =>
    have nothing : appendRecord txid opEnd body s = .ok none s := by
      unfold appendRecord
      rw [bind_of_ok get_run, wal]
      rfl
    unfold logDelta
    rw [bind_of_ok nothing]
    exact holding
  | some w =>
    have append : appendRecord txid opEnd body s =
        .ok (some w.endLsn) { s with wal := some (w.append txid opEnd body) } := by
      unfold appendRecord
      rw [bind_of_ok get_run, wal]
      rfl
    unfold logDelta
    rw [bind_of_ok append]
    have lt : w.endLsn < (w.append txid opEnd body).endLsn :=
      Nat.lt_add_of_pos_right (LogRecord.serializedSize_pos _)
    exact holding.next (holding.ahead.stamped (holding.held pid mem) wal lt (s.view pid)) le_rfl

theorem guards_logKeyRecord (needsUndo : Bool) (mem : pid ∈ held) :
    Guards held (logKeyRecord body txid pid opEnd needsUndo) := by
  refine (guards_markDirty mem).bind fun _ => KeepsAlways.get.bind fun s => ?_
  cases s.wal with
  | none => exact .pure ()
  | some w =>
    refine KeepsAlways.ite ?_ (guards_logDelta txid opEnd mem)
    exact (guards_logPageImage txid _ mem).bind fun _ =>
      KeepsAlways.ite (guards_logDelta txid opEnd mem) (.pure ())

end Logging

/- The calls. -/

section Calls

variable {key value : Bytes} {txid : TxId} {wantBefore : Bool} {before : Option Bytes}

theorem guards_descend (fuel : Nat) (pid : PageId) : Guards held (descend key fuel pid) := by
  induction fuel generalizing pid with
  | zero => exact .throw _
  | succ fuel ih =>
    refine guards_fetchPage.bind fun _ => KeepsAlways.bind (fun _ holding => holding) fun page => ?_
    exact KeepsAlways.ite (.pure pid) ((guards_failIf _ _).bind fun _ => ih _)

theorem guards_descendPath (fuel : Nat) (pid : PageId) : Guards held (descendPath key fuel pid) := by
  induction fuel generalizing pid with
  | zero => exact .throw _
  | succ fuel ih =>
    refine guards_fetchPage.bind fun _ => KeepsAlways.bind (fun _ holding => holding) fun page => ?_
    exact KeepsAlways.ite (.pure _) ((guards_failIf _ _).bind fun _ => (ih _).bind fun _ => .pure _)

theorem descend_holds {fuel : Nat} {leaf : PageId} (resident : s.Resident)
    (run : descend key fuel pid s = .ok leaf s') : s'.Holds leaf := by
  induction fuel generalizing s pid with
  | zero => cases run
  | succ fuel ih =>
    simp only [descend, bind_ok, getPage_run] at run
    obtain ⟨_, s₁, fetch, _, _, ⟨rfl, rfl⟩, run⟩ := run
    obtain ⟨resident₁, holds, -⟩ := resident.fetch fetch
    split at run
    · obtain ⟨rfl, rfl⟩ := pure_ok.mp run
      exact holds
    · simp only [bind_ok, failIf_ok] at run
      obtain ⟨_, _, ⟨-, rfl⟩, run⟩ := run
      exact ih resident₁ run

theorem descendPath_holds {fuel : Nat} {stack : List PageId} (resident : s.Resident)
    (run : descendPath key fuel pid s = .ok stack s') : s'.metaPage = s.metaPage ∧ ∀ a ∈ stack,
      s'.Holds a := by
  induction fuel generalizing s pid stack with
  | zero => cases run
  | succ fuel ih =>
    simp only [descendPath, bind_ok, getPage_run] at run
    obtain ⟨_, s₁, fetch, _, _, ⟨rfl, rfl⟩, run⟩ := run
    obtain ⟨resident₁, holds, -⟩ := resident.fetch fetch
    have page := (fetchPage_same fetch).metaPage
    split at run
    · obtain ⟨rfl, rfl⟩ := pure_ok.mp run
      refine ⟨page, fun a mem => ?_⟩
      exact List.mem_singleton.mp mem ▸ holds
    · simp only [bind_ok, failIf_ok] at run
      obtain ⟨_, _, ⟨-, rfl⟩, rest, t, run, ret⟩ := run
      obtain ⟨rfl, rfl⟩ := pure_ok.mp ret
      obtain ⟨page₂, old⟩ := ih resident₁ run
      refine ⟨page₂.trans page, fun a mem => ?_⟩
      rcases List.mem_cons.mp mem with rfl | mem
      · exact holds.mono (by rw [page₂])
      · exact old a mem

theorem guards_atLeaf {f : PageId → M α} (next : ∀ leaf, Guards (leaf :: held) (f leaf)) :
    Guards held (findLeaf key >>= f) := by
  have find : Guards held (findLeaf key) := KeepsAlways.get.bind fun _ => guards_descend _ _
  refine find.bind_at fun s leaf t was run holding => ?_
  simp only [findLeaf, bind_ok, get_run] at run
  obtain ⟨_, _, ⟨rfl, rfl⟩, run⟩ := run
  have here := descend_holds was.ahead.resident run
  exact (next leaf).weaken (fun _ more => more.less (List.subset_cons_self _ _)) t
    ⟨holding.ahead, List.forall_mem_cons.mpr ⟨here, holding.held⟩⟩

theorem guards_addToNumKeys (delta : Int) : Guards held (addToNumKeys delta) :=
  guards_modify (fun _ => rfl) (fun _ => rfl) (fun _ => rfl) (fun _ => rfl) fun _ => rfl

theorem guards_setRootPageId (pid : PageId) : Guards held (setRootPageId pid) :=
  guards_modify (fun _ => rfl) (fun _ => rfl) (fun _ => rfl) (fun _ => rfl) fun _ => rfl

theorem guards_getPage {f : Page → M α} (next : ∀ page, Guards held (f page)) :
    Guards held (getPage pid >>= f) :=
  KeepsAlways.bind (fun _ holding => holding) next

theorem guards_isEmpty : Guards held isEmpty := KeepsAlways.get.bind fun _ => .pure _

theorem guards_treeDelete : Guards held (treeDelete key txid wantBefore) := by
  refine guards_isEmpty.bind fun _ => (guards_failIf _ _).bind fun _ => guards_atLeaf fun leaf => ?_
  have mem : leaf ∈ leaf :: held := List.mem_cons_self
  refine guards_getPage fun node => (guards_failIf _ _).bind fun _ => ?_
  refine (guards_withNode mem fun p => p.deleteAt_pageLsn _).bind fun _ =>
    (guards_failIf _ _).bind fun _ => ?_
  exact (guards_logKeyRecord _ _ _ mem).bind fun _ => (guards_addToNumKeys _).bind fun _ => .pure _

theorem guards_insertLeaf (mem : pid ∈ held) (k v : Bytes) : Guards held (withNode pid (·.insertLeaf k v)) :=
  guards_withNode mem fun p => p.insertLeaf_pageLsn k v

theorem guards_rebuildLeaf (mem : pid ∈ held) (overflow : String) (recs : List (Bytes × Bytes)) :
    Guards held (rebuildLeaf pid overflow recs) := by
  induction recs with
  | nil => exact .pure ()
  | cons r recs ih => exact (guards_insertLeaf mem _ _).bind fun _ => (guards_failIf _ _).bind fun _ => ih

theorem guards_rebuildInternal (mem : pid ∈ held) (overflow : String) (es : List (Bytes × PageId)) :
    Guards held (rebuildInternal pid overflow es) := by
  induction es with
  | nil => exact .pure ()
  | cons e es ih =>
    refine (guards_withNode mem fun p => p.insertInternal_pageLsn _ _).bind fun _ => ?_
    exact (guards_failIf _ _).bind fun _ => ih

theorem guards_relinkSibling (oldNext new : PageId) : Guards held (relinkSibling oldNext new txid) := by
  have mem : oldNext ∈ oldNext :: held := List.mem_cons_self
  refine guards_fetch ?_
  exact guards_edit (fun p => p.setPrevLeaf new) mem (fun p => p.setPrevLeaf_pageLsn new) fun _ =>
    guards_logPageImage _ _ mem

theorem guards_splitLeaf {f : PageId × Bytes → M α} (mem : pid ∈ held)
    (next : ∀ new key, Guards (new :: held) (f (new, key))) : Guards held (splitLeaf pid txid >>= f) := by
  simp only [splitLeaf, bind_assoc, pure_bind]
  refine guards_getPage fun node => guards_fresh fun new => ?_
  have old : pid ∈ new :: held := List.mem_cons_of_mem _ mem
  have fresh : new ∈ new :: held := List.mem_cons_self
  refine (guards_logPageEvent _ _).bind fun _ => (guards_init old).bind fun _ => ?_
  refine (guards_rebuildLeaf old _ _).bind fun _ => (guards_logPageImage _ _ old).bind fun _ => ?_
  refine (guards_init fresh).bind fun _ => (guards_rebuildLeaf fresh _ _).bind fun _ => ?_
  refine (guards_logPageImage _ _ fresh).bind fun _ => ?_
  exact (guards_onlyIf _ (guards_relinkSibling _ _)).bind fun _ => next new _

theorem guards_splitInternal {f : PageId × Bytes → M α} (mem : pid ∈ held)
    (next : ∀ new key, Guards (new :: held) (f (new, key))) : Guards held (splitInternal pid txid >>= f) := by
  simp only [splitInternal, bind_assoc, pure_bind]
  refine guards_getPage fun node => guards_fresh fun new => ?_
  have old : pid ∈ new :: held := List.mem_cons_of_mem _ mem
  have fresh : new ∈ new :: held := List.mem_cons_self
  refine (guards_logPageEvent _ _).bind fun _ => (guards_failIf _ _).bind fun _ =>
    (guards_init old).bind fun _ => ?_
  refine (guards_rebuildInternal old _ _).bind fun _ => (guards_logPageImage _ _ old).bind fun _ => ?_
  refine (guards_init fresh).bind fun _ => (guards_rebuildInternal fresh _ _).bind fun _ => ?_
  exact (guards_logPageImage _ _ fresh).bind fun _ => next new _

theorem guards_createNewRoot (splitKey : Bytes) (left right : PageId) :
    Guards held (createNewRoot splitKey left right txid) := by
  refine guards_fresh fun root => ?_
  have fresh : root ∈ root :: held := List.mem_cons_self
  refine (guards_logPageEvent _ _).bind fun _ => (guards_init fresh).bind fun _ => ?_
  refine (guards_withNode fresh fun p => p.insertInternal_pageLsn _ _).bind fun _ =>
    (guards_failIf _ _).bind fun _ => ?_
  refine guards_edit (fun page => { page with body := .internal right page.entries }) fresh
    (fun _ => rfl) fun _ => ?_
  refine (guards_logPageImage _ _ fresh).bind fun _ => (guards_logPageEvent _ _).bind fun _ => ?_
  exact guards_setRootPageId root

theorem guards_insertIntoHalf (k newKey : Bytes) (left right : PageId) {parent new : PageId}
    (old : parent ∈ held)
    (fresh : new ∈ held) : Guards held (insertIntoHalf txid k newKey left right parent new) := by
  refine KeepsAlways.ite ?_ ?_
  · refine (guards_withNode old fun p => p.insertInternalAfterSplit_pageLsn _ _ _).bind fun _ => ?_
    exact (guards_failIf _ _).bind fun _ => guards_logPageImage _ _ old
  · refine (guards_withNode fresh fun p => p.insertInternalAfterSplit_pageLsn _ _ _).bind fun _ => ?_
    exact (guards_failIf _ _).bind fun _ => guards_logPageImage _ _ fresh

theorem guards_propagate (ancestors : List PageId) (sub : ancestors ⊆ held) (k : Bytes)
    (left right : PageId) :
    Guards held (propagate txid ancestors k left right) := by
  induction ancestors generalizing held k left right with
  | nil => exact guards_createNewRoot k left right
  | cons parent rest ih =>
    have old : parent ∈ held := sub List.mem_cons_self
    have others : rest ⊆ held := List.Subset.trans (List.subset_cons_self _ _) sub
    refine (guards_withNode old fun p => p.insertInternalAfterSplit_pageLsn _ _ _).bind fun _ => ?_
    refine KeepsAlways.ite (guards_logPageImage _ _ old) (guards_splitInternal old fun new newKey => ?_)
    refine (guards_insertIntoHalf _ _ _ _ (List.mem_cons_of_mem _ old) List.mem_cons_self).bind fun _ => ?_
    exact ih (List.subset_cons_of_subset _ others) _ _ _

theorem guards_insertSplit (splitKey : Bytes) {leaf new : PageId} (old : leaf ∈ held) (fresh : new ∈ held) :
    Guards held (insertSplit key value txid wantBefore before splitKey leaf new) := by
  refine KeepsAlways.ite ?_ ?_
  · refine (guards_insertLeaf old _ _).bind fun _ => (guards_failIf _ _).bind fun _ => ?_
    exact guards_logKeyRecord _ _ _ old
  · refine (guards_insertLeaf fresh _ _).bind fun _ => (guards_failIf _ _).bind fun _ => ?_
    exact guards_logKeyRecord _ _ _ fresh

theorem guards_putSplitting (replacing : Bool) {leaf : PageId} (mem : leaf ∈ held) (ancestors : List PageId)
    (sub : ancestors ⊆ held) :
    Guards held (putSplitting key value txid wantBefore before replacing leaf ancestors) := by
  refine guards_splitLeaf mem fun new splitKey => ?_
  refine (guards_insertSplit _ (List.mem_cons_of_mem _ mem) List.mem_cons_self).bind fun _ => ?_
  refine (guards_onlyIf _ (guards_addToNumKeys 1)).bind fun _ => ?_
  exact guards_propagate _ (List.subset_cons_of_subset _ sub) _ _ _

theorem guards_putFirst : Guards held (putFirst key value txid) := by
  refine guards_fresh fun root => ?_
  have fresh : root ∈ root :: held := List.mem_cons_self
  refine (guards_init fresh).bind fun _ => (guards_insertLeaf fresh _ _).bind fun _ =>
    (guards_failIf _ _).bind fun _ => ?_
  refine (guards_logPageEvent _ _).bind fun _ => (guards_logPageImage _ _ fresh).bind fun _ => ?_
  refine (guards_logPageEvent _ _).bind fun _ => (guards_setRootPageId root).bind fun _ => ?_
  exact guards_addToNumKeys 1

theorem guards_putHeld {leaf : PageId} (mem : leaf ∈ held) (ancestors : List PageId)
    (sub : ancestors ⊆ held) :
    Guards held (putHeld key value txid wantBefore leaf ancestors) := by
  refine guards_getPage fun node => (guards_withNode mem fun p => ?_).bind fun _ => ?_
  · split
    · exact p.updateLeaf_pageLsn key value
    · rfl
  · refine KeepsAlways.ite ((guards_logKeyRecord _ _ _ mem).bind fun _ => .pure _) ?_
    refine (guards_onlyIf _ ?_).bind fun _ => (guards_insertLeaf mem _ _).bind fun _ => ?_
    · refine (guards_withNode mem fun p => p.deleteAt_pageLsn _).bind fun _ => ?_
      exact (guards_failIf _ _).bind fun _ => guards_markDirty mem
    · refine KeepsAlways.ite ?_ ((guards_putSplitting _ mem _ sub).bind fun _ => .pure _)
      refine (guards_logKeyRecord _ _ _ mem).bind fun _ => ?_
      exact (guards_onlyIf _ (guards_addToNumKeys 1)).bind fun _ => .pure _

theorem guards_putPessimistic : Guards held (putPessimistic key value txid wantBefore) := by
  refine guards_isEmpty.bind fun _ => KeepsAlways.ite (guards_putFirst.bind fun _ => .pure _) ?_
  refine KeepsAlways.get.bind fun _ => (guards_descendPath _ _).bind_at fun s stack t was run holding => ?_
  obtain ⟨-, path⟩ := descendPath_holds was.ahead.resident run
  obtain ⟨some, -⟩ := descendPath_isLeaf run
  have last : stack.getLastD kInvalidPageId ∈ stack := by
    rw [List.getLastD_eq_getLast?, List.getLast?_eq_some_getLast some]
    exact List.getLast_mem some
  have sub : stack.dropLast.reverse ⊆ stack ++ held := fun a mem =>
    List.mem_append_left _ (List.mem_of_mem_dropLast (List.mem_reverse.mp mem))
  refine (guards_putHeld (List.mem_append_left _ last) _ sub).weaken
    (fun _ more => more.less (List.subset_append_right _ _)) t ⟨holding.ahead, fun a mem => ?_⟩
  exact (List.mem_append.mp mem).elim (path a) (holding.held a)

theorem guards_putOptimistic : Guards held (putOptimistic key value txid wantBefore) := by
  refine guards_isEmpty.bind fun _ => KeepsAlways.ite (.pure none) (guards_atLeaf fun leaf => ?_)
  have mem : leaf ∈ leaf :: held := List.mem_cons_self
  refine guards_getPage fun node => KeepsAlways.ite ?_ ?_
  · refine (guards_withNode mem fun p => p.updateLeaf_pageLsn key value).bind fun _ => ?_
    exact KeepsAlways.ite ((guards_logKeyRecord _ _ _ mem).bind fun _ => .pure _) (.pure none)
  · refine (guards_insertLeaf mem _ _).bind fun _ => KeepsAlways.ite ?_ (.pure none)
    exact (guards_logKeyRecord _ _ _ mem).bind fun _ => (guards_addToNumKeys 1).bind fun _ => .pure _

theorem guards_treePut : Guards held (treePut key value txid wantBefore) := by
  refine (guards_failIf _ _).bind fun _ => guards_putOptimistic.bind fun out => ?_
  cases out with
  | some before => exact .pure before
  | none => exact guards_putPessimistic

end Calls

end PagerDB

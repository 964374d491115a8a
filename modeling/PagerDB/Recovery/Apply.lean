import PagerDB.BTree.FastPath
import PagerDB.Recovery.Redo

/-! `ApplyRecord` over the pool and the pager. It redoes a record on the pages as it finds them, in
frames or in the file. -/
namespace PagerDB

open Store

/-- The loop of `ensure_page_exists`; every round adds a page. -/
def ensureLoop (pid : PageId) : Nat → M Unit
  | 0 => throw .diverges
  | fuel + 1 => do
    let before := (← get).metaPage.numPages
    if pid < before then return ()
    else
      let _ ← allocatePage
      failIf ((← get).metaPage.numPages = before)
        (.status (.Corruption "Free-list interference while re-extending during recovery"))
      ensureLoop pid fuel

def ensurePageExists (pid : PageId) : M Unit := do
  ensureLoop pid (pid + 1 - (← get).metaPage.numPages + 1)

def writePage (pid : PageId) (page : Page) : M Unit := do
  let s ← get
  failIf (pid < kFirstDataPage) (.status (.InvalidArgument "Page is a meta page"))
  failIf (s.metaPage.numPages ≤ pid) (.status (.InvalidArgument "Page out of range"))
  ioPoint
  modify fun s => s.setDisk pid (some page)

/-- The page is redone if it is older than the record, and stamped. -/
def applyDelta (pid : PageId) (lsn : Lsn) (redone : Page → Bool × Page) (message : Page → String) :
    M Bool := do
  fetchPage pid
  let page ← getPage pid
  if page.pageLsn < lsn then
    let done ← withNode pid redone
    failIf (!done) (.status (.Corruption (message page)))
    let page ← getPage pid
    setPage pid (page.stamp lsn)
    markDirty pid
    return true
  else return false

/-- A page that cannot be read is healed in the file. -/
def applyImage (pid : PageId) (lsn : Lsn) (image : Page) : M Bool := fun s =>
  match fetchPage pid s with
  | .ok _ s =>
    if (s.view pid).pageLsn < lsn then (do setPage pid image; markDirty pid; return true : M Bool) s
    else .ok false s
  | .error (.status e) s =>
    if e.code = .corruption then (do writePage pid image; return true : M Bool) s
    else .error (.status e) s
  | .error e s => .error e s

def applyRecord (r : LogRecord) : M Bool :=
  match r.body with
  | .allocPage p => do
    ensurePageExists p
    return false
  | .pageImage p image => do
    ensurePageExists p
    applyImage p r.lsn image
  | .put p key value _ =>
    applyDelta p r.lsn (·.redoPut key value) fun page =>
      if (page.findKeyIndex key).2 then "WAL put redo failed (update)" else "WAL put redo failed (insert)"
  | .delete p key _ => applyDelta p r.lsn (·.redoDelete key) fun _ => "WAL delete redo failed"
  | .rootChange p => do
    setRootPageId p
    return true
  | _ => return false

def applyAll : List LogRecord → Bool → M Bool
  | [], applied => return applied
  | r :: rs, applied => do
    let now ← applyRecord r
    applyAll rs (applied || now)

/-- Under every frame there is a data page that can be read, and that a clean frame shows. -/
def Store.Backed (t : Store) : Prop := ∀ p f, t.cache p = some f →
  kFirstDataPage ≤ p ∧ ∃ page, t.disk p = some page ∧ (f.dirty = false → f.page = page)

structure Steady (t t' : Store) : Prop where
  vol : t'.vol = t.vol
  wal : t'.wal = t.wal
  keys : t'.metaPage.numKeys = t.metaPage.numKeys
  checkpoint : t'.metaPage.checkpointLsn = t.metaPage.checkpointLsn
  grows : t.metaPage.numPages ≤ t'.metaPage.numPages
  beyond : ∀ p, t'.metaPage.numPages ≤ p → t'.disk p = t.disk p
  backed : t.Backed → t'.Backed

namespace Steady

theorem refl (t : Store) : Steady t t := ⟨rfl, rfl, rfl, rfl, le_rfl, fun _ _ => rfl, id⟩

theorem trans {a b c : Store} (h : Steady a b) (g : Steady b c) : Steady a c where
  vol := g.vol.trans h.vol
  wal := g.wal.trans h.wal
  keys := g.keys.trans h.keys
  checkpoint := g.checkpoint.trans h.checkpoint
  grows := h.grows.trans g.grows
  beyond p past := (g.beyond p past).trans (h.beyond p (g.grows.trans past))
  backed := g.backed ∘ h.backed

variable {t : Store} {pid : PageId} {page : Page}

theorem setFrame {f : Frame} (here : t.Backed → kFirstDataPage ≤ pid ∧ ∃ page, t.disk pid = some page ∧
    (f.dirty = false → f.page = page)) : Steady t (t.setFrame pid f) := by
  refine ⟨rfl, rfl, rfl, rfl, le_rfl, fun _ _ => rfl, fun backed p g frame => ?_⟩
  by_cases same : p = pid
  · subst same
    obtain rfl : f = g := by simpa [Store.setFrame] using frame
    exact here backed
  · simp only [Store.setFrame, same, if_false] at frame
    exact backed p g frame

theorem load (first : kFirstDataPage ≤ pid) (disk : t.disk pid = some page) :
    Steady t (t.setFrame pid ⟨page, false⟩) :=
  setFrame fun _ => ⟨first, page, disk, fun _ => rfl⟩

theorem rewrite {f : Frame} (resident : t.cache pid = some f) (page : Page) :
    Steady t (t.setFrame pid ⟨page, true⟩) := by
  refine setFrame fun backed => ?_
  obtain ⟨first, old, disk, -⟩ := backed pid f resident
  exact ⟨first, old, disk, nofun⟩

theorem setDisk (absent : t.cache pid = none) (within : pid < t.metaPage.numPages) (page : Page) :
    Steady t (t.setDisk pid (some page)) := by
  refine ⟨rfl, rfl, rfl, rfl, le_rfl, fun p past => if_neg (within.trans_le past).ne',
    fun backed p g frame => ?_⟩
  have other : p ≠ pid := by
    rintro rfl
    cases absent.symm.trans frame
  simpa [Store.setDisk, other] using backed p g frame

end Steady

theorem Store.putPage_dirtied (t : Store) (pid : PageId) (page : Page) :
    (t.putPage pid page).dirtied pid = t.setFrame pid ⟨page, true⟩ := by
  have cache : ((t.putPage pid page).dirtied pid).cache = (t.setFrame pid ⟨page, true⟩).cache := by
    funext p
    by_cases same : p = pid
    · simp [Store.dirtied, Store.putPage, Store.setFrame, same, view]
    · simp [Store.dirtied, Store.putPage, Store.setFrame, same]
  exact congrArg (fun cache => { t with cache := cache }) cache

/-- A store with these pages, whose frames are pages of the file, that meets no fault. -/
structure Mirrors (x : Shape) (t : Store) : Prop where
  root : t.metaPage.rootPageId = x.root
  numPages : t.metaPage.numPages = x.numPages
  pages : ∀ p, p < x.numPages → t.version p = x.pages p
  frames : ∀ p f, t.cache p = some f → p < x.numPages
  free : t.metaPage.freeListHead = kInvalidPageId
  io : t.io = []

section

variable {x y : Shape} {t : Store} {pid : PageId} {page : Page} {lsn : Lsn}

namespace Mirrors

theorem setFrame (mirrors : Mirrors x t) (lt : pid < x.numPages) (f : Frame) :
    Mirrors (x.set pid f.page) (t.setFrame pid f) where
  root := mirrors.root
  numPages := mirrors.numPages
  pages p lt' := by
    rw [t.version_setFrame]
    by_cases same : p = pid
    · rw [if_pos same, same, Shape.set_pages_self]
    · rw [if_neg same, Shape.set_pages_of_ne same]
      exact mirrors.pages p lt'
  frames p g here := by
    by_cases same : p = pid
    · exact same ▸ lt
    · simp only [Store.setFrame, same, if_false] at here
      exact mirrors.frames p g here
  free := mirrors.free
  io := mirrors.io

theorem putPage (mirrors : Mirrors x t) (lt : pid < x.numPages) (page : Page) :
    Mirrors (x.set pid page) (t.putPage pid page) := mirrors.setFrame lt ⟨page, t.isDirty pid⟩

theorem reload (mirrors : Mirrors x t) (lt : pid < x.numPages) (here : x.pages pid = some page)
    (dirty : Bool) :
    Mirrors x (t.setFrame pid ⟨page, dirty⟩) := by
  have after := mirrors.setFrame lt ⟨page, dirty⟩
  rwa [Shape.set_same here] at after

theorem dirtied (mirrors : Mirrors x t) (lt : pid < x.numPages) (here : x.pages pid = some page) :
    Mirrors x (t.dirtied pid) := by
  have view := Store.view_of_version ((mirrors.pages pid lt).trans here)
  rw [Store.dirtied, view]
  exact mirrors.reload lt here true

theorem readPage_eq (mirrors : Mirrors x t) (holds : x.Holds pid) :
    readPage pid t = (t.disk pid).elim (.error (.status (.Corruption "Checksum mismatch on page")) t)
      fun page => .ok page t := by
  unfold readPage
  rw [bind_of_ok get_run, bind_of_ok (failIf_of_not (not_lt.mpr holds.1)),
    bind_of_ok (failIf_of_not (not_le.mpr (mirrors.numPages ▸ holds.2))), bind_of_ok (ioPoint_nil mirrors.io)]
  cases t.disk pid with
  | some page => rfl
  | none => rfl

theorem fetch (mirrors : Mirrors x t) (holds : x.Holds pid) (here : x.pages pid = some page) :
    ∃ t', fetchPage pid t = .ok () t' ∧ Mirrors x t' ∧ t'.view pid = page ∧ Steady t t' ∧
      ∃ f, t'.cache pid = some f := by
  have version := (mirrors.pages pid holds.2).trans here
  unfold fetchPage
  rw [bind_of_ok get_run]
  cases frame : t.cache pid with
  | some f =>
    exact ⟨t, rfl, mirrors, Store.view_of_version version, .refl t, f, frame⟩
  | none =>
    have disk : t.disk pid = some page := by simpa [Store.version, frame] using version
    have read : readPage pid t = .ok page t := by
      rw [mirrors.readPage_eq holds, disk]
      rfl
    refine ⟨t.setFrame pid ⟨page, false⟩, ?_, mirrors.reload holds.2 here false, ?_,
      .load holds.1 disk, _, if_pos rfl⟩
    · change (ioPoint >>= fun _ => readPage pid >>= fun page =>
        modify fun s => s.setFrame pid ⟨page, false⟩) t = _
      rw [bind_of_ok (ioPoint_nil mirrors.io), bind_of_ok read]
      rfl
    · rw [view_setFrame, if_pos rfl]

theorem fetch_unreadable (mirrors : Mirrors x t) (holds : x.Holds pid) (gone : x.pages pid = none) :
    fetchPage pid t = .error (.status (.Corruption "Checksum mismatch on page")) t := by
  have version := (mirrors.pages pid holds.2).trans gone
  unfold fetchPage
  rw [bind_of_ok get_run]
  cases frame : t.cache pid with
  | some f => simp [Store.version, frame] at version
  | none =>
    have disk : t.disk pid = none := by simpa [Store.version, frame] using version
    have read : readPage pid t = .error (.status (.Corruption "Checksum mismatch on page")) t := by
      rw [mirrors.readPage_eq holds, disk]
      rfl
    change (ioPoint >>= fun _ => readPage pid >>= fun page =>
      modify fun s => s.setFrame pid ⟨page, false⟩) t = _
    rw [bind_of_ok (ioPoint_nil mirrors.io), bind_of_error read]

theorem allocate (mirrors : Mirrors x t) (room : x.numPages < t.vol.maxPages) :
    ∃ t', allocatePage t = .ok x.numPages t' ∧ Mirrors (x.extended x.numPages) t' ∧ Steady t t' := by
  have absent : t.cache x.numPages = none := by
    cases frame : t.cache x.numPages with
    | none => rfl
    | some f => exact absurd (mirrors.frames _ f frame) (lt_irrefl _)
  refine ⟨{ t.setDisk x.numPages (some .zeroed) with
    filePages := max t.filePages (x.numPages + 1)
    metaPage := { t.metaPage with numPages := x.numPages + 1 } }, ?_, ?_,
    rfl, rfl, rfl, rfl, ?_, fun p past => if_neg ?_, fun backed p f frame => ?_⟩
  · have never : ¬ t.metaPage.freeListHead ≠ kInvalidPageId := not_not.mpr mirrors.free
    rw [← mirrors.numPages] at room ⊢
    unfold allocatePage
    rw [bind_of_ok get_run]
    simp only [never, if_false]
    rw [bind_of_ok (ioPoint_nil mirrors.io), bind_of_ok (failIf_of_not (not_le.mpr room))]
    rfl
  · constructor
    · exact mirrors.root
    · exact (max_eq_right (Nat.le_succ _)).symm
    · intro p lt
      by_cases new : p = x.numPages
      · rw [Shape.extended_new new.ge lt, new]
        simp [Store.version, Store.setDisk, absent]
      · have old : p < x.numPages := by
          rcases lt_max_iff.mp lt with lt | lt
          · exact lt
          · exact lt_of_le_of_ne (Nat.le_of_lt_succ lt) new
        rw [Shape.extended_old old, ← mirrors.pages p old]
        simp [Store.version, Store.setDisk, new]
    · intro p f here
      exact lt_max_of_lt_left (mirrors.frames p f here)
    · exact mirrors.free
    · exact mirrors.io
  · rw [mirrors.numPages]
    exact Nat.le_succ _
  · have past : x.numPages + 1 ≤ p := past
    exact (Nat.lt_of_succ_le past).ne'
  · have other : p ≠ x.numPages := by
      rintro rfl
      cases absent.symm.trans frame
    simpa [Store.setDisk, other] using backed p f frame

theorem ensureLoop {fuel : Nat} (mirrors : Mirrors x t) (room : pid < max x.numPages t.vol.maxPages)
    (enough : pid + 1 - x.numPages < fuel) :
    ∃ t', ensureLoop pid fuel t = .ok () t' ∧ Mirrors (x.extended pid) t' ∧ Steady t t' := by
  induction fuel generalizing x t with
  | zero => cases enough
  | succ fuel ih =>
    unfold PagerDB.ensureLoop
    rw [bind_of_ok get_run, mirrors.numPages]
    by_cases lt : pid < x.numPages
    · rw [if_pos lt, Shape.extended_of_lt lt]
      exact ⟨t, rfl, mirrors, .refl t⟩
    · have le := not_lt.mp lt
      have within := (lt_max_iff.mp room).resolve_left lt
      obtain ⟨t₁, alloc, mirrors₁, steady⟩ := mirrors.allocate (le.trans_lt within)
      have more : t₁.metaPage.numPages = x.numPages + 1 :=
        mirrors₁.numPages.trans (max_eq_right (Nat.le_succ _))
      have moved : ¬ t₁.metaPage.numPages = x.numPages := by
        rw [more]
        exact Nat.succ_ne_self _
      have fewer : pid + 1 - (x.extended x.numPages).numPages < fuel := by
        rw [← mirrors₁.numPages, more, Nat.add_sub_add_right]
        have rounds : pid + 1 - x.numPages = pid - x.numPages + 1 := Nat.succ_sub le
        rw [rounds] at enough
        exact Nat.lt_of_succ_lt_succ enough
      obtain ⟨t', loop, mirrors', steady'⟩ := ih mirrors₁ (lt_max_of_lt_right (steady.vol ▸ within)) fewer
      refine ⟨t', ?_, ?_, steady.trans steady'⟩
      · rw [if_neg lt, bind_of_ok alloc, bind_of_ok get_run, bind_of_ok (failIf_of_not moved)]
        exact loop
      · rw [Shape.extended_twice le] at mirrors'
        exact mirrors'

theorem ensurePageExists (mirrors : Mirrors x t) (room : pid < max x.numPages t.vol.maxPages) :
    ∃ t', ensurePageExists pid t = .ok () t' ∧ Mirrors (x.extended pid) t' ∧ Steady t t' := by
  unfold PagerDB.ensurePageExists
  rw [bind_of_ok get_run, mirrors.numPages]
  exact mirrors.ensureLoop room (Nat.lt_succ_self _)

theorem applyDelta {redone : Page → Bool × Page} {message : Page → String} (mirrors : Mirrors x t)
    (run : x.edit pid lsn redone = some y) :
    ∃ t', applyDelta pid lsn redone message t = .ok (x.behind pid lsn) t' ∧ Mirrors y t' ∧ Steady t t' := by
  obtain ⟨holds, run⟩ := Option.ite_none_right_eq_some.mp run
  cases here : x.pages pid with
  | none =>
    rw [here] at run
    cases run
  | some page =>
    rw [here] at run
    obtain ⟨t₁, fetch, mirrors₁, view, steady, f, resident⟩ := mirrors.fetch holds here
    rw [Shape.behind_of_holds holds.2 here]
    unfold PagerDB.applyDelta
    rw [bind_of_ok fetch, bind_of_ok (getPage_run pid), view]
    by_cases older : page.pageLsn < lsn
    · simp only [older, if_true] at run
      obtain ⟨done, eq⟩ := Option.ite_none_right_eq_some.mp run
      obtain rfl := Option.some.inj eq
      refine ⟨((t₁.putPage pid (redone page).2).putPage pid ((redone page).2.stamp lsn)).dirtied pid,
        ?_, ?_, ?_⟩
      · rw [if_pos older, bind_of_ok (withNode_run pid redone), view,
          bind_of_ok (failIf_of_not (by simp [done])),
          bind_of_ok (getPage_run pid), view_putPage, if_pos rfl, bind_of_ok (setPage_run pid _),
          bind_of_ok (markDirty_run pid), decide_eq_true older]
        rfl
      · have after := ((mirrors₁.putPage holds.2 (redone page).2).putPage holds.2 ((redone page).2.stamp lsn))
        rw [Shape.set_set] at after
        exact after.dirtied holds.2 (Shape.set_pages_self x pid _)
      · rw [putPage_putPage, putPage_dirtied]
        exact steady.trans (.rewrite resident _)
    · simp only [older, if_false] at run
      obtain rfl := Option.some.inj run
      exact ⟨t₁, by rw [if_neg older, decide_eq_false older]; rfl, mirrors₁, steady⟩

theorem writePage (mirrors : Mirrors x t) (holds : x.Holds pid) (gone : x.pages pid = none) (page : Page) :
    PagerDB.writePage pid page t = .ok () (t.setDisk pid (some page)) ∧
      Mirrors (x.set pid page) (t.setDisk pid (some page)) ∧ Steady t (t.setDisk pid (some page)) := by
  have version := (mirrors.pages pid holds.2).trans gone
  have absent : t.cache pid = none := by
    cases frame : t.cache pid with
    | none => rfl
    | some f => simp [Store.version, frame] at version
  refine ⟨?_, ?_, .setDisk absent (mirrors.numPages ▸ holds.2) page⟩
  · unfold PagerDB.writePage
    rw [bind_of_ok get_run, bind_of_ok (failIf_of_not (not_lt.mpr holds.1)),
      bind_of_ok (failIf_of_not (not_le.mpr (mirrors.numPages ▸ holds.2))),
        bind_of_ok (ioPoint_nil mirrors.io)]
    rfl
  · refine ⟨mirrors.root, mirrors.numPages, fun p lt => ?_, mirrors.frames, mirrors.free, mirrors.io⟩
    by_cases same : p = pid
    · subst same
      simp [Store.version, Store.setDisk, absent]
    · rw [Shape.set_pages_of_ne same, ← mirrors.pages p lt]
      simp [Store.version, Store.setDisk, same]

theorem applyImage {image : Page} (mirrors : Mirrors x t) (run : x.restore pid lsn image = some y) :
    ∃ t', applyImage pid lsn image t = .ok (x.behind pid lsn || (x.pages pid).isNone) t' ∧ Mirrors y t' ∧
      Steady t t' := by
  obtain ⟨holds, run⟩ := Option.ite_none_right_eq_some.mp run
  unfold PagerDB.applyImage Shape.behind
  rw [Shape.extended_of_lt holds.2]
  cases here : x.pages pid with
  | none =>
    rw [here] at run
    obtain rfl := Option.some.inj run
    obtain ⟨write, after, steady⟩ := mirrors.writePage holds here image
    refine ⟨t.setDisk pid (some image), ?_, after, steady⟩
    simp only [mirrors.fetch_unreadable holds here]
    exact bind_of_ok write
  | some page =>
    rw [here] at run
    obtain ⟨t₁, fetch, mirrors₁, view, steady, f, resident⟩ := mirrors.fetch holds here
    simp only [fetch, view, Option.any_some, Option.isNone_some, Bool.or_false]
    by_cases older : page.pageLsn < lsn
    · simp only [older, if_true] at run ⊢
      obtain rfl := Option.some.inj run
      have after := mirrors₁.putPage holds.2 image
      rw [decide_eq_true trivial]
      refine ⟨(t₁.putPage pid image).dirtied pid, rfl,
        after.dirtied holds.2 (Shape.set_pages_self x pid _), ?_⟩
      rw [putPage_dirtied]
      exact steady.trans (.rewrite resident image)
    · simp only [older, if_false] at run ⊢
      obtain rfl := Option.some.inj run
      exact ⟨t₁, rfl, mirrors₁, steady⟩

theorem applyRecord {r : LogRecord} (mirrors : Mirrors x t)
    (room : y.numPages ≤ max x.numPages t.vol.maxPages)
    (run : x.redo r = some y) :
    ∃ t', applyRecord r t = .ok (x.applies r) t' ∧ Mirrors y t' ∧ Steady t t' := by
  unfold Shape.redo at run
  unfold PagerDB.applyRecord Shape.applies
  cases body : r.body with
  | allocPage pid =>
    rw [body] at run
    obtain rfl := Option.some.inj run
    obtain ⟨t', ensure, mirrors', steady⟩ := mirrors.ensurePageExists
      (Nat.lt_of_succ_le ((le_max_right _ _).trans room))
    exact ⟨t', bind_of_ok ensure, mirrors', steady⟩
  | pageImage pid image =>
    rw [body] at run
    have grown : pid + 1 ≤ y.numPages := (le_max_right _ _).trans (Shape.restore_numPages run).ge
    obtain ⟨t₁, ensure, mirrors₁, steady₁⟩ := mirrors.ensurePageExists (Nat.lt_of_succ_le (grown.trans room))
    obtain ⟨t', apply, mirrors', steady⟩ := mirrors₁.applyImage run
    have there : pid < (x.extended pid).numPages := Nat.lt_of_succ_le (le_max_right _ _)
    refine ⟨t', (bind_of_ok ensure).trans ?_, mirrors', steady₁.trans steady⟩
    rw [apply, Shape.behind, Shape.extended_of_lt there]
    rfl
  | put pid key value before =>
    rw [body] at run
    exact mirrors.applyDelta run
  | delete pid key before =>
    rw [body] at run
    exact mirrors.applyDelta run
  | rootChange pid =>
    rw [body] at run
    obtain rfl := Option.some.inj run
    refine ⟨{ t with metaPage := { t.metaPage with rootPageId := pid } }, rfl, ?_, rfl, rfl, rfl, rfl, le_rfl,
      fun _ _ => rfl, id⟩
    exact ⟨rfl, mirrors.numPages, mirrors.pages, mirrors.frames, mirrors.free, mirrors.io⟩
  | _ =>
    rw [body] at run
    obtain rfl := Option.some.inj run
    exact ⟨t, rfl, mirrors, .refl t⟩

theorem applyAll {rs : List LogRecord} (mirrors : Mirrors x t)
    (room : y.numPages ≤ max x.numPages t.vol.maxPages)
    (run : Shape.redoAll rs x = some y) (applied : Bool) :
    ∃ t', applyAll rs applied t = .ok (applied || rs.any x.applies) t' ∧ Mirrors y t' ∧ Steady t t' := by
  induction rs generalizing x t applied with
  | nil =>
    obtain rfl := Option.some.inj run
    exact ⟨t, by rw [List.any_nil, Bool.or_false]; rfl, mirrors, .refl t⟩
  | cons r rs ih =>
    obtain ⟨x₁, first, rest⟩ := Option.bind_eq_some_iff.mp run
    obtain ⟨t₁, apply, mirrors₁, steady⟩ := mirrors.applyRecord ((Shape.redoAll_grows rest).trans room) first
    obtain ⟨t', all, mirrors', steady'⟩ := ih mirrors₁
      (room.trans (max_le_max (Shape.redo_grows first) (by rw [steady.vol]))) rest (applied || x.applies r)
    refine ⟨t', (bind_of_ok apply).trans ?_, mirrors', steady.trans steady'⟩
    rw [all, List.any_cons, ← Bool.or_assoc]
    cases now : x.applies r with
    | true => simp
    | false => rw [funext fun q => Shape.applies_after_idle first now q]

end Mirrors

end

end PagerDB

import Mathlib.Logic.Function.Basic
import PagerDB.BTree.Tree

/-! Running the storage monad: how a bind succeeds, and what each primitive leaves of
the nodes. A node is looked at as its body and its space accounting; logging and page
fetches change neither. -/
namespace PagerDB

section Monad

variable {α β : Type} {s s' : Store} {e : Failure}

theorem bind_ok {x : M α} {f : α → M β} {b : β} :
    (x >>= f) s = .ok b s' ↔ ∃ a t, x s = .ok a t ∧ f a t = .ok b s' := by
  change EStateM.bind x f s = _ ↔ _
  unfold EStateM.bind
  cases x s with
  | ok a t => simp
  | error e t => simp

theorem bind_error {x : M α} {f : α → M β} :
    (x >>= f) s = .error e s' ↔
      x s = .error e s' ∨ ∃ a t, x s = .ok a t ∧ f a t = .error e s' := by
  change EStateM.bind x f s = _ ↔ _
  unfold EStateM.bind
  cases x s with
  | ok a t => simp
  | error e t => simp

theorem ok_of_result {x : M α} {a : α} (h : x.run' s = some a) : ∃ s', x s = .ok a s' := by
  delta EStateM.run' EStateM.run at h
  cases run : x s with
  | ok b s' =>
    rw [run] at h
    exact ⟨s', congrArg (EStateM.Result.ok · s') (Option.some.inj h)⟩
  | error e s' =>
    rw [run] at h
    cases h

theorem bind_of_ok {x : M α} {f : α → M β} {a : α} (h : x s = .ok a s') :
    (x >>= f) s = f a s' := by
  change EStateM.bind x f s = _
  simp [EStateM.bind, h]

theorem bind_of_error {x : M α} {f : α → M β} (h : x s = .error e s') :
    (x >>= f) s = .error e s' := by
  change EStateM.bind x f s = _
  simp [EStateM.bind, h]

theorem pure_run (a : α) : (pure a : M α) s = .ok a s := rfl

@[simp] theorem pure_ok {a b : α} : (pure a : M α) s = .ok b s' ↔ a = b ∧ s = s' := by
  change EStateM.Result.ok a s = _ ↔ _
  simp

@[simp] theorem fail_run (st : Status) : (fail st : M α) s = .error (.status st) s := rfl

@[simp] theorem throw_run : (throw e : M α) s = .error e s := rfl

@[simp] theorem get_run : (get : M Store) s = .ok s s := rfl

@[simp] theorem modify_run (f : Store → Store) : (modify f : M Unit) s = .ok () (f s) := rfl

@[simp] theorem getPage_run (pid : PageId) : getPage pid s = .ok (s.view pid) s := rfl

@[simp] theorem setPage_run (pid : PageId) (p : Page) :
    setPage pid p s = .ok () (s.putPage pid p) := rfl

@[simp] theorem markDirty_run (pid : PageId) : markDirty pid s = .ok () (s.dirtied pid) := rfl

@[simp] theorem withNode_run (pid : PageId) (f : Page → Bool × Page) :
    withNode pid f s = .ok (f (s.view pid)).1 (s.putPage pid (f (s.view pid)).2) := rfl

@[simp] theorem setRootPageId_run (pid : PageId) : setRootPageId pid s =
    .ok () { s with metaPage := { s.metaPage with rootPageId := pid } } := rfl

@[simp] theorem addToNumKeys_run (d : Int) : addToNumKeys d s =
    .ok () { s with metaPage := { s.metaPage with numKeys := s.metaPage.numKeys + d } } := rfl

@[simp] theorem isEmpty_run :
    isEmpty s = .ok (decide (s.metaPage.rootPageId = kInvalidPageId)) s := rfl

@[simp] theorem failIf_ok {c : Prop} [Decidable c] {u : Unit} :
    failIf c e s = .ok u s' ↔ ¬ c ∧ s = s' := by
  by_cases h : c <;> simp [failIf, h]

theorem failIf_error {c : Prop} [Decidable c] {e' : Failure} :
    failIf c e s = .error e' s' ↔ c ∧ e = e' ∧ s = s' := by
  by_cases h : c
  · simp [failIf, h]
  · simp only [failIf, h, false_and, iff_false]
    exact fun x => by cases x

theorem failIf_of {c : Prop} [Decidable c] (h : c) : failIf c e s = .error e s :=
  failIf_error.mpr ⟨h, rfl, rfl⟩

theorem onlyIf_ok {c : Bool} {x : M Unit} {u : Unit} :
    onlyIf c x s = .ok u s' ↔ c = true ∧ x s = .ok u s' ∨ c = false ∧ s = s' := by
  cases c <;> simp [onlyIf]

theorem failIf_of_not {c : Prop} [Decidable c] (h : ¬ c) : failIf c e s = .ok () s := by
  simp [h]

end Monad

namespace Store

variable {s s' : Store}

theorem view_setFrame (s : Store) (pid q : PageId) (f : Frame) :
    (s.setFrame pid f).view q = if q = pid then f.page else s.view q := by
  by_cases h : q = pid <;> simp [view, setFrame, h]

@[simp] theorem view_putPage (s : Store) (pid q : PageId) (p : Page) :
    (s.putPage pid p).view q = if q = pid then p else s.view q :=
  s.view_setFrame pid q _

@[simp] theorem view_dirtied (s : Store) (pid q : PageId) : (s.dirtied pid).view q = s.view q := by
  by_cases h : q = pid <;> simp [dirtied, view_setFrame, h]

def bodies (s : Store) (pid : PageId) : Body := (s.view pid).body

structure Same (s s' : Store) : Prop where
  bodies : s'.bodies = s.bodies
  accounted : ∀ p, (s.view p).Accounted → (s'.view p).Accounted
  metaPage : s'.metaPage = s.metaPage
  readable : ∀ p, (s.disk p).isSome → (s'.disk p).isSome
  vol : s'.vol = s.vol
  io : s.io = [] → s'.io = []

theorem Same.refl (s : Store) : Same s s := ⟨rfl, fun _ h => h, rfl, fun _ h => h, rfl, id⟩

theorem Same.trans {a b c : Store} (h : Same a b) (g : Same b c) : Same a c :=
  ⟨g.bodies.trans h.bodies, fun p x => g.accounted p (h.accounted p x), g.metaPage.trans h.metaPage,
    fun p x => g.readable p (h.readable p x), g.vol.trans h.vol, fun x => g.io (h.io x)⟩

/-- The nodes are the same and so is what a tree depends on in the meta page. -/
structure Alike (s s' : Store) : Prop where
  bodies : s'.bodies = s.bodies
  accounted : ∀ p, (s.view p).Accounted → (s'.view p).Accounted
  root : s'.metaPage.rootPageId = s.metaPage.rootPageId
  pages : s'.metaPage.numPages = s.metaPage.numPages
  keys : s'.metaPage.numKeys = s.metaPage.numKeys
  free : s'.metaPage.freeListHead = s.metaPage.freeListHead
  readable : ∀ p, (s.disk p).isSome → (s'.disk p).isSome

theorem Same.alike {s s' : Store} (same : Same s s') : Alike s s' := by
  refine ⟨same.bodies, same.accounted, ?_, ?_, ?_, ?_, same.readable⟩ <;> rw [same.metaPage]

structure Wrote (pid : PageId) (body : Body) (s s' : Store) : Prop where
  bodies : s'.bodies = Function.update s.bodies pid body
  accounted : ∀ p, p ≠ pid → (s.view p).Accounted → (s'.view p).Accounted
  metaPage : s'.metaPage = s.metaPage
  readable : ∀ p, (s.disk p).isSome → (s'.disk p).isSome
  vol : s'.vol = s.vol
  io : s.io = [] → s'.io = []

theorem wrote_putPage (s : Store) (pid : PageId) (p : Page) :
    Wrote pid p.body s (s.putPage pid p) := by
  refine ⟨?_, ?_, rfl, fun _ h => h, rfl, id⟩
  · funext q
    by_cases h : q = pid
    · subst h
      simp [Store.bodies]
    · simp [Store.bodies, h]
  · intro q h acc
    simpa [h] using acc

theorem Same.wrote {a b c : Store} {pid : PageId} {body : Body} (h : Same a b)
    (g : Wrote pid body b c) : Wrote pid body a c :=
  ⟨by rw [g.bodies, h.bodies], fun p ne x => g.accounted p ne (h.accounted p x),
    g.metaPage.trans h.metaPage, fun p x => g.readable p (h.readable p x), g.vol.trans h.vol,
    fun x => g.io (h.io x)⟩

theorem Wrote.same {a b c : Store} {pid : PageId} {body : Body} (h : Wrote pid body a b)
    (g : Same b c) : Wrote pid body a c :=
  ⟨g.bodies.trans h.bodies, fun p ne x => g.accounted p (h.accounted p ne x),
    g.metaPage.trans h.metaPage, fun p x => g.readable p (h.readable p x), g.vol.trans h.vol,
    fun x => g.io (h.io x)⟩

theorem Wrote.again {a b c : Store} {pid : PageId} {body body' : Body} (h : Wrote pid body a b)
    (g : Wrote pid body' b c) : Wrote pid body' a c :=
  ⟨by rw [g.bodies, h.bodies, Function.update_idem],
    fun p ne x => g.accounted p ne (h.accounted p ne x), g.metaPage.trans h.metaPage,
    fun p x => g.readable p (h.readable p x), g.vol.trans h.vol, fun x => g.io (h.io x)⟩

theorem Wrote.body {pid : PageId} {body : Body} (h : Wrote pid body s s') :
    (s'.view pid).body = body := by
  have := congrFun h.bodies pid
  simpa [Store.bodies] using this

theorem same_putPage (s : Store) (pid : PageId) (p : Page) (body : p.body = (s.view pid).body)
    (acc : (s.view pid).Accounted → p.Accounted) : Same s (s.putPage pid p) := by
  refine ⟨?_, ?_, rfl, fun _ h => h, rfl, id⟩
  · funext q
    by_cases h : q = pid
    · subst h
      simpa [Store.bodies] using body
    · simp [Store.bodies, h]
  · intro q
    by_cases h : q = pid
    · subst h
      simpa using acc
    · simp [h]

theorem same_stamp (s : Store) (pid : PageId) (lsn : Lsn) :
    Same s (s.putPage pid ((s.view pid).stamp lsn)) :=
  s.same_putPage pid _ rfl (Page.stamp_accounted _ lsn).mpr

theorem same_dirtied (s : Store) (pid : PageId) : Same s (s.dirtied pid) := by
  refine ⟨?_, ?_, rfl, fun _ h => h, rfl, id⟩
  · funext q
    simp [Store.bodies]
  · intro q
    simp

theorem same_wal (s : Store) (w : Option LogWriter) : Same s { s with wal := w } :=
  ⟨rfl, fun _ h => h, rfl, fun _ h => h, rfl, id⟩

end Store

open Store

variable {s s' : Store}

theorem ioPoint_same {u : Unit} (h : ioPoint s = .ok u s') : Same s s' ∧ s'.disk = s.disk := by
  unfold ioPoint at h
  split at h
  · cases h
    exact ⟨Same.refl _, rfl⟩
  · rename_i rest io
    cases h
    exact ⟨⟨rfl, fun _ h => h, rfl, fun _ h => h, rfl, fun x => by simp [x] at io⟩, rfl⟩
  · cases h

theorem ioPoint_nil (h : s.io = []) : ioPoint s = .ok () s := by
  simp [ioPoint, h]

theorem readPage_ok {pid : PageId} {p : Page} (h : readPage pid s = .ok p s') :
    s.disk pid = some p ∧ Same s s' ∧ s'.view = s.view := by
  simp only [readPage, bind_ok, get_run, failIf_ok] at h
  obtain ⟨_, _, ⟨rfl, rfl⟩, _, _, ⟨-, rfl⟩, _, _, ⟨-, rfl⟩, _, t, io, h⟩ := h
  obtain ⟨same, -⟩ := ioPoint_same io
  have view : t.view = s.view := by
    unfold ioPoint at io
    split at io <;> cases io <;> rfl
  cases disk : s.disk pid with
  | none =>
    simp only [disk] at h
    cases h
  | some q =>
    simp only [disk, pure_ok] at h
    obtain ⟨rfl, rfl⟩ := h
    exact ⟨rfl, same, view⟩

theorem fetchPage_same {pid : PageId} {u : Unit} (h : fetchPage pid s = .ok u s') : Same s s' := by
  simp only [fetchPage, bind_ok, get_run] at h
  obtain ⟨_, _, ⟨rfl, rfl⟩, h⟩ := h
  cases hit : s.cache pid with
  | some f =>
    simp only [hit, pure_ok] at h
    exact h.2 ▸ Same.refl s
  | none =>
    simp only [hit, bind_ok, modify_run] at h
    obtain ⟨_, t, io, page, t', read, eq⟩ := h
    obtain ⟨disk, same', view⟩ := readPage_ok read
    obtain ⟨same, diskEq⟩ := ioPoint_same io
    have cache : t.cache = s.cache := by
      unfold ioPoint at io
      split at io <;> cases io <;> rfl
    cases eq
    refine (same.trans same').trans ?_
    -- the frame holds what the view read from the file
    have loaded : ∀ q, (t'.setFrame pid ⟨page, false⟩).view q = t'.view q := by
      intro q
      rw [view_setFrame]
      split
      · rename_i e
        rw [e, congrFun view pid, Store.view, cache, hit, disk]
        rfl
      · rfl
    exact ⟨funext fun q => by simp only [Store.bodies, loaded], fun q => by rw [loaded]; exact id,
      rfl, fun _ h => h, rfl, id⟩

theorem fetchPage_succeeds {pid : PageId} (io : s.io = []) (lo : kFirstDataPage ≤ pid)
    (hi : pid < s.metaPage.numPages) (readable : (s.disk pid).isSome) :
    ∃ s', fetchPage pid s = .ok () s' := by
  obtain ⟨page, disk⟩ := Option.isSome_iff_exists.mp readable
  unfold fetchPage
  rw [bind_of_ok get_run]
  cases s.cache pid with
  | some f => exact ⟨s, rfl⟩
  | none =>
    have read : readPage pid s = .ok page s := by
      unfold readPage
      rw [bind_of_ok get_run, bind_of_ok (failIf_of_not (not_lt.mpr lo)),
        bind_of_ok (failIf_of_not (not_le.mpr hi)), bind_of_ok (ioPoint_nil io), disk]
      rfl
    refine ⟨s.setFrame pid ⟨page, false⟩, ?_⟩
    change (ioPoint >>= fun _ => readPage pid >>= fun page =>
      modify fun s => s.setFrame pid ⟨page, false⟩) s = _
    rw [bind_of_ok (ioPoint_nil io), bind_of_ok read]
    rfl

/-- A fresh page of a database that never freed one extends the file. -/
structure Grew (pid : PageId) (s s' : Store) : Prop where
  fresh : pid = s.metaPage.numPages
  below : pid < kInvalidPageId
  bodies : s'.bodies = Function.update s.bodies pid .blank
  accounted : ∀ p, p ≠ pid → (s.view p).Accounted → (s'.view p).Accounted
  metaPage : s'.metaPage = { s.metaPage with numPages := pid + 1 }
  readable : ∀ p, (s.disk p).isSome ∨ p = pid → (s'.disk p).isSome
  vol : s'.vol = s.vol

theorem newPage_grew {pid : PageId} (free : s.metaPage.freeListHead = kInvalidPageId)
    (h : newPage s = .ok pid s') : Grew pid s s' := by
  simp only [newPage, bind_ok, modify_run] at h
  obtain ⟨_, t, io, q, t', alloc, _, t'', mod, ret⟩ := h
  obtain ⟨rfl, rfl⟩ := pure_ok.mp ret
  cases mod
  obtain ⟨same, -⟩ := ioPoint_same io
  simp only [allocatePage, bind_ok, get_run] at alloc
  obtain ⟨_, _, ⟨rfl, rfl⟩, alloc⟩ := alloc
  have free' : t.metaPage.freeListHead = kInvalidPageId := same.metaPage ▸ free
  simp only [free', ne_eq, not_true, if_false, bind_ok, failIf_ok, modify_run, pure_ok] at alloc
  obtain ⟨_, u, io', _, _, ⟨room, rfl⟩, _, v, grown, rfl, rfl⟩ := alloc
  obtain ⟨same', -⟩ := ioPoint_same io'
  cases grown
  have both := same.trans same'
  have num : t.metaPage.numPages = s.metaPage.numPages := by rw [same.metaPage]
  refine ⟨num, (not_le.mp room).trans_le t.vol.limit, ?_, ?_, ?_, ?_, both.vol⟩
  · funext q
    by_cases h : q = t.metaPage.numPages
    · subst h
      simp [Store.bodies, view_setFrame, Page.zeroed]
    · rw [Function.update_of_ne h, ← both.bodies]
      simp [Store.bodies, Store.view, Store.setFrame, Store.setDisk, h]
  · intro q h acc
    have := both.accounted q acc
    simpa [Store.view, Store.setFrame, Store.setDisk, h] using this
  · simp [Store.setFrame, Store.setDisk, both.metaPage]
  · intro q h
    by_cases e : q = t.metaPage.numPages
    · simp [Store.setFrame, Store.setDisk, e]
    · simpa [Store.setFrame, Store.setDisk, e] using both.readable q (h.resolve_right e)

/- Logging. -/

theorem appendRecord_same {txid : TxId} {opEnd : Bool} {body : LogBody} {r : Option Lsn}
    (h : appendRecord txid opEnd body s = .ok r s') : Same s s' := by
  simp only [appendRecord, bind_ok, get_run] at h
  obtain ⟨_, _, ⟨rfl, rfl⟩, h⟩ := h
  cases w : s.wal with
  | none =>
    simp only [w, pure_ok] at h
    exact h.2 ▸ Same.refl s
  | some w' =>
    simp only [w, bind_ok, modify_run] at h
    obtain ⟨_, t, eq, ret⟩ := h
    cases eq
    obtain ⟨-, rfl⟩ := pure_ok.mp ret
    exact same_wal s _

theorem logPageEvent_same {txid : TxId} {opEnd : Bool} {body : LogBody} {u : Unit}
    (h : logPageEvent body txid opEnd s = .ok u s') : Same s s' := by
  simp only [logPageEvent, bind_ok] at h
  obtain ⟨_, t, append, ret⟩ := h
  obtain ⟨-, rfl⟩ := pure_ok.mp ret
  exact appendRecord_same append

theorem logPageImage_same {pid : PageId} {txid : TxId} {opEnd : Bool} {u : Unit}
    (h : logPageImage pid txid opEnd s = .ok u s') : Same s s' := by
  simp only [logPageImage, bind_ok, get_run, markDirty_run] at h
  obtain ⟨_, _, dirty, _, _, ⟨rfl, rfl⟩, h⟩ := h
  cases dirty
  refine (same_dirtied s pid).trans ?_
  cases w : (s.dirtied pid).wal with
  | none =>
    simp only [w, pure_ok] at h
    exact h.2 ▸ Same.refl _
  | some w' =>
    simp only [w, bind_ok, getPage_run, setPage_run, modify_run] at h
    obtain ⟨_, _, ⟨rfl, rfl⟩, _, _, put, eq⟩ := h
    cases put
    cases eq
    exact (same_stamp _ pid w'.endLsn).trans (same_wal _ _)

theorem logDelta_same {body : LogBody} {txid : TxId} {pid : PageId} {opEnd : Bool} {u : Unit}
    (h : logDelta body txid pid opEnd s = .ok u s') : Same s s' := by
  simp only [logDelta, bind_ok] at h
  obtain ⟨r, t, append, h⟩ := h
  refine (appendRecord_same append).trans ?_
  cases r with
  | none => exact (pure_ok.mp h).2 ▸ Same.refl _
  | some lsn =>
    simp only [bind_ok, getPage_run, setPage_run] at h
    obtain ⟨_, _, ⟨rfl, rfl⟩, put⟩ := h
    cases put
    exact same_stamp _ pid lsn

theorem logKeyRecord_same {body : LogBody} {txid : TxId} {pid : PageId} {opEnd needsUndo : Bool}
    {u : Unit} (h : logKeyRecord body txid pid opEnd needsUndo s = .ok u s') : Same s s' := by
  simp only [logKeyRecord, bind_ok, get_run, markDirty_run] at h
  obtain ⟨_, _, dirty, _, _, ⟨rfl, rfl⟩, h⟩ := h
  cases dirty
  refine (same_dirtied s pid).trans ?_
  cases w : (s.dirtied pid).wal with
  | none =>
    simp only [w, pure_ok] at h
    exact h.2 ▸ Same.refl _
  | some w' =>
    simp only [w] at h
    split at h
    · obtain ⟨_, t, image, h⟩ := bind_ok.mp h
      refine (logPageImage_same image).trans ?_
      split at h
      · exact logDelta_same h
      · exact (pure_ok.mp h).2 ▸ Same.refl _
    · exact logDelta_same h

/- Appending to the log cannot fail. -/

theorem appendRecord_succeeds (s : Store) (txid : TxId) (opEnd : Bool) (body : LogBody) :
    ∃ r s', appendRecord txid opEnd body s = .ok r s' := by
  unfold appendRecord
  rw [bind_of_ok get_run]
  cases s.wal with
  | none => exact ⟨_, _, rfl⟩
  | some w => exact ⟨_, _, rfl⟩

theorem logPageImage_succeeds (s : Store) (pid : PageId) (txid : TxId) (opEnd : Bool) :
    ∃ s', logPageImage pid txid opEnd s = .ok () s' := by
  unfold logPageImage
  rw [bind_of_ok (markDirty_run pid), bind_of_ok get_run]
  cases (s.dirtied pid).wal with
  | none => exact ⟨_, rfl⟩
  | some w => exact ⟨_, rfl⟩

theorem logDelta_succeeds (s : Store) (body : LogBody) (txid : TxId) (pid : PageId) (opEnd : Bool) :
    ∃ s', logDelta body txid pid opEnd s = .ok () s' := by
  obtain ⟨r, t, append⟩ := appendRecord_succeeds s txid opEnd body
  unfold logDelta
  rw [bind_of_ok append]
  cases r with
  | none => exact ⟨_, rfl⟩
  | some lsn => exact ⟨_, rfl⟩

theorem logKeyRecord_succeeds (s : Store) (body : LogBody) (txid : TxId) (pid : PageId)
    (opEnd needsUndo : Bool) : ∃ s', logKeyRecord body txid pid opEnd needsUndo s = .ok () s' := by
  unfold logKeyRecord
  rw [bind_of_ok (markDirty_run pid), bind_of_ok get_run]
  cases (s.dirtied pid).wal with
  | none => exact ⟨_, rfl⟩
  | some w =>
    by_cases image : w.needsImage pid = true
    · obtain ⟨t, run⟩ := logPageImage_succeeds (s.dirtied pid) pid txid (opEnd && !needsUndo)
      simp only [image, if_true]
      rw [bind_of_ok run]
      cases needsUndo with
      | true => exact logDelta_succeeds t body txid pid opEnd
      | false => exact ⟨_, rfl⟩
    · simp only [image, if_false, Bool.false_eq_true]
      exact logDelta_succeeds _ body txid pid opEnd

end PagerDB

import PagerDB.BTree.Cursor
import PagerDB.BTree.Ops

/-! Get, Contains and Delete against the entries a store represents. A fault can make
them fail but never makes them report an absent key. -/
namespace PagerDB

open Store

variable {s s' : Store} {h : Nat} {key : Bytes} {entries : List (Bytes × Bytes)} {e : Failure}

theorem fault_foreign (f : Fault) : isNotFound (.status f.status) = false := by
  cases f <;> rfl

theorem ioPoint_error (h : ioPoint s = .error e s') : isNotFound e = false := by
  unfold ioPoint at h
  split at h
  · cases h
  · cases h
  · cases h
    exact fault_foreign _

theorem readPage_error {pid : PageId} (h : readPage pid s = .error e s') : isNotFound e = false := by
  simp only [readPage, bind_error, get_run, failIf_ok, failIf_error, reduceCtorEq, false_or] at h
  obtain ⟨_, _, got, h⟩ := h
  cases got
  rcases h with ⟨-, rfl, -⟩ | ⟨_, _, ⟨-, rfl⟩, h⟩
  · rfl
  rcases h with ⟨-, rfl, -⟩ | ⟨_, _, ⟨-, rfl⟩, h⟩
  · rfl
  rcases h with h | ⟨_, t, -, h⟩
  · exact ioPoint_error h
  · cases disk : s.disk pid with
    | some p =>
      simp only [disk] at h
      cases h
    | none =>
      simp only [disk, fail_run] at h
      cases h
      rfl

theorem fetchPage_error {pid : PageId} (h : fetchPage pid s = .error e s') : isNotFound e = false := by
  simp only [fetchPage, bind_error, get_run, reduceCtorEq, false_or] at h
  obtain ⟨_, _, got, h⟩ := h
  cases got
  cases hit : s.cache pid with
  | some f =>
    simp only [hit] at h
    cases h
  | none =>
    simp only [hit, bind_error, modify_run, reduceCtorEq, and_false, exists_false, or_false] at h
    rcases h with h | ⟨_, t, -, h⟩
    · exact ioPoint_error h
    · exact readPage_error h

theorem descend_error {fuel : Nat} {pid : PageId} (h : descend key fuel pid s = .error e s') :
    isNotFound e = false := by
  induction fuel generalizing s pid with
  | zero =>
    cases h
    rfl
  | succ fuel ih =>
    simp only [descend, bind_error, getPage_run, reduceCtorEq, false_or] at h
    rcases h with h | ⟨_, t, -, page, u, got, h⟩
    · exact fetchPage_error h
    cases got
    split at h
    · cases h
    · simp only [bind_error, failIf_error] at h
      rcases h with ⟨-, rfl, -⟩ | ⟨_, _, -, h⟩
      · rfl
      · exact ih h

theorem findLeaf_error (h : findLeaf key s = .error e s') : isNotFound e = false := by
  simp only [findLeaf, bind_error, get_run, reduceCtorEq, false_or] at h
  obtain ⟨_, _, got, h⟩ := h
  cases got
  exact descend_error h

theorem findLeaf_cases (tree : Tree s h) (sound : Sound s) (key : Bytes) :
    (∃ pre x post prev next recs s', findLeaf key s = .ok x.2 s' ∧ Same s s' ∧
      Reached s' h key pre x post prev next recs) ∨
    ∃ e s', findLeaf key s = .error e s' ∧ isNotFound e = false ∧ s.io ≠ [] := by
  generalize run : findLeaf key s = out
  cases out with
  | ok leaf t =>
    obtain ⟨same, pre, x, post, loc, rfl⟩ := findLeaf_ok tree run
    obtain ⟨prev, next, recs, reached⟩ := tree.reached loc
    exact .inl ⟨pre, x, post, prev, next, recs, t, rfl, same, reached.same same⟩
  | error e t =>
    refine .inr ⟨e, t, rfl, findLeaf_error run, fun io => ?_⟩
    obtain ⟨leaf, u, ok⟩ : ∃ leaf u, findLeaf key s = .ok leaf u := findLeaf_succeeds tree sound io
    cases run.symm.trans ok

theorem Represents.grown (rep : Represents s entries) (root : s.metaPage.rootPageId ≠ kInvalidPageId) :
    ∃ h, Tree s h ∧ contents s.bodies (s.leaves h) = entries := by
  rcases rep.tree with ⟨none, -⟩ | grown
  · exact absurd none root
  · exact grown

theorem Represents.empty (rep : Represents s entries) (root : s.metaPage.rootPageId = kInvalidPageId) :
    entries = [] := by
  rcases rep.tree with ⟨-, nil⟩ | ⟨h, tree, -⟩
  · exact nil
  · exact absurd root (tree.root_ne rep.sound)

theorem contents_same (same : Same s s') :
    contents s'.bodies (s'.leaves h) = contents s.bodies (s.leaves h) := by
  rw [Store.leaves, Store.leaves, Store.top, Store.top, same.bodies, same.metaPage]

/-- What a read leaves as it was: every page, the meta page and the log. -/
structure Untouched (s s' : Store) : Prop where
  view : s'.view = s.view
  metaPage : s'.metaPage = s.metaPage
  wal : s'.wal = s.wal

theorem Untouched.refl (s : Store) : Untouched s s := ⟨rfl, rfl, rfl⟩

theorem Untouched.trans {a b c : Store} (h : Untouched a b) (g : Untouched b c) : Untouched a c :=
  ⟨g.view.trans h.view, g.metaPage.trans h.metaPage, g.wal.trans h.wal⟩

theorem ioPoint_untouched {u : Unit} (run : ioPoint s = .ok u s') :
    Untouched s s' ∧ s'.cache = s.cache := by
  unfold ioPoint at run
  split at run <;> cases run <;> exact ⟨⟨rfl, rfl, rfl⟩, rfl⟩

theorem readPage_untouched {pid : PageId} {p : Page} (run : readPage pid s = .ok p s') :
    Untouched s s' := by
  simp only [readPage, bind_ok, get_run, failIf_ok] at run
  obtain ⟨_, _, ⟨rfl, rfl⟩, _, _, ⟨-, rfl⟩, _, _, ⟨-, rfl⟩, _, t, io, run⟩ := run
  refine (ioPoint_untouched io).1.trans ?_
  cases disk : s.disk pid with
  | none =>
    simp only [disk] at run
    cases run
  | some q =>
    simp only [disk, pure_ok] at run
    exact run.2 ▸ Untouched.refl t

theorem fetchPage_untouched {pid : PageId} {u : Unit} (run : fetchPage pid s = .ok u s') :
    Untouched s s' := by
  simp only [fetchPage, bind_ok, get_run] at run
  obtain ⟨_, _, ⟨rfl, rfl⟩, run⟩ := run
  cases hit : s.cache pid with
  | some f =>
    simp only [hit, pure_ok] at run
    exact run.2 ▸ Untouched.refl s
  | none =>
    simp only [hit, bind_ok, modify_run] at run
    obtain ⟨_, t, io, page, t', read, eq⟩ := run
    cases eq
    obtain ⟨same, cache⟩ := ioPoint_untouched io
    obtain ⟨disk, -, view⟩ := readPage_ok read
    refine (same.trans (readPage_untouched read)).trans ⟨?_, rfl, rfl⟩
    funext q
    rw [view_setFrame]
    split
    · rename_i e
      rw [e, congrFun view pid, Store.view, cache, hit, disk]
      rfl
    · rfl

theorem descend_untouched {fuel : Nat} {pid leaf : PageId}
    (run : descend key fuel pid s = .ok leaf s') : Untouched s s' := by
  induction fuel generalizing s pid with
  | zero => cases run
  | succ fuel ih =>
    simp only [descend, bind_ok, getPage_run] at run
    obtain ⟨_, t, fetch, _, _, ⟨rfl, rfl⟩, run⟩ := run
    refine (fetchPage_untouched fetch).trans ?_
    split at run
    · exact (pure_ok.mp run).2 ▸ Untouched.refl t
    · simp only [bind_ok, failIf_ok] at run
      obtain ⟨_, _, ⟨-, rfl⟩, run⟩ := run
      exact ih run

theorem findLeaf_untouched {leaf : PageId} (run : findLeaf key s = .ok leaf s') :
    Untouched s s' := by
  simp only [findLeaf, bind_ok, get_run] at run
  obtain ⟨_, _, ⟨rfl, rfl⟩, run⟩ := run
  exact descend_untouched run

inductive Answer (s : Store) (found : Option Bytes) : EStateM.Result Failure Store Bytes → Prop where
  | value {v : Bytes} {t : Store} : found = some v → Same s t → Answer s found (.ok v t)
  | absent {m : String} {t : Store} : found = none → Same s t →
      Answer s found (.error (.status (.NotFound m)) t)
  | fault {e : Failure} {t : Store} : isNotFound e = false → s.io ≠ [] → Answer s found (.error e t)

theorem treeGet_answer (rep : Represents s entries) (key : Bytes) :
    Answer s (entries.lookup key) (treeGet key s) := by
  unfold treeGet
  rw [bind_of_ok isEmpty_run]
  by_cases root : s.metaPage.rootPageId = kInvalidPageId
  · rw [bind_of_error (failIf_of (by simpa using root)), rep.empty root]
    exact .absent rfl (Same.refl s)
  · rw [bind_of_ok (failIf_of_not (by simpa using root))]
    obtain ⟨h, tree, eq⟩ := rep.grown root
    rcases findLeaf_cases tree rep.sound key with
      ⟨pre, x, post, prev, next, recs, t, run, same, reached⟩ | ⟨e, t, run, foreign, io⟩
    · rw [bind_of_ok run, bind_of_ok (getPage_run _), Page.getValue_leaf reached.body reached.asc,
        ← reached.lookup (tree.same same), contents_same same, eq]
      cases look : entries.lookup key with
      | none => exact .absent rfl same
      | some v => exact .value rfl same
    · rw [bind_of_error run]
      exact .fault foreign io

inductive Removal (s : Store) (key : Bytes) (wantBefore : Bool) (entries : List (Bytes × Bytes)) :
    EStateM.Result Failure Store (Option Bytes) → Prop where
  | removed {old : Bytes} {t : Store} {entries' : List (Bytes × Bytes)} :
      entries.lookup key = some old → Represents t entries' → Erased key entries entries' →
      Removal s key wantBefore entries (.ok (if wantBefore then some old else none) t)
  | absent {m : String} {t : Store} : entries.lookup key = none → Same s t → Untouched s t →
      Removal s key wantBefore entries (.error (.status (.NotFound m)) t)
  | fault {e : Failure} {t : Store} : isNotFound e = false → s.io ≠ [] →
      Removal s key wantBefore entries (.error e t)

theorem treeDelete_removal (rep : Represents s entries) (key : Bytes) (txid : TxId)
    (wantBefore : Bool) :
    Removal s key wantBefore entries (treeDelete key txid wantBefore s) := by
  unfold treeDelete
  rw [bind_of_ok isEmpty_run]
  by_cases root : s.metaPage.rootPageId = kInvalidPageId
  · rw [bind_of_error (failIf_of (by simpa using root)), rep.empty root]
    exact .absent rfl (Same.refl s) (Untouched.refl s)
  · rw [bind_of_ok (failIf_of_not (by simpa using root))]
    obtain ⟨h, tree, eq⟩ := rep.grown root
    rcases findLeaf_cases tree rep.sound key with
      ⟨pre, x, post, prev, next, recs, t, run, same, reached⟩ | ⟨e, t, run, foreign, io⟩
    · rw [bind_of_ok run]
      have rep' := rep.same same
      have spec := deleteAtLeaf_spec txid wantBefore reached
        (tree.same same) rep'.sound ((contents_same same).trans eq) rep'.count
      cases look : entries.lookup key with
      | none =>
        simp only [look] at spec
        rw [spec]
        exact .absent look same (findLeaf_untouched run)
      | some old =>
        simp only [look] at spec
        obtain ⟨u, entries', after, erased, run'⟩ := spec
        rw [run']
        exact .removed look after erased
    · rw [bind_of_error run]
      exact .fault foreign io

end PagerDB

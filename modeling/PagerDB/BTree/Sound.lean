import Mathlib.Data.List.Perm.Subperm
import PagerDB.BTree.Propagate

/-! The invariant of a stored tree and what it says to a descent: the leaf it reaches
is the only one that can hold the key. -/
namespace PagerDB

open SortedLib Store

abbrev Store.top (s : Store) : List Link := [([], s.metaPage.rootPageId)]

abbrev Store.leaves (s : Store) (h : Nat) : List Link := leavesOf s.bodies h s.top

/-- A tree of `h + 1` levels hangs below the root. -/
structure Tree (s : Store) (h : Nat) : Prop where
  inner : Inner s.bodies h s.top
  nodup : (idsOf s.bodies h s.top).Nodup
  range : ∀ i ∈ idsOf s.bodies h s.top, kFirstDataPage ≤ i ∧ i < s.metaPage.numPages
  row : LeafRow s.bodies (s.leaves h)
  accounted : ∀ l ∈ s.leaves h, (s.view l.2).Accounted

/-- The file: nothing was ever freed and every page can be read. -/
structure Sound (s : Store) : Prop where
  free : s.metaPage.freeListHead = kInvalidPageId
  first : kFirstDataPage ≤ s.metaPage.numPages
  limit : s.metaPage.numPages ≤ kInvalidPageId
  readable : ∀ p, kFirstDataPage ≤ p → p < s.metaPage.numPages → (s.disk p).isSome

structure Represents (s : Store) (entries : List (Bytes × Bytes)) : Prop where
  sound : Sound s
  count : s.metaPage.numKeys = entries.length
  tree : s.metaPage.rootPageId = kInvalidPageId ∧ entries = [] ∨
    ∃ h, Tree s h ∧ contents s.bodies (s.leaves h) = entries

section

variable {s s' : Store} {h : Nat} {key : Bytes} {entries : List (Bytes × Bytes)}

theorem Sound.alike (sound : Sound s) (alike : Alike s s') : Sound s' where
  free := by rw [alike.free]; exact sound.free
  first := by rw [alike.pages]; exact sound.first
  limit := by rw [alike.pages]; exact sound.limit
  readable p lo hi := alike.readable p (sound.readable p lo (by rw [← alike.pages]; exact hi))

theorem Tree.alike (tree : Tree s h) (alike : Alike s s') : Tree s' h := by
  obtain ⟨inner, nodup, range, row, accounted⟩ := tree
  have top : s'.top = s.top := by rw [Store.top, Store.top, alike.root]
  refine ⟨?_, ?_, ?_, ?_, ?_⟩
  · rwa [alike.bodies, top]
  · rwa [alike.bodies, top]
  · rw [alike.bodies, top, alike.pages]
    exact range
  · rwa [Store.leaves, alike.bodies, top]
  · rw [Store.leaves, alike.bodies, top]
    exact fun l hl => alike.accounted _ (accounted l hl)

theorem Represents.alike (rep : Represents s entries) (alike : Alike s s') : Represents s' entries where
  sound := rep.sound.alike alike
  count := by rw [alike.keys]; exact rep.count
  tree := by
    rcases rep.tree with ⟨root, nil⟩ | ⟨h, tree, eq⟩
    · exact .inl ⟨by rw [alike.root]; exact root, nil⟩
    · refine .inr ⟨h, tree.alike alike, ?_⟩
      rw [← eq, Store.leaves, Store.leaves, Store.top, Store.top, alike.bodies, alike.root]

theorem Sound.same (sound : Sound s) (same : Same s s') : Sound s' := sound.alike same.alike

theorem Tree.same (tree : Tree s h) (same : Same s s') : Tree s' h := tree.alike same.alike

theorem Represents.same (rep : Represents s entries) (same : Same s s') : Represents s' entries :=
  rep.alike same.alike

theorem Represents.asc (rep : Represents s entries) : (entries.map Prod.fst).Pairwise (· < ·) := by
  rcases rep.tree with ⟨-, rfl⟩ | ⟨h, tree, rfl⟩
  · exact List.Pairwise.nil
  · exact tree.row.contents_asc

theorem Tree.root_mem (s : Store) (h : Nat) : s.metaPage.rootPageId ∈ idsOf s.bodies h s.top := by
  cases h with
  | zero => simp [idsOf, innerIds, leavesOf]
  | succ h => simp [idsOf, innerIds]

theorem Tree.root_ne (tree : Tree s h) (sound : Sound s) : s.metaPage.rootPageId ≠ kInvalidPageId :=
  ((tree.range _ (Tree.root_mem s h)).2.trans_le sound.limit).ne

theorem Tree.height_lt (tree : Tree s h) : h < s.metaPage.numPages := by
  have some := height_lt_ids tree.inner (by simp)
  have sub : idsOf s.bodies h s.top ⊆ List.range s.metaPage.numPages := by
    intro i hi
    exact List.mem_range.mpr (tree.range i hi).2
  have := (List.subperm_of_subset tree.nodup sub).length_le
  rw [List.length_range] at this
  exact some.trans_le this

theorem leaf_mem_ids {bd : Bodies} {links : List Link} {l : Link} (hl : l ∈ leavesOf bd h links) :
    l.2 ∈ idsOf bd h links :=
  List.mem_append_right _ (List.mem_map_of_mem hl)

theorem LeafRow.isLeaf {bd : Bodies} {row : List Link} (lr : LeafRow bd row) {l : Link} (hl : l ∈ row) :
    ∃ prev next recs, bd l.2 = .leaf prev next recs :=
  linked_leaf lr.linked (List.mem_map_of_mem hl)

/- Descents. -/

structure Below (s : Store) (h : Nat) (links : List Link) : Prop where
  inner : Inner s.bodies h links
  asc : Asc (leavesOf s.bodies h links)
  leaf : ∀ l ∈ leavesOf s.bodies h links, ∃ prev next recs, s.bodies l.2 = .leaf prev next recs
  range : ∀ i ∈ idsOf s.bodies h links, kFirstDataPage ≤ i ∧ i < s.metaPage.numPages

theorem Tree.below (tree : Tree s h) : Below s h s.top :=
  ⟨tree.inner, tree.row.asc, fun _ hl => tree.row.isLeaf hl, tree.range⟩

theorem Below.child {links : List Link} (below : Below s (h + 1) links) :
    Below s h (expand s.bodies links) :=
  ⟨below.inner.2, below.asc, below.leaf, fun i hi => below.range i (by
    simp only [idsOf, innerIds, List.append_assoc]
    exact List.mem_append_right _ hi)⟩

theorem Below.same {links : List Link} (below : Below s h links) (same : Same s s') :
    Below s' h links := by
  obtain ⟨inner, asc, leaf, range⟩ := below
  constructor
  all_goals rw [same.bodies]
  all_goals try rw [same.metaPage]
  all_goals assumption

theorem Below.mem {links : List Link} (below : Below s h links) {l : Link} (hl : l ∈ links) :
    kFirstDataPage ≤ l.2 ∧ l.2 < s.metaPage.numPages := by
  refine below.range l.2 ?_
  cases h with
  | zero => exact leaf_mem_ids hl
  | succ h => exact List.mem_append_left _ (List.mem_append_left _ (List.mem_map_of_mem hl))

theorem isLeaf_of_body {p : Page} {prev next : PageId} {recs : List (Bytes × Bytes)}
    (body : p.body = .leaf prev next recs) : p.isLeaf = true := by
  simp [Page.isLeaf, body]

theorem not_isLeaf_of_body {p : Page} {r : PageId} {es : List (Bytes × PageId)}
    (body : p.body = .internal r es) : p.isLeaf = false := by
  simp [Page.isLeaf, body]

theorem descend_ok {fuel : Nat} {links pre post : List Link} {x : Link} {leaf : PageId}
    (loc : Located links key pre x post) (below : Below s h links)
    (run : descend key fuel x.2 s = .ok leaf s') :
    Same s s' ∧ ∃ pre' y post', Located (leavesOf s.bodies h links) key pre' y post' ∧ y.2 = leaf := by
  induction h generalizing s fuel links pre x post with
  | zero =>
    cases fuel with
    | zero => cases run
    | succ fuel =>
      simp only [descend, bind_ok, getPage_run] at run
      obtain ⟨_, t, fetch, _, _, ⟨rfl, rfl⟩, run⟩ := run
      have same := fetchPage_same fetch
      obtain ⟨prev, next, recs, body⟩ := below.leaf x (by simp [leavesOf, loc.eq])
      rw [← same.bodies] at body
      rw [if_pos (isLeaf_of_body body)] at run
      obtain ⟨rfl, rfl⟩ := pure_ok.mp run
      exact ⟨same, pre, x, post, loc, rfl⟩
  | succ h ih =>
    cases fuel with
    | zero => cases run
    | succ fuel =>
      simp only [descend, bind_ok, getPage_run] at run
      obtain ⟨_, t, fetch, _, _, ⟨rfl, rfl⟩, run⟩ := run
      have same := fetchPage_same fetch
      have expandAsc := asc_of_leaves below.inner.2 below.asc
      obtain ⟨r, es, spre, y, spost, body, children, loc', find⟩ := loc.child below.inner.1 expandAsc
      have body' : (t.view x.2).body = s.bodies x.2 := congrFun same.bodies x.2
      rw [if_neg (by simp [not_isLeaf_of_body (body'.trans body)])] at run
      simp only [bind_ok, failIf_ok, find _ body'] at run
      obtain ⟨_, _, ⟨-, rfl⟩, run⟩ := run
      obtain ⟨same', pre', z, post', loc'', eq⟩ := ih loc' (below.child.same same) run
      rw [same.bodies] at loc''
      exact ⟨same.trans same', pre', z, post', loc'', eq⟩

theorem descend_succeeds {fuel : Nat} {links pre post : List Link} {x : Link} (sound : Sound s)
    (io : s.io = []) (loc : Located links key pre x post) (below : Below s h links)
    (enough : h < fuel) : ∃ leaf s', descend key fuel x.2 s = .ok leaf s' := by
  induction h generalizing s fuel links pre x post with
  | zero =>
    cases fuel with
    | zero => cases enough
    | succ fuel =>
      have mem : x ∈ links := by simp [loc.eq]
      obtain ⟨lo, hi⟩ := below.mem mem
      obtain ⟨t, fetch⟩ := fetchPage_succeeds io lo hi (sound.readable _ lo hi)
      have same := fetchPage_same fetch
      obtain ⟨prev, next, recs, body⟩ := below.leaf x (by simp [leavesOf, loc.eq])
      rw [← same.bodies] at body
      refine ⟨x.2, t, ?_⟩
      rw [descend, bind_of_ok fetch, bind_of_ok (getPage_run _), if_pos (isLeaf_of_body body)]
      rfl
  | succ h ih =>
    cases fuel with
    | zero => cases enough
    | succ fuel =>
      have mem : x ∈ links := by simp [loc.eq]
      obtain ⟨lo, hi⟩ := below.mem mem
      obtain ⟨t, fetch⟩ := fetchPage_succeeds io lo hi (sound.readable _ lo hi)
      have same := fetchPage_same fetch
      have expandAsc := asc_of_leaves below.inner.2 below.asc
      obtain ⟨r, es, spre, y, spost, body, children, loc', find⟩ := loc.child below.inner.1 expandAsc
      have body' : (t.view x.2).body = s.bodies x.2 := congrFun same.bodies x.2
      have child := find _ body'
      have valid : (t.view x.2).findChild key ≠ kInvalidPageId := by
        have := (below.child.mem (l := y) (by simp [loc'.eq])).2
        exact child ▸ (this.trans_le sound.limit).ne
      obtain ⟨leaf, s', run⟩ := ih (sound.same same) (same.io io) loc' (below.child.same same)
        (Nat.lt_of_succ_lt_succ enough)
      refine ⟨leaf, s', ?_⟩
      rw [descend, bind_of_ok fetch, bind_of_ok (getPage_run _),
        if_neg (by simp [not_isLeaf_of_body (body'.trans body)])]
      refine (bind_of_ok (failIf_of_not valid)).trans ?_
      rw [child]
      exact run

theorem Tree.located (s : Store) (key : Bytes) :
    Located s.top key [] ([], s.metaPage.rootPageId) [] :=
  ⟨rfl, nil_le_bytes key, by simp⟩

theorem findLeaf_ok {leaf : PageId} (tree : Tree s h) (run : findLeaf key s = .ok leaf s') :
    Same s s' ∧ ∃ pre x post, Located (s.leaves h) key pre x post ∧ x.2 = leaf := by
  simp only [findLeaf, bind_ok, get_run] at run
  obtain ⟨_, _, ⟨rfl, rfl⟩, run⟩ := run
  exact descend_ok (Tree.located s key) tree.below run

theorem findLeaf_succeeds (tree : Tree s h) (sound : Sound s) (io : s.io = []) :
    ∃ leaf s', findLeaf key s = .ok leaf s' :=
  descend_succeeds sound io (Tree.located s key) tree.below (Nat.lt_succ_of_lt tree.height_lt)

theorem descendPath_ok {fuel : Nat} {pre post : List Link} {x : Link} {stack ancestors : List PageId}
    (climb : Climb s.bodies s.metaPage.rootPageId ancestors pre x post)
    (le : x.1 ≤ key) (lt : ∀ y ∈ post, key < y.1) (below : Below s h (pre ++ x :: post))
    (run : descendPath key fuel x.2 s = .ok stack s') :
    Same s s' ∧ ∃ path pre' y post', stack = path ++ [y.2] ∧ path.length = h ∧
      Climb s.bodies s.metaPage.rootPageId (path.reverse ++ ancestors) pre' y post' ∧
      Located (leavesOf s.bodies h (pre ++ x :: post)) key pre' y post' := by
  induction h generalizing s fuel pre x post stack ancestors with
  | zero =>
    cases fuel with
    | zero => cases run
    | succ fuel =>
      simp only [descendPath, bind_ok, getPage_run] at run
      obtain ⟨_, t, fetch, _, _, ⟨rfl, rfl⟩, run⟩ := run
      have same := fetchPage_same fetch
      obtain ⟨prev, next, recs, body⟩ := below.leaf x (by simp [leavesOf])
      rw [← same.bodies] at body
      rw [if_pos (isLeaf_of_body body)] at run
      obtain ⟨rfl, rfl⟩ := pure_ok.mp run
      exact ⟨same, [], pre, x, post, rfl, rfl, climb, rfl, le, lt⟩
  | succ h ih =>
    cases fuel with
    | zero => cases run
    | succ fuel =>
      simp only [descendPath, bind_ok, getPage_run] at run
      obtain ⟨_, t, fetch, _, _, ⟨rfl, rfl⟩, run⟩ := run
      have same := fetchPage_same fetch
      have expandAsc := asc_of_leaves below.inner.2 below.asc
      have loc : Located (pre ++ x :: post) key pre x post := ⟨rfl, le, lt⟩
      obtain ⟨r, es, spre, y, spost, body, children, loc', find⟩ := loc.child below.inner.1 expandAsc
      have body' : (t.view x.2).body = s.bodies x.2 := congrFun same.bodies x.2
      rw [if_neg (by simp [not_isLeaf_of_body (body'.trans body)])] at run
      simp only [bind_ok, failIf_ok, find _ body'] at run
      obtain ⟨_, _, ⟨-, rfl⟩, rest, t', run, ret⟩ := run
      obtain ⟨rfl, rfl⟩ := pure_ok.mp ret
      have level : expand s.bodies (pre ++ x :: post) =
          (expand s.bodies pre ++ spre) ++ y :: (spost ++ expand s.bodies post) := loc'.eq
      have climb' := Climb.down climb body children
      have below' := below.child.same same
      rw [level] at below'
      have eqBodies := same.bodies
      have eqPage := same.metaPage
      rw [← eqBodies, ← eqPage] at climb'
      obtain ⟨same', path, pre', z, post', rfl, len, climb'', loc''⟩ :=
        ih (by rw [eqBodies] at climb' ⊢; exact climb') loc'.le loc'.lt below' run
      rw [eqBodies, eqPage] at climb''
      rw [eqBodies, ← level] at loc''
      refine ⟨same.trans same', x.2 :: path, pre', z, post', rfl, by simp [len], ?_, loc''⟩
      simpa using climb''

end

end PagerDB

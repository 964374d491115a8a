import Mathlib.Data.List.Nodup
import PagerDB.BTree.OrderedMap

/-! The structural invariant as a reader of the file would check it: follow child
pointers from the root, and sibling pointers from the leftmost leaf. -/
namespace PagerDB

open MachineLib SortedLib Store

def children : Body → List PageId
  | .internal r es => es.map Prod.snd ++ [r]
  | _ => []

def keysOf : Body → List Bytes
  | .leaf _ _ recs => recs.map Prod.fst
  | .internal _ es => es.map Prod.fst
  | _ => []

def IsLeafBody (body : Body) : Prop := ∃ prev next recs, body = .leaf prev next recs

/-- Child indices that lead from one page to another. -/
inductive Path (bd : Bodies) (top : PageId) : List Nat → PageId → Prop
  | here : Path bd top [] top
  | down {path : List Nat} {p c : PageId} {i : Nat} (above : Path bd top path p)
      (child : (children (bd p))[i]? = some c) : Path bd top (path ++ [i]) c

structure Structured (s : Store) : Prop where
  /-- No page is reached along two paths. -/
  once : ∀ path path' p, Path s.bodies s.metaPage.rootPageId path p →
    Path s.bodies s.metaPage.rootPageId path' p → path = path'
  /-- Leaves are the pages at one depth, internal nodes those above it. -/
  depth : ∃ h, ∀ path p, Path s.bodies s.metaPage.rootPageId path p →
    path.length = h ∧ IsLeafBody (s.bodies p) ∨ path.length < h ∧ IsNode (s.bodies p)
  keys : ∀ path p, Path s.bodies s.metaPage.rootPageId path p →
    (keysOf (s.bodies p)).Pairwise (· < ·)
  /-- Keys below child `i` lie between separators `i - 1` and `i`. -/
  bounds : ∀ path p i c sub q key, Path s.bodies s.metaPage.rootPageId path p →
    (children (s.bodies p))[i]? = some c → Path s.bodies c sub q → key ∈ keysOf (s.bodies q) →
    (∀ separator, (keysOf (s.bodies p))[i]? = some separator → key < separator) ∧
      ∀ separator, 0 < i → (keysOf (s.bodies p))[i - 1]? = some separator → separator ≤ key
  /-- The sibling pointers run through exactly the leaves, in key order. -/
  chain : ∃ row : List PageId, (∃ n, ∃ first ∈ row.head?,
      Path s.bodies s.metaPage.rootPageId (List.replicate n 0) first) ∧
    (∀ p, p ∈ row ↔ IsLeafBody (s.bodies p) ∧
      ∃ path, Path s.bodies s.metaPage.rootPageId path p) ∧
    row.Nodup ∧ Linked s.bodies kInvalidPageId row kInvalidPageId ∧
    (row.flatMap fun p => keysOf (s.bodies p)).Pairwise (· < ·) ∧
    s.metaPage.numKeys = ((row.map fun p => (recsOf (s.bodies p)).length).sum : Nat)

variable {bd : Bodies} {h n : Nat} {links : List Link}

/- Levels by depth. -/

theorem leavesOf_append (bd : Bodies) (h : Nat) (a b : List Link) :
    leavesOf bd h (a ++ b) = leavesOf bd h a ++ leavesOf bd h b := by
  induction h generalizing a b with
  | zero => rfl
  | succ h ih => simp only [leavesOf, expand_append, ih]

theorem leavesOf_add (bd : Bodies) (m n : Nat) (links : List Link) :
    leavesOf bd (m + n) links = leavesOf bd n (leavesOf bd m links) := by
  induction m generalizing links with
  | zero => simp [leavesOf]
  | succ m ih =>
    rw [Nat.succ_add]
    exact ih (expand bd links)

theorem inner_append (bd : Bodies) (h : Nat) (a b : List Link) :
    Inner bd h (a ++ b) ↔ Inner bd h a ∧ Inner bd h b := by
  induction h generalizing a b with
  | zero => simp [Inner]
  | succ h ih =>
    simp only [Inner, expand_append, ih, List.forall_mem_append]
    tauto

theorem Inner.node (inner : Inner bd h links) (lt : n < h) :
    ∀ l ∈ leavesOf bd n links, IsNode (bd l.2) := by
  induction h with
  | zero => cases lt
  | succ h ih =>
    obtain ⟨upper, last⟩ := (inner_succ bd h links).mp inner
    rcases Nat.lt_succ_iff_lt_or_eq.mp lt with lt | rfl
    · exact ih upper lt
    · exact last

theorem Inner.rest (inner : Inner bd h links) (le : n ≤ h) :
    Inner bd (h - n) (leavesOf bd n links) := by
  induction n generalizing h links with
  | zero => exact inner
  | succ n ih =>
    cases h with
    | zero => cases le
    | succ h =>
      rw [Nat.succ_sub_succ]
      exact ih inner.2 (Nat.le_of_succ_le_succ le)

theorem seg_children (b : Bytes) (es : List (Bytes × PageId)) (r : PageId) :
    (seg b es r).map Prod.snd = es.map Prod.snd ++ [r] := by
  induction es generalizing b with
  | nil => rfl
  | cons e es ih => simp [seg, ih]

theorem segOf_children {b : Bytes} {body : Body} : (segOf b body).map Prod.snd = children body := by
  cases body <;> simp [segOf, children, seg_children]

theorem expand_children (bd : Bodies) (links : List Link) :
    (expand bd links).map Prod.snd = links.flatMap fun l => children (bd l.2) := by
  simp only [expand, List.map_flatMap, segOf_children]

theorem level_subset (le : n ≤ h) {l : Link} (hl : l ∈ leavesOf bd n links) :
    l.2 ∈ idsOf bd h links := by
  induction le with
  | refl => exact List.mem_append_right _ (List.mem_map_of_mem hl)
  | step _ ih =>
    rw [idsOf_succ]
    exact List.mem_append_left _ ih

theorem level_nodup (nodup : (idsOf bd h links).Nodup) (le : n ≤ h) :
    ((leavesOf bd n links).map Prod.snd).Nodup := by
  induction le with
  | refl => exact (List.nodup_append.mp nodup).2.1
  | step _ ih =>
    rw [idsOf_succ] at nodup
    exact ih (List.nodup_append.mp nodup).1

theorem level_unique {m : Nat} (nodup : (idsOf bd h links).Nodup) (lt : m < n) (le : n ≤ h)
    {a b : Link} (ha : a ∈ leavesOf bd m links) (hb : b ∈ leavesOf bd n links) : a.2 ≠ b.2 := by
  induction h with
  | zero =>
    have := lt.trans_le le
    cases this
  | succ h ih =>
    rw [idsOf_succ, List.nodup_append] at nodup
    rcases Nat.le_succ_iff.mp le with le | rfl
    · exact ih nodup.1 le
    · exact nodup.2.2 _ (level_subset (Nat.le_of_lt_succ lt) ha) _ (List.mem_map_of_mem hb)

/- Paths. -/

variable {top : PageId} {b : Bytes} {path : List Nat} {p : PageId}

structure Leveled (bd : Bodies) (h : Nat) (links : List Link) : Prop where
  inner : Inner bd h links
  leaf : ∀ l ∈ leavesOf bd h links, IsLeafBody (bd l.2)

theorem mem_expand {l : Link} {c : PageId} (hl : l ∈ links) (child : c ∈ children (bd l.2)) :
    ∃ b, (b, c) ∈ expand bd links := by
  have : c ∈ (expand bd links).map Prod.snd := by
    rw [expand_children]
    exact List.mem_flatMap.mpr ⟨l, hl, child⟩
  obtain ⟨⟨b, c'⟩, mem, rfl⟩ := List.mem_map.mp this
  exact ⟨b, mem⟩

theorem Path.level (leveled : Leveled bd h [(b, top)]) (reach : Path bd top path p) :
    path.length ≤ h ∧ ∃ b', (b', p) ∈ leavesOf bd path.length [(b, top)] := by
  induction reach with
  | here => exact ⟨Nat.zero_le _, b, by simp [leavesOf]⟩
  | @down path p c i above child ih =>
    obtain ⟨le, b', mem⟩ := ih
    have inside : c ∈ children (bd p) := List.mem_of_getElem? child
    have lt : path.length < h := by
      refine le.lt_of_ne fun eq => ?_
      obtain ⟨prev, next, recs, body⟩ := leveled.leaf _ (eq ▸ mem)
      rw [body] at inside
      cases inside
    rw [List.length_append, List.length_singleton, leavesOf_succ]
    exact ⟨lt, mem_expand mem inside⟩

theorem level_path {l : Link} (hl : l ∈ leavesOf bd n [(b, top)]) :
    ∃ path, path.length = n ∧ Path bd top path l.2 := by
  induction n generalizing l with
  | zero =>
    obtain rfl := List.mem_singleton.mp hl
    exact ⟨[], rfl, .here⟩
  | succ n ih =>
    rw [leavesOf_succ] at hl
    obtain ⟨u, hu, child⟩ := List.mem_flatMap.mp hl
    obtain ⟨path, len, reach⟩ := ih hu
    have inside : l.2 ∈ children (bd u.2) := segOf_children ▸ List.mem_map_of_mem child
    obtain ⟨i, at_⟩ := List.mem_iff_getElem?.mp inside
    exact ⟨path ++ [i], by simp [len], .down reach at_⟩

theorem level_head (b : Bytes) (top : PageId) (inner : Inner bd n [(b, top)]) :
    ∃ first rest, leavesOf bd n [(b, top)] = (b, first) :: rest ∧
      Path bd top (List.replicate n 0) first := by
  induction n with
  | zero => exact ⟨top, [], rfl, .here⟩
  | succ n ih =>
    obtain ⟨upper, node⟩ := (inner_succ bd n _).mp inner
    obtain ⟨first, rest, eq, reach⟩ := ih upper
    obtain ⟨c, tail, seg⟩ := segOf_bounds (b := b) (node (b, first) (by simp [eq]))
    refine ⟨c, tail ++ expand bd rest, ?_, ?_⟩
    · rw [leavesOf_succ, eq, expand_cons, seg, List.cons_append]
    · rw [List.replicate_succ']
      refine .down reach ?_
      have : (segOf b (bd first)).map Prod.snd = children (bd first) := segOf_children
      rw [← this, seg]
      rfl

theorem flatMap_position {α β : Type} {f : α → List β} {l : List α} (nodup : (l.flatMap f).Nodup)
    {u u' : α} (hu : u ∈ l) (hu' : u' ∈ l) {i i' : Nat} {c : β} (at_ : (f u)[i]? = some c)
    (at_' : (f u')[i']? = some c) : u = u' ∧ i = i' := by
  obtain ⟨each, disjoint⟩ := List.nodup_flatMap.mp nodup
  have same : u = u' := by
    by_contra ne
    have sym : Std.Symm (Function.onFun List.Disjoint f) := ⟨fun _ _ apart _ h h' => apart h' h⟩
    have apart := disjoint.forall hu hu' ne
    exact apart (List.mem_of_getElem? at_) (List.mem_of_getElem? at_')
  subst same
  have lt := (List.getElem?_eq_some_iff.mp at_).1
  exact ⟨rfl, (List.getElem?_inj lt (each u hu)).mp (at_.trans at_'.symm)⟩

theorem Path.unique (leveled : Leveled bd h [(b, top)]) (nodup : (idsOf bd h [(b, top)]).Nodup)
    (reach : Path bd top path p) {path' : List Nat} (reach' : Path bd top path' p) :
    path = path' := by
  induction reach generalizing path' with
  | here =>
    cases reach' with
    | here => rfl
    | @down path p c i above child =>
      obtain ⟨le, b', mem⟩ := (Path.down above child).level leveled
      have zero : (b, top) ∈ leavesOf bd 0 [(b, top)] := by simp [leavesOf]
      exact (level_unique nodup (by simp) le zero mem rfl).elim
  | @down path p c i above child ih =>
    obtain ⟨le, b', mem⟩ := (Path.down above child).level leveled
    cases reach' with
    | here =>
      have zero : (b, top) ∈ leavesOf bd 0 [(b, top)] := by simp [leavesOf]
      exact (level_unique nodup (by simp) le zero mem rfl).elim
    | @down path' p' _ i' above' child' =>
      obtain ⟨le', b'', mem'⟩ := (Path.down above' child').level leveled
      simp only [List.length_append, List.length_singleton] at le le' mem mem'
      have len : path.length = path'.length := by
        rcases Nat.lt_trichotomy path.length path'.length with lt | eq | lt
        · exact (level_unique nodup (Nat.succ_lt_succ lt) le' mem mem' rfl).elim
        · exact eq
        · exact (level_unique nodup (Nat.succ_lt_succ lt) le mem' mem rfl).elim
      obtain ⟨-, bu, hu⟩ := above.level leveled
      obtain ⟨-, bu', hu'⟩ := above'.level leveled
      have distinct := level_nodup nodup le
      rw [leavesOf_succ, expand_children] at distinct
      obtain ⟨eq, rfl⟩ := flatMap_position distinct hu (len ▸ hu') child child'
      obtain ⟨-, rfl⟩ := Prod.mk.inj eq
      rw [ih above']

/- Keys below a link. -/

theorem bounds_level {m : Nat} (inner : Inner bd h links) (le : m ≤ h) :
    ((leavesOf bd m links).map Prod.fst).Sublist ((leavesOf bd h links).map Prod.fst) := by
  induction le with
  | refl => exact List.Sublist.refl _
  | step _ ih =>
    obtain ⟨upper, node⟩ := (inner_succ bd _ links).mp inner
    rw [leavesOf_succ]
    exact (ih upper).trans (bounds_sublist node)

theorem leaves_ge {x : Link} (inner : Inner bd h [x]) (asc : Asc (leavesOf bd h [x])) {l : Link}
    (hl : l ∈ leavesOf bd h [x]) : x.1 ≤ l.1 := by
  obtain ⟨first, rest, eq, -⟩ := level_head x.1 x.2 inner
  have eq' : leavesOf bd h [x] = (x.1, first) :: rest := eq
  rw [eq'] at hl asc
  rcases List.mem_cons.mp hl with rfl | mem
  · exact le_rfl
  · exact (List.pairwise_cons.mp asc).1 _ (List.mem_map_of_mem mem) |>.le

theorem Path.key_below {x : Link} {sub : List Nat} {q : PageId} {key : Bytes}
    (leveled : Leveled bd h [x]) (reach : Path bd x.2 sub q) (mem : key ∈ keysOf (bd q)) :
    ∃ l ∈ leavesOf bd h [x], l.1 = key ∨ ∃ r ∈ recsOf (bd l.2), r.1 = key := by
  obtain ⟨le, b', hq⟩ := Path.level (b := x.1) leveled reach
  rcases le.lt_or_eq with lt | eq
  · obtain ⟨r, es, body⟩ := leveled.inner.node lt _ hq
    have below : key ∈ (leavesOf bd (sub.length + 1) [x]).map Prod.fst := by
      rw [leavesOf_succ]
      have : (b', q) ∈ leavesOf bd sub.length [x] := hq
      obtain ⟨pre, post, cut⟩ := List.append_of_mem this
      rw [cut, expand_append, expand_cons, body, segOf, List.map_append, List.map_append, seg_bounds]
      rw [body, keysOf] at mem
      simp [mem]
    obtain ⟨l, hl, eq⟩ := List.mem_map.mp ((bounds_level leveled.inner lt).subset below)
    exact ⟨l, hl, .inl eq⟩
  · have hq' : (b', q) ∈ leavesOf bd h [x] := eq ▸ hq
    obtain ⟨prev, next, recs, body⟩ := leveled.leaf _ hq'
    rw [body, keysOf] at mem
    obtain ⟨r, hr, rfl⟩ := List.mem_map.mp mem
    exact ⟨_, hq', .inr ⟨r, by rw [body]; exact hr, rfl⟩⟩

theorem key_within {pre post : List Link} {x : Link} {sub : List Nat} {q : PageId} {key : Bytes}
    (leveled : Leveled bd h (pre ++ x :: post)) (lr : LeafRow bd (leavesOf bd h (pre ++ x :: post)))
    (reach : Path bd x.2 sub q) (mem : key ∈ keysOf (bd q)) :
    x.1 ≤ key ∧ ∀ y ∈ post.head?, key < y.1 := by
  have split : leavesOf bd h (pre ++ x :: post) =
      leavesOf bd h pre ++ (leavesOf bd h [x] ++ leavesOf bd h post) := by
    rw [leavesOf_append, ← leavesOf_append bd h [x]]
    rfl
  have innerHere : Inner bd h [x] ∧ Inner bd h post := by
    have := leveled.inner
    rw [inner_append, show x :: post = [x] ++ post from rfl, inner_append] at this
    exact this.2
  have leveled' : Leveled bd h [x] :=
    ⟨innerHere.1, fun l hl => leveled.leaf l (by rw [split]; simp [hl])⟩
  have asc := lr.asc
  have upper := lr.upper
  rw [split] at asc upper
  obtain ⟨l, hl, bound⟩ := reach.key_below leveled' mem
  have lower : x.1 ≤ l.1 := leaves_ge innerHere.1 (asc_append (asc_append asc).2).1 hl
  have hl' : l ∈ leavesOf bd h (pre ++ x :: post) := by rw [split]; simp [hl]
  constructor
  · rcases bound with rfl | ⟨r, hr, rfl⟩
    · exact lower
    · exact lower.trans (lr.lower l hl' r hr)
  · intro y hy
    obtain ⟨rest, rfl⟩ : ∃ rest, post = y :: rest := by
      cases post with
      | nil => cases hy
      | cons z rest =>
        obtain rfl : z = y := by simpa using hy
        exact ⟨rest, rfl⟩
    have innerY : Inner bd h [y] := by
      have := innerHere.2
      rw [show y :: rest = [y] ++ rest from rfl, inner_append] at this
      exact this.1
    obtain ⟨first, tail, eq, -⟩ := level_head y.1 y.2 innerY
    have next : (y.1, first) ∈ leavesOf bd h (y :: rest) := by
      rw [show y :: rest = [y] ++ rest from rfl, leavesOf_append]
      have : leavesOf bd h [y] = (y.1, first) :: tail := eq
      simp [this]
    rcases bound with rfl | ⟨r, hr, rfl⟩
    · exact asc_lt (y := (y.1, first)) (asc_append asc).2 hl next
    · exact (List.pairwise_append.mp (List.pairwise_append.mp upper).2.1).2.2 l hl _ next r hr

theorem child_link {es : List (Bytes × PageId)} {r c : PageId} {i : Nat} (b : Bytes)
    (child : (children (.internal r es))[i]? = some c) :
    ∃ bound spre spost, seg b es r = spre ++ (bound, c) :: spost ∧
      (∀ separator, 0 < i → (es.map Prod.fst)[i - 1]? = some separator → separator = bound) ∧
      ∀ separator, (es.map Prod.fst)[i]? = some separator → ∃ y ∈ spost.head?, y.1 = separator := by
  rw [children, ← seg_children b, List.getElem?_map, Option.map_eq_some_iff] at child
  obtain ⟨⟨bound, c'⟩, here, rfl⟩ := child
  obtain ⟨lt, get⟩ := List.getElem?_eq_some_iff.mp here
  have bounds : ∀ j : Nat, (b :: es.map Prod.fst)[j]? = (seg b es r)[j]?.map Prod.fst := by
    intro j
    rw [← seg_bounds b es r, List.getElem?_map]
  refine ⟨bound, (seg b es r).take i, (seg b es r).drop (i + 1), ?_, ?_, ?_⟩
  · rw [← get, List.getElem_cons_drop, List.take_append_drop]
  · intro separator pos at_
    have := bounds i
    rw [here] at this
    cases i with
    | zero => cases pos
    | succ i =>
      rw [List.getElem?_cons_succ, Option.map_some] at this
      exact Option.some.inj (at_.symm.trans this)
  · intro separator at_
    have := bounds (i + 1)
    rw [List.getElem?_cons_succ, at_, eq_comm, Option.map_eq_some_iff] at this
    obtain ⟨y, hy, eq⟩ := this
    exact ⟨y, by rw [List.head?_drop]; exact hy, eq⟩

section Store

variable {s : Store} {entries : List (Bytes × Bytes)}

theorem Tree.leveled (tree : Tree s h) : Leveled s.bodies h s.top :=
  ⟨tree.inner, fun _ hl => tree.row.isLeaf hl⟩

theorem Tree.keys_asc (tree : Tree s h) (reach : Path s.bodies s.metaPage.rootPageId path p) :
    (keysOf (s.bodies p)).Pairwise (· < ·) := by
  obtain ⟨le, b', mem⟩ := reach.level tree.leveled
  rcases le.lt_or_eq with lt | eq
  · obtain ⟨r, es, body⟩ := tree.inner.node lt _ mem
    have asc : Asc (leavesOf s.bodies (path.length + 1) s.top) :=
      List.Pairwise.sublist (bounds_level tree.inner lt) tree.row.asc
    obtain ⟨pre, post, cut⟩ := List.append_of_mem mem
    rw [leavesOf_succ, cut, expand_append, expand_cons, body, segOf] at asc
    have here := (asc_append (asc_append asc).2).1
    unfold Asc at here
    rw [seg_bounds, List.pairwise_cons] at here
    rw [body]
    exact here.2
  · have leaf := eq ▸ mem
    have asc := tree.row.keys _ leaf
    obtain ⟨prev, next, recs, body⟩ := tree.row.isLeaf leaf
    rw [body] at asc ⊢
    exact asc

theorem Tree.bounds (tree : Tree s h) {i : Nat} {c q : PageId} {sub : List Nat} {key : Bytes}
    (reach : Path s.bodies s.metaPage.rootPageId path p)
    (child : (children (s.bodies p))[i]? = some c) (below : Path s.bodies c sub q)
    (mem : key ∈ keysOf (s.bodies q)) :
    (∀ separator, (keysOf (s.bodies p))[i]? = some separator → key < separator) ∧
      ∀ separator, 0 < i → (keysOf (s.bodies p))[i - 1]? = some separator → separator ≤ key := by
  obtain ⟨le, b', hp⟩ := reach.level tree.leveled
  obtain ⟨lt, -⟩ := (Path.down reach child).level tree.leveled
  rw [List.length_append, List.length_singleton] at lt
  obtain ⟨r, es, body⟩ := tree.inner.node lt _ hp
  rw [body] at child ⊢
  obtain ⟨bound, spre, spost, seg, lower, upper⟩ := child_link b' child
  obtain ⟨pre, post, cut⟩ := List.append_of_mem hp
  have level : leavesOf s.bodies (path.length + 1) s.top =
      (expand s.bodies pre ++ spre) ++ (bound, c) :: (spost ++ expand s.bodies post) := by
    rw [leavesOf_succ, cut, expand_append, expand_cons, body, segOf, seg]
    simp
  have rest : leavesOf s.bodies (h - (path.length + 1))
      ((expand s.bodies pre ++ spre) ++ (bound, c) :: (spost ++ expand s.bodies post)) =
        s.leaves h := by
    rw [← level, ← leavesOf_add, Nat.add_sub_cancel' lt]
  have leveled : Leveled s.bodies (h - (path.length + 1))
      ((expand s.bodies pre ++ spre) ++ (bound, c) :: (spost ++ expand s.bodies post)) := by
    refine ⟨level ▸ tree.inner.rest lt, ?_⟩
    rw [rest]
    exact tree.leveled.leaf
  obtain ⟨ge, next⟩ := key_within leveled (by rw [rest]; exact tree.row) below mem
  refine ⟨fun separator at_ => ?_, fun separator pos at_ => (lower separator pos at_).trans_le ge⟩
  obtain ⟨y, hy, rfl⟩ := upper separator at_
  refine next y ?_
  rw [List.head?_append, Option.mem_def.mp hy]
  rfl

theorem Tree.structured (tree : Tree s h)
    (count : s.metaPage.numKeys = (contents s.bodies (s.leaves h)).length) : Structured s := by
  have leveled := tree.leveled
  refine ⟨fun path path' p reach reach' => reach.unique leveled tree.nodup reach', ⟨h, ?_⟩,
    fun path p reach => tree.keys_asc reach,
    fun path p i c sub q key reach child below mem => tree.bounds reach child below mem,
    (s.leaves h).map Prod.snd, ?_, ?_, ?_, tree.row.linked, ?_, ?_⟩
  · intro path p reach
    obtain ⟨le, b', mem⟩ := reach.level leveled
    rcases le.lt_or_eq with lt | eq
    · exact .inr ⟨lt, tree.inner.node lt _ mem⟩
    · exact .inl ⟨eq, leveled.leaf _ (eq ▸ mem)⟩
  · obtain ⟨first, rest, eq, reach⟩ := level_head [] s.metaPage.rootPageId tree.inner
    have row : s.leaves h = ([], first) :: rest := eq
    exact ⟨h, first, by simp [row], reach⟩
  · intro p
    constructor
    · intro mem
      obtain ⟨l, hl, rfl⟩ := List.mem_map.mp mem
      obtain ⟨path, -, reach⟩ := level_path hl
      exact ⟨leveled.leaf l hl, path, reach⟩
    · rintro ⟨⟨prev, next, recs, body⟩, path, reach⟩
      obtain ⟨le, b', mem⟩ := reach.level leveled
      rcases le.lt_or_eq with lt | eq
      · obtain ⟨r, es, body'⟩ := tree.inner.node lt _ mem
        cases body.symm.trans body'
      · exact List.mem_map_of_mem (f := Prod.snd) (eq ▸ mem : (b', p) ∈ s.leaves h)
  · exact level_nodup tree.nodup le_rfl
  · have keys : ∀ l ∈ s.leaves h, keysOf (s.bodies l.2) = (recsOf (s.bodies l.2)).map Prod.fst := by
      intro l hl
      obtain ⟨prev, next, recs, body⟩ := tree.row.isLeaf hl
      rw [body, keysOf, recsOf]
    rw [List.flatMap_map, List.flatMap_congr keys]
    have asc := tree.row.contents_asc
    rwa [contents, List.map_flatMap] at asc
  · rw [count, contents, List.length_flatMap, List.map_map]
    rfl

theorem Represents.structured (rep : Represents s entries) :
    s.metaPage.rootPageId = kInvalidPageId ∧ s.metaPage.numKeys = 0 ∨ Structured s := by
  rcases rep.tree with ⟨root, nil⟩ | ⟨h, tree, eq⟩
  · exact .inl ⟨root, by rw [rep.count, nil]; rfl⟩
  · exact .inr (tree.structured (by rw [eq]; exact rep.count))

end Store

/-- Every state of a run has the structural invariant, or no tree and no keys. -/
theorem tree_structure_holds (vol : Volume) (wal : Option LogWriter) (events : List Event) :
    EveryState treeStep (fun x => x.1.metaPage.rootPageId = kInvalidPageId ∧
      x.1.metaPage.numKeys = 0 ∨ Structured x.1) (create vol wal, fun _ => none) events := by
  have always : EveryState treeStep (fun x => Models x.1 x.2) (create vol wal, fun _ => none) events :=
    everyState_invariant (fun _ _ _ models step => treeStep_models models step)
      (create_models vol wal)
  exact always.imp fun _ ⟨_, rep, _⟩ => rep.structured

end PagerDB

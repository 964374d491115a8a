import PagerDB.BTree.Standing
import PagerDB.BTree.PutSplit

/-! A split in progress, seen against the tree as it stands. Level by level the pages the
split has written hang together again; the levels above it are as they were. -/
namespace PagerDB.Crab

open SortedLib Store

variable {g g' : Ghost} {A A' : Bodies} {touched : List PageId} {row : List Link} {j : Nat}

/- Levels, counted from a level further down. -/

theorem leavesOf_add (bd : Bodies) (a b : Nat) (links : List Link) :
    leavesOf bd (a + b) links = leavesOf bd b (leavesOf bd a links) := by
  induction a generalizing links with
  | zero => rw [Nat.zero_add]; rfl
  | succ a ih =>
    rw [Nat.succ_add]
    exact ih (expand bd links)

theorem innerIds_add (bd : Bodies) (a b : Nat) (links : List Link) :
    innerIds bd (a + b) links = innerIds bd a links ++ innerIds bd b (leavesOf bd a links) := by
  induction a generalizing links with
  | zero => rw [Nat.zero_add]; rfl
  | succ a ih =>
    rw [Nat.succ_add]
    simp only [innerIds, leavesOf, ih, List.append_assoc]

/-- The two versions of one level and what hangs below them: the tree's own, and the one
the split has written. -/
structure Grown (g : Ghost) (A : Bodies) (touched : List PageId) (j : Nat) (old new : List Link)
    (row : List Link) (news : List PageId) : Prop where
  frame : ∀ p, p ∉ touched → A p = g.bodies p
  level : leavesOf A j new = row
  inner : Inner A j new
  ids : (innerIds A j new).Perm (news ++ innerIds g.bodies j old)
  keeps : ∀ n ≤ j, ∀ key pre y post, Located (leavesOf g.bodies n old) key pre y post →
    y.2 ∉ touched → ∃ pre' post', Located (leavesOf A n new) key pre' y post'

variable {old new above above' : List Link} {news more : List PageId}

theorem Grown.up (gr : Grown g A touched j old new row news) (oldUp : expand g.bodies above = old)
    (newUp : expand A above' = new) (nodes : ∀ l ∈ above', IsNode (A l.2))
    (ids : (above'.map Prod.snd).Perm (more ++ above.map Prod.snd))
    (keep : ∀ key pre y post, Located above key pre y post → y.2 ∉ touched →
      ∃ pre' post', Located above' key pre' y post') :
    Grown g A touched (j + 1) above above' row (more ++ news) := by
  subst oldUp newUp
  refine ⟨gr.frame, gr.level, ⟨nodes, gr.inner⟩, ?_, ?_⟩
  · have both := ids.append gr.ids
    simp only [innerIds]
    refine both.trans ?_
    rw [List.append_assoc, List.append_assoc]
    refine List.Perm.append_left more ?_
    rw [← List.append_assoc, ← List.append_assoc]
    exact List.Perm.append_right _ List.perm_append_comm
  · intro n le key pre y post loc out
    cases n with
    | zero => exact keep key pre y post loc out
    | succ n => exact gr.keeps n (Nat.le_of_succ_le_succ le) key pre y post loc out

theorem Grown.touch {touched' : List PageId} (gr : Grown g A touched j old new row news)
    (sub : touched ⊆ touched') (frame : ∀ p, p ∉ touched' → A' p = A p)
    (below : ∀ p ∈ innerIds A j new, A' p = A p) : Grown g A' touched' j old new row news := by
  obtain ⟨leaves, ids, inner⟩ := levels_congr j new below
  refine ⟨fun p out => (frame p out).trans (gr.frame p fun mem => out (sub mem)), leaves.trans gr.level,
    inner gr.inner, ids ▸ gr.ids, ?_⟩
  intro n le key pre y post loc out
  obtain ⟨pre', post', loc'⟩ := gr.keeps n le key pre y post loc fun mem => out (sub mem)
  have same : leavesOf A' n new = leavesOf A n new := by
    refine (levels_congr n new fun p mem => below p ?_).1
    obtain ⟨m, rfl⟩ := Nat.exists_eq_add_of_le le
    rw [innerIds_add]
    exact List.mem_append_left _ mem
  exact ⟨pre', post', same ▸ loc'⟩

theorem Grown.toTop {n : Nat} (gr : Grown g A touched j (g.level n) (g.level n) row news)
    (inner : Inner g.bodies n g.top) (clear : ∀ p ∈ innerIds g.bodies n g.top, p ∉ touched) :
    Grown g A touched (n + j) g.top g.top row news := by
  induction n generalizing j with
  | zero =>
    rw [Nat.zero_add]
    exact gr
  | succ n ih =>
    rw [innerIds_succ] at clear
    obtain ⟨innerUp, nodes⟩ := (inner_succ _ _ _).mp inner
    have same : ∀ l ∈ g.level n, A l.2 = g.bodies l.2 := fun l hl =>
      gr.frame l.2 (clear l.2 (List.mem_append_right _ (List.mem_map_of_mem hl)))
    have oldUp : expand g.bodies (g.level n) = g.level (n + 1) := (leavesOf_succ _ _ _).symm
    have next : Grown g A touched (j + 1) (g.level n) (g.level n) row ([] ++ news) := by
      refine gr.up oldUp ((expand_congr same).trans oldUp) ?_ (List.Perm.refl _) ?_
      · intro l hl
        rw [same l hl]
        exact nodes l hl
      · exact fun key pre y post loc _ => ⟨pre, post, loc⟩
    rw [Nat.succ_add, ← Nat.add_succ]
    exact ih next innerUp fun p mem => clear p (List.mem_append_left _ mem)

/- The leaf that splits. -/

structure Scene where
  pre : List Link
  x : Link
  post : List Link
  prev : PageId
  next : PageId
  recs : List (Bytes × Bytes)
  lo : List (Bytes × Bytes)
  hi : List (Bytes × Bytes)

/-- What the pessimistic Put knew of its leaf before it wrote anything. -/
structure Scene.Holds (c : Scene) (g : Ghost) (key : Bytes) (wantBefore : Bool) (sp : Splitting) :
    Prop where
  climb : Climb g.bodies g.root sp.ancestors c.pre c.x c.post
  height : sp.ancestors.length = g.height
  leaf : sp.leaf = c.x.2
  le : c.x.1 ≤ key
  lt : ∀ y ∈ c.post, key < y.1
  body : g.bodies c.x.2 = .leaf c.prev c.next c.recs
  cut : c.recs = c.lo ++ c.hi ∧ sp.replacing = false ∨
    (∃ old, c.recs = c.lo ++ (key, old) :: c.hi) ∧ sp.replacing = true
  below : ∀ r ∈ c.lo, r.1 < key
  above : ∀ r ∈ c.hi, key < r.1
  before : sp.before = if wantBefore then c.recs.lookup key else none

/-- The two halves are being written. The flags tell how far this has come: the right half
is there, the old right sibling points back to it. -/
structure Cutting (c : Scene) (g : Ghost) (s : Store) (key value : Bytes) (cut : LeafCut)
    (left : List (Bytes × Bytes)) (right linked : Bool) : Prop where
  leftBody : s.bodies c.x.2 = .leaf c.prev cut.new left
  join : left ++ cut.rightEntries = c.lo ++ c.hi
  oldNext : cut.oldNext = c.next
  low : ∀ r ∈ left, r.1 < cut.splitKey
  high : ∀ r ∈ cut.rightEntries, cut.splitKey ≤ r.1
  sep : ∃ r ∈ cut.rightEntries, r.1 = cut.splitKey
  full : kPageSize - (kPageHeaderSize + (c.lo ++ c.hi).length * kSlotEntrySize) -
    ((c.lo ++ c.hi).map leafRecordBytes).sum < kSlotEntrySize + 4 + key.length + value.length
  fresh : cut.new ∉ g.ids ∧ kFirstDataPage ≤ cut.new ∧ cut.new < s.metaPage.numPages
  rightBody : right = true → s.bodies cut.new = .leaf c.x.2 c.next cut.rightEntries ∧
    (s.view cut.new).Accounted
  sibling : linked = true → ∀ y rest, c.post = y :: rest →
    s.bodies y.2 = relinked cut.new (g.bodies y.2)
  frame : ∀ p, p ≠ c.x.2 → p ≠ cut.new →
    (linked = true → ∀ y rest, c.post = y :: rest → p ≠ y.2) → s.bodies p = g.bodies p

structure Halved (c : Scene) (g : Ghost) (s : Store) (key value : Bytes) (sp : Splitting)
    (q : PageId) (sep : Bytes) (left right : List (Bytes × Bytes)) : Prop where
  leftBody : s.bodies c.x.2 = .leaf c.prev q left
  rightBody : s.bodies q = .leaf c.x.2 c.next right
  rightAcc : (s.view q).Accounted
  join : left ++ right = c.lo ++ (key, value) :: c.hi
  low : ∀ r ∈ left, r.1 < sep
  high : ∀ r ∈ right, sep ≤ r.1
  above : c.x.1 < sep
  below : ∀ y ∈ c.post, sep < y.1
  sibling : ∀ y rest, c.post = y :: rest → s.bodies y.2 = relinked q (g.bodies y.2)
  others : ∀ l ∈ c.pre ++ c.post.tail, s.bodies l.2 = g.bodies l.2
  guarded : q ∈ sp.opGuards ∧ ∀ y rest, c.post = y :: rest → y.2 ∈ sp.opGuards

def Scene.rowAfter (c : Scene) (sep : Bytes) (q : PageId) : List Link :=
  c.pre ++ c.x :: (sep, q) :: c.post

/- The separator on its way up. -/

/-- Where the climb is: the split page and its level, the pages it has changed so far. -/
structure Stage where
  pre : List Link
  x : Link
  post : List Link
  j : Nat
  finished : List PageId
  news : List PageId

def written (sp : Splitting) (finished : List PageId) : List PageId :=
  sp.opGuards ++ sp.leaf :: finished

structure Climbing (k : Stage) (g : Ghost) (s : Store) (sp : Splitting) (q : PageId) (row : List Link)
    (rest : List PageId) (sep : Bytes) (left right : PageId) : Prop where
  ancestors : sp.ancestors = k.finished ++ rest
  climb : Climb g.bodies g.root rest k.pre k.x k.post
  leftEq : left = k.x.2
  height : rest.length + k.j = g.height
  grown : Grown g s.bodies (written sp k.finished) k.j (k.pre ++ k.x :: k.post)
    (k.pre ++ k.x :: (sep, right) :: k.post) row k.news
  clear : ∀ p ∈ innerIds g.bodies rest.length g.top, p ∉ written sp k.finished
  fresh : ∀ p ∈ q :: k.news, p ∉ g.ids ∧ kFirstDataPage ≤ p ∧ p < s.metaPage.numPages
  nodup : (q :: k.news).Nodup
  above : k.x.1 < sep
  below : ∀ y ∈ k.post, sep < y.1

structure Tear where
  up : List Link
  parent : Link
  down : List Link
  rightmost : PageId
  entries : List (Bytes × PageId)
  left : List Link
  right : List Link
  i : Nat

structure Tearing (k : Stage) (d : Tear) (g : Ghost) (s : Store) (sp : Splitting) (q : PageId)
    (row : List Link) (rest : List PageId) (sep : Bytes) (left right parent : PageId) (cut : NodeCut)
    (both : Bool) : Prop where
  ancestors : sp.ancestors = k.finished ++ parent :: rest
  climb : Climb g.bodies g.root rest d.up d.parent d.down
  parentEq : parent = d.parent.2
  node : g.bodies d.parent.2 = .internal d.rightmost d.entries
  children : seg d.parent.1 d.entries d.rightmost = d.left ++ k.x :: d.right
  preEq : k.pre = expand g.bodies d.up ++ d.left
  postEq : k.post = d.right ++ expand g.bodies d.down
  leftEq : left = k.x.2
  height : rest.length + (k.j + 1) = g.height
  grown : Grown g s.bodies (cut.new :: written sp (k.finished ++ [parent])) k.j (k.pre ++ k.x :: k.post)
    (k.pre ++ k.x :: (sep, right) :: k.post) row k.news
  clear : ∀ p ∈ innerIds g.bodies rest.length g.top ++ (d.up ++ d.down).map Prod.snd,
    p ∉ cut.new :: written sp (k.finished ++ [parent])
  fresh : ∀ p ∈ q :: cut.new :: k.news, p ∉ g.ids ∧ kFirstDataPage ≤ p ∧ p < s.metaPage.numPages
  nodup : (q :: cut.new :: k.news).Nodup
  above : k.x.1 < sep
  below : ∀ y ∈ k.post, sep < y.1
  inside : d.i < d.entries.length
  cutEq : cut.splitKey = d.entries[d.i].1 ∧ cut.rightEntries = d.entries.drop (d.i + 1) ∧
    cut.rightRightmost = d.rightmost
  leftBody : s.bodies d.parent.2 = .internal d.entries[d.i].2 (d.entries.take d.i)
  rightBody : both = true →
    s.bodies cut.new = .internal d.rightmost (d.entries.drop (d.i + 1))

def Phase (g : Ghost) (s : Store) (key value : Bytes) (wantBefore : Bool) : Pc → Prop
  | .right sp cut => ∃ c left, c.Holds g key wantBefore sp ∧
      Cutting c g s key value cut left false false ∧ sp.opGuards = []
  | .relink sp cut => ∃ c left, c.Holds g key wantBefore sp ∧
      Cutting c g s key value cut left true false ∧ sp.opGuards = []
  | .place sp cut => ∃ c left, c.Holds g key wantBefore sp ∧
      Cutting c g s key value cut left true true ∧ sp.opGuards = c.post.head?.toList.map Prod.snd
  | .climb sp rest sep left right => ∃ c q b l r k, c.Holds g key wantBefore sp ∧
      Halved c g s key value sp q b l r ∧ Climbing k g s sp q (c.rowAfter b q) rest sep left right
  | .innerRight sp rest sep left right parent cut => ∃ c q b l r k d, c.Holds g key wantBefore sp ∧
      Halved c g s key value sp q b l r ∧
      Tearing k d g s sp q (c.rowAfter b q) rest sep left right parent cut false
  | .innerPlace sp rest sep left right parent cut => ∃ c q b l r k d, c.Holds g key wantBefore sp ∧
      Halved c g s key value sp q b l r ∧
      Tearing k d g s sp q (c.rowAfter b q) rest sep left right parent cut true
  | _ => True

/- Other threads meanwhile. -/

/-- Another thread works on pages the split does not hold: at most one leaf has new
records, in the tree and in the file alike. -/
structure Aside (held : List PageId) (g g' : Ghost) (s s' : Store) : Prop where
  root : g'.root = g.root
  height : g'.height = g.height
  row : g'.row = g.row
  tree : SameNodes g.bodies g'.bodies
  file : SameNodes s.bodies s'.bodies
  kept : ∀ p ∈ held, s'.bodies p = s.bodies p ∧ g'.bodies p = g.bodies p ∧
    ((s.view p).Accounted → (s'.view p).Accounted)
  agree : ∀ p, s.bodies p = g.bodies p → s'.bodies p = g'.bodies p
  pages : s'.metaPage.numPages = s.metaPage.numPages

namespace Aside

variable {held sub : List PageId} {s s' : Store} {key value : Bytes} {wantBefore : Bool} {c : Scene}
  {sp : Splitting}

theorem mono (aside : Aside held g g' s s') (h : sub ⊆ held) : Aside sub g g' s s' :=
  ⟨aside.root, aside.height, aside.row, aside.tree, aside.file, fun p mem => aside.kept p (h mem),
    aside.agree, aside.pages⟩

theorem ids (aside : Aside held g g' s s') : g'.ids = g.ids := by
  rw [Ghost.ids, Ghost.ids, Ghost.top, Ghost.top, aside.root, aside.height, aside.row,
    (aside.tree.levels _ _).2.1]

theorem climb (aside : Aside held g g' s s') {ancestors : List PageId} {pre post : List Link} {x : Link}
    (climb : Climb g.bodies g.root ancestors pre x post) :
    Climb g'.bodies g'.root ancestors pre x post := by
  rw [aside.root]
  exact aside.tree.climb climb

theorem scene (aside : Aside held g g' s s') (holds : c.Holds g key wantBefore sp)
    (leaf : sp.leaf ∈ held) : c.Holds g' key wantBefore sp := by
  obtain ⟨climb, height, leafEq, le, lt, body, cut, below, above, before⟩ := holds
  refine ⟨aside.climb climb, height.trans aside.height.symm, leafEq, le, lt, ?_, cut, below, above, before⟩
  rw [(aside.kept c.x.2 (leafEq ▸ leaf)).2.1]
  exact body

theorem cutting (aside : Aside held g g' s s') {cut : LeafCut} {left : List (Bytes × Bytes)}
    {right linked : Bool} (cutting : Cutting c g s key value cut left right linked)
    (leaf : c.x.2 ∈ held) (new : cut.new ∈ held)
    (sibling : linked = true → ∀ y rest, c.post = y :: rest → y.2 ∈ held) :
    Cutting c g' s' key value cut left right linked := by
  obtain ⟨leftBody, join, oldNext, low, high, sep, full, fresh, rightBody, sib, frame⟩ := cutting
  refine ⟨?_, join, oldNext, low, high, sep, full, ?_, ?_, ?_, ?_⟩
  · exact (aside.kept _ leaf).1.trans leftBody
  · rw [aside.ids, aside.pages]
    exact fresh
  · intro yes
    exact ⟨(aside.kept _ new).1.trans (rightBody yes).1, (aside.kept _ new).2.2 (rightBody yes).2⟩
  · intro yes y rest eq
    have kept := aside.kept y.2 (sibling yes y rest eq)
    rw [kept.1, kept.2.1]
    exact sib yes y rest eq
  · exact fun p hx hn hs => aside.agree p (frame p hx hn hs)

theorem halved (aside : Aside held g g' s s') {q : PageId} {sep : Bytes} {left right : List (Bytes × Bytes)}
    (halved : Halved c g s key value sp q sep left right) (leaf : c.x.2 ∈ held)
    (guards : sp.opGuards ⊆ held) : Halved c g' s' key value sp q sep left right := by
  obtain ⟨leftBody, rightBody, rightAcc, join, low, high, above, below, sibling, others, guarded⟩ := halved
  have right' := aside.kept q (guards guarded.1)
  refine ⟨(aside.kept _ leaf).1.trans leftBody, right'.1.trans rightBody, right'.2.2 rightAcc, join, low,
    high, above, below, ?_, fun l hl => aside.agree l.2 (others l hl), guarded⟩
  intro y rest eq
  have kept := aside.kept y.2 (guards (guarded.2 y rest eq))
  rw [kept.1, kept.2.1]
  exact sibling y rest eq

theorem grown (aside : Aside held g g' s s') {touched : List PageId}
    (gr : Grown g s.bodies touched j old new row news) :
    Grown g' s'.bodies touched j old new row news := by
  have levels := aside.file.levels
  have levels' := aside.tree.levels
  refine ⟨fun p out => aside.agree p (gr.frame p out), (levels j new).1.trans gr.level,
    (levels j new).2.2 gr.inner, ?_, ?_⟩
  · rw [(levels j new).2.1, (levels' j old).2.1]
    exact gr.ids
  · intro n le key pre y post loc out
    rw [(levels' n old).1] at loc
    rw [(levels n new).1]
    exact gr.keeps n le key pre y post loc out

theorem climbing (aside : Aside held g g' s s') {k : Stage} {q left right : PageId} {rest : List PageId}
    {sep : Bytes} (climbing : Climbing k g s sp q row rest sep left right) :
    Climbing k g' s' sp q row rest sep left right := by
  obtain ⟨ancestors, climb, leftEq, height, grown, clear, fresh, nodup, above, below⟩ := climbing
  refine ⟨ancestors, aside.climb climb, leftEq, height.trans aside.height.symm, aside.grown grown, ?_, ?_,
    nodup, above, below⟩
  · rw [Ghost.top, aside.root, (aside.tree.levels _ _).2.1]
    exact clear
  · rw [aside.ids, aside.pages]
    exact fresh

theorem tearing (aside : Aside held g g' s s') {k : Stage} {d : Tear} {q left right parent : PageId}
    {rest : List PageId} {sep : Bytes} {cut : NodeCut} {both : Bool}
    (tearing : Tearing k d g s sp q row rest sep left right parent cut both)
    (parentHeld : parent ∈ held) (newHeld : cut.new ∈ held) :
    Tearing k d g' s' sp q row rest sep left right parent cut both := by
  obtain ⟨ancestors, climb, parentEq, node, children, preEq, postEq, leftEq, height, grown, clear, fresh,
    nodup, above, below, inside, cutEq, leftBody, rightBody⟩ := tearing
  refine ⟨ancestors, aside.climb climb, parentEq, ?_, children, ?_, ?_, leftEq,
    height.trans aside.height.symm, aside.grown grown, ?_, ?_, nodup, above, below, inside, cutEq, ?_, ?_⟩
  · rw [aside.tree.node ⟨_, _, node⟩]
    exact node
  · rw [aside.tree.expand]
    exact preEq
  · rw [aside.tree.expand]
    exact postEq
  · rw [Ghost.top, aside.root, (aside.tree.levels _ _).2.1]
    exact clear
  · rw [aside.ids, aside.pages]
    exact fresh
  · exact (aside.kept _ (parentEq ▸ parentHeld)).1.trans leftBody
  · exact fun yes => (aside.kept _ newHeld).1.trans (rightBody yes)

end Aside

theorem written_sub {finished rest : List PageId} {sp : Splitting} (eq : sp.ancestors = finished ++ rest) :
    written sp finished ⊆ Pc.guards sp := by
  intro p mem
  simp only [written, Pc.guards, eq, List.mem_append, List.mem_cons, List.mem_reverse,
    List.not_mem_nil, or_false] at mem ⊢
  tauto

theorem Phase.aside {s s' : Store} {key value : Bytes} {wantBefore : Bool} {pc : Pc}
    (phase : Phase g s key value wantBefore pc) (aside : Aside pc.exclusives g g' s s') :
    Phase g' s' key value wantBefore pc := by
  have leafHeld : ∀ sp : Splitting, sp.leaf ∈ Pc.guards sp := fun sp => by simp [Pc.guards]
  have opHeld : ∀ sp : Splitting, sp.opGuards ⊆ Pc.guards sp := fun sp p mem => by
    simp [Pc.guards, mem]
  cases pc with
  | right sp cut =>
    obtain ⟨c, left, holds, cutting, none⟩ := phase
    have leaf : sp.leaf ∈ cut.new :: Pc.guards sp := List.mem_cons_of_mem _ (leafHeld sp)
    exact ⟨c, left, aside.scene holds leaf, aside.cutting cutting (holds.leaf ▸ leaf) List.mem_cons_self
      (fun no => by cases no), none⟩
  | relink sp cut =>
    obtain ⟨c, left, holds, cutting, none⟩ := phase
    have leaf : sp.leaf ∈ cut.new :: Pc.guards sp := List.mem_cons_of_mem _ (leafHeld sp)
    exact ⟨c, left, aside.scene holds leaf, aside.cutting cutting (holds.leaf ▸ leaf) List.mem_cons_self
      (fun no => by cases no), none⟩
  | place sp cut =>
    obtain ⟨c, left, holds, cutting, sib⟩ := phase
    have leaf : sp.leaf ∈ cut.new :: Pc.guards sp := List.mem_cons_of_mem _ (leafHeld sp)
    refine ⟨c, left, aside.scene holds leaf, aside.cutting cutting (holds.leaf ▸ leaf) List.mem_cons_self
      ?_, sib⟩
    intro _ y rest eq
    exact List.mem_cons_of_mem _ (opHeld sp (by simp [sib, eq]))
  | climb sp rest sep left right =>
    obtain ⟨c, q, b, l, r, k, holds, halved, climbing⟩ := phase
    exact ⟨c, q, b, l, r, k, aside.scene holds (leafHeld sp),
      aside.halved halved (holds.leaf ▸ leafHeld sp) (opHeld sp), aside.climbing climbing⟩
  | innerRight sp rest sep left right parent cut | innerPlace sp rest sep left right parent cut =>
    obtain ⟨c, q, b, l, r, k, d, holds, halved, tearing⟩ := phase
    have leaf : sp.leaf ∈ cut.new :: Pc.guards sp := List.mem_cons_of_mem _ (leafHeld sp)
    have parentHeld : parent ∈ cut.new :: Pc.guards sp := by
      simp [Pc.guards, tearing.ancestors]
    exact ⟨c, q, b, l, r, k, d, aside.scene holds leaf,
      aside.halved halved (holds.leaf ▸ leaf) fun p mem => List.mem_cons_of_mem _ (opHeld sp mem),
      aside.tearing tearing parentHeld List.mem_cons_self⟩
  | idle | begin | rooted | crab | swap | owned | slow | slowRooted | path | held | unwind | done | found
  | bounded | walk | exhausted => trivial

end PagerDB.Crab

import PagerDB.BTree.NodeSpec

/-! The levels of a tree. A link is a page with the lower bound of its keys. The
children of an internal node are links too: the first inherits the node's bound and
every separator bounds the child to its right. A level is a list of links in key
order; expanding every node of it gives the level below. -/
namespace PagerDB

open SortedLib

abbrev Link := Bytes × PageId
abbrev Bodies := PageId → Body

/-- Children of an internal node with lower bound `b`. -/
def seg : Bytes → List (Bytes × PageId) → PageId → List Link
  | b, [], r => [(b, r)]
  | b, (k, c) :: es, r => (b, c) :: seg k es r

def segOf (b : Bytes) : Body → List Link
  | .internal r es => seg b es r
  | _ => []

def expand (bd : Bodies) (links : List Link) : List Link :=
  links.flatMap fun l => segOf l.1 (bd l.2)

def leavesOf (bd : Bodies) : Nat → List Link → List Link
  | 0, links => links
  | h + 1, links => leavesOf bd h (expand bd links)

def IsNode (body : Body) : Prop := ∃ r es, body = .internal r es

/-- Every node above the lowest of `h + 1` levels is internal. -/
def Inner (bd : Bodies) : Nat → List Link → Prop
  | 0, _ => True
  | h + 1, links => (∀ l ∈ links, IsNode (bd l.2)) ∧ Inner bd h (expand bd links)

/-- The pages above the lowest of `h + 1` levels, top level first. -/
def innerIds (bd : Bodies) : Nat → List Link → List PageId
  | 0, _ => []
  | h + 1, links => links.map Prod.snd ++ innerIds bd h (expand bd links)

def idsOf (bd : Bodies) (h : Nat) (links : List Link) : List PageId :=
  innerIds bd h links ++ (leavesOf bd h links).map Prod.snd

def Asc (links : List Link) : Prop := (links.map Prod.fst).Pairwise (· < ·)

/- One node. -/

theorem seg_bounds (b : Bytes) (es : List (Bytes × PageId)) (r : PageId) :
    (seg b es r).map Prod.fst = b :: es.map Prod.fst := by
  induction es generalizing b with
  | nil => rfl
  | cons e es ih => simp [seg, ih]

theorem seg_cons (b : Bytes) (es : List (Bytes × PageId)) (r : PageId) :
    ∃ c rest, seg b es r = (b, c) :: rest := by
  cases es with
  | nil => exact ⟨r, [], rfl⟩
  | cons e es => exact ⟨e.2, seg e.1 es r, rfl⟩

theorem mem_seg_ge {b : Bytes} {es : List (Bytes × PageId)} {r : PageId}
    (asc : Asc (seg b es r)) {l : Link} (h : l ∈ seg b es r) : b ≤ l.1 := by
  unfold Asc at asc
  rw [seg_bounds, List.pairwise_cons] at asc
  have : l.1 ∈ b :: es.map Prod.fst := seg_bounds b es r ▸ List.mem_map_of_mem h
  rcases List.mem_cons.mp this with e | e
  · exact e.ge
  · exact (asc.1 _ e).le

theorem findChildIndex_bounds {p : Page} {lo hi : List Bytes} {key : Bytes}
    (hk : p.keys = lo ++ hi) (asc : p.keys.Pairwise (· < ·)) (le : ∀ k ∈ lo, k ≤ key)
    (lt : ∀ k ∈ hi, key < k) : p.findChildIndex key = lo.length := by
  have absent : hi.head? ≠ some key := fun h =>
    absurd (lt key (List.mem_of_mem_head? h)) (lt_irrefl _)
  rcases List.eq_nil_or_concat' lo with rfl | ⟨lo, k, rfl⟩
  · have cut : CutAt p.keys [] hi key := ⟨hk, by simp, fun k h => (lt k h).le⟩
    simp only [Page.findChildIndex, p.findKeyIndex_cut cut asc, absent, decide_false,
      Bool.false_eq_true, if_false]
  · have below : ∀ x ∈ lo, x < k := by
      rw [hk, List.append_assoc, List.pairwise_append] at asc
      exact fun x hx => asc.2.2 x hx k (by simp)
    rcases (le k (by simp)).lt_or_eq with h | h
    · have cut : CutAt p.keys (lo ++ [k]) hi key := by
        refine ⟨hk, ?_, fun k h => (lt k h).le⟩
        intro x hx
        rcases List.mem_append.mp hx with hx | hx
        · exact (below x hx).trans h
        · exact List.mem_singleton.mp hx ▸ h
      simp only [Page.findChildIndex, p.findKeyIndex_cut cut asc, absent, decide_false,
        Bool.false_eq_true, if_false]
    · have cut : CutAt p.keys lo (k :: hi) key := by
        refine ⟨by rw [hk, List.append_assoc]; rfl, fun x hx => h ▸ below x hx, ?_⟩
        intro x hx
        rcases List.mem_cons.mp hx with rfl | hx
        · exact h.ge
        · exact (lt x hx).le
      simp [Page.findChildIndex, p.findKeyIndex_cut cut asc, h]

theorem seg_child {b : Bytes} {es : List (Bytes × PageId)} {r : PageId} {pre post : List Link}
    {x : Link} (eq : seg b es r = pre ++ x :: post) :
    (if pre.length < es.length then (es.getD pre.length ([], kInvalidPageId)).2 else r) = x.2 := by
  induction es generalizing b pre with
  | nil =>
    cases pre with
    | nil =>
      simp only [seg, List.nil_append, List.cons.injEq] at eq
      simp [← eq.1]
    | cons a pre => simp [seg] at eq
  | cons e es ih =>
    obtain ⟨k, c⟩ := e
    cases pre with
    | nil =>
      simp only [seg, List.nil_append, List.cons.injEq] at eq
      simp [← eq.1]
    | cons a pre =>
      simp only [seg, List.cons_append, List.cons.injEq] at eq
      simpa using ih eq.2

theorem findChild_seg {p : Page} {r : PageId} {es : List (Bytes × PageId)} {b key : Bytes}
    (hb : p.body = .internal r es) (asc : Asc (seg b es r)) {pre post : List Link} {x : Link}
    (eq : seg b es r = pre ++ x :: post) (le : x.1 ≤ key) (lt : ∀ y ∈ post, key < y.1) :
    p.findChild key = x.2 := by
  have bounds := (seg_bounds b es r).symm.trans (congrArg (List.map Prod.fst) eq)
  unfold Asc at asc
  have asc' := asc
  rw [seg_bounds, List.pairwise_cons] at asc
  rw [eq, List.map_append, List.map_cons, List.pairwise_append] at asc'
  have hk : p.keys = es.map Prod.fst := by simp [Page.keys, hb]
  have slots : p.numSlots = es.length := by simp [Page.numSlots, hb]
  have tail : es.map Prod.fst = (pre.map Prod.fst ++ [x.1]).tail ++ post.map Prod.fst := by
    have := congrArg List.tail bounds
    rw [List.tail_cons] at this
    cases pre with
    | nil => simpa using this
    | cons a pre => simpa using this
  have index : p.findChildIndex key = pre.length := by
    have len : (pre.map Prod.fst ++ [x.1]).tail.length = pre.length := by simp
    rw [← len]
    refine findChildIndex_bounds (hk.trans tail) (hk ▸ asc.2) ?_ ?_
    · intro k hk
      rcases List.mem_append.mp (List.mem_of_mem_tail hk) with h | h
      · exact (asc'.2.2 k h x.1 (by simp)).le.trans le
      · exact List.mem_singleton.mp h ▸ le
    · intro k hk
      obtain ⟨y, hy, rfl⟩ := List.mem_map.mp hk
      exact lt y hy
  simp only [Page.findChild, Page.isInternal, hb, if_true, index, slots, Page.getChild, Page.entries,
    Page.getRightmostChild]
  exact seg_child eq

theorem seg_split (b : Bytes) (es : List (Bytes × PageId)) (r : PageId) {i : Nat}
    (h : i < es.length) :
    seg b es r = seg b (es.take i) es[i].2 ++ seg es[i].1 (es.drop (i + 1)) r := by
  induction es generalizing b i with
  | nil => simp at h
  | cons e es ih =>
    cases i with
    | zero => simp [seg]
    | succ i =>
      simp only [List.length_cons, Nat.add_lt_add_iff_right] at h
      simpa [seg] using ih e.1 h

theorem seg_splice {b : Bytes} {es : List (Bytes × PageId)} {r : PageId} {pre post : List Link}
    {x : Link} (splitKey : Bytes) (new : PageId) (eq : seg b es r = pre ++ x :: post) :
    seg b (spliceEntries splitKey x.2 new pre.length es)
      (if pre.length = es.length then new else r) = pre ++ x :: (splitKey, new) :: post := by
  induction es generalizing b pre with
  | nil =>
    cases pre with
    | nil =>
      simp only [seg, List.nil_append, List.cons.injEq] at eq
      simp [spliceEntries, seg, ← eq.1, ← eq.2]
    | cons a pre => simp [seg] at eq
  | cons e es ih =>
    obtain ⟨k, c⟩ := e
    cases pre with
    | nil =>
      simp only [seg, List.nil_append, List.cons.injEq] at eq
      simp only [List.length_nil, spliceEntries, seg, List.nil_append, ← eq.1, ← eq.2]
      cases es with
      | nil => simp [seg]
      | cons e es => simp [seg]
    | cons a pre =>
      simp only [seg, List.cons_append, List.cons.injEq] at eq
      have tail := ih eq.2
      simp only [List.length_cons, spliceEntries, seg, List.cons_append, ← eq.1,
        Nat.add_right_cancel_iff, tail]

/- Levels. -/

@[simp] theorem expand_append (bd : Bodies) (a b : List Link) :
    expand bd (a ++ b) = expand bd a ++ expand bd b := by
  simp [expand]

@[simp] theorem expand_cons (bd : Bodies) (l : Link) (rest : List Link) :
    expand bd (l :: rest) = segOf l.1 (bd l.2) ++ expand bd rest := by
  simp [expand]

@[simp] theorem expand_nil (bd : Bodies) : expand bd [] = [] := rfl

theorem expand_congr {bd bd' : Bodies} {links : List Link}
    (same : ∀ l ∈ links, bd' l.2 = bd l.2) : expand bd' links = expand bd links := by
  unfold expand
  induction links with
  | nil => rfl
  | cons l rest ih =>
    simp only [List.flatMap_cons, same l (by simp), ih fun x hx => same x (by simp [hx])]

theorem levels_congr {bd bd' : Bodies} (h : Nat) (links : List Link)
    (same : ∀ i ∈ innerIds bd h links, bd' i = bd i) :
    leavesOf bd' h links = leavesOf bd h links ∧ innerIds bd' h links = innerIds bd h links ∧
      (Inner bd h links → Inner bd' h links) := by
  induction h generalizing links with
  | zero => exact ⟨rfl, rfl, id⟩
  | succ h ih =>
    simp only [innerIds, List.mem_append, List.mem_map] at same
    have top : ∀ l ∈ links, bd' l.2 = bd l.2 := fun l hl => same l.2 (.inl ⟨l, hl, rfl⟩)
    have ex := expand_congr top
    obtain ⟨leaves, ids, inner⟩ := ih (expand bd links) fun i hi => same i (.inr hi)
    refine ⟨by simp only [leavesOf, ex, leaves], by simp only [innerIds, ex, ids], ?_⟩
    intro inn
    refine ⟨fun l hl => top l hl ▸ inn.1 l hl, ?_⟩
    rw [ex]
    exact inner inn.2

theorem segOf_bounds {b : Bytes} {body : Body} (node : IsNode body) :
    ∃ c rest, segOf b body = (b, c) :: rest := by
  obtain ⟨r, es, rfl⟩ := node
  exact seg_cons b es r

theorem bounds_sublist {bd : Bodies} {links : List Link} (node : ∀ l ∈ links, IsNode (bd l.2)) :
    (links.map Prod.fst).Sublist ((expand bd links).map Prod.fst) := by
  induction links with
  | nil => exact List.Sublist.slnil
  | cons l rest ih =>
    obtain ⟨c, tail, eq⟩ := segOf_bounds (b := l.1) (node l (by simp))
    have sub := ih fun x hx => node x (by simp [hx])
    simp only [List.map_cons, expand_cons, eq, List.cons_append]
    refine List.Sublist.cons_cons _ ?_
    rw [List.map_append]
    exact sub.trans (List.sublist_append_right _ _)

theorem asc_of_expand {bd : Bodies} {links : List Link} (node : ∀ l ∈ links, IsNode (bd l.2))
    (asc : Asc (expand bd links)) : Asc links :=
  List.Pairwise.sublist (bounds_sublist node) asc

theorem asc_of_leaves {bd : Bodies} {h : Nat} {links : List Link} (inner : Inner bd h links)
    (asc : Asc (leavesOf bd h links)) : Asc links := by
  induction h generalizing links with
  | zero => exact asc
  | succ h ih => exact asc_of_expand inner.1 (ih inner.2 asc)

theorem asc_append {a b : List Link} (asc : Asc (a ++ b)) : Asc a ∧ Asc b := by
  unfold Asc at asc ⊢
  rw [List.map_append, List.pairwise_append] at asc
  exact ⟨asc.1, asc.2.1⟩

theorem asc_lt {a b : List Link} (asc : Asc (a ++ b)) {x y : Link} (hx : x ∈ a) (hy : y ∈ b) :
    x.1 < y.1 := by
  unfold Asc at asc
  rw [List.map_append, List.pairwise_append] at asc
  exact asc.2.2 _ (List.mem_map_of_mem hx) _ (List.mem_map_of_mem hy)

/-- `x` is the link of the level that a descent for `key` reaches. -/
structure Located (links : List Link) (key : Bytes) (pre : List Link) (x : Link)
    (post : List Link) : Prop where
  eq : links = pre ++ x :: post
  le : x.1 ≤ key
  lt : ∀ y ∈ post, key < y.1

theorem expand_ge {bd : Bodies} {links : List Link} (node : ∀ l ∈ links, IsNode (bd l.2))
    (asc : Asc (expand bd links)) {y : Link} (hy : y ∈ expand bd links) :
    ∃ x ∈ links, x.1 ≤ y.1 := by
  induction links with
  | nil => simp at hy
  | cons l rest ih =>
    simp only [expand_cons] at asc hy
    rcases List.mem_append.mp hy with hy | hy
    · obtain ⟨r, es, hb⟩ := node l (by simp)
      rw [hb] at hy asc
      exact ⟨l, by simp, mem_seg_ge (asc_append asc).1 hy⟩
    · obtain ⟨x, hx, le⟩ := ih (fun x hx => node x (by simp [hx])) (asc_append asc).2 hy
      exact ⟨x, by simp [hx], le⟩

theorem Located.child {bd : Bodies} {links : List Link} {key : Bytes} {pre post : List Link}
    {x : Link} (loc : Located links key pre x post) (node : ∀ l ∈ links, IsNode (bd l.2))
    (asc : Asc (expand bd links)) :
    ∃ r es spre y spost, bd x.2 = .internal r es ∧ seg x.1 es r = spre ++ y :: spost ∧
      Located (expand bd links) key (expand bd pre ++ spre) y (spost ++ expand bd post) ∧
      ∀ p : Page, p.body = bd x.2 → p.findChild key = y.2 := by
  obtain ⟨eq, le, lt⟩ := loc
  subst eq
  obtain ⟨r, es, hb⟩ := node x (by simp)
  obtain ⟨c, rest, head⟩ := seg_cons x.1 es r
  simp only [expand_append, expand_cons, hb, segOf] at asc
  have segAsc : Asc (seg x.1 es r) := (asc_append (asc_append asc).2).1
  obtain ⟨spre, y, spost, seq, yle, ylt⟩ := ascending_floor segAsc
    (a := (x.1, c)) (by rw [head]; rfl) le
  have below : ∀ z ∈ expand bd post, key < z.1 := by
    intro z hz
    obtain ⟨w, hw, wle⟩ := expand_ge (fun l hl => node l (by simp [hl]))
      (asc_append (asc_append asc).2).2 hz
    exact (lt w hw).trans_le wle
  refine ⟨r, es, spre, y, spost, hb, seq, ⟨?_, yle, ?_⟩, fun p hp =>
    findChild_seg (hp.trans hb) segAsc seq yle ylt⟩
  · simp [expand_append, expand_cons, hb, segOf, seq]
  · intro z hz
    rcases List.mem_append.mp hz with hz | hz
    · exact ylt z hz
    · exact below z hz

end PagerDB

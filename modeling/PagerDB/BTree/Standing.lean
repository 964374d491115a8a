import PagerDB.BTree.Crabbing

/-! The tree the threads agree on, as bodies alone. While one of them splits, the pages
it holds are ahead of this tree; every other page is as the tree has it. -/
namespace PagerDB.Crab

open SortedLib

/-- The tree as it stands: its bodies, its root and its lowest level. An empty tree has
no lowest level. -/
structure Ghost where
  bodies : Bodies
  root : PageId
  height : Nat
  row : List Link

namespace Ghost

abbrev top (g : Ghost) : List Link := [([], g.root)]

abbrev level (g : Ghost) (n : Nat) : List Link := leavesOf g.bodies n g.top

def ids (g : Ghost) : List PageId := innerIds g.bodies g.height g.top ++ g.row.map Prod.snd

def entries (g : Ghost) : List (Bytes × Bytes) := contents g.bodies g.row

end Ghost

structure Standing (g : Ghost) : Prop where
  level : g.level g.height = g.row
  inner : Inner g.bodies g.height g.top
  nodup : g.ids.Nodup
  leaves : LeafRow g.bodies g.row

/- Levels. -/

theorem level_nodes {bd : Bodies} {h n : Nat} {links : List Link} (inner : Inner bd h links)
    (lt : n < h) : ∀ l ∈ leavesOf bd n links, IsNode (bd l.2) := by
  induction n generalizing h links with
  | zero =>
    cases h with
    | zero => omega
    | succ h => exact inner.1
  | succ n ih =>
    cases h with
    | zero => omega
    | succ h => exact ih inner.2 (Nat.lt_of_succ_lt_succ lt)

theorem level_asc {bd : Bodies} {h n : Nat} {links : List Link} (inner : Inner bd h links)
    (asc : Asc (leavesOf bd h links)) (le : n ≤ h) : Asc (leavesOf bd n links) := by
  induction n generalizing h links with
  | zero => exact asc_of_leaves inner asc
  | succ n ih =>
    cases h with
    | zero => omega
    | succ h => exact ih inner.2 asc (Nat.le_of_succ_le_succ le)

def SameNodes (bd bd' : Bodies) : Prop :=
  ∀ p, bd' p = bd p ∨
    (∃ prev next recs, bd p = .leaf prev next recs) ∧ ∃ prev next recs, bd' p = .leaf prev next recs

namespace SameNodes

variable {bd bd' : Bodies}

theorem update {p prev next prev' next' : PageId} {recs recs' : List (Bytes × Bytes)}
    (old : bd p = .leaf prev next recs) :
    SameNodes bd (Function.update bd p (.leaf prev' next' recs')) := by
  intro q
  by_cases e : q = p
  · subst e
    exact .inr ⟨⟨prev, next, recs, old⟩, prev', next', recs', Function.update_self ..⟩
  · exact .inl (Function.update_of_ne e ..)

theorem seg (same : SameNodes bd bd') (b : Bytes) (p : PageId) :
    segOf b (bd' p) = segOf b (bd p) := by
  rcases same p with eq | ⟨⟨_, _, _, old⟩, _, _, _, new⟩
  · rw [eq]
  · rw [old, new]
    rfl

theorem node (same : SameNodes bd bd') {p : PageId} (node : IsNode (bd p)) : bd' p = bd p := by
  rcases same p with eq | ⟨⟨_, _, _, old⟩, _⟩
  · exact eq
  · obtain ⟨r, es, body⟩ := node
    cases old.symm.trans body

theorem expand (same : SameNodes bd bd') (links : List Link) :
    PagerDB.expand bd' links = PagerDB.expand bd links := by
  simp only [PagerDB.expand, same.seg]

theorem levels (same : SameNodes bd bd') (h : Nat) (links : List Link) :
    leavesOf bd' h links = leavesOf bd h links ∧ innerIds bd' h links = innerIds bd h links ∧
      (Inner bd h links → Inner bd' h links) := by
  induction h generalizing links with
  | zero => exact ⟨rfl, rfl, id⟩
  | succ h ih =>
    obtain ⟨leaves, ids, inner⟩ := ih (PagerDB.expand bd links)
    simp only [leavesOf, innerIds, Inner, same.expand]
    refine ⟨leaves, congrArg _ ids, fun inn => ⟨fun l hl => ?_, inner inn.2⟩⟩
    rw [same.node (inn.1 l hl)]
    exact inn.1 l hl

theorem climb (same : SameNodes bd bd') {root : PageId} {ancestors : List PageId}
    {pre post : List Link} {c : Link} (climb : Climb bd root ancestors pre c post) :
    Climb bd' root ancestors pre c post := by
  induction climb with
  | top => exact .top
  | @down ancestors pre post spre spost x y r es above node children ih =>
    have := Climb.down ih ((same.node ⟨r, es, node⟩).trans node) children
    rwa [same.expand, same.expand] at this

end SameNodes

/- Descents. -/

/-- A thread on its way to the key's leaf has come to this node. -/
def At (g : Ghost) (key : Bytes) (node : PageId) : Prop :=
  g.row ≠ [] ∧ ∃ n ≤ g.height, ∃ pre b post, Located (g.level n) key pre (b, node) post

def Reaches (row : List Link) (key : Bytes) (leaf : PageId) : Prop :=
  ∃ pre b post, Located row key pre (b, leaf) post

section

variable {g : Ghost} {key : Bytes} {node : PageId} {page : Page}

theorem Standing.row_ne_nil (st : Standing g) : g.row ≠ [] := by
  rw [← st.level]
  exact leavesOf_ne_nil st.inner (by simp)

theorem Standing.atRoot (st : Standing g) (key : Bytes) : At g key g.root :=
  ⟨st.row_ne_nil, 0, Nat.zero_le _, [], [], [], rfl, nil_le_bytes key, by simp⟩

theorem Standing.below (st : Standing g) {n : Nat} (lt : n < g.height) :
    (∀ l ∈ g.level n, IsNode (g.bodies l.2)) ∧ Asc (expand g.bodies (g.level n)) := by
  have asc : Asc (g.level g.height) := by
    rw [st.level]
    exact st.leaves.asc
  have next : Asc (g.level (n + 1)) := level_asc st.inner asc lt
  rw [Ghost.level, leavesOf_succ] at next
  exact ⟨level_nodes st.inner lt, next⟩

theorem Standing.isLeaf (st : Standing g) {pre post : List Link} {b : Bytes}
    (loc : Located (g.level g.height) key pre (b, node) post) :
    Located g.row key pre (b, node) post ∧ ∃ prev next recs, g.bodies node = .leaf prev next recs := by
  rw [st.level] at loc
  exact ⟨loc, st.leaves.isLeaf (l := (b, node)) (by simp [loc.eq])⟩

theorem Standing.access (st : Standing g) (at_ : At g key node) (body : page.body = g.bodies node) :
    page.isLeaf = true ∧ Reaches g.row key node ∨
      page.isLeaf = false ∧ At g key (page.findChild key) := by
  obtain ⟨some, n, le, pre, b, post, loc⟩ := at_
  rcases Nat.lt_or_eq_of_le le with lt | rfl
  · obtain ⟨nodes, asc⟩ := st.below lt
    obtain ⟨r, es, spre, y, spost, node, -, loc', find⟩ := loc.child nodes asc
    rw [find page body]
    rw [← leavesOf_succ] at loc'
    exact .inr ⟨not_isLeaf_of_body (body.trans node), some, n + 1, lt, _, y.1, _, loc'⟩
  · obtain ⟨loc', prev, next, recs, leaf⟩ := st.isLeaf loc
    exact .inl ⟨isLeaf_of_body (body.trans leaf), pre, b, post, loc'⟩

/-- No separator is the empty key, so the first child is the one for it. -/
theorem findChild_nil {r : PageId} {es : List (Bytes × PageId)} (body : page.body = .internal r es)
    (asc : (es.map Prod.fst).Pairwise (· < ·)) (some : ∀ e ∈ es, [] < e.1) :
    page.findChild [] = if 0 < page.numSlots then page.getChild 0 else page.getRightmostChild := by
  have keys : page.keys = [] ++ es.map Prod.fst := by simp [Page.keys, body]
  have index : page.findChildIndex [] = 0 := by
    refine findChildIndex_bounds keys (by simpa [keys] using asc) (by simp) ?_
    intro k mem
    obtain ⟨e, he, rfl⟩ := List.mem_map.mp mem
    exact some e he
  simp only [Page.findChild, Page.isInternal, body, if_true, index]

theorem Standing.child (st : Standing g) {op : Op} (at_ : At g op.key node)
    (body : page.body = g.bodies node) (inner : page.isLeaf = false) :
    op.child page = page.findChild op.key := by
  cases op with
  | seekToFirst =>
    obtain ⟨-, n, le, pre, b, post, loc⟩ := at_
    rcases Nat.lt_or_eq_of_le le with lt | rfl
    · obtain ⟨nodes, asc⟩ := st.below lt
      obtain ⟨r, es, node⟩ := nodes (b, node) (by simp [loc.eq])
      rw [loc.eq] at asc
      simp only [expand_append, expand_cons, node, segOf] at asc
      have segAsc := (asc_append (asc_append asc).2).1
      rw [Asc, seg_bounds, List.pairwise_cons] at segAsc
      refine (findChild_nil (body.trans node) segAsc.2 fun e he => ?_).symm
      exact (nil_le_bytes b).trans_lt (segAsc.1 e.1 (List.mem_map_of_mem he))
    · obtain ⟨-, prev, next, recs, leaf⟩ := st.isLeaf loc
      rw [isLeaf_of_body (body.trans leaf)] at inner
      cases inner
  | get | delete | put | seek => rfl

end

theorem located_insert {pre post pre' post' : List Link} {c y : Link} {key sep : Bytes} (q : PageId)
    (loc : Located (pre ++ c :: post) key pre' y post') (ne : y.2 ≠ c.2) (above : c.1 < sep) :
    ∃ pre'' post'', Located (pre ++ c :: (sep, q) :: post) key pre'' y post'' := by
  obtain ⟨eq, le, lt⟩ := loc
  rcases List.append_eq_append_iff.mp eq with ⟨mid, rfl, cut⟩ | ⟨mid, rfl, cut⟩
  · cases mid with
    | nil =>
      obtain ⟨rfl, -⟩ := List.cons.inj cut
      exact absurd rfl ne
    | cons a mid =>
      obtain ⟨rfl, rfl⟩ := List.cons.inj cut
      exact ⟨pre ++ c :: (sep, q) :: mid, post', by simp, le, lt⟩
  · cases mid with
    | nil =>
      obtain ⟨rfl, -⟩ := List.cons.inj cut
      exact absurd rfl ne
    | cons a mid =>
      obtain ⟨rfl, rfl⟩ := List.cons.inj cut
      refine ⟨pre', mid ++ c :: (sep, q) :: post, by simp, le, fun z hz => ?_⟩
      simp only [List.mem_append, List.mem_cons] at hz
      rcases hz with hz | rfl | rfl | hz
      · exact lt z (by simp [hz])
      · exact lt z (by simp)
      · exact (lt c (by simp)).trans above
      · exact lt z (by simp [hz])

end PagerDB.Crab

import PagerDB.BTree.Levels

/-! The lowest level: leaves in key order, each holding keys between its own bound
and the next one, chained in both directions. What the row contains is the
concatenation of its leaves. -/
namespace PagerDB

open SortedLib

def recsOf : Body → List (Bytes × Bytes)
  | .leaf _ _ recs => recs
  | _ => []

/-- The pages are leaves chained from `prev` on the left to `next` on the right. -/
def Linked (bd : Bodies) : PageId → List PageId → PageId → Prop
  | _, [], _ => True
  | prev, p :: rest, next =>
    (∃ recs, bd p = .leaf prev (rest.headD next) recs) ∧ Linked bd p rest next

structure LeafRow (bd : Bodies) (row : List Link) : Prop where
  asc : Asc row
  linked : Linked bd kInvalidPageId (row.map Prod.snd) kInvalidPageId
  keys : ∀ l ∈ row, ((recsOf (bd l.2)).map Prod.fst).Pairwise (· < ·)
  lower : ∀ l ∈ row, ∀ r ∈ recsOf (bd l.2), l.1 ≤ r.1
  upper : row.Pairwise fun l l' => ∀ r ∈ recsOf (bd l.2), r.1 < l'.1

def contents (bd : Bodies) (row : List Link) : List (Bytes × Bytes) :=
  row.flatMap fun l => recsOf (bd l.2)

/- The chain. -/

theorem linked_append {bd : Bodies} {a b : List PageId} {prev next : PageId} :
    Linked bd prev (a ++ b) next ↔
      Linked bd prev a (b.headD next) ∧ Linked bd (a.getLastD prev) b next := by
  induction a generalizing prev with
  | nil => simp [Linked]
  | cons p a ih =>
    have head : (a ++ b).headD next = a.headD (b.headD next) := by cases a <;> rfl
    have last : (p :: a).getLastD prev = a.getLastD p := by cases a <;> rfl
    simp only [List.cons_append, Linked, head, ih, last, and_assoc]

theorem linked_congr {bd bd' : Bodies} {ids : List PageId} {prev next : PageId}
    (same : ∀ i ∈ ids, bd' i = bd i) (h : Linked bd prev ids next) : Linked bd' prev ids next := by
  induction ids generalizing prev with
  | nil => trivial
  | cons p rest ih =>
    refine ⟨?_, ih (fun i hi => same i (by simp [hi])) h.2⟩
    rw [same p (by simp)]
    exact h.1

theorem linked_leaf {bd : Bodies} {ids : List PageId} {prev next : PageId}
    (h : Linked bd prev ids next) {p : PageId} (hp : p ∈ ids) :
    ∃ pr nx recs, bd p = .leaf pr nx recs := by
  induction ids generalizing prev with
  | nil => simp at hp
  | cons q rest ih =>
    rcases List.mem_cons.mp hp with rfl | hp
    · obtain ⟨recs, eq⟩ := h.1
      exact ⟨_, _, recs, eq⟩
    · exact ih h.2 hp

theorem linked_relink {bd bd' : Bodies} {n : PageId} {rest : List PageId} {prev prev' next : PageId}
    (h : Linked bd prev (n :: rest) next) (same : ∀ i ∈ rest, bd' i = bd i)
    (first : ∀ nx recs, bd n = .leaf prev nx recs → bd' n = .leaf prev' nx recs) :
    Linked bd' prev' (n :: rest) next := by
  obtain ⟨⟨recs, eq⟩, tail⟩ := h
  exact ⟨⟨recs, first _ _ eq⟩, linked_congr same tail⟩

/- Contents. -/

@[simp] theorem contents_append (bd : Bodies) (a b : List Link) :
    contents bd (a ++ b) = contents bd a ++ contents bd b := by
  simp [contents]

@[simp] theorem contents_cons (bd : Bodies) (l : Link) (rest : List Link) :
    contents bd (l :: rest) = recsOf (bd l.2) ++ contents bd rest := by
  simp [contents]

@[simp] theorem contents_nil (bd : Bodies) : contents bd [] = [] := rfl

theorem contents_congr (bd bd' : Bodies) (row : List Link)
    (same : ∀ l ∈ row, recsOf (bd' l.2) = recsOf (bd l.2)) :
    contents bd' row = contents bd row := by
  induction row with
  | nil => rfl
  | cons l rest ih =>
    simp only [contents_cons, same l (by simp), ih fun x hx => same x (by simp [hx])]

theorem mem_contents {bd : Bodies} {row : List Link} {r : Bytes × Bytes} :
    r ∈ contents bd row ↔ ∃ l ∈ row, r ∈ recsOf (bd l.2) := by
  simp [contents]

namespace LeafRow

variable {bd bd' : Bodies} {row pre post : List Link} {x : Link} {key : Bytes}

theorem left_lt (lr : LeafRow bd (pre ++ x :: post)) {r : Bytes × Bytes}
    (h : r ∈ contents bd pre) : r.1 < x.1 := by
  obtain ⟨l, hl, hr⟩ := mem_contents.mp h
  exact (List.pairwise_append.mp lr.upper).2.2 l hl x (by simp) r hr

theorem right_ge (lr : LeafRow bd (pre ++ x :: post)) {r : Bytes × Bytes}
    (h : r ∈ contents bd post) : ∃ y ∈ post, y.1 ≤ r.1 := by
  obtain ⟨l, hl, hr⟩ := mem_contents.mp h
  exact ⟨l, hl, lr.lower l (by simp [hl]) r hr⟩

theorem here_lt (lr : LeafRow bd (pre ++ x :: post)) {r : Bytes × Bytes}
    (h : r ∈ recsOf (bd x.2)) {y : Link} (hy : y ∈ post) : r.1 < y.1 := by
  have := (List.pairwise_append.mp lr.upper).2.1
  exact (List.pairwise_cons.mp this).1 y hy r h

theorem contents_asc (lr : LeafRow bd row) : ((contents bd row).map Prod.fst).Pairwise (· < ·) := by
  -- the chain is not hereditary, so induct on what the order needs
  obtain ⟨asc, -, keys, lower, upper⟩ := lr
  induction row with
  | nil => exact List.Pairwise.nil
  | cons l rest ih =>
    have below := ih (asc_append (a := [l]) asc).2 (fun x hx => keys x (by simp [hx]))
      (fun x hx => lower x (by simp [hx])) (List.pairwise_cons.mp upper).2
    rw [contents_cons, List.map_append, List.pairwise_append]
    refine ⟨keys l (by simp), below, ?_⟩
    intro a ha b hb
    obtain ⟨r, hr, rfl⟩ := List.mem_map.mp ha
    obtain ⟨r', hr', rfl⟩ := List.mem_map.mp hb
    obtain ⟨y, hy, hr'⟩ := mem_contents.mp hr'
    exact ((List.pairwise_cons.mp upper).1 y hy r hr).trans_le (lower y (by simp [hy]) r' hr')

theorem lookup (lr : LeafRow bd row) (loc : Located row key pre x post) :
    (contents bd row).lookup key = (recsOf (bd x.2)).lookup key := by
  obtain ⟨rfl, le, lt⟩ := loc
  have left : (contents bd pre).lookup key = none := by
    rw [List.lookup_eq_none_iff]
    intro r hr
    simpa using ((lr.left_lt hr).trans_le le).ne'
  have right : (contents bd post).lookup key = none := by
    rw [List.lookup_eq_none_iff]
    intro r hr
    obtain ⟨y, hy, yle⟩ := lr.right_ge hr
    simpa using ((lt y hy).trans_le yle).ne
  simp [List.lookup_append, left, right]

theorem congr (lr : LeafRow bd row) (same : ∀ l ∈ row, bd' l.2 = bd l.2) : LeafRow bd' row := by
  obtain ⟨asc, linked, keys, lower, upper⟩ := lr
  refine ⟨asc, linked_congr ?_ linked, ?_, ?_, ?_⟩
  · simpa using fun b a => same (a, b)
  · exact fun l hl => same l hl ▸ keys l hl
  · exact fun l hl => same l hl ▸ lower l hl
  · exact upper.imp_of_mem fun ha _ h => by rwa [same _ ha]

theorem update {pr nx : PageId} {recs recs' : List (Bytes × Bytes)}
    (lr : LeafRow bd (pre ++ x :: post)) (old : bd x.2 = .leaf pr nx recs)
    (new : bd' x.2 = .leaf pr nx recs') (same : ∀ l ∈ pre ++ post, bd' l.2 = bd l.2)
    (asc : (recs'.map Prod.fst).Pairwise (· < ·)) (lower : ∀ r ∈ recs', x.1 ≤ r.1)
    (upper : ∀ r ∈ recs', ∀ y ∈ post, r.1 < y.1) : LeafRow bd' (pre ++ x :: post) := by
  have samePre : ∀ l ∈ pre, bd' l.2 = bd l.2 := fun l hl => same l (by simp [hl])
  have samePost : ∀ l ∈ post, bd' l.2 = bd l.2 := fun l hl => same l (by simp [hl])
  have other {l : Link} (hl : l ∈ pre ++ x :: post) :
      (l = x ∨ recsOf (bd' l.2) = recsOf (bd l.2)) := by
    simp only [List.mem_append, List.mem_cons] at hl
    rcases hl with h | h | h
    · exact .inr (by rw [samePre l h])
    · exact .inl h
    · exact .inr (by rw [samePost l h])
  refine ⟨lr.asc, ?_, ?_, ?_, ?_⟩
  · have linked := lr.linked
    simp only [List.map_append, List.map_cons, linked_append, Linked, List.headD_cons] at linked ⊢
    obtain ⟨left, ⟨r, eq⟩, right⟩ := linked
    obtain ⟨rfl, rfl, rfl⟩ := Body.leaf.inj (old.symm.trans eq)
    refine ⟨linked_congr ?_ left, ⟨recs', new⟩, linked_congr ?_ right⟩
    · simpa using fun b a => samePre (a, b)
    · simpa using fun b a => samePost (a, b)
  · intro l hl
    rcases other hl with rfl | h
    · simpa [new, recsOf] using asc
    · exact h ▸ lr.keys l hl
  · intro l hl
    rcases other hl with rfl | h
    · simpa [new, recsOf] using fun a b => lower (a, b)
    · exact h ▸ lr.lower l hl
  · have up := List.pairwise_append.mp lr.upper
    have up' := List.pairwise_cons.mp up.2.1
    rw [List.pairwise_append, List.pairwise_cons]
    refine ⟨up.1.imp_of_mem fun ha _ h => by rwa [samePre _ ha],
      ⟨?_, up'.2.imp_of_mem fun ha _ h => by rwa [samePost _ ha]⟩, ?_⟩
    · intro y hy r hr
      exact upper r (by simpa [new, recsOf] using hr) y hy
    · intro l hl y hy
      rw [samePre l hl]
      exact up.2.2 l hl y hy

theorem update_contents {pr nx : PageId} {recs' : List (Bytes × Bytes)}
    (new : bd' x.2 = .leaf pr nx recs') (same : ∀ l ∈ pre ++ post, bd' l.2 = bd l.2) :
    contents bd' (pre ++ x :: post) = contents bd pre ++ recs' ++ contents bd post := by
  rw [contents_append, contents_cons, new, recsOf,
    contents_congr bd bd' pre fun l hl => by rw [same l (by simp [hl])],
    contents_congr bd bd' post fun l hl => by rw [same l (by simp [hl])],
    List.append_assoc]

theorem split {pr nx q : PageId} {s : Bytes} {recs left right : List (Bytes × Bytes)}
    (lr : LeafRow bd (pre ++ x :: post)) (old : bd x.2 = .leaf pr nx recs)
    (hl : bd' x.2 = .leaf pr q left) (hr : bd' q = .leaf x.2 nx right)
    (samePre : ∀ l ∈ pre, bd' l.2 = bd l.2)
    (sibling : ∀ y rest, post = y :: rest → (∀ n rs, bd y.2 = .leaf x.2 n rs → bd' y.2 = .leaf q n rs) ∧
      ∀ l ∈ rest, bd' l.2 = bd l.2)
    (above : x.1 < s) (below : ∀ y ∈ post, s < y.1)
    (leftAsc : (left.map Prod.fst).Pairwise (· < ·)) (rightAsc : (right.map Prod.fst).Pairwise (· < ·))
    (leftIn : ∀ r ∈ left, x.1 ≤ r.1 ∧ r.1 < s)
    (rightIn : ∀ r ∈ right, s ≤ r.1 ∧ ∀ y ∈ post, r.1 < y.1) :
    LeafRow bd' (pre ++ x :: (s, q) :: post) ∧
      contents bd' (pre ++ x :: (s, q) :: post) = contents bd pre ++ (left ++ right) ++ contents bd post := by
  have linked := lr.linked
  simp only [List.map_append, List.map_cons, linked_append, Linked, List.headD_cons] at linked
  obtain ⟨linkedL, ⟨r, eq⟩, linkedR⟩ := linked
  obtain ⟨rfl, rfl, rfl⟩ := Body.leaf.inj (old.symm.trans eq)
  have samePost : ∀ l ∈ post, recsOf (bd' l.2) = recsOf (bd l.2) := by
    intro l hl
    cases post with
    | nil => simp at hl
    | cons y rest =>
      obtain ⟨first, others⟩ := sibling y rest rfl
      rcases List.mem_cons.mp hl with rfl | hl
      · obtain ⟨recs', e⟩ := linkedR.1
        rw [e, first _ _ e]
        rfl
      · rw [others l hl]
  have up := List.pairwise_append.mp lr.upper
  have up' := List.pairwise_cons.mp up.2.1
  refine ⟨⟨?_, ?_, ?_, ?_, ?_⟩, ?_⟩
  · have asc := lr.asc
    unfold Asc at asc ⊢
    simp only [List.map_append, List.map_cons, List.pairwise_append, List.pairwise_cons] at asc ⊢
    obtain ⟨a, ⟨b, c⟩, d⟩ := asc
    refine ⟨a, ⟨?_, ?_, c⟩, ?_⟩
    · intro y hy
      rcases List.mem_cons.mp hy with rfl | hy
      · exact above
      · exact b y hy
    · intro y hy
      obtain ⟨l, hl, rfl⟩ := List.mem_map.mp hy
      exact below l hl
    · intro a ha y hy
      simp only [List.mem_cons] at hy
      rcases hy with rfl | rfl | hy
      · exact d a ha _ (by simp)
      · exact (d a ha x.1 (by simp)).trans above
      · exact d a ha y (by simp [hy])
  · simp only [List.map_append, List.map_cons, linked_append, Linked, List.headD_cons]
    refine ⟨linked_congr (by simpa using fun b a => samePre (a, b)) linkedL, ⟨left, hl⟩, ⟨right, hr⟩, ?_⟩
    cases post with
    | nil => trivial
    | cons y rest =>
      obtain ⟨first, others⟩ := sibling y rest rfl
      exact linked_relink linkedR (by simpa using fun b a => others (a, b)) first
  · intro l hl'
    simp only [List.mem_append, List.mem_cons] at hl'
    rcases hl' with h | rfl | rfl | h
    · rw [samePre l h]; exact lr.keys l (by simp [h])
    · simpa [hl, recsOf] using leftAsc
    · simpa [hr, recsOf] using rightAsc
    · rw [samePost l h]; exact lr.keys l (by simp [h])
  · intro l hl'
    simp only [List.mem_append, List.mem_cons] at hl'
    rcases hl' with h | rfl | rfl | h
    · rw [samePre l h]; exact lr.lower l (by simp [h])
    · simpa [hl, recsOf] using fun a b hab => (leftIn (a, b) hab).1
    · simpa [hr, recsOf] using fun a b hab => (rightIn (a, b) hab).1
    · rw [samePost l h]; exact lr.lower l (by simp [h])
  · rw [List.pairwise_append, List.pairwise_cons, List.pairwise_cons]
    refine ⟨up.1.imp_of_mem fun ha _ h => by rwa [samePre _ ha], ⟨?_, ?_, ?_⟩, ?_⟩
    · intro y hy r hr'
      rw [hl] at hr'
      rcases List.mem_cons.mp hy with rfl | hy
      · exact (leftIn r hr').2
      · exact (leftIn r hr').2.trans (below y hy)
    · intro y hy r hr'
      rw [hr] at hr'
      exact (rightIn r hr').2 y hy
    · exact up'.2.imp_of_mem fun ha _ h => by rwa [samePost _ ha]
    · intro l hl' y hy r hr'
      rw [samePre l hl'] at hr'
      simp only [List.mem_cons] at hy
      rcases hy with rfl | rfl | hy
      · exact up.2.2 l hl' _ (by simp) r hr'
      · exact (up.2.2 l hl' x (by simp) r hr').trans above
      · exact up.2.2 l hl' y (by simp [hy]) r hr'
  · have preEq := contents_congr bd bd' pre fun l hl => by rw [samePre l hl]
    simp [preEq, contents_congr bd bd' post samePost, hl, hr, recsOf]

end LeafRow

end PagerDB

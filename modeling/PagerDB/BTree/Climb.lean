import PagerDB.BTree.Levels

/-! The path of a descent seen from below. Above the level that holds a link `c` stand
the held ancestors, nearest first; splitting `c` is repaired by climbing them. -/
namespace PagerDB

open SortedLib

/- The lowest level of one more. -/

theorem leavesOf_succ (bd : Bodies) (h : Nat) (links : List Link) :
    leavesOf bd (h + 1) links = expand bd (leavesOf bd h links) := by
  induction h generalizing links with
  | zero => rfl
  | succ h ih => exact ih (expand bd links)

theorem innerIds_succ (bd : Bodies) (h : Nat) (links : List Link) :
    innerIds bd (h + 1) links = innerIds bd h links ++ (leavesOf bd h links).map Prod.snd := by
  induction h generalizing links with
  | zero => simp [innerIds, leavesOf]
  | succ h ih =>
    rw [innerIds, ih, innerIds, leavesOf, List.append_assoc]

theorem inner_succ (bd : Bodies) (h : Nat) (links : List Link) :
    Inner bd (h + 1) links ↔ Inner bd h links ∧ ∀ l ∈ leavesOf bd h links, IsNode (bd l.2) := by
  induction h generalizing links with
  | zero => simp [Inner, leavesOf]
  | succ h ih =>
    rw [Inner, ih, Inner, leavesOf, and_assoc]

theorem idsOf_succ (bd : Bodies) (h : Nat) (links : List Link) :
    idsOf bd (h + 1) links = idsOf bd h links ++ (leavesOf bd (h + 1) links).map Prod.snd := by
  rw [idsOf, idsOf, innerIds_succ]

theorem leavesOf_ne_nil {bd : Bodies} {h : Nat} {links : List Link} (inner : Inner bd h links)
    (ne : links ≠ []) : leavesOf bd h links ≠ [] := by
  induction h generalizing links with
  | zero => exact ne
  | succ h ih =>
    refine ih inner.2 ?_
    cases links with
    | nil => exact absurd rfl ne
    | cons l rest =>
      obtain ⟨c, tail, eq⟩ := segOf_bounds (b := l.1) (inner.1 l (by simp))
      simp [eq]

theorem height_lt_ids {bd : Bodies} {h : Nat} {links : List Link} (inner : Inner bd h links)
    (ne : links ≠ []) : h < (idsOf bd h links).length := by
  induction h with
  | zero =>
    have := List.length_pos_iff.mpr ne
    simpa [idsOf, innerIds, leavesOf] using this
  | succ h ih =>
    have some := List.length_pos_iff.mpr (leavesOf_ne_nil inner ne)
    have := ih ((inner_succ bd h links).mp inner).1
    rw [idsOf_succ, List.length_append, List.length_map]
    omega

/-- `c`, between `pre` and `post` on its level, hangs below the ancestors. -/
inductive Climb (bd : Bodies) (root : PageId) : List PageId → List Link → Link → List Link → Prop
  | top : Climb bd root [] [] ([], root) []
  | down {ancestors : List PageId} {pre post spre spost : List Link} {x y : Link} {r : PageId}
      {es : List (Bytes × PageId)} (above : Climb bd root ancestors pre x post)
      (node : bd x.2 = .internal r es) (children : seg x.1 es r = spre ++ y :: spost) :
      Climb bd root (x.2 :: ancestors) (expand bd pre ++ spre) y (spost ++ expand bd post)

theorem Climb.level {bd : Bodies} {root : PageId} {ancestors : List PageId} {pre post : List Link}
    {c : Link} (climb : Climb bd root ancestors pre c post) :
    leavesOf bd ancestors.length [([], root)] = pre ++ c :: post := by
  induction climb with
  | top => rfl
  | down above node children ih =>
    rw [List.length_cons, leavesOf_succ, ih]
    simp [node, segOf, children]

theorem Climb.mem {bd : Bodies} {root : PageId} {ancestors : List PageId} {pre post : List Link}
    {c : Link} (climb : Climb bd root ancestors pre c post) :
    ∀ a ∈ ancestors, a ∈ innerIds bd ancestors.length [([], root)] := by
  induction climb with
  | top => simp
  | down above node children ih =>
    intro a mem
    rw [List.length_cons, innerIds_succ, above.level]
    rcases List.mem_cons.mp mem with rfl | mem
    · simp
    · exact List.mem_append_left _ (ih a mem)

theorem Climb.congr {bd bd' : Bodies} {root : PageId} {ancestors : List PageId}
    {pre post : List Link} {c : Link} (climb : Climb bd root ancestors pre c post)
    (same : ∀ i ∈ innerIds bd ancestors.length [([], root)], bd' i = bd i) :
    Climb bd' root ancestors pre c post := by
  induction climb with
  | top => exact .top
  | @down ancestors pre post spre spost x y r es above node children ih =>
    rw [List.length_cons, innerIds_succ, above.level] at same
    have level : ∀ l ∈ pre ++ x :: post, bd' l.2 = bd l.2 := fun l hl =>
      same l.2 (List.mem_append_right _ (List.mem_map_of_mem hl))
    have up := ih fun i hi => same i (List.mem_append_left _ hi)
    have left : expand bd' pre = expand bd pre := expand_congr fun l hl => level l (by simp [hl])
    have right : expand bd' post = expand bd post := expand_congr fun l hl => level l (by simp [hl])
    have := Climb.down up ((level x (by simp)).trans node) children
    rwa [left, right] at this

theorem level_update {bd : Bodies} {h : Nat} {links : List Link} {pid : PageId} (body : Body)
    (apart : pid ∉ innerIds bd h links) :
    leavesOf (Function.update bd pid body) h links = leavesOf bd h links ∧
      innerIds (Function.update bd pid body) h links = innerIds bd h links ∧
      (Inner bd h links → Inner (Function.update bd pid body) h links) := by
  refine levels_congr h links fun i hi => ?_
  rw [Function.update_of_ne]
  rintro rfl
  exact apart hi

theorem expand_update {bd : Bodies} {links : List Link} {pid : PageId} (body : Body)
    (apart : pid ∉ links.map Prod.snd) :
    expand (Function.update bd pid body) links = expand bd links := by
  refine expand_congr fun l hl => ?_
  rw [Function.update_of_ne]
  rintro rfl
  exact apart (List.mem_map_of_mem hl)

/- Separators of one node. -/

theorem lowerBound_seg {p : Page} {r : PageId} {es : List (Bytes × PageId)} {b s : Bytes}
    (hb : p.body = .internal r es) (asc : Asc (seg b es r)) {pre post : List Link} {x : Link}
    (eq : seg b es r = pre ++ x :: post) (above : x.1 < s) (below : ∀ y ∈ post, s < y.1) :
    p.lowerBound s = pre.length := by
  have bounds := (seg_bounds b es r).symm.trans (congrArg (List.map Prod.fst) eq)
  have asc' := asc
  unfold Asc at asc asc'
  rw [seg_bounds, List.pairwise_cons] at asc
  rw [eq, List.map_append, List.map_cons, List.pairwise_append] at asc'
  have hk : p.keys = es.map Prod.fst := by simp [Page.keys, hb]
  have tail : es.map Prod.fst = (pre.map Prod.fst ++ [x.1]).tail ++ post.map Prod.fst := by
    have := congrArg List.tail bounds
    rw [List.tail_cons] at this
    cases pre with
    | nil => simpa using this
    | cons a pre => simpa using this
  have cut : CutAt p.keys (pre.map Prod.fst ++ [x.1]).tail (post.map Prod.fst) s := by
    refine ⟨hk.trans tail, fun k hk => ?_, fun k hk => ?_⟩
    · rcases List.mem_append.mp (List.mem_of_mem_tail hk) with h | h
      · exact (asc'.2.2 k h x.1 (by simp)).trans above
      · exact List.mem_singleton.mp h ▸ above
    · obtain ⟨y, hy, rfl⟩ := List.mem_map.mp hk
      exact (below y hy).le
  have len : (pre.map Prod.fst ++ [x.1]).tail.length = pre.length := by simp
  rw [Page.lowerBound, p.findKeyIndex_cut cut (hk ▸ asc.2), len]

theorem insertInternalAfterSplit_seg {p p' : Page} {r : PageId} {es : List (Bytes × PageId)}
    {b s : Bytes} (hb : p.body = .internal r es) (asc : Asc (seg b es r)) {pre post : List Link}
    {x : Link} (eq : seg b es r = pre ++ x :: post) (above : x.1 < s) (below : ∀ y ∈ post, s < y.1)
    {q : PageId} (h : p.insertInternalAfterSplit s x.2 q = (true, p')) :
    ∃ r' es', p'.body = .internal r' es' ∧ seg b es' r' = pre ++ x :: (s, q) :: post := by
  have index := lowerBound_seg hb asc eq above below
  unfold Page.insertInternalAfterSplit at h
  simp only [hb, index] at h
  split at h
  · split at h
    · cases h
    · cases h
      exact ⟨_, _, rfl, seg_splice s q eq⟩
  · cases h

theorem insertInternalAfterSplit_false {p p' : Page} {s : Bytes} {l q : PageId}
    (h : p.insertInternalAfterSplit s l q = (false, p')) : p' = p := by
  unfold Page.insertInternalAfterSplit at h
  split at h
  · split at h
    · dsimp only at h
      split at h <;> cases h
      rfl
    · cases h
      rfl
  · cases h
    rfl

theorem insertInternal_last {p p' : Page} {r c : PageId} {es : List (Bytes × PageId)} {k : Bytes}
    (hb : p.body = .internal r es) (asc : (es.map Prod.fst).Pairwise (· < ·))
    (above : ∀ e ∈ es, e.1 < k) (h : p.insertInternal k c = (true, p')) :
    p'.body = .internal r (es ++ [(k, c)]) := by
  have body := p.ensureFit_body (kSlotEntrySize + 6 + k.length)
  generalize fit : p.ensureFit (kSlotEntrySize + 6 + k.length) = f at body
  obtain ⟨fits, q⟩ := f
  replace body : q.body = .internal r es := body.trans hb
  have hk : q.keys = es.map Prod.fst := by simp [Page.keys, body]
  have cut : CutAt q.keys (es.map Prod.fst) [] k :=
    ⟨by simp [hk], by simpa using fun k c => above (k, c), by simp⟩
  have index : q.lowerBound k = es.length := by
    simp [Page.lowerBound, q.findKeyIndex_cut cut (hk ▸ asc)]
  unfold Page.insertInternal at h
  simp only [hb, fit, body, index] at h
  split at h
  · split at h
    · cases h
      simp
    · cases h
  · cases h

end PagerDB

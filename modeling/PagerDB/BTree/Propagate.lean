import PagerDB.BTree.Split

/-! Climbing with a separator. Whatever the ancestors do with it, absorb it, split or
grow a new root, the level of the split page gains the new link and nothing else. -/
namespace PagerDB

open SortedLib Store

variable {s s' : Store}

theorem insertSeparator_ok {txid : TxId} {key b : Bytes} {pid right r : PageId}
    {es : List (Bytes × PageId)} {pre post : List Link} {c : Link} {message : String} {u : Unit}
    (body : s.bodies pid = .internal r es) (children : seg b es r = pre ++ c :: post)
    (asc : Asc (seg b es r)) (above : c.1 < key) (below : ∀ y ∈ post, key < y.1)
    (h : (do
      let inserted ← withNode pid (·.insertInternalAfterSplit key c.2 right)
      failIf (!inserted) (.status (.Internal message))
      logPageImage pid txid false) s = .ok u s') :
    ∃ r' es', Wrote pid (.internal r' es') s s' ∧
      seg b es' r' = pre ++ c :: (key, right) :: post := by
  simp only [bind_ok, withNode_run, failIf_ok] at h
  obtain ⟨ins, t, put, _, _, ⟨yes, rfl⟩, log⟩ := h
  cases put
  generalize insert : (s.view pid).insertInternalAfterSplit key c.2 right = out at yes log
  obtain ⟨flag, p⟩ := out
  obtain rfl : flag = true := by simpa using yes
  obtain ⟨r', es', body, cover⟩ := insertInternalAfterSplit_seg body asc children above below insert
  have wrote := (wrote_putPage s pid p).same (logPageImage_same log)
  rw [body] at wrote
  exact ⟨r', es', wrote, cover⟩

theorem insertIntoHalf_ok {txid : TxId} {key newKey b : Bytes} {right parent new r₁ r₂ : PageId}
    {es₁ es₂ : List (Bytes × PageId)} {pre post : List Link} {c : Link} {u : Unit}
    (apart : new ≠ parent) (left : s.bodies parent = .internal r₁ es₁)
    (rest : s.bodies new = .internal r₂ es₂)
    (children : seg b es₁ r₁ ++ seg newKey es₂ r₂ = pre ++ c :: post)
    (asc : Asc (pre ++ c :: post)) (above : c.1 < key) (below : ∀ y ∈ post, key < y.1)
    (h : insertIntoHalf txid key newKey c.2 right parent new s = .ok u s') :
    s'.metaPage = s.metaPage ∧ Extends [parent, new] s s' ∧
      ∃ r₁' es₁' r₂' es₂', s'.bodies parent = .internal r₁' es₁' ∧ s'.bodies new = .internal r₂' es₂' ∧
        (∀ p, p ≠ parent → p ≠ new → s'.bodies p = s.bodies p) ∧
        seg b es₁' r₁' ++ seg newKey es₂' r₂' = pre ++ c :: (key, right) :: post := by
  have segs := asc
  rw [← children] at segs
  rcases append_eq_append_cons children with ⟨mid, rfl, eq⟩ | ⟨mid, eq, rfl⟩
  · -- the split child hangs below the right half
    have le : newKey ≤ c.1 := mem_seg_ge (asc_append segs).2 (eq ▸ by simp)
    rw [insertIntoHalf, if_neg (not_lt.mpr (le.trans above.le))] at h
    obtain ⟨r', es', wrote, cover⟩ :=
      insertSeparator_ok rest eq (asc_append segs).2 above below h
    refine ⟨wrote.metaPage, wrote.extends.mono (by simp), r₁, es₁, r', es', ?_, ?_, ?_, ?_⟩
    · rw [wrote.bodies, Function.update_of_ne apart.symm, left]
    · rw [wrote.bodies, Function.update_self]
    · intro p _ ne
      rw [wrote.bodies, Function.update_of_ne ne]
    · rw [cover, List.append_assoc]
  · -- it hangs below the left half, so the promoted key bounds it from above
    obtain ⟨c₀, rest₀, head⟩ := seg_cons newKey es₂ r₂
    have lt : key < newKey := below (newKey, c₀) (by simp [head])
    rw [insertIntoHalf, if_pos lt] at h
    obtain ⟨r', es', wrote, cover⟩ := insertSeparator_ok left eq (asc_append segs).1 above
      (fun y hy => below y (List.mem_append_left _ hy)) h
    refine ⟨wrote.metaPage, wrote.extends.mono (by simp), r', es', r₂, es₂, ?_, ?_, ?_, ?_⟩
    · rw [wrote.bodies, Function.update_self]
    · rw [wrote.bodies, Function.update_of_ne apart, rest]
    · intro p ne _
      rw [wrote.bodies, Function.update_of_ne ne]
    · rw [cover]
      simp

/-- The repaired tree above the level of the split page. -/
structure Climbed (s s' : Store) (n : Nat) (row : List Link) (d : Nat) (news : List PageId) :
    Prop where
  level : leavesOf s'.bodies d [([], s'.metaPage.rootPageId)] = row
  inner : Inner s'.bodies d [([], s'.metaPage.rootPageId)]
  ids : (innerIds s'.bodies d [([], s'.metaPage.rootPageId)]).Perm
    (news ++ innerIds s.bodies n [([], s.metaPage.rootPageId)])
  nodup : news.Nodup
  fresh : ∀ p ∈ news, s.metaPage.numPages ≤ p ∧ p < s'.metaPage.numPages
  ext : Extends (innerIds s.bodies n [([], s.metaPage.rootPageId)]) s s'

/-- The state in which a separator climbs: its level is in order around the split link. -/
structure Pending (s : Store) (ancestors : List PageId) (pre : List Link) (c : Link)
    (post : List Link) (sep : Bytes) : Prop where
  climb : Climb s.bodies s.metaPage.rootPageId ancestors pre c post
  free : s.metaPage.freeListHead = kInvalidPageId
  inner : Inner s.bodies ancestors.length [([], s.metaPage.rootPageId)]
  nodup : (innerIds s.bodies ancestors.length [([], s.metaPage.rootPageId)]).Nodup
  old : ∀ i ∈ innerIds s.bodies ancestors.length [([], s.metaPage.rootPageId)],
    i < s.metaPage.numPages
  asc : Asc (pre ++ c :: post)
  above : c.1 < sep
  below : ∀ y ∈ post, sep < y.1

theorem propagate_root {txid : TxId} {pre post : List Link} {c : Link} {sep : Bytes} {q : PageId}
    {u : Unit} (at_ : Pending s [] pre c post sep)
    (h : propagate txid [] sep c.2 q s = .ok u s') :
    ∃ d news, Climbed s s' 0 (pre ++ c :: (sep, q) :: post) d news := by
  obtain ⟨climb, free, -⟩ := at_
  generalize eq : s.metaPage.rootPageId = root at climb
  cases climb
  obtain ⟨bodies, page, ext⟩ := createNewRoot_ok free h
  have root : s'.metaPage.rootPageId = s.metaPage.numPages := by rw [page]
  have pages : s'.metaPage.numPages = s.metaPage.numPages + 1 := by rw [page]
  have node : s'.bodies s.metaPage.numPages = .internal q [(sep, s.metaPage.rootPageId)] := by
    rw [bodies, Function.update_self, eq]
  refine ⟨1, [s.metaPage.numPages], ?_, ?_, ?_, by simp, by simp [pages], ext⟩
  · simp [leavesOf, root, node, segOf, seg, eq]
  · exact ⟨by simp [root, node, IsNode], trivial⟩
  · simp [innerIds, root]

theorem asc_seg_keys {b : Bytes} {es : List (Bytes × PageId)} {r : PageId}
    (asc : Asc (seg b es r)) : (es.map Prod.fst).Pairwise (· < ·) := by
  rw [Asc, seg_bounds, List.pairwise_cons] at asc
  exact asc.2

theorem Pending.children_asc {ancestors : List PageId} {pre post spre spost : List Link}
    {x c : Link} {r : PageId} {es : List (Bytes × PageId)} {sep : Bytes}
    (at_ : Pending s ancestors (expand s.bodies pre ++ spre) c (spost ++ expand s.bodies post) sep)
    (children : seg x.1 es r = spre ++ c :: spost) : Asc (seg x.1 es r) := by
  have asc := at_.asc
  rw [List.append_assoc] at asc
  have right := (asc_append asc).2
  rw [← List.cons_append, ← List.append_assoc, ← children] at right
  exact (asc_append right).1

theorem propagate_absorb {ancestors : List PageId} {pre post spre spost : List Link}
    {x c : Link} {r : PageId} {es : List (Bytes × PageId)} {sep : Bytes} {q : PageId} {p : Page}
    (at_ : Pending s (x.2 :: ancestors) (expand s.bodies pre ++ spre) c (spost ++ expand s.bodies post) sep)
    (up : Climb s.bodies s.metaPage.rootPageId ancestors pre x post)
    (node : s.bodies x.2 = .internal r es) (children : seg x.1 es r = spre ++ c :: spost)
    (absorbed : (s.view x.2).insertInternalAfterSplit sep c.2 q = (true, p))
    (same : Same (s.putPage x.2 p) s') :
    Climbed s s' (ancestors.length + 1)
      ((expand s.bodies pre ++ spre) ++ c :: (sep, q) :: (spost ++ expand s.bodies post))
      (ancestors.length + 1) [] := by
  have segAsc := at_.children_asc children
  obtain ⟨-, free, inner, nodup, old, asc, above, below⟩ := at_
  rw [List.length_cons] at inner nodup old
  obtain ⟨innerUp, nodes⟩ := (inner_succ _ _ _).mp inner
  rw [up.level] at nodes
  rw [innerIds_succ, up.level] at nodup
  obtain ⟨r', es', body, cover⟩ := insertInternalAfterSplit_seg node segAsc children above
    (fun y hy => below y (List.mem_append_left _ hy)) absorbed
  have wrote := (wrote_putPage s x.2 p).same same
  rw [body] at wrote
  have root : s'.metaPage.rootPageId = s.metaPage.rootPageId := by rw [wrote.metaPage]
  rw [List.nodup_append] at nodup
  obtain ⟨-, levelNodup, disjoint⟩ := nodup
  have outside : x.2 ∉ innerIds s.bodies ancestors.length [([], s.metaPage.rootPageId)] :=
    fun h => disjoint _ h x.2 (by simp) rfl
  rw [List.map_append, List.map_cons, List.nodup_append] at levelNodup
  have notPre : x.2 ∉ pre.map Prod.snd := fun h => levelNodup.2.2 x.2 h x.2 (by simp) rfl
  have notPost : x.2 ∉ post.map Prod.snd := (List.nodup_cons.mp levelNodup.2.1).1
  obtain ⟨levels, ids, keep⟩ := level_update (.internal r' es') outside
  have level : leavesOf s'.bodies ancestors.length [([], s.metaPage.rootPageId)] = pre ++ x :: post := by
    rw [wrote.bodies, levels, up.level]
  refine ⟨?_, ?_, ?_, List.nodup_nil, by simp, ?_⟩
  · rw [root, leavesOf_succ, level, wrote.bodies]
    simp only [expand_append, expand_cons, expand_update _ notPre, expand_update _ notPost,
      Function.update_self, segOf, cover]
    simp
  · rw [root, inner_succ, level, wrote.bodies]
    refine ⟨keep innerUp, fun l hl => ?_⟩
    by_cases e : l.2 = x.2
    · rw [e, Function.update_self]
      exact ⟨r', es', rfl⟩
    · rw [Function.update_of_ne e]
      exact nodes l hl
  · rw [root, innerIds_succ, level, innerIds_succ, up.level, wrote.bodies, ids]
    exact List.Perm.refl _
  · refine wrote.extends.mono fun p mem _ => ?_
    rw [innerIds_succ, up.level, List.mem_singleton.mp mem]
    simp

theorem propagate_split {ancestors : List PageId} {pre post spre spost : List Link}
    {x c : Link} {r new : PageId} {es : List (Bytes × PageId)} {sep newKey : Bytes} {q : PageId}
    {txid : TxId} {s₁ s₂ : Store} {u : Unit}
    (at_ : Pending s (x.2 :: ancestors) (expand s.bodies pre ++ spre) c (spost ++ expand s.bodies post) sep)
    (up : Climb s.bodies s.metaPage.rootPageId ancestors pre x post)
    (node : s.bodies x.2 = .internal r es) (children : seg x.1 es r = spre ++ c :: spost)
    (split : splitInternal x.2 txid s = .ok (new, newKey) s₁)
    (insert : insertIntoHalf txid sep newKey c.2 q x.2 new s₁ = .ok u s₂) :
    Pending s₂ ancestors pre x post newKey ∧ new = s.metaPage.numPages ∧
      s₂.metaPage = { s.metaPage with numPages := new + 1 } ∧
      Extends [x.2] s s₂ ∧ (∀ p, p ≠ x.2 → p ≠ new → s₂.bodies p = s.bodies p) ∧
      IsNode (s₂.bodies x.2) ∧ IsNode (s₂.bodies new) ∧
      segOf x.1 (s₂.bodies x.2) ++ segOf newKey (s₂.bodies new) = spre ++ c :: (sep, q) :: spost := by
  have nodeAsc := at_.children_asc children
  have keysAsc := asc_seg_keys nodeAsc
  have segAsc : Asc (spre ++ c :: spost) := children ▸ nodeAsc
  obtain ⟨-, free, inner, nodup, old, asc, above, below⟩ := at_
  rw [List.length_cons] at inner nodup old
  obtain ⟨innerUp, nodes⟩ := (inner_succ _ _ _).mp inner
  rw [up.level] at nodes
  rw [innerIds_succ, up.level] at nodup old
  have oldX : x.2 < s.metaPage.numPages := old x.2 (by simp)
  have levelAsc : Asc (pre ++ x :: post) := by
    refine asc_of_expand nodes ?_
    simpa [node, segOf, children] using asc
  obtain ⟨fresh, page₁, ext₁, i, hi, -, rfl, bodies₁⟩ := splitInternal_ok free oldX node keysAsc split
  have apart : new ≠ x.2 := fresh ▸ oldX.ne'
  have halves := seg_split x.1 es r hi
  have left : s₁.bodies x.2 = .internal es[i].2 (es.take i) := by
    rw [bodies₁, Function.update_of_ne apart.symm, Function.update_self]
  have right : s₁.bodies new = .internal r (es.drop (i + 1)) := by
    rw [bodies₁, Function.update_self]
  obtain ⟨page₂, ext₂, r₁, es₁, r₂, es₂, left', right', others, cover⟩ := insertIntoHalf_ok apart left right
    (halves.symm.trans children) segAsc above (fun y hy => below y (List.mem_append_left _ hy)) insert
  have frame : ∀ p, p ≠ x.2 → p ≠ new → s₂.bodies p = s.bodies p := by
    intro p hx hn
    rw [others p hx hn, bodies₁, Function.update_of_ne hn, Function.update_of_ne hx]
  rw [List.nodup_append] at nodup
  obtain ⟨upNodup, -, disjoint⟩ := nodup
  have sameUp : ∀ i ∈ innerIds s.bodies ancestors.length [([], s.metaPage.rootPageId)],
      s₂.bodies i = s.bodies i := by
    intro j hj
    refine frame j (fun e => disjoint j hj x.2 (by simp) e) fun e => ?_
    exact absurd (e.trans fresh) (old j (List.mem_append_left _ hj)).ne
  have page : s₂.metaPage = { s.metaPage with numPages := new + 1 } := page₂.trans page₁
  have root : s₂.metaPage.rootPageId = s.metaPage.rootPageId := by rw [page]
  obtain ⟨-, ids, keep⟩ := levels_congr ancestors.length [([], s.metaPage.rootPageId)] sameUp
  have bound : x.1 < es[i].1 := by
    have := segAsc
    rw [← children, Asc, seg_bounds, List.pairwise_cons] at this
    exact this.1 _ (List.mem_map_of_mem (List.getElem_mem hi))
  have promoted : ∃ c₁, (es[i].1, c₁) ∈ seg x.1 es r := by
    rw [halves]
    obtain ⟨c₁, rest, head⟩ := seg_cons es[i].1 (es.drop (i + 1)) r
    exact ⟨c₁, by simp [head]⟩
  refine ⟨⟨?_, ?_, ?_, ?_, ?_, levelAsc, bound, ?_⟩, fresh, page, ?_, frame, ⟨r₁, es₁, left'⟩,
    ⟨r₂, es₂, right'⟩, ?_⟩
  · rw [root]
    exact up.congr sameUp
  · rw [page]
    exact free
  · rw [root]
    exact keep innerUp
  · rw [root, ids]
    exact upNodup
  · rw [root, ids, page]
    intro j hj
    exact (old j (List.mem_append_left _ hj)).trans (fresh ▸ Nat.lt_succ_self _)
  · -- the promoted key is a separator of `x`, so it lies before the next link of the level
    intro y hy
    obtain ⟨c₀, rest₀, head⟩ := segOf_bounds (b := y.1) (nodes y (by simp [hy]))
    have inPost : (y.1, c₀) ∈ expand s.bodies post :=
      List.mem_flatMap.mpr ⟨y, hy, by rw [head]; simp⟩
    have whole : Asc (seg x.1 es r ++ expand s.bodies post) := by
      rw [List.append_assoc] at asc
      have := (asc_append asc).2
      rw [← List.cons_append, ← List.append_assoc, ← children] at this
      exact this
    obtain ⟨c₁, mem⟩ := promoted
    have := asc_lt whole mem inPost
    exact this
  · refine (ext₁.trans ext₂).mono fun p mem lt => ?_
    simp only [List.cons_append, List.nil_append, List.mem_cons, List.not_mem_nil, or_false] at mem ⊢
    rcases mem with h | h | h
    · exact h
    · exact h
    · exact absurd (h.trans fresh) lt.ne
  · rw [left', right']
    exact cover

theorem Climbed.below {s₂ : Store} {ancestors : List PageId} {pre post : List Link} {x : Link}
    {newKey : Bytes} {new : PageId} {d : Nat} {news : List PageId} {row : List Link}
    (up : Climb s.bodies s.metaPage.rootPageId ancestors pre x post)
    (nodes : ∀ l ∈ pre ++ x :: post, IsNode (s.bodies l.2))
    (nodup : (innerIds s.bodies (ancestors.length + 1) [([], s.metaPage.rootPageId)]).Nodup)
    (old : ∀ i ∈ innerIds s.bodies (ancestors.length + 1) [([], s.metaPage.rootPageId)],
      i < s.metaPage.numPages)
    (fresh : new = s.metaPage.numPages) (page : s₂.metaPage = { s.metaPage with numPages := new + 1 })
    (ext : Extends [x.2] s s₂) (frame : ∀ p, p ≠ x.2 → p ≠ new → s₂.bodies p = s.bodies p)
    (nodeX : IsNode (s₂.bodies x.2)) (nodeNew : IsNode (s₂.bodies new))
    (climbed : Climbed s₂ s' ancestors.length (pre ++ x :: (newKey, new) :: post) d news)
    (cover : expand s.bodies pre ++ (segOf x.1 (s₂.bodies x.2) ++ segOf newKey (s₂.bodies new)) ++
      expand s.bodies post = row) :
    Climbed s s' (ancestors.length + 1) row (d + 1) (new :: news) := by
  rw [innerIds_succ, up.level] at nodup old
  rw [List.nodup_append] at nodup
  obtain ⟨-, levelNodup, disjoint⟩ := nodup
  have root : s₂.metaPage.rootPageId = s.metaPage.rootPageId := by rw [page]
  have pages : s₂.metaPage.numPages = s.metaPage.numPages + 1 := by rw [page, fresh]
  have sameUp : ∀ i ∈ innerIds s.bodies ancestors.length [([], s.metaPage.rootPageId)],
      s₂.bodies i = s.bodies i := by
    intro j hj
    refine frame j (fun e => disjoint j hj x.2 (by simp) e) fun e => ?_
    exact absurd (e.trans fresh) (old j (List.mem_append_left _ hj)).ne
  have ids₂ : innerIds s₂.bodies ancestors.length [([], s₂.metaPage.rootPageId)] =
      innerIds s.bodies ancestors.length [([], s.metaPage.rootPageId)] := by
    rw [root]
    exact (levels_congr _ _ sameUp).2.1
  obtain ⟨level, inner, ids, newsNodup, newsFresh, ext'⟩ := climbed
  rw [ids₂] at ids ext'
  -- pages of the level are not touched further up
  have kept : ∀ p, p ∉ innerIds s.bodies ancestors.length [([], s.metaPage.rootPageId)] →
      p < s₂.metaPage.numPages → s'.bodies p = s₂.bodies p := ext'.frame
  have newBelow : new < s₂.metaPage.numPages := by
    rw [pages, fresh]
    exact Nat.lt_succ_self _
  have keptNew : s'.bodies new = s₂.bodies new := by
    refine kept new (fun mem => ?_) newBelow
    exact absurd fresh (old new (List.mem_append_left _ mem)).ne
  have keptLevel : ∀ l ∈ pre ++ x :: post, s'.bodies l.2 = s₂.bodies l.2 := by
    intro l hl
    have mem : l.2 ∈ (pre ++ x :: post).map Prod.snd := List.mem_map_of_mem hl
    refine kept l.2 (fun h => disjoint l.2 h l.2 mem rfl) ?_
    rw [pages]
    exact Nat.lt_succ_of_lt (old l.2 (List.mem_append_right _ mem))
  rw [List.map_append, List.map_cons, List.nodup_append] at levelNodup
  have side : ∀ l, l ∈ pre ∨ l ∈ post → s'.bodies l.2 = s.bodies l.2 := by
    intro l hl
    have mem : l ∈ pre ++ x :: post := by rcases hl with h | h <;> simp [h]
    rw [keptLevel l mem]
    refine frame l.2 ?_ fun e => ?_
    · rcases hl with h | h
      · exact fun e => levelNodup.2.2 l.2 (List.mem_map_of_mem h) x.2 (by simp) e
      · exact fun e => (List.nodup_cons.mp levelNodup.2.1).1 (e ▸ List.mem_map_of_mem h)
    · exact absurd (e.trans fresh) (old l.2 (List.mem_append_right _ (List.mem_map_of_mem mem))).ne
  refine ⟨?_, ?_, ?_, ?_, ?_, ?_⟩
  · rw [leavesOf_succ, level, ← cover]
    have sidePre : expand s'.bodies pre = expand s.bodies pre := expand_congr fun l hl => side l (.inl hl)
    have sidePost : expand s'.bodies post = expand s.bodies post := expand_congr fun l hl => side l (.inr hl)
    simp only [expand_append, expand_cons, keptNew, keptLevel x (by simp), sidePre, sidePost]
    simp
  · rw [inner_succ, level]
    refine ⟨inner, fun l hl => ?_⟩
    simp only [List.mem_append, List.mem_cons] at hl
    rcases hl with h | rfl | rfl | h
    · rw [side l (.inl h)]
      exact nodes l (by simp [h])
    · rw [keptLevel l (by simp)]
      exact nodeX
    · rw [keptNew]
      exact nodeNew
    · rw [side l (.inr h)]
      exact nodes l (by simp [h])
  · rw [innerIds_succ, level, innerIds_succ, up.level]
    have swap : ((pre ++ x :: (newKey, new) :: post).map Prod.snd).Perm
        (new :: (pre ++ x :: post).map Prod.snd) := by
      simpa using (perm_after pre post x (newKey, new)).map Prod.snd
    refine (ids.append swap).trans ?_
    refine (List.perm_middle).trans ?_
    rw [List.cons_append, List.append_assoc]
  · refine List.nodup_cons.mpr ⟨fun mem => ?_, newsNodup⟩
    exact absurd newBelow (not_lt.mpr (newsFresh new mem).1)
  · intro p mem
    rcases List.mem_cons.mp mem with rfl | mem
    · exact ⟨fresh.ge, newBelow.trans_le ext'.grows⟩
    · exact ⟨(ext.grows).trans (newsFresh p mem).1, (newsFresh p mem).2⟩
  · refine (ext.trans ext').mono fun p mem _ => ?_
    rw [innerIds_succ, up.level]
    rcases List.mem_append.mp mem with h | h
    · rw [List.mem_singleton.mp h]
      simp
    · exact List.mem_append_left _ h

theorem Pending.same {ancestors : List PageId} {pre post : List Link} {c : Link} {sep : Bytes}
    (at_ : Pending s ancestors pre c post sep) (same : Same s s') :
    Pending s' ancestors pre c post sep := by
  obtain ⟨climb, free, inner, nodup, old, asc, above, below⟩ := at_
  constructor
  all_goals try rw [same.bodies]
  all_goals try rw [same.metaPage]
  all_goals assumption

theorem propagate_ok {txid : TxId} {ancestors : List PageId} {pre post : List Link} {c : Link}
    {sep : Bytes} {q : PageId} {u : Unit} (at_ : Pending s ancestors pre c post sep)
    (h : propagate txid ancestors sep c.2 q s = .ok u s') :
    ∃ d news, Climbed s s' ancestors.length (pre ++ c :: (sep, q) :: post) d news := by
  induction ancestors generalizing s pre c post sep q with
  | nil => exact propagate_root at_ h
  | cons parent ancestors ih =>
    have climb := at_.climb
    generalize eq : s.metaPage.rootPageId = root at climb
    cases climb with
    | @down _ pre post spre spost x _ r es up node children =>
      subst eq
      simp only [propagate, bind_ok, withNode_run] at h
      obtain ⟨flag, t, put, h⟩ := h
      cases put
      generalize insert : (s.view x.2).insertInternalAfterSplit sep c.2 q = out at h
      obtain ⟨flag, p⟩ := out
      cases flag with
      | true =>
        simp only [if_true] at h
        exact ⟨_, _, propagate_absorb at_ up node children insert (logPageImage_same h)⟩
      | false =>
        obtain rfl := insertInternalAfterSplit_false insert
        have same := same_putPage s x.2 (s.view x.2) rfl id
        simp only [Bool.false_eq_true, if_false, bind_ok] at h
        obtain ⟨⟨new, newKey⟩, s₁, split, _, s₂, half, h⟩ := h
        generalize s.putPage x.2 (s.view x.2) = t at same split
        have bodies := same.bodies
        have page := same.metaPage
        have pending := at_.same same
        rw [← bodies] at pending up node
        rw [← page] at up
        obtain ⟨next, fresh, page₂, ext, frame, nodeX, nodeNew, cover⟩ :=
          propagate_split pending up node children split half
        obtain ⟨d, news, climbed⟩ := ih next h
        obtain ⟨innerUp, nodes⟩ := (inner_succ _ _ _).mp pending.inner
        rw [up.level] at nodes
        have done := climbed.below up nodes pending.nodup pending.old fresh page₂ ext frame nodeX nodeNew
          (congrArg (expand t.bodies pre ++ · ++ expand t.bodies post) cover)
        refine ⟨d + 1, new :: news, ?_⟩
        obtain ⟨level, inner, ids, newsNodup, newsFresh, ext'⟩ := done
        rw [bodies, page] at ids ext'
        rw [page] at newsFresh
        rw [bodies] at level
        refine ⟨?_, inner, ids, newsNodup, newsFresh, same.extends.trans ext'⟩
        rw [level]
        simp

end PagerDB

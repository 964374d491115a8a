import PagerDB.BTree.SplitPhases

/-! The steps of a splitting Put, one page at a time: each takes the split to its next
phase, the last one makes what it has written the tree. -/
namespace PagerDB.Crab

open SortedLib Store

variable {g : Ghost} {s s' : Store} {key value : Bytes} {txid : TxId} {wantBefore : Bool} {c : Scene}
  {sp : Splitting}

structure Backed (g : Ghost) (s : Store) : Prop where
  sound : Sound s
  root : s.metaPage.rootPageId = g.root
  range : ∀ i ∈ g.ids, kFirstDataPage ≤ i ∧ i < s.metaPage.numPages
  accounted : ∀ l ∈ g.row, (s.view l.2).Accounted

theorem Backed.wrote {pid : PageId} {body : Body} (backed : Backed g s) (wrote : Wrote pid body s s')
    (acc : (s'.view pid).Accounted ∨ ∀ l ∈ g.row, l.2 ≠ pid) : Backed g s' := by
  refine ⟨backed.sound.wrote wrote, ?_, ?_, fun l hl => ?_⟩
  · rw [wrote.metaPage]
    exact backed.root
  · rw [wrote.metaPage]
    exact backed.range
  · by_cases e : l.2 = pid
    · rw [e]
      exact acc.resolve_right fun out => out l hl e
    · exact wrote.accounted l.2 e (backed.accounted l hl)

theorem Backed.extends {touched : List PageId} (backed : Backed g s) (ext : Extends touched s s')
    (root : s'.metaPage.rootPageId = s.metaPage.rootPageId)
    (acc : ∀ l ∈ g.row, l.2 ∈ touched → (s'.view l.2).Accounted) : Backed g s' := by
  refine ⟨backed.sound.extends ext, root.trans backed.root, fun i hi => ?_, fun l hl => ?_⟩
  · obtain ⟨lo, hi⟩ := backed.range i hi
    exact ⟨lo, hi.trans_le ext.grows⟩
  · by_cases mem : l.2 ∈ touched
    · exact acc l hl mem
    · have inside : l.2 ∈ g.ids := List.mem_append_right _ (List.mem_map_of_mem hl)
      exact ext.accounted l.2 mem (backed.range l.2 inside).2 (backed.accounted l hl)

theorem Standing.inner_ne_leaf (st : Standing g) {p : PageId} {l : Link}
    (inner : p ∈ innerIds g.bodies g.height g.top) (hl : l ∈ g.row) : p ≠ l.2 :=
  fun e => (List.nodup_append.mp st.nodup).2.2 p inner l.2 (List.mem_map_of_mem hl) e

/- The scene. -/

namespace Scene.Holds

theorem row (holds : c.Holds g key wantBefore sp) (st : Standing g) :
    g.row = c.pre ++ c.x :: c.post := by
  rw [← st.level, ← holds.height]
  exact holds.climb.level

theorem mem (holds : c.Holds g key wantBefore sp) (st : Standing g) : c.x.2 ∈ g.ids := by
  refine List.mem_append_right _ (List.mem_map_of_mem ?_)
  rw [holds.row st]
  simp

theorem bounds (holds : c.Holds g key wantBefore sp) (st : Standing g) :
    ((c.lo ++ c.hi).map Prod.fst).Pairwise (· < ·) ∧ (∀ r ∈ c.lo ++ c.hi, c.x.1 ≤ r.1) ∧
      ∀ r ∈ c.lo ++ c.hi, ∀ y ∈ c.post, r.1 < y.1 := by
  have lr := st.leaves
  rw [holds.row st] at lr
  have here : recsOf (g.bodies c.x.2) = c.recs := by rw [holds.body]; rfl
  have sub : (c.lo ++ c.hi).Sublist c.recs := by
    rcases holds.cut with ⟨eq, -⟩ | ⟨⟨old, eq⟩, -⟩
    · rw [eq]
    · rw [eq]
      simp
  have keys := lr.keys c.x (by simp)
  have lower := lr.lower c.x (by simp)
  rw [here] at keys lower
  exact ⟨keys.sublist (sub.map _), fun r hr => lower r (sub.subset hr), fun r hr y hy =>
    lr.here_lt (here ▸ sub.subset hr) hy⟩

theorem next (holds : c.Holds g key wantBefore sp) (st : Standing g) :
    c.next = (c.post.map Prod.snd).headD kInvalidPageId := by
  have linked := st.leaves.linked
  rw [holds.row st] at linked
  simp only [List.map_append, List.map_cons, linked_append, Linked] at linked
  obtain ⟨-, ⟨r, eq⟩, -⟩ := linked
  exact (Body.leaf.inj (holds.body.symm.trans eq)).2.1

theorem sibling (holds : c.Holds g key wantBefore sp) (st : Standing g) {y : Link} {rest : List Link}
    (eq : c.post = y :: rest) : y.2 ∈ g.ids ∧ y.2 ≠ c.x.2 ∧ y ∈ g.row := by
  have row := holds.row st
  have mem : y ∈ g.row := by rw [row, eq]; simp
  have nodup := st.nodup
  rw [Ghost.ids, row, eq, List.nodup_append, List.map_append, List.map_cons, List.map_cons,
    List.nodup_append, List.nodup_cons] at nodup
  refine ⟨List.mem_append_right _ (List.mem_map_of_mem mem), fun e => ?_, mem⟩
  exact nodup.2.1.2.1.1 (by simp [e])

theorem others (holds : c.Holds g key wantBefore sp) (st : Standing g) {l : Link}
    (hl : l ∈ c.pre ++ c.post.tail) :
    l.2 ∈ g.ids ∧ l.2 ≠ c.x.2 ∧ ∀ y rest, c.post = y :: rest → l.2 ≠ y.2 := by
  have row := holds.row st
  have mem : l ∈ g.row := by
    rw [row]
    rcases List.mem_append.mp hl with h | h
    · simp [h]
    · simp [List.mem_of_mem_tail h]
  have nodup := st.nodup
  rw [Ghost.ids, row, List.nodup_append, List.map_append, List.map_cons, List.nodup_append,
    List.nodup_cons] at nodup
  obtain ⟨-, ⟨-, ⟨xPost, postNodup⟩, disjoint⟩, -⟩ := nodup
  refine ⟨List.mem_append_right _ (List.mem_map_of_mem mem), fun e => ?_, fun y rest eq e => ?_⟩
  · rcases List.mem_append.mp hl with h | h
    · exact disjoint l.2 (List.mem_map_of_mem h) c.x.2 (by simp) e
    · exact xPost (e ▸ List.mem_map_of_mem (List.mem_of_mem_tail h))
  · rw [eq] at hl disjoint postNodup
    rcases List.mem_append.mp hl with h | h
    · exact disjoint l.2 (List.mem_map_of_mem h) y.2 (by simp) e
    · rw [List.map_cons, List.nodup_cons] at postNodup
      exact postNodup.1 (e ▸ List.mem_map_of_mem h)

theorem guards (holds : c.Holds g key wantBefore sp) (opGuards : List PageId) :
    c.Holds g key wantBefore { sp with opGuards := opGuards } :=
  ⟨holds.climb, holds.height, holds.leaf, holds.le, holds.lt, holds.body, holds.cut, holds.below,
    holds.above, holds.before⟩

end Scene.Holds

/- The leaf, page by page. -/

/-- The leaf is too full: it is cleared of the old record and its left half is written. -/
theorem begin_split {ancestors : List PageId} {leaf : PageId} {r : AtLeaf} {cut : LeafCut} {t : Store}
    {pre post : List Link} {b : Bytes} (st : Standing g) (backed : Backed g s)
    (agree : s.bodies = g.bodies) (climb : Climb g.bodies g.root ancestors pre (b, leaf) post)
    (height : ancestors.length = g.height) (le : b ≤ key) (lt : ∀ y ∈ post, key < y.1)
    (fits : 4 + key.length + value.length ≤ kMaxLeafRecordBytes)
    (put : putHeldLeaf key value txid wantBefore leaf s = .ok r t) (full : r.absorbed = false)
    (split : splitLeafLeft leaf txid t = .ok cut s') :
    Phase g s' key value wantBefore (.right ⟨ancestors, leaf, r.before, r.replacing, []⟩ cut) ∧
      Backed g s' ∧ s'.metaPage.numKeys = s.metaPage.numKeys ∧ cut.new = s.metaPage.numPages ∧
      s'.metaPage.numPages = s.metaPage.numPages + 1 := by
  have row : g.row = pre ++ (b, leaf) :: post := by
    rw [← st.level, ← height]
    exact climb.level
  have mem : (b, leaf) ∈ g.row := by simp [row]
  obtain ⟨prev, next, recs, body⟩ := st.leaves.isLeaf mem
  have here : recsOf (g.bodies leaf) = recs := by rw [body]; rfl
  have asc := st.leaves.keys _ mem
  rw [here] at asc
  have body' : s.bodies leaf = .leaf prev next recs := (congrFun agree leaf).trans body
  obtain ⟨before, ⟨yes, -⟩ | ⟨-, lo, hi, shape, below, above, wrote, acc, room⟩⟩ :=
    putHeldLeaf_local body' asc (backed.accounted _ mem) put
  · rw [full] at yes
    cases yes
  have holds : Scene.Holds ⟨pre, (b, leaf), post, prev, next, recs, lo, hi⟩ g key wantBefore
      ⟨ancestors, leaf, r.before, r.replacing, []⟩ :=
    ⟨climb, height, rfl, le, lt, body, shape, below, above, before⟩
  obtain ⟨ascCut, -, -⟩ := holds.bounds st
  have bodyT : t.bodies leaf = .leaf prev next (lo ++ hi) := by rw [wrote.bodies, Function.update_self]
  have backedT := backed.wrote wrote (.inl acc)
  obtain ⟨rfl, bodies, page, accL, ext⟩ := splitLeafLeft_ok backedT.sound.free bodyT ascCut split
  have some := full_ne_nil bodyT fits room
  obtain ⟨low, high, sep⟩ := middle_separates some ascCut rfl
  have inside := holds.mem st
  have old : leaf ≠ t.metaPage.numPages := (backedT.range leaf inside).2.ne
  rw [Page.leaf_room bodyT] at room
  refine ⟨⟨_, _, holds, ⟨?_, List.take_append_drop _ _, rfl, low, high, sep, room, ⟨?_, ?_, ?_⟩,
    nofun, nofun, ?_⟩, rfl⟩, ?_, ?_, ?_, ?_⟩
  · rw [bodies, Function.update_self]
  · exact fun mem => absurd rfl (backedT.range _ mem).2.ne
  · exact backedT.sound.first
  · rw [page]
    exact Nat.lt_succ_self _
  · intro p hx hn _
    rw [bodies, Function.update_of_ne hx, Function.update_of_ne hn, wrote.bodies, Function.update_of_ne hx,
      agree]
  · refine backedT.extends ext (by rw [page]) fun l _ hl => ?_
    rw [List.mem_singleton.mp hl]
    exact accL
  · rw [page, wrote.metaPage]
  · rw [wrote.metaPage]
  · rw [page, wrote.metaPage]

theorem right_step {cut : LeafCut} {u : Unit} (st : Standing g) (backed : Backed g s)
    (phase : Phase g s key value wantBefore (.right sp cut))
    (run : splitLeafRight sp.leaf txid cut s = .ok u s') :
    Phase g s' key value wantBefore (.relink sp cut) ∧ Backed g s' ∧ s'.metaPage = s.metaPage := by
  obtain ⟨c, left, holds, cutting, none⟩ := phase
  obtain ⟨asc, -, -⟩ := holds.bounds st
  rw [← cutting.join, List.map_append, List.pairwise_append] at asc
  obtain ⟨wrote, acc⟩ := splitLeafRight_ok asc.2.1 run
  have apart : c.x.2 ≠ cut.new := fun e => cutting.fresh.1 (e ▸ holds.mem st)
  refine ⟨⟨c, left, holds, ?_, none⟩, backed.wrote wrote (.inl acc), wrote.metaPage⟩
  refine ⟨?_, cutting.join, cutting.oldNext, cutting.low, cutting.high, cutting.sep, cutting.full, ?_, ?_,
    nofun, ?_⟩
  · rw [wrote.bodies, Function.update_of_ne apart]
    exact cutting.leftBody
  · rw [wrote.metaPage]
    exact cutting.fresh
  · intro _
    rw [wrote.bodies, Function.update_self, holds.leaf, cutting.oldNext]
    exact ⟨rfl, acc⟩
  · intro p hx hn hs
    rw [wrote.bodies, Function.update_of_ne hn]
    exact cutting.frame p hx hn nofun

theorem relink_last {cut : LeafCut} (st : Standing g) (backed : Backed g s)
    (phase : Phase g s key value wantBefore (.relink sp cut)) (last : cut.oldNext = kInvalidPageId) :
    Phase g s key value wantBefore (.place sp cut) := by
  obtain ⟨c, left, holds, cutting, none⟩ := phase
  have end_ : c.post = [] := by
    cases post : c.post with
    | nil => rfl
    | cons y rest =>
      have eq : cut.oldNext = y.2 := by rw [cutting.oldNext, holds.next st, post]; rfl
      have := (backed.range y.2 (holds.sibling st post).1).2.trans_le backed.sound.limit
      exact absurd (eq.symm.trans last) this.ne
  refine ⟨c, left, holds, ⟨cutting.leftBody, cutting.join, cutting.oldNext, cutting.low, cutting.high,
    cutting.sep, cutting.full, cutting.fresh, cutting.rightBody, ?_, ?_⟩, by simp [end_, none]⟩
  · intro _ y rest eq
    cases end_.symm.trans eq
  · intro p hx hn _
    exact cutting.frame p hx hn nofun

theorem relink_step {cut : LeafCut} {u : Unit} (st : Standing g) (backed : Backed g s)
    (phase : Phase g s key value wantBefore (.relink sp cut)) (some : cut.oldNext ≠ kInvalidPageId)
    (run : relinkSibling cut.oldNext cut.new txid s = .ok u s') :
    Phase g s' key value wantBefore (.place { sp with opGuards := [cut.oldNext] } cut) ∧ Backed g s' ∧
      s'.metaPage = s.metaPage := by
  obtain ⟨c, left, holds, cutting, none⟩ := phase
  cases post : c.post with
  | nil =>
    refine absurd ?_ some
    rw [cutting.oldNext, holds.next st, post]
    rfl
  | cons y rest =>
    have eq : cut.oldNext = y.2 := by rw [cutting.oldNext, holds.next st, post]; rfl
    rw [eq] at run
    obtain ⟨inside, apart, mem⟩ := holds.sibling st post
    have fresh : y.2 ≠ cut.new := fun e => cutting.fresh.1 (e ▸ inside)
    obtain ⟨wrote, acc⟩ := relinkSibling_ok run
    rw [cutting.frame y.2 apart fresh nofun] at wrote
    refine ⟨⟨c, left, holds.guards _, ?_, by simp [post, eq]⟩,
      backed.wrote wrote (.inl (acc (backed.accounted y mem))), wrote.metaPage⟩
    refine ⟨?_, cutting.join, cutting.oldNext, cutting.low, cutting.high, cutting.sep, cutting.full, ?_,
      fun yes => ?_, ?_, ?_⟩
    · rw [wrote.bodies, Function.update_of_ne apart.symm]
      exact cutting.leftBody
    · rw [wrote.metaPage]
      exact cutting.fresh
    · obtain ⟨body, acc'⟩ := cutting.rightBody yes
      refine ⟨?_, wrote.accounted _ fresh.symm acc'⟩
      rw [wrote.bodies, Function.update_of_ne fresh.symm]
      exact body
    · intro _ y' rest' eq'
      obtain ⟨rfl, -⟩ := List.cons.inj (post.symm.trans eq')
      rw [wrote.bodies, Function.update_self]
    · intro p hx hn hs
      rw [wrote.bodies, Function.update_of_ne (hs rfl y rest post)]
      exact cutting.frame p hx hn nofun

theorem place_step {cut : LeafCut} {u u' : Unit} {t : Store} (st : Standing g) (backed : Backed g s)
    (phase : Phase g s key value wantBefore (.place sp cut))
    (insert : insertSplit key value txid wantBefore sp.before cut.splitKey sp.leaf cut.new s = .ok u t)
    (count : onlyIf (!sp.replacing) (addToNumKeys 1) t = .ok u' s') :
    Phase g s' key value wantBefore (.climb { sp with opGuards := sp.opGuards ++ [cut.new] } sp.ancestors
        cut.splitKey sp.leaf cut.new) ∧ Backed g s' ∧
      s'.metaPage.numKeys = s.metaPage.numKeys + (if sp.replacing then 0 else 1) ∧
      s'.metaPage.numPages = s.metaPage.numPages := by
  obtain ⟨c, left, holds, cutting, sib⟩ := phase
  obtain ⟨asc, lower, upper⟩ := holds.bounds st
  have row := holds.row st
  have inside := holds.mem st
  have apart : cut.new ≠ c.x.2 := fun e => cutting.fresh.1 (e ▸ inside)
  obtain ⟨rightBody, rightAcc⟩ := cutting.rightBody rfl
  have leftAcc : (s.view c.x.2).Accounted := backed.accounted c.x (by simp [row])
  rw [holds.leaf] at insert
  have halves : Halves s c.x cut.new c.prev c.next cut.splitKey left cut.rightEntries :=
    ⟨cutting.leftBody, rightBody, leftAcc, rightAcc, cutting.low, cutting.high⟩
  have ascJoin : ((left ++ cut.rightEntries).map Prod.fst).Pairwise (· < ·) := by
    rw [cutting.join]
    exact asc
  obtain ⟨page, ext, left', right', lo, hi, halves', cut₁, cut₂, below, above, inserted⟩ :=
    insertSplit_ok apart ascJoin halves insert
  obtain ⟨rfl, rfl⟩ := cut_unique (cutting.join.symm.trans cut₁) holds.below holds.above below above
  have sepAbove : c.x.1 < cut.splitKey := by
    refine separator_above halves ascJoin ?_ holds.le ?_ cutting.sep inserted
    · rw [cutting.join]
      exact lower
    · rw [cutting.join]
      exact cutting.full
  have sepBelow : ∀ y ∈ c.post, cut.splitKey < y.1 := by
    obtain ⟨r, mem, eq⟩ := cutting.sep
    intro y hy
    rw [← eq]
    exact upper r (by rw [← cutting.join]; exact List.mem_append_right _ mem) y hy
  obtain ⟨pid, body, which, wrote⟩ := insertSplit_wrote insert
  have frame : ∀ p, p ≠ c.x.2 → p ≠ cut.new → t.bodies p = s.bodies p := by
    intro p hx hn
    rw [wrote.bodies, Function.update_of_ne]
    rintro rfl
    rcases which with rfl | rfl
    · exact hx rfl
    · exact hn rfl
  obtain ⟨n, rfl, keys⟩ := counted count
  have backedT : Backed g t := by
    refine backed.wrote wrote ?_
    rcases which with rfl | rfl
    · exact .inl halves'.leftAcc
    · refine .inr fun l hl e => cutting.fresh.1 ?_
      exact e ▸ List.mem_append_right _ (List.mem_map_of_mem hl)
  refine ⟨⟨c, cut.new, cut.splitKey, left', right', ⟨c.pre, c.x, c.post, 0, [], []⟩, holds.guards _, ?_, ?_⟩,
    ⟨⟨backedT.sound.free, backedT.sound.first, backedT.sound.limit, backedT.sound.readable⟩, backedT.root,
      backedT.range, backedT.accounted⟩, ?_, ?_⟩
  · refine ⟨halves'.leftBody, halves'.rightBody, halves'.rightAcc, cut₂, halves'.below, halves'.above,
      sepAbove, sepBelow, ?_, ?_, by simp, ?_⟩
    · intro y rest eq
      obtain ⟨mem, ne, -⟩ := holds.sibling st eq
      exact (frame y.2 ne fun e => cutting.fresh.1 (e ▸ mem)).trans (cutting.sibling rfl y rest eq)
    · intro l hl
      obtain ⟨mem, ne, away⟩ := holds.others st hl
      have new : l.2 ≠ cut.new := fun e => cutting.fresh.1 (e ▸ mem)
      exact (frame l.2 ne new).trans (cutting.frame l.2 ne new fun _ => away)
    · intro y rest eq
      simp [sib, eq]
  · have leafWritten : c.x.2 ∈ written { sp with opGuards := sp.opGuards ++ [cut.new] } [] := by
      simp [written, holds.leaf]
    refine ⟨rfl, holds.climb, holds.leaf, holds.height, ⟨?_, rfl, trivial, List.Perm.refl _, ?_⟩,
      ?_, ?_, by simp,
      sepAbove, sepBelow⟩
    · intro p out
      simp only [written, sib, holds.leaf, List.mem_append, List.mem_cons, List.not_mem_nil, or_false,
        not_or] at out
      refine (frame p out.2 out.1.2).trans (cutting.frame p out.2 out.1.2 fun _ y rest eq => ?_)
      simpa [eq] using out.1.1
    · intro n le k pre y post loc out
      obtain rfl := Nat.le_zero.mp le
      exact located_insert cut.new loc (fun e => out (e ▸ leafWritten)) sepAbove
    · intro p hp mem
      rw [holds.height] at hp
      simp only [written, sib, holds.leaf, List.mem_append, List.mem_cons, List.not_mem_nil,
        or_false] at mem
      rcases mem with (mem | rfl) | rfl
      · obtain ⟨y, hy, rfl⟩ := List.mem_map.mp mem
        refine st.inner_ne_leaf hp (l := y) ?_ rfl
        rw [row]
        simp [List.mem_of_mem_head? (Option.mem_toList.mp hy)]
      · exact cutting.fresh.1 (List.mem_append_left _ hp)
      · exact st.inner_ne_leaf hp (l := c.x) (by simp [row]) rfl
    · intro p hp
      obtain rfl := List.mem_singleton.mp hp
      refine ⟨cutting.fresh.1, cutting.fresh.2.1, ?_⟩
      rw [page]
      exact cutting.fresh.2.2
  · rw [keys, page]
  · change t.metaPage.numPages = _
    rw [page]

/- The ancestors, one after another. -/

theorem Standing.parts (st : Standing g) {n j : Nat} (eq : n + (j + 1) = g.height) :
    (innerIds g.bodies n g.top ++ ((g.level n).map Prod.snd ++
      innerIds g.bodies j (expand g.bodies (g.level n)))).Nodup ∧
    innerIds g.bodies n g.top ++ ((g.level n).map Prod.snd ++
      innerIds g.bodies j (expand g.bodies (g.level n))) ⊆ innerIds g.bodies g.height g.top := by
  have whole : innerIds g.bodies g.height g.top = innerIds g.bodies n g.top ++ ((g.level n).map Prod.snd ++
      innerIds g.bodies j (expand g.bodies (g.level n))) := by
    rw [← eq, innerIds_add]
    rfl
  rw [← whole]
  exact ⟨(List.nodup_append.mp st.nodup).1, List.Subset.refl _⟩

theorem climb_parent {bd : Bodies} {root a : PageId} {rest : List PageId} {pre post : List Link} {x : Link}
    (climb : Climb bd root (a :: rest) pre x post) :
    ∃ up p down left right r es, a = p.2 ∧ Climb bd root rest up p down ∧ bd p.2 = .internal r es ∧
      seg p.1 es r = left ++ x :: right ∧ pre = expand bd up ++ left ∧ post = right ++ expand bd down := by
  cases climb with
  | @down _ up down left right p _ r es above node children =>
    exact ⟨up, p, down, left, right, r, es, rfl, above, node, children, rfl, rfl⟩

structure OnPath (g : Ghost) (rest : List PageId) (j : Nat) (up : List Link) (p : Link) (down : List Link)
    (r : PageId) (es : List (Bytes × PageId)) : Prop where
  climb : Climb g.bodies g.root rest up p down
  height : rest.length + (j + 1) = g.height
  node : g.bodies p.2 = .internal r es

namespace OnPath

variable {rest : List PageId} {j : Nat} {up down : List Link} {p : Link} {r : PageId}
  {es : List (Bytes × PageId)}

theorem level (on : OnPath g rest j up p down r es) : g.level rest.length = up ++ p :: down :=
  on.climb.level

theorem expanded (on : OnPath g rest j up p down r es) : expand g.bodies (g.level rest.length) =
    expand g.bodies up ++ (seg p.1 es r ++ expand g.bodies down) := by
  rw [on.level]
  simp [on.node, segOf]

theorem nodes (on : OnPath g rest j up p down r es) (st : Standing g) :
    ∀ l ∈ up ++ p :: down, IsNode (g.bodies l.2) := by
  rw [← on.level]
  exact (st.below (by have := on.height; omega)).1

theorem asc (on : OnPath g rest j up p down r es) (st : Standing g) :
    Asc (up ++ p :: down) ∧ Asc (seg p.1 es r ++ expand g.bodies down) := by
  have below := (st.below (n := rest.length) (by have := on.height; omega)).2
  refine ⟨?_, ?_⟩
  · rw [← on.level]
    exact asc_of_expand (by rw [on.level]; exact on.nodes st) below
  · rw [on.expanded] at below
    exact (asc_append below).2

theorem apart (on : OnPath g rest j up p down r es) (st : Standing g) :
    p.2 ∈ innerIds g.bodies g.height g.top ∧ p.2 ∉ innerIds g.bodies rest.length g.top ∧
      p.2 ∉ (up ++ down).map Prod.snd ∧
      p.2 ∉ innerIds g.bodies j (expand g.bodies (g.level rest.length)) := by
  obtain ⟨nodup, sub⟩ := st.parts on.height
  rw [on.level] at nodup sub ⊢
  have here : p.2 ∈ (up ++ p :: down).map Prod.snd := by simp
  rw [List.nodup_append, List.nodup_append] at nodup
  obtain ⟨-, ⟨level, -, below⟩, above⟩ := nodup
  refine ⟨sub (List.mem_append_right _ (List.mem_append_left _ here)), fun mem => ?_, fun mem => ?_,
    fun mem => ?_⟩
  · exact above p.2 mem p.2 (List.mem_append_left _ here) rfl
  · rw [List.map_append, List.map_cons, List.nodup_middle, List.nodup_cons, ← List.map_append] at level
    exact level.1 mem
  · exact below p.2 here p.2 mem rfl

theorem promoted (on : OnPath g rest j up p down r es) (st : Standing g) {i : Nat} (hi : i < es.length) :
    p.1 < es[i].1 ∧ ∀ y ∈ down, es[i].1 < y.1 := by
  obtain ⟨-, asc⟩ := on.asc st
  have segAsc := (asc_append asc).1
  rw [Asc, seg_bounds, List.pairwise_cons] at segAsc
  refine ⟨segAsc.1 _ (List.mem_map_of_mem (List.getElem_mem hi)), fun y hy => ?_⟩
  obtain ⟨first, _, head⟩ := segOf_bounds (b := y.1) (on.nodes st y (by simp [hy]))
  have inDown : (y.1, first) ∈ expand g.bodies down :=
    List.mem_flatMap.mpr ⟨y, hy, by rw [head]; simp⟩
  have own : ∃ child, (es[i].1, child) ∈ seg p.1 es r := by
    rw [seg_split p.1 es r hi]
    obtain ⟨child, _, head⟩ := seg_cons es[i].1 (es.drop (i + 1)) r
    exact ⟨child, by simp [head]⟩
  obtain ⟨child, mem⟩ := own
  have lt := asc_lt asc mem inDown
  exact lt

end OnPath

theorem Halved.congr {q : PageId} {sep : Bytes} {left right : List (Bytes × Bytes)}
    (halved : Halved c g s key value sp q sep left right) (holds : c.Holds g key wantBefore sp)
    (st : Standing g) (same : ∀ p, p = q ∨ p ∈ g.row.map Prod.snd → s'.bodies p = s.bodies p)
    (acc : (s.view q).Accounted → (s'.view q).Accounted) :
    Halved c g s' key value sp q sep left right := by
  have row := holds.row st
  have onRow : ∀ l ∈ g.row, s'.bodies l.2 = s.bodies l.2 := fun l hl =>
    same l.2 (.inr (List.mem_map_of_mem hl))
  obtain ⟨leftBody, rightBody, rightAcc, join, low, high, above, below, sibling, others, guarded⟩ := halved
  refine ⟨?_, (same q (.inl rfl)).trans rightBody, acc rightAcc, join, low, high, above, below, ?_, ?_,
    guarded⟩
  · exact (onRow c.x (by simp [row])).trans leftBody
  · intro y rest eq
    exact (onRow y (holds.sibling st eq).2.2).trans (sibling y rest eq)
  · intro l hl
    refine (onRow l ?_).trans (others l hl)
    rw [row]
    rcases List.mem_append.mp hl with h | h
    · simp [h]
    · simp [List.mem_of_mem_tail h]

theorem Halved.guards {q : PageId} {sep : Bytes} {left right : List (Bytes × Bytes)} (p : PageId)
    (halved : Halved c g s key value sp q sep left right) :
    Halved c g s key value { sp with opGuards := sp.opGuards ++ [p] } q sep left right := by
  obtain ⟨leftBody, rightBody, rightAcc, join, low, high, above, below, sibling, others, guarded⟩ := halved
  exact ⟨leftBody, rightBody, rightAcc, join, low, high, above, below, sibling, others,
    List.mem_append_left _ guarded.1, fun y rest eq => List.mem_append_left _ (guarded.2 y rest eq)⟩

theorem aside_alike (held : List PageId) (g : Ghost) (alike : Alike s s') : Aside held g g s s' where
  root := rfl
  height := rfl
  row := rfl
  tree _ := .inl rfl
  file p := .inl (congrFun alike.bodies p)
  kept p _ := ⟨congrFun alike.bodies p, rfl, alike.accounted p⟩
  agree p eq := (congrFun alike.bodies p).trans eq
  pages := alike.pages

theorem Backed.alike (backed : Backed g s) (alike : Alike s s') : Backed g s' where
  sound := backed.sound.alike alike
  root := alike.root.trans backed.root
  range := by rw [alike.pages]; exact backed.range
  accounted l hl := alike.accounted l.2 (backed.accounted l hl)

theorem Grown.outside {touched : List PageId} {j : Nat} {old new row : List Link} {news : List PageId}
    {p : PageId} (gr : Grown g s.bodies touched j old new row news) (fresh : p ∉ news)
    (away : p ∉ innerIds g.bodies j old) : p ∉ innerIds s.bodies j new := by
  intro mem
  rcases List.mem_append.mp (gr.ids.mem_iff.mp mem) with mem | mem
  · exact fresh mem
  · exact away mem

variable {k : Stage} {d : Tear} {q left right parent : PageId} {row : List Link}
    {rest : List PageId} {sep b : Bytes}
  {l r : List (Bytes × Bytes)} {cut : NodeCut}

theorem tear_step (st : Standing g) (backed : Backed g s) (holds : c.Holds g key wantBefore sp)
    (halved : Halved c g s key value sp q b l r)
    (climbing : Climbing k g s sp q row (parent :: rest) sep left right)
    (split : splitInternalLeft parent txid s = .ok cut s') :
    (∃ d, Tearing k d g s' sp q row rest sep left right parent cut false) ∧
      Halved c g s' key value sp q b l r ∧ Backed g s' ∧ s'.metaPage.numKeys = s.metaPage.numKeys ∧
      cut.new = s.metaPage.numPages ∧ s'.metaPage.numPages = s.metaPage.numPages + 1 := by
  obtain ⟨ancestors, climb, leftEq, height, grown, clear, fresh, nodup, above, below⟩ := climbing
  obtain ⟨up, p, down, dl, dr, rm, es, rfl, climb', node, children, preEq, postEq⟩ := climb_parent climb
  have on : OnPath g rest k.j up p down rm es := ⟨climb', by rw [← height, List.length_cons]; omega, node⟩
  obtain ⟨inside, notAbove, alone, notBelow⟩ := on.apart st
  have old : k.pre ++ k.x :: k.post = expand g.bodies (g.level rest.length) := by
    rw [on.expanded, children, preEq, postEq]
    simp
  rw [List.length_cons, innerIds_succ, climb'.level] at clear
  have body : s.bodies p.2 = .internal rm es := (grown.frame p.2 (clear p.2 (by simp))).trans node
  have ascEs := asc_seg_keys (asc_append (on.asc st).2).1
  obtain ⟨page, ext, i, hi, -, rfl, bodies⟩ := splitInternalLeft_ok backed.sound.free body ascEs split
  have outside : ∀ i ∈ g.ids, i ≠ s.metaPage.numPages := fun i hi => (backed.range i hi).2.ne
  have freshNew : s.metaPage.numPages ∉ g.ids := fun mem => outside _ mem rfl
  have freshNews : ∀ i ∈ q :: k.news, i ≠ s.metaPage.numPages ∧ i ≠ p.2 := fun i hi =>
    ⟨(fresh i hi).2.2.ne, fun e => (fresh i hi).1 (e ▸ List.mem_append_left _ inside)⟩
  have frame : ∀ i, i ≠ s.metaPage.numPages → i ≠ p.2 → s'.bodies i = s.bodies i := by
    intro i hn hp
    rw [bodies, Function.update_of_ne hp, Function.update_of_ne hn]
  have pages : s'.metaPage.numPages = s.metaPage.numPages + 1 := by rw [page]
  refine ⟨⟨⟨up, p, down, rm, es, dl, dr, i⟩, ?_⟩, ?_, ?_, ?_, rfl, pages⟩
  · refine ⟨ancestors, climb', rfl, node, children, preEq, postEq, leftEq, on.height, ?_, ?_, ?_, ?_, above,
      below, hi, ⟨rfl, rfl, rfl⟩, ?_, nofun⟩
    · refine grown.touch ?_ ?_ ?_
      · intro i hi
        simp only [written, List.mem_append, List.mem_cons] at hi ⊢
        tauto
      · intro i out
        exact frame i (fun e => out (by simp [e])) fun e => out (by simp [e, written])
      · intro i hi
        refine frame i ?_ ?_
        · rintro rfl
          refine grown.outside (fun mem => (freshNews _ (List.mem_cons_of_mem _ mem)).1 rfl) ?_ hi
          rw [old]
          exact fun mem => freshNew (List.mem_append_left _ ((st.parts on.height).2
            (List.mem_append_right _ (List.mem_append_right _ mem))))
        · rintro rfl
          refine grown.outside (fun mem => (freshNews _ (List.mem_cons_of_mem _ mem)).2 rfl) ?_ hi
          rw [old]
          exact notBelow
    · intro i hi mem
      have inIds : i ∈ innerIds g.bodies rest.length g.top ++ (up ++ p :: down).map Prod.snd := by
        simp only [List.mem_append, List.map_append, List.map_cons, List.mem_cons] at hi ⊢
        tauto
      have known : i ∈ g.ids := by
        refine List.mem_append_left _ ((st.parts on.height).2 ?_)
        rw [on.level, ← List.append_assoc]
        exact List.mem_append_left _ inIds
      have ne : i ≠ p.2 := by
        rintro rfl
        rcases List.mem_append.mp hi with hi | hi
        · exact notAbove hi
        · exact alone hi
      have away := clear i inIds
      simp only [written, List.mem_append, List.mem_cons, List.not_mem_nil, or_false, not_or] at mem away
      rcases mem with rfl | mem | rfl | mem | rfl
      · exact freshNew known
      · exact away.1 mem
      · exact away.2.1 rfl
      · exact away.2.2 mem
      · exact ne rfl
    · intro i hi
      rw [pages]
      rcases List.mem_cons.mp hi with rfl | hi
      · exact ⟨(fresh i List.mem_cons_self).1, (fresh i List.mem_cons_self).2.1,
          Nat.lt_succ_of_lt (fresh i List.mem_cons_self).2.2⟩
      · rcases List.mem_cons.mp hi with rfl | hi
        · exact ⟨freshNew, backed.sound.first, Nat.lt_succ_self _⟩
        · have := fresh i (List.mem_cons_of_mem _ hi)
          exact ⟨this.1, this.2.1, Nat.lt_succ_of_lt this.2.2⟩
    · rw [List.nodup_cons] at nodup
      simp only [List.nodup_cons, List.mem_cons, not_or]
      exact ⟨⟨(freshNews q List.mem_cons_self).1, nodup.1⟩,
        fun mem => (freshNews _ (List.mem_cons_of_mem _ mem)).1 rfl, nodup.2⟩
    · rw [bodies, Function.update_self]
  · refine halved.congr holds st (fun i hi => ?_) fun acc => ?_
    · rcases hi with rfl | hi
      · exact frame i (freshNews i List.mem_cons_self).1 (freshNews i List.mem_cons_self).2
      · obtain ⟨a, ha, rfl⟩ := List.mem_map.mp hi
        exact frame a.2 (outside a.2 (List.mem_append_right _ hi)) (st.inner_ne_leaf inside ha).symm
    · refine ext.accounted q ?_ (fresh q List.mem_cons_self).2.2 acc
      rw [List.mem_singleton]
      exact (freshNews q List.mem_cons_self).2
  · refine backed.extends ext (by rw [page]) fun a ha mem => ?_
    exact absurd (List.mem_singleton.mp mem).symm (st.inner_ne_leaf inside ha)
  · rw [page]

namespace Tearing

variable {both : Bool}

theorem onPath (tearing : Tearing k d g s sp q row rest sep left right parent cut both) :
    OnPath g rest k.j d.up d.parent d.down d.rightmost d.entries :=
  ⟨tearing.climb, tearing.height, tearing.node⟩

theorem old (tearing : Tearing k d g s sp q row rest sep left right parent cut both) :
    k.pre ++ k.x :: k.post = expand g.bodies (g.level rest.length) := by
  rw [tearing.onPath.expanded, tearing.children, tearing.preEq, tearing.postEq]
  simp

theorem halves_apart (tearing : Tearing k d g s sp q row rest sep left right parent cut both)
    (st : Standing g) {p : PageId} (hp : p = d.parent.2 ∨ p = cut.new) :
    p ∉ innerIds s.bodies k.j (k.pre ++ k.x :: (sep, right) :: k.post) ∧ p ≠ q ∧
      ∀ a ∈ g.row, a.2 ≠ p := by
  obtain ⟨inside, -, -, notBelow⟩ := tearing.onPath.apart st
  have nodup := tearing.nodup
  simp only [List.nodup_cons, List.mem_cons, not_or] at nodup
  have freshOf := tearing.fresh
  rcases hp with rfl | rfl
  · have notFresh : ∀ i ∈ q :: cut.new :: k.news, i ≠ d.parent.2 := fun i hi e =>
      (freshOf i hi).1 (e ▸ List.mem_append_left _ inside)
    refine ⟨tearing.grown.outside (fun mem => notFresh _ (by simp [mem]) rfl) ?_,
      (notFresh q (by simp)).symm, fun a ha => (st.inner_ne_leaf inside ha).symm⟩
    rw [tearing.old]
    exact notBelow
  · have unknown := (freshOf cut.new (by simp)).1
    refine ⟨tearing.grown.outside nodup.2.1 ?_, fun e => nodup.1.1 e.symm, fun a ha e => ?_⟩
    · rw [tearing.old]
      exact fun mem => unknown (List.mem_append_left _ ((st.parts tearing.onPath.height).2
        (List.mem_append_right _ (List.mem_append_right _ mem))))
    · exact unknown (e ▸ List.mem_append_right _ (List.mem_map_of_mem ha))

end Tearing

theorem innerRight_step {u : Unit} (st : Standing g) (backed : Backed g s)
    (holds : c.Holds g key wantBefore sp) (halved : Halved c g s key value sp q b l r)
    (tearing : Tearing k d g s sp q row rest sep left right parent cut false)
    (run : splitInternalRight txid cut s = .ok u s') :
    Tearing k d g s' sp q row rest sep left right parent cut true ∧
      Halved c g s' key value sp q b l r ∧ Backed g s' ∧ s'.metaPage = s.metaPage := by
  obtain ⟨below, notNew, notLeaf⟩ := tearing.halves_apart st (.inr rfl)
  have segAsc := asc_seg_keys (asc_append (tearing.onPath.asc st).2).1
  obtain ⟨-, entriesEq, rightmostEq⟩ := tearing.cutEq
  have wrote := splitInternalRight_ok (by
    rw [entriesEq]
    exact segAsc.sublist ((List.drop_sublist _ _).map _)) run
  rw [entriesEq, rightmostEq] at wrote
  have frame : ∀ p, p ≠ cut.new → s'.bodies p = s.bodies p := fun p ne => by
    rw [wrote.bodies, Function.update_of_ne ne]
  have apart : d.parent.2 ≠ cut.new := fun e =>
    (tearing.fresh cut.new (by simp)).1 (e ▸ List.mem_append_left _ (tearing.onPath.apart st).1)
  refine ⟨?_, halved.congr holds st (fun p hp => ?_) fun acc => wrote.accounted q notNew.symm acc, ?_,
    wrote.metaPage⟩
  · obtain ⟨ancestors, climb, parentEq, node, children, preEq, postEq, leftEq, height, grown, clear, fresh,
      nodup, above, below', inside, cutEq, leftBody, -⟩ := tearing
    refine ⟨ancestors, climb, parentEq, node, children, preEq, postEq, leftEq, height, ?_, clear, ?_, nodup,
      above, below', inside, cutEq, (frame _ apart).trans leftBody, fun _ => ?_⟩
    · refine grown.touch (List.Subset.refl _) (fun p out => frame p fun e => out (by simp [e])) ?_
      intro p hp
      exact frame p fun e => below (e ▸ hp)
    · rw [wrote.metaPage]
      exact fresh
    · rw [wrote.bodies, Function.update_self]
  · rcases hp with rfl | hp
    · exact frame p notNew.symm
    · obtain ⟨a, ha, rfl⟩ := List.mem_map.mp hp
      exact frame a.2 (notLeaf a ha)
  · exact backed.wrote wrote (.inr notLeaf)

theorem innerPlace_step {u : Unit} (st : Standing g) (backed : Backed g s)
    (holds : c.Holds g key wantBefore sp) (halved : Halved c g s key value sp q b l r)
    (tearing : Tearing k d g s sp q row rest sep left right parent cut true)
    (run : insertIntoHalf txid sep cut.splitKey left right parent cut.new s = .ok u s') :
    (∃ k', Climbing k' g s' { sp with opGuards := sp.opGuards ++ [cut.new] } q row rest cut.splitKey parent
        cut.new) ∧
      Halved c g s' key value { sp with opGuards := sp.opGuards ++ [cut.new] } q b l r ∧ Backed g s' ∧
      s'.metaPage = s.metaPage := by
  obtain ⟨belowP, notQP, notLeafP⟩ := tearing.halves_apart st (.inl rfl)
  obtain ⟨belowN, notQN, notLeafN⟩ := tearing.halves_apart st (.inr rfl)
  have on := tearing.onPath
  have old := tearing.old
  obtain ⟨inside, notAbove, alone, -⟩ := on.apart st
  have segAsc := (asc_append (on.asc st).2).1
  have rightBody := tearing.rightBody rfl
  obtain ⟨ancestors, climb, rfl, node, children, preEq, postEq, rfl, height, grown, clear, fresh,
    nodup, above,
    below, hi, ⟨keyEq, -, -⟩, leftBody, -⟩ := tearing
  have apart : cut.new ≠ d.parent.2 := fun e =>
    (fresh cut.new (by simp)).1 (e ▸ List.mem_append_left _ inside)
  rw [keyEq] at run ⊢
  rw [children] at segAsc
  obtain ⟨page, ext, r₁, es₁, r₂, es₂, leftBody', rightBody', frame, cover⟩ :=
    insertIntoHalf_ok apart leftBody
    rightBody ((seg_split _ _ _ hi).symm.trans children) segAsc above
    (fun y hy => below y (by rw [postEq]; exact List.mem_append_left _ hy)) run
  obtain ⟨sepAbove, sepBelow⟩ := on.promoted st hi
  have touch : cut.new :: written sp (k.finished ++ [d.parent.2]) ⊆
      written { sp with opGuards := sp.opGuards ++ [cut.new] } (k.finished ++ [d.parent.2]) := by
    intro p hp
    simp only [written, List.mem_append, List.mem_cons] at hp ⊢
    tauto
  have back : written { sp with opGuards := sp.opGuards ++ [cut.new] } (k.finished ++ [d.parent.2]) ⊆
      cut.new :: written sp (k.finished ++ [d.parent.2]) := by
    intro p hp
    simp only [written, List.mem_append, List.mem_cons, List.not_mem_nil, or_false] at hp ⊢
    tauto
  have grown' : Grown g s'.bodies
      (written { sp with opGuards := sp.opGuards ++ [cut.new] } (k.finished ++ [d.parent.2])) k.j
      (k.pre ++ k.x :: k.post) (k.pre ++ k.x :: (sep, right) :: k.post) row k.news := by
    refine grown.touch touch (fun p out => ?_) fun p hp => ?_
    · exact frame p (fun e => out (by simp [e, written])) fun e => out (by simp [e, written])
    · exact frame p (fun e => belowP (e ▸ hp)) fun e => belowN (e ▸ hp)
  have level : ∀ a ∈ d.up ++ d.down, s'.bodies a.2 = g.bodies a.2 := fun a ha =>
    grown'.frame a.2 fun mem => clear a.2 (List.mem_append_right _ (List.mem_map_of_mem ha)) (back mem)
  have expandUp : expand s'.bodies d.up = expand g.bodies d.up :=
    expand_congr fun a ha => level a (by simp [ha])
  have expandDown : expand s'.bodies d.down = expand g.bodies d.down :=
    expand_congr fun a ha => level a (by simp [ha])
  refine ⟨⟨⟨d.up, d.parent, d.down, k.j + 1, k.finished ++ [d.parent.2], cut.new :: k.news⟩, ?_⟩,
    ?_, ?_, page⟩
  · refine ⟨by rw [ancestors]; simp, climb, rfl, height, ?_, ?_, ?_, ?_, sepAbove, sepBelow⟩
    · refine @Grown.up _ _ _ _ _ _ _ _ _ _ [cut.new] grown' ?_ ?_ ?_ ?_ ?_
      · rw [old, on.level]
      · simp only [expand_append, expand_cons, expandUp, expandDown, leftBody', rightBody', segOf, preEq,
          postEq]
        rw [← List.append_assoc (seg _ _ _), cover]
        simp
      · intro a ha
        simp only [List.mem_append, List.mem_cons] at ha
        rcases ha with ha | rfl | rfl | ha
        · rw [level a (by simp [ha])]
          exact on.nodes st a (by simp [ha])
        · exact ⟨r₁, es₁, leftBody'⟩
        · exact ⟨r₂, es₂, rightBody'⟩
        · rw [level a (by simp [ha])]
          exact on.nodes st a (by simp [ha])
      · simpa using (perm_after d.up d.down d.parent (d.entries[d.i].1, cut.new)).map Prod.snd
      · intro key' pre y post loc out
        exact located_insert cut.new loc (fun e => out (by simp [e, written])) sepAbove
    · exact fun p hp mem => clear p (List.mem_append_left _ hp) (back mem)
    · rw [page]
      exact fresh
    · exact nodup
  · refine (halved.congr holds st (fun p hp => ?_) fun acc => ?_).guards cut.new
    · rcases hp with rfl | hp
      · exact frame p notQP.symm notQN.symm
      · obtain ⟨a, ha, rfl⟩ := List.mem_map.mp hp
        exact frame a.2 (notLeafP a ha) (notLeafN a ha)
    · refine ext.accounted q ?_ (fresh q (by simp)).2.2 acc
      simp only [List.mem_cons, List.not_mem_nil, or_false, not_or]
      exact ⟨notQP.symm, notQN.symm⟩
  · refine backed.extends ext (by rw [page]) fun a ha mem => ?_
    simp only [List.mem_cons, List.not_mem_nil, or_false] at mem
    rcases mem with mem | mem
    · exact absurd mem (notLeafP a ha)
    · exact absurd mem (notLeafN a ha)

end PagerDB.Crab

import PagerDB.BTree.SplitSteps

/-! The last step of a splitting Put. Until then the tree is as it was; with it every
page the split has written becomes the tree. -/
namespace PagerDB.Crab

open SortedLib Store

variable {g g' : Ghost} {s s' : Store} {key value : Bytes} {txid : TxId} {wantBefore : Bool} {c : Scene}
  {sp : Splitting} {q : PageId} {b : Bytes} {l r : List (Bytes × Bytes)}

/-- The Put has taken effect. Threads that stand on pages it did not hold still stand on
their way. -/
structure Committed (held : List PageId) (key value : Bytes) (replacing : Bool) (g g' : Ghost)
    (s : Store) : Prop where
  standing : Standing g'
  backed : Backed g' s
  agree : s.bodies = g'.bodies
  put : Put key value g.entries g'.entries
  count : (g'.entries.length : Int) = g.entries.length + if replacing then 0 else 1
  at_ : ∀ k node, At g k node → node ∉ held → At g' k node
  reaches : ∀ k leaf, Reaches g.row k leaf → leaf ∉ held → Reaches g'.row k leaf
  row : g.row.Sublist g'.row

theorem inner_add (bd : Bodies) (a b : Nat) (links : List Link) :
    Inner bd (a + b) links ↔ Inner bd a links ∧ Inner bd b (leavesOf bd a links) := by
  induction a generalizing links with
  | zero => simp [Inner, leavesOf]
  | succ a ih =>
    rw [Nat.succ_add]
    simp only [Inner, leavesOf, ih, and_assoc]

theorem Standing.level_ids (st : Standing g) {n : Nat} (le : n ≤ g.height) {a : Link}
    (ha : a ∈ g.level n) : a.2 ∈ g.ids := by
  rcases Nat.lt_or_eq_of_le le with lt | rfl
  · obtain ⟨m, eq⟩ := Nat.exists_eq_add_of_lt lt
    refine List.mem_append_left _ ?_
    rw [eq, Nat.add_assoc, innerIds_add]
    exact List.mem_append_right _ (List.mem_append_left _ (List.mem_map_of_mem ha))
  · rw [st.level] at ha
    exact List.mem_append_right _ (List.mem_map_of_mem ha)

theorem Halved.row (halved : Halved c g s key value sp q b l r) (holds : c.Holds g key wantBefore sp)
    (st : Standing g) :
    LeafRow s.bodies (c.rowAfter b q) ∧ contents s.bodies (c.rowAfter b q) =
      contents g.bodies c.pre ++ (c.lo ++ (key, value) :: c.hi) ++ contents g.bodies c.post := by
  obtain ⟨asc, lower, upper⟩ := holds.bounds st
  have lr := st.leaves
  rw [holds.row st] at lr
  obtain ⟨inserted, inLower, inUpper⟩ :=
    fits_between value asc lower upper holds.le holds.lt (.inl rfl) holds.below holds.above
  rw [← halved.join] at inserted inLower inUpper ⊢
  refine lr.split holds.body halved.leftBody halved.rightBody (fun a ha => ?_) (fun y rest eq => ⟨?_, ?_⟩)
    halved.above halved.below (inserted.sublist (by simp)) (inserted.sublist (by simp)) ?_ ?_
  · exact halved.others a (List.mem_append_left _ ha)
  · intro n rs body
    rw [halved.sibling y rest eq, body]
    rfl
  · exact fun a ha => halved.others a (List.mem_append_right _ (by simpa [eq] using ha))
  · exact fun e he => ⟨inLower e (List.mem_append_left _ he), halved.low e he⟩
  · exact fun e he => ⟨halved.high e he, inUpper e (List.mem_append_right _ he)⟩

theorem Halved.entries (halved : Halved c g s key value sp q b l r) (holds : c.Holds g key wantBefore sp)
    (st : Standing g) :
    Put key value g.entries (contents s.bodies (c.rowAfter b q)) ∧
      ((contents s.bodies (c.rowAfter b q)).length : Int) =
        g.entries.length + if sp.replacing then 0 else 1 := by
  have lr := st.leaves
  rw [holds.row st] at lr
  have whole : g.entries = contents g.bodies c.pre ++ c.recs ++ contents g.bodies c.post := by
    rw [Ghost.entries, holds.row st]
    exact contents_here holds.body
  have left : ∀ e ∈ contents g.bodies c.pre, e.1 < key := fun e he => (lr.left_lt he).trans_le holds.le
  rw [(halved.row holds st).2, whole]
  refine ⟨put_of_cut (holds.cut.imp And.left And.left) rfl left holds.below holds.below, ?_⟩
  rcases holds.cut with ⟨eq, no⟩ | ⟨⟨old, eq⟩, yes⟩
  · rw [eq, no]
    simp
    omega
  · rw [eq, yes]
    simp

theorem commit {d : Nat} {root : PageId} {touched news held : List PageId} {new : List Link}
    (st : Standing g) (holds : c.Holds g key wantBefore sp) (halved : Halved c g s key value sp q b l r)
    (grown : Grown g s.bodies touched g.height g.top new (c.rowAfter b q) news)
    (level : leavesOf s.bodies d [([], root)] = new) (inner : Inner s.bodies d [([], root)])
    (fresh : ∀ p ∈ innerIds s.bodies d [([], root)] ++ q :: news,
      p ∉ g.ids ∧ kFirstDataPage ≤ p ∧ p < s.metaPage.numPages)
    (nodup : (innerIds s.bodies d [([], root)] ++ q :: news).Nodup) (sound : Sound s)
    (rootEq : s.metaPage.rootPageId = root)
    (range : ∀ i ∈ g.ids, kFirstDataPage ≤ i ∧ i < s.metaPage.numPages)
    (accounted : ∀ a ∈ g.row, (s.view a.2).Accounted) (sub : ∀ p ∈ g.ids, p ∈ touched → p ∈ held) :
    Committed held key value sp.replacing g ⟨s.bodies, root, d + g.height, c.rowAfter b q⟩ s := by
  have row := holds.row st
  obtain ⟨leaves, -⟩ := halved.row holds st
  obtain ⟨put, count⟩ := halved.entries holds st
  have levels : ∀ n, leavesOf s.bodies (d + n) [([], root)] = leavesOf s.bodies n new := fun n => by
    rw [leavesOf_add, level]
  have ids : (Ghost.ids ⟨s.bodies, root, d + g.height, c.rowAfter b q⟩).Perm
      ((innerIds s.bodies d [([], root)] ++ q :: news) ++ g.ids) := by
    have swap : ((c.rowAfter b q).map Prod.snd).Perm (q :: g.row.map Prod.snd) := by
      rw [row]
      simpa [Scene.rowAfter] using (perm_after c.pre c.post c.x (b, q)).map Prod.snd
    simp only [Ghost.ids, innerIds_add, level, List.append_assoc]
    refine List.Perm.append_left _ ((grown.ids.append swap).trans ?_)
    rw [List.append_assoc]
    refine (List.Perm.append_left news List.perm_middle).trans ?_
    rw [List.cons_append]
    exact List.perm_middle
  refine ⟨⟨?_, ?_, ?_, leaves⟩, ⟨sound, rootEq, ?_, ?_⟩, rfl, put, count, ?_, ?_, ?_⟩
  · exact (levels g.height).trans grown.level
  · refine (inner_add _ _ _ _).mpr ⟨inner, ?_⟩
    rw [level]
    exact grown.inner
  · rw [ids.nodup_iff, List.nodup_append]
    refine ⟨nodup, st.nodup, fun p hp i hi e => ?_⟩
    exact (fresh p hp).1 (e ▸ hi)
  · intro i hi
    rcases List.mem_append.mp (ids.mem_iff.mp hi) with hi | hi
    · exact (fresh i hi).2
    · exact range i hi
  · intro a ha
    simp only [Scene.rowAfter, List.mem_append, List.mem_cons] at ha
    by_cases new : a = (b, q)
    · rw [new]
      exact halved.rightAcc
    · refine accounted a ?_
      rw [row]
      simp only [List.mem_append, List.mem_cons]
      tauto
  · intro k node at_ out
    obtain ⟨-, n, le, pre, bound, post, loc⟩ := at_
    have known : node ∈ g.ids := st.level_ids le (by simp [loc.eq] : (bound, node) ∈ g.level n)
    obtain ⟨pre', post', loc'⟩ := grown.keeps n le k pre _ post loc fun mem => out (sub _ known mem)
    refine ⟨by simp [Scene.rowAfter], d + n, Nat.add_le_add_left le d, pre', bound, post', ?_⟩
    rw [Ghost.level, levels n]
    exact loc'
  · intro k leaf reaches out
    obtain ⟨pre, bound, post, loc⟩ := reaches
    rw [← st.level] at loc
    have known : leaf ∈ g.ids := st.level_ids le_rfl (by simp [loc.eq] : (bound, leaf) ∈ g.level g.height)
    obtain ⟨pre', post', loc'⟩ := grown.keeps g.height le_rfl k pre _ post loc fun mem =>
      out (sub _ known mem)
    exact ⟨pre', bound, post', grown.level ▸ loc'⟩
  · rw [row]
    exact List.Sublist.append_left (List.Sublist.cons_cons _ (List.sublist_cons_self _ _)) _

variable {k : Stage} {left right parent : PageId} {rest : List PageId} {sep : Bytes}

theorem absorb_step {p : Page} (st : Standing g) (backed : Backed g s)
    (holds : c.Holds g key wantBefore sp) (halved : Halved c g s key value sp q b l r)
    (climbing : Climbing k g s sp q (c.rowAfter b q) (parent :: rest) sep left right)
    (absorbed : (s.view parent).insertInternalAfterSplit sep left right = (true, p))
    (same : Same (s.putPage parent p) s') :
    Committed (Pc.guards sp) key value sp.replacing g ⟨s'.bodies, g.root, g.height, c.rowAfter b q⟩ s' := by
  obtain ⟨ancestors, climb, rfl, height, grown, clear, fresh, nodup, above, below⟩ := climbing
  obtain ⟨up, p, down, dl, dr, rm, es, rfl, climb', node, children, preEq, postEq⟩ := climb_parent climb
  have on : OnPath g rest k.j up p down rm es := ⟨climb', by rw [← height, List.length_cons]; omega, node⟩
  obtain ⟨inside, notAbove, alone, notBelow⟩ := on.apart st
  have old : k.pre ++ k.x :: k.post = expand g.bodies (g.level rest.length) := by
    rw [on.expanded, children, preEq, postEq]
    simp
  rw [List.length_cons, innerIds_succ, climb'.level] at clear
  have body : s.bodies p.2 = .internal rm es := (grown.frame p.2 (clear p.2 (by simp))).trans node
  obtain ⟨r', es', pbody, cover⟩ := insertInternalAfterSplit_seg body
    (asc_append (on.asc st).2).1 children above
    (fun y hy => below y (by rw [postEq]; exact List.mem_append_left _ hy)) absorbed
  have wrote := (wrote_putPage s p.2 _).same same
  rw [pbody] at wrote
  have frame : ∀ i, i ≠ p.2 → s'.bodies i = s.bodies i := fun i ne => by
    rw [wrote.bodies, Function.update_of_ne ne]
  have notFresh : ∀ i ∈ q :: k.news, i ≠ p.2 := fun i hi e =>
    (fresh i hi).1 (e ▸ List.mem_append_left _ inside)
  have halved' : Halved c g s' key value sp q b l r := by
    refine halved.congr holds st (fun i hi => ?_) fun acc => wrote.accounted q (notFresh q (by simp)) acc
    rcases hi with rfl | hi
    · exact frame i (notFresh i (by simp))
    · obtain ⟨a, ha, rfl⟩ := List.mem_map.mp hi
      exact frame a.2 (st.inner_ne_leaf inside ha).symm
  have touched : Grown g s'.bodies (written sp (k.finished ++ [p.2])) k.j (k.pre ++ k.x :: k.post)
      (k.pre ++ k.x :: (sep, right) :: k.post) (c.rowAfter b q) k.news := by
    refine grown.touch ?_ (fun i out => frame i fun e => out (by simp [e, written])) fun i hi => frame i ?_
    · intro i hi
      simp only [written, List.mem_append, List.mem_cons] at hi ⊢
      tauto
    · rintro rfl
      refine grown.outside (fun mem => notFresh _ (by simp [mem]) rfl) ?_ hi
      rw [old]
      exact notBelow
  have away : ∀ i ∈ innerIds g.bodies rest.length g.top ++ (up ++ down).map Prod.snd,
      i ∉ written sp (k.finished ++ [p.2]) := by
    intro i hi mem
    have ne : i ≠ p.2 := by
      rintro rfl
      rcases List.mem_append.mp hi with hi | hi
      · exact notAbove hi
      · exact alone hi
    have out := clear i (by
      simp only [List.mem_append, List.map_append, List.map_cons, List.mem_cons] at hi ⊢
      tauto)
    simp only [written, List.mem_append, List.mem_cons, List.not_mem_nil, or_false] at mem out
    tauto
  have level : ∀ a ∈ up ++ down, s'.bodies a.2 = g.bodies a.2 := fun a ha =>
    touched.frame a.2 (away a.2 (List.mem_append_right _ (List.mem_map_of_mem ha)))
  have here : s'.bodies p.2 = .internal r' es' := by rw [wrote.bodies, Function.update_self]
  have onLevel : Grown g s'.bodies (written sp (k.finished ++ [p.2])) (k.j + 1) (g.level rest.length)
      (g.level rest.length) (c.rowAfter b q) ([] ++ k.news) := by
    refine touched.up old.symm ?_ ?_ (List.Perm.refl _) fun key' pre y post loc _ => ⟨pre, post, loc⟩
    · rw [on.level, expand_append, expand_cons, here, segOf, cover,
        expand_congr fun a ha => level a (by simp [ha]), expand_congr fun a ha => level a (by simp [ha]),
        preEq, postEq]
      simp
    · rw [on.level]
      intro a ha
      by_cases e : a.2 = p.2
      · rw [e, here]
        exact ⟨r', es', rfl⟩
      · rw [level a (by
          simp only [List.mem_append, List.mem_cons] at ha ⊢
          rcases ha with h | rfl | h
          · exact .inl h
          · exact absurd rfl e
          · exact .inr h)]
        exact on.nodes st a ha
  have innerUp : Inner g.bodies rest.length g.top := by
    have inner := st.inner
    rw [← on.height] at inner
    exact ((inner_add _ _ _ _).mp inner).1
  have whole := onLevel.toTop innerUp fun i hi => away i (List.mem_append_left _ hi)
  rw [on.height] at whole
  have backed' := backed.wrote wrote (.inr fun a ha => (st.inner_ne_leaf inside ha).symm)
  have sub : written sp (k.finished ++ [p.2]) ⊆ Pc.guards sp := by
    apply written_sub
    rw [ancestors, List.append_assoc]
    rfl
  have done := commit (d := 0) st holds halved' whole rfl trivial
    (by simpa [innerIds, wrote.metaPage] using fresh) (by simpa [innerIds] using nodup) backed'.sound
    backed'.root backed'.range backed'.accounted fun i _ hi => sub hi
  simpa using done

theorem root_step {u : Unit} (st : Standing g) (backed : Backed g s)
    (holds : c.Holds g key wantBefore sp) (halved : Halved c g s key value sp q b l r)
    (climbing : Climbing k g s sp q (c.rowAfter b q) [] sep left right)
    (run : createNewRoot sep left right txid s = .ok u s') :
    Committed (Pc.guards sp) key value sp.replacing g
        ⟨s'.bodies, s.metaPage.numPages, 1 + g.height, c.rowAfter b q⟩ s' ∧
      s'.metaPage.numKeys = s.metaPage.numKeys ∧ s'.metaPage.numPages = s.metaPage.numPages + 1 := by
  obtain ⟨ancestors, climb, rfl, height, grown, -, fresh, nodup, -, -⟩ := climbing
  obtain ⟨bodies, page, ext⟩ := createNewRoot_ok backed.sound.free run
  have outside : ∀ i ∈ g.ids, i ≠ s.metaPage.numPages := fun i hi => (backed.range i hi).2.ne
  have notFresh : ∀ i ∈ q :: k.news, i ≠ s.metaPage.numPages := fun i hi => (fresh i hi).2.2.ne
  have frame : ∀ i, i ≠ s.metaPage.numPages → s'.bodies i = s.bodies i := fun i ne => by
    rw [bodies, Function.update_of_ne ne]
  have pages : s'.metaPage.numPages = s.metaPage.numPages + 1 := by rw [page]
  obtain ⟨pre, x, post, j, finished, news⟩ := k
  dsimp only at climb height grown fresh nodup notFresh ancestors run bodies ⊢
  cases climb
  rw [List.length_nil, Nat.zero_add] at height
  subst height
  have node : s'.bodies s.metaPage.numPages = .internal right [(sep, g.root)] := by
    rw [bodies, Function.update_self]
  have halved' : Halved c g s' key value sp q b l r := by
    refine halved.congr holds st (fun i hi => ?_) fun acc =>
      ext.accounted q (by simp) (fresh q (by simp)).2.2 acc
    rcases hi with rfl | hi
    · exact frame i (notFresh i (by simp))
    · exact frame i (outside i (List.mem_append_right _ hi))
  have whole : Grown g s'.bodies (s.metaPage.numPages :: written sp finished) g.height g.top
      [([], g.root), (sep, right)] (c.rowAfter b q) news := by
    refine grown.touch (List.subset_cons_self _ _) (fun i out => frame i fun e => out (by simp [e])) ?_
    intro i hi
    refine frame i fun e => grown.outside (fun mem => notFresh i (by simp [mem]) e) ?_ hi
    exact fun mem => outside i (List.mem_append_left _ mem) e
  have ids : innerIds s'.bodies 1 [([], s.metaPage.numPages)] = [s.metaPage.numPages] := by
    simp [innerIds]
  have level : leavesOf s'.bodies 1 [([], s.metaPage.numPages)] = [([], g.root), (sep, right)] := by
    simp [leavesOf, node, segOf, seg]
  have inner : Inner s'.bodies 1 [([], s.metaPage.numPages)] := ⟨by simp [node, IsNode], trivial⟩
  refine ⟨commit st holds halved' whole level inner ?_ ?_ (backed.sound.extends ext) (by rw [page]) ?_ ?_ ?_,
    ext.numKeys, pages⟩
  · rw [ids, pages]
    intro i hi
    rcases List.mem_cons.mp hi with rfl | hi
    · exact ⟨fun mem => outside _ mem rfl, backed.sound.first, Nat.lt_succ_self _⟩
    · exact ⟨(fresh i hi).1, (fresh i hi).2.1, Nat.lt_succ_of_lt (fresh i hi).2.2⟩
  · rw [ids]
    exact List.nodup_cons.mpr ⟨fun mem => notFresh _ mem rfl, nodup⟩
  · rw [pages]
    exact fun i hi => ⟨(backed.range i hi).1, Nat.lt_succ_of_lt (backed.range i hi).2⟩
  · intro a ha
    have known : a.2 ∈ g.ids := List.mem_append_right _ (List.mem_map_of_mem ha)
    exact ext.accounted a.2 (by simp) (backed.range a.2 known).2 (backed.accounted a ha)
  · intro i known hi
    rcases List.mem_cons.mp hi with rfl | hi
    · exact absurd rfl (outside _ known)
    · exact written_sub ancestors hi

end PagerDB.Crab

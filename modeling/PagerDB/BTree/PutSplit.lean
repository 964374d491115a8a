import PagerDB.BTree.LeafOps

/-! The Put that splits a leaf. The leaf's row gains one link, each half keeps its
bounds, and the climb above repairs the rest. -/
namespace PagerDB

open SortedLib Store

variable {s s' t : Store} {h : Nat} {key value : Bytes} {pre post : List Link} {x : Link}
  {prev next q : PageId} {recs : List (Bytes × Bytes)} {txid : TxId}

/-- The two halves of the reached leaf hold its records and the new one. -/
structure Halves (s : Store) (x : Link) (q prev next : PageId) (sep : Bytes)
    (left right : List (Bytes × Bytes)) : Prop where
  leftBody : s.bodies x.2 = .leaf prev q left
  rightBody : s.bodies q = .leaf x.2 next right
  leftAcc : (s.view x.2).Accounted
  rightAcc : (s.view q).Accounted
  below : ∀ r ∈ left, r.1 < sep
  above : ∀ r ∈ right, sep ≤ r.1

section

variable {bd : Bodies} {pid p : PageId} {left right : List (Bytes × Bytes)}

theorem splitBodies_left (apart : q ≠ pid) (sibling : next ≠ pid) :
    splitBodies bd pid q prev next left right pid = .leaf prev q left := by
  by_cases last : next = kInvalidPageId
  · simp [splitBodies, last, Function.update_of_ne apart.symm]
  · simp [splitBodies, last, Function.update_of_ne sibling.symm, Function.update_of_ne apart.symm]

theorem splitBodies_right (fresh : next ≠ q) :
    splitBodies bd pid q prev next left right q = .leaf pid next right := by
  by_cases last : next = kInvalidPageId
  · simp [splitBodies, last]
  · simp [splitBodies, last, Function.update_of_ne fresh.symm]

theorem splitBodies_next (valid : next ≠ kInvalidPageId) (sibling : next ≠ pid) (fresh : next ≠ q) :
    splitBodies bd pid q prev next left right next = relinked q (bd next) := by
  simp [splitBodies, valid, Function.update_of_ne fresh, Function.update_of_ne sibling]

theorem splitBodies_other (here : p ≠ pid) (new : p ≠ q) (away : p ≠ next) :
    splitBodies bd pid q prev next left right p = bd p := by
  by_cases last : next = kInvalidPageId
  · simp [splitBodies, last, Function.update_of_ne new, Function.update_of_ne here]
  · simp [splitBodies, last, Function.update_of_ne away, Function.update_of_ne new,
      Function.update_of_ne here]

end

theorem Reached.next_eq (reached : Reached s h key pre x post prev next recs) (tree : Tree s h) :
    next = (post.map Prod.snd).headD kInvalidPageId := by
  have linked := tree.row.linked
  rw [reached.row] at linked
  simp only [List.map_append, List.map_cons, linked_append, Linked] at linked
  obtain ⟨-, ⟨r, eq⟩, -⟩ := linked
  exact (Body.leaf.inj (reached.body.symm.trans eq)).2.1

theorem Reached.sibling (reached : Reached s h key pre x post prev next recs) (tree : Tree s h)
    (valid : next ≠ kInvalidPageId) : kFirstDataPage ≤ next ∧ next < s.metaPage.numPages := by
  have row : leavesOf s.bodies h s.top = pre ++ x :: post := reached.row
  rw [reached.next_eq tree] at valid ⊢
  cases post with
  | nil => exact absurd rfl valid
  | cons y rest => exact tree.range y.2 (leaf_mem_ids (row ▸ by simp))

theorem full_ne_nil {p : Page} (body : p.body = .leaf prev next recs)
    (fits : 4 + key.length + value.length ≤ kMaxLeafRecordBytes)
    (full : p.room < kSlotEntrySize + 4 + key.length + value.length) : recs ≠ [] := by
  rintro rfl
  rw [Page.leaf_room body] at full
  simp only [List.map_nil, List.sum_nil, List.length_nil, kMaxLeafRecordBytes, kPageSize,
    kPageHeaderSize, kSlotEntrySize] at *
  omega

theorem insertSplit_ok {wantBefore : Bool} {before : Option Bytes} {sep : Bytes} {u : Unit}
    {left right : List (Bytes × Bytes)} (apart : q ≠ x.2)
    (asc : ((left ++ right).map Prod.fst).Pairwise (· < ·))
    (halves : Halves s x q prev next sep left right)
    (h : insertSplit key value txid wantBefore before sep x.2 q s = .ok u s') :
    s'.metaPage = s.metaPage ∧ Extends [x.2, q] s s' ∧ ∃ left' right' lo hi,
      Halves s' x q prev next sep left' right' ∧ left ++ right = lo ++ hi ∧
      left' ++ right' = lo ++ (key, value) :: hi ∧ (∀ r ∈ lo, r.1 < key) ∧ (∀ r ∈ hi, key < r.1) ∧
      (sep ≤ key → ∃ p, (s.view q).insertLeaf key value = (true, p)) := by
  obtain ⟨leftB, rightB, leftAcc, rightAcc, below, above⟩ := halves
  rw [List.map_append, List.pairwise_append] at asc
  by_cases lt : key < sep
  · rw [insertSplit, if_pos lt] at h
    simp only [bind_ok, withNode_run, failIf_ok] at h
    obtain ⟨ins, t', put, _, _, ⟨yes, rfl⟩, log⟩ := h
    cases put
    generalize insert : (s.view x.2).insertLeaf key value = out at yes log
    obtain ⟨flag, p⟩ := out
    obtain rfl : flag = true := by simpa using yes
    obtain ⟨lo, hi, rfl, lower, upper, body, -, -, acc⟩ := Page.insertLeaf_true leftB asc.1 insert
    obtain ⟨wrote, acc'⟩ := wrote_logged body (acc leftAcc) (logKeyRecord_same log)
    refine ⟨wrote.metaPage, wrote.extends.mono (by simp), lo ++ (key, value) :: hi, right, lo,
      hi ++ right, ⟨?_, ?_, acc', ?_, ?_, above⟩, by simp, by simp, lower, ?_, ?_⟩
    · rw [wrote.bodies, Function.update_self]
    · rw [wrote.bodies, Function.update_of_ne apart, rightB]
    · exact wrote.accounted q apart rightAcc
    · intro r hr
      simp only [List.mem_append, List.mem_cons] at hr
      rcases hr with h | rfl | h
      · exact below r (by simp [h])
      · exact lt
      · exact below r (by simp [h])
    · intro r hr
      rcases List.mem_append.mp hr with h | h
      · exact upper r h
      · exact lt.trans_le (above r h)
    · exact fun le => absurd lt (not_lt.mpr le)
  · rw [insertSplit, if_neg lt] at h
    simp only [bind_ok, withNode_run, failIf_ok] at h
    obtain ⟨ins, t', put, _, _, ⟨yes, rfl⟩, log⟩ := h
    cases put
    generalize insert : (s.view q).insertLeaf key value = out at yes log
    obtain ⟨flag, p⟩ := out
    obtain rfl : flag = true := by simpa using yes
    obtain ⟨lo, hi, rfl, lower, upper, body, -, -, acc⟩ := Page.insertLeaf_true rightB asc.2.1 insert
    obtain ⟨wrote, acc'⟩ := wrote_logged body (acc rightAcc) (logKeyRecord_same log)
    refine ⟨wrote.metaPage, wrote.extends.mono (by simp), left, lo ++ (key, value) :: hi, left ++ lo,
      hi, ⟨?_, ?_, ?_, acc', below, ?_⟩, by simp, by simp, ?_, upper, fun _ => ⟨p, rfl⟩⟩
    · rw [wrote.bodies, Function.update_of_ne apart.symm, leftB]
    · rw [wrote.bodies, Function.update_self]
    · exact wrote.accounted x.2 apart.symm leftAcc
    · intro r hr
      simp only [List.mem_append, List.mem_cons] at hr
      rcases hr with h | rfl | h
      · exact above r (by simp [h])
      · exact not_lt.mp lt
      · exact above r (by simp [h])
    · intro r hr
      rcases List.mem_append.mp hr with h | h
      · exact (below r h).trans_le (not_lt.mp lt)
      · exact lower r h

theorem insertSplit_wrote {wantBefore : Bool} {before : Option Bytes} {sep : Bytes} {leaf : PageId} {u : Unit}
    (h : insertSplit key value txid wantBefore before sep leaf q s = .ok u s') :
    ∃ pid body, (pid = leaf ∨ pid = q) ∧ Wrote pid body s s' := by
  unfold insertSplit at h
  split at h
  · simp only [bind_ok, withNode_run, failIf_ok] at h
    obtain ⟨_, t, put, _, _, ⟨-, rfl⟩, log⟩ := h
    cases put
    exact ⟨leaf, _, .inl rfl, (wrote_putPage s leaf _).same (logKeyRecord_same log)⟩
  · simp only [bind_ok, withNode_run, failIf_ok] at h
    obtain ⟨_, t, put, _, _, ⟨-, rfl⟩, log⟩ := h
    cases put
    exact ⟨q, _, .inr rfl, (wrote_putPage s q _).same (logKeyRecord_same log)⟩

theorem middle_record (some : recs ≠ []) : ∃ first rest, recs.drop (recs.length / 2) = first :: rest ∧
    first.1 = (recs.map Prod.fst).getD (recs.length / 2) [] := by
  have lt : recs.length / 2 < recs.length := Nat.div_lt_self (List.length_pos_iff.mpr some) (by decide)
  exact ⟨recs[recs.length / 2], recs.drop (recs.length / 2 + 1), List.drop_eq_getElem_cons lt, by simp [lt]⟩

theorem middle_separates {sep : Bytes} (some : recs ≠ []) (asc : (recs.map Prod.fst).Pairwise (· < ·))
    (eq : sep = (recs.map Prod.fst).getD (recs.length / 2) []) :
    (∀ r ∈ recs.take (recs.length / 2), r.1 < sep) ∧ (∀ r ∈ recs.drop (recs.length / 2), sep ≤ r.1) ∧
      ∃ r ∈ recs.drop (recs.length / 2), r.1 = sep := by
  obtain ⟨first, rest, drop, firstKey⟩ := middle_record some
  rw [← firstKey] at eq
  subst eq
  have sorted : ((recs.take (recs.length / 2) ++ first :: rest).map Prod.fst).Pairwise (· < ·) := by
    rw [← drop, List.take_append_drop]
    exact asc
  rw [List.map_append, List.map_cons, List.pairwise_append, List.pairwise_cons] at sorted
  refine ⟨fun r hr => ?_, fun r hr => ?_, first, by simp [drop], rfl⟩
  · exact sorted.2.2 r.1 (List.mem_map_of_mem hr) first.1 (by simp)
  · rw [drop] at hr
    rcases List.mem_cons.mp hr with rfl | hr
    · exact le_rfl
    · exact (sorted.2.1.1 r.1 (List.mem_map_of_mem hr)).le

theorem splitLeaf_halves {sep : Bytes} (tree : Tree s h) (sound : Sound s)
    (reached : Reached s h key pre x post prev next recs) (some : recs ≠ [])
    (run : splitLeaf x.2 txid s = .ok (q, sep) t) :
    q = s.metaPage.numPages ∧ t.metaPage = { s.metaPage with numPages := q + 1 } ∧
      Extends ([x.2] ++ post.map Prod.snd) s t ∧
      Halves t x q prev next sep (recs.take (recs.length / 2)) (recs.drop (recs.length / 2)) ∧
      (∀ l ∈ post, (t.view l.2).Accounted) ∧ (∃ r ∈ recs.drop (recs.length / 2), r.1 = sep) ∧
      ∀ y rest, post = y :: rest →
        (∀ n rs, s.bodies y.2 = .leaf x.2 n rs → t.bodies y.2 = .leaf q n rs) ∧
        ∀ l ∈ rest, t.bodies l.2 = s.bodies l.2 := by
  have nextEq := reached.next_eq tree
  have nodup := tree.nodup
  have row : leavesOf s.bodies h s.top = pre ++ x :: post := reached.row
  rw [idsOf, List.nodup_append, row, List.map_append, List.map_cons, List.nodup_append] at nodup
  obtain ⟨-, ⟨-, chain, -⟩, -⟩ := nodup
  rw [List.nodup_cons] at chain
  have range : ∀ l ∈ post, l.2 < s.metaPage.numPages := fun l hl =>
    (tree.range l.2 (leaf_mem_ids (row ▸ by simp [hl]))).2
  have sibling : next ≠ x.2 := by
    rw [nextEq]
    cases post with
    | nil => exact (reached.old.trans_le sound.limit).ne'
    | cons y rest => exact fun e => chain.1 (by simpa using .inl e.symm)
  obtain ⟨fresh, sepEq, bodies, page, accL, accR, accounted, ext⟩ :=
    splitLeaf_ok sound.free reached.old reached.body sibling reached.asc run
  have apart : q ≠ x.2 := fresh ▸ reached.old.ne'
  have below : q < kInvalidPageId := by
    have := ext.limit sound.limit
    rwa [page] at this
  have nextFresh : next ≠ q := by
    rw [nextEq]
    cases post with
    | nil => exact below.ne'
    | cons y rest => exact fresh ▸ (range y (by simp)).ne
  obtain ⟨low, high, sepMem⟩ := middle_separates some reached.asc sepEq
  refine ⟨fresh, page, ext.mono fun p mem lt => ?_, ⟨?_, ?_, accL, accR, low, high⟩, ?_, sepMem, ?_⟩
  · simp only [List.mem_cons, List.not_mem_nil, or_false] at mem
    rcases mem with rfl | rfl
    · simp
    · rw [nextEq] at lt ⊢
      cases post with
      | nil => exact absurd lt (not_lt.mpr sound.limit)
      | cons y rest => simp
  · rw [bodies, splitBodies_left apart sibling]
  · rw [bodies, splitBodies_right nextFresh]
  · intro l hl
    refine accounted l.2 (fun e => chain.1 (e ▸ List.mem_map_of_mem hl)) (range l hl) ?_
    exact tree.accounted l (by rw [reached.row]; simp [hl])
  · rintro y rest rfl
    have yEq : next = y.2 := nextEq
    have valid : next ≠ kInvalidPageId := yEq ▸ ((range y (by simp)).trans_le sound.limit).ne
    refine ⟨fun n rs body => ?_, fun l hl => ?_⟩
    · rw [bodies, ← yEq, splitBodies_next valid sibling nextFresh, yEq, body]
      rfl
    · have hx : l.2 ≠ x.2 := fun e => chain.1 (by
        rw [← e]
        exact List.mem_map_of_mem (List.mem_cons_of_mem _ hl))
      have hy : l.2 ≠ next := by
        have := chain.2
        rw [List.map_cons, List.nodup_cons] at this
        rw [yEq]
        exact fun e => this.1 (e ▸ List.mem_map_of_mem hl)
      rw [bodies, splitBodies_other hx (fresh ▸ (range l (by simp [hl])).ne) hy]

/-- A record that only fits after the split does not land in a right half that is the whole
leaf, so the separator lies strictly above the leaf's bound. -/
theorem separator_above {sep : Bytes} {left right : List (Bytes × Bytes)}
    (halves : Halves t x q prev next sep left right) (asc : ((left ++ right).map Prod.fst).Pairwise (· < ·))
    (lower : ∀ r ∈ left ++ right, x.1 ≤ r.1) (le : x.1 ≤ key)
    (full : kPageSize - (kPageHeaderSize + (left ++ right).length * kSlotEntrySize) -
      ((left ++ right).map leafRecordBytes).sum < kSlotEntrySize + 4 + key.length + value.length)
    (sepMem : ∃ r ∈ right, r.1 = sep)
    (inserted : sep ≤ key → ∃ p, (t.view q).insertLeaf key value = (true, p)) : x.1 < sep := by
  obtain ⟨r, mem, rfl⟩ := sepMem
  refine lt_of_le_of_ne (lower r (List.mem_append_right _ mem)) fun e => ?_
  -- no record can stand left of the separator, so the right half is the whole leaf
  obtain rfl : left = [] := by
    rw [List.eq_nil_iff_forall_not_mem]
    intro r' hr'
    have := halves.below r' hr'
    exact absurd (lower r' (List.mem_append_left _ hr')) (not_le.mpr (e ▸ this))
  rw [List.nil_append] at asc full
  obtain ⟨p, insert⟩ := inserted (e ▸ le)
  have room := Page.insertLeaf_room halves.rightBody asc halves.rightAcc insert
  rw [Page.leaf_room halves.rightBody] at room
  exact absurd full (not_lt.mpr room)

theorem separator_gt {sep : Bytes} (reached : Reached s h key pre x post prev next recs)
    (full : (s.view x.2).room < kSlotEntrySize + 4 + key.length + value.length)
    (halves : Halves t x q prev next sep (recs.take (recs.length / 2)) (recs.drop (recs.length / 2)))
    (sepMem : ∃ r ∈ recs.drop (recs.length / 2), r.1 = sep)
    (inserted : sep ≤ key → ∃ p, (t.view q).insertLeaf key value = (true, p)) : x.1 < sep := by
  have joined : recs.take (recs.length / 2) ++ recs.drop (recs.length / 2) = recs :=
    List.take_append_drop _ _
  rw [Page.leaf_room reached.body] at full
  exact separator_above halves (joined.symm ▸ reached.asc) (joined.symm ▸ reached.lower) reached.le
    (joined.symm ▸ full) sepMem inserted

theorem split_row {sep : Bytes} {left right lo hi : List (Bytes × Bytes)} (tree : Tree s h)
    (reached : Reached s h key pre x post prev next recs)
    (halves : Halves t x q prev next sep left right) (cut : recs = lo ++ hi)
    (joined : left ++ right = lo ++ (key, value) :: hi) (lower : ∀ r ∈ lo, r.1 < key)
    (upper : ∀ r ∈ hi, key < r.1) (above : x.1 < sep) (below : ∀ y ∈ post, sep < y.1)
    (samePre : ∀ l ∈ pre, t.bodies l.2 = s.bodies l.2)
    (sibling : ∀ y rest, post = y :: rest →
      (∀ n rs, s.bodies y.2 = .leaf x.2 n rs → t.bodies y.2 = .leaf q n rs) ∧
      ∀ l ∈ rest, t.bodies l.2 = s.bodies l.2) :
    LeafRow t.bodies (pre ++ x :: (sep, q) :: post) ∧
      contents t.bodies (pre ++ x :: (sep, q) :: post) =
        contents s.bodies pre ++ (lo ++ (key, value) :: hi) ++ contents s.bodies post := by
  obtain ⟨asc, lowers, uppers⟩ := reached.fits value (.inl cut) lower upper
  rw [← joined] at asc lowers uppers ⊢
  have lr := tree.row
  rw [reached.row] at lr
  refine lr.split reached.body halves.leftBody halves.rightBody samePre sibling above below
    (asc.sublist (by simp)) (asc.sublist (by simp)) ?_ ?_
  · exact fun r hr => ⟨lowers r (List.mem_append_left _ hr), halves.below r hr⟩
  · exact fun r hr => ⟨halves.above r hr, uppers r (List.mem_append_right _ hr)⟩

theorem Climbed.tree {sep : Bytes} {d : Nat} {news : List PageId} (tree : Tree s h)
    (first : kFirstDataPage ≤ q)
    (fresh : q = s.metaPage.numPages) (pages : t.metaPage.numPages = q + 1)
    (root : t.metaPage.rootPageId = s.metaPage.rootPageId)
    (upper : ∀ i ∈ innerIds s.bodies h s.top, t.bodies i = s.bodies i)
    (row : s.leaves h = pre ++ x :: post) (lr : LeafRow t.bodies (pre ++ x :: (sep, q) :: post))
    (acc : ∀ l ∈ pre ++ x :: (sep, q) :: post, (t.view l.2).Accounted)
    (climbed : Climbed t s' h (pre ++ x :: (sep, q) :: post) d news) :
    Tree s' d ∧ s'.leaves d = pre ++ x :: (sep, q) :: post ∧
      contents s'.bodies (s'.leaves d) = contents t.bodies (pre ++ x :: (sep, q) :: post) := by
  obtain ⟨level, inner, ids, newsNodup, newsFresh, ext⟩ := climbed
  have innerEq : innerIds t.bodies h [([], t.metaPage.rootPageId)] = innerIds s.bodies h s.top := by
    rw [root]
    exact (levels_congr h s.top upper).2.1
  rw [innerEq] at ids ext
  have row' : leavesOf s.bodies h s.top = pre ++ x :: post := row
  have oldIds : idsOf s.bodies h s.top = innerIds s.bodies h s.top ++ (pre ++ x :: post).map Prod.snd := by
    rw [idsOf, row']
  have range := tree.range
  have nodup := tree.nodup
  rw [oldIds] at range nodup
  have rowRange : ∀ l ∈ pre ++ x :: (sep, q) :: post,
      l.2 ∉ innerIds s.bodies h s.top ∧ kFirstDataPage ≤ l.2 ∧ l.2 < t.metaPage.numPages := by
    intro l hl
    simp only [List.mem_append, List.mem_cons] at hl
    rw [pages, fresh]
    by_cases e : l = (sep, q)
    · subst e
      refine ⟨fun mem => ?_, first, fresh ▸ Nat.lt_succ_self _⟩
      exact absurd fresh (range q (List.mem_append_left _ mem)).2.ne
    · have mem : l.2 ∈ (pre ++ x :: post).map Prod.snd := List.mem_map_of_mem (by
        rcases hl with h | h | h | h
        · simp [h]
        · simp [h]
        · exact absurd h e
        · simp [h])
      have := range l.2 (List.mem_append_right _ mem)
      exact ⟨fun inn => (List.nodup_append.mp nodup).2.2 l.2 inn l.2 mem rfl, this.1,
        Nat.lt_succ_of_lt this.2⟩
  have kept : ∀ l ∈ pre ++ x :: (sep, q) :: post, s'.bodies l.2 = t.bodies l.2 := fun l hl =>
    ext.frame l.2 (rowRange l hl).1 (rowRange l hl).2.2
  -- the new ids: fresh nodes above, the old tree, and the new leaf
  have perm : (idsOf s'.bodies d s'.top).Perm (news ++ (q :: idsOf s.bodies h s.top)) := by
    have swap : ((pre ++ x :: (sep, q) :: post).map Prod.snd).Perm
        (q :: (pre ++ x :: post).map Prod.snd) := by
      simpa using (perm_after pre post x (sep, q)).map Prod.snd
    rw [idsOf, level, oldIds]
    refine (ids.append swap).trans ?_
    rw [List.append_assoc]
    exact List.Perm.append_left news List.perm_middle
  have oldBelow : ∀ i ∈ q :: idsOf s.bodies h s.top, kFirstDataPage ≤ i ∧ i < t.metaPage.numPages := by
    intro i hi
    rw [pages]
    rcases List.mem_cons.mp hi with rfl | hi
    · exact ⟨first, Nat.lt_succ_self _⟩
    · rw [oldIds] at hi
      exact ⟨(range i hi).1, Nat.lt_succ_of_lt (fresh ▸ (range i hi).2)⟩
  have firstPages : kFirstDataPage ≤ t.metaPage.numPages := by
    rw [pages]
    exact first.trans (Nat.le_succ _)
  refine ⟨⟨inner, ?_, ?_, ?_, ?_⟩, level, ?_⟩
  · rw [perm.nodup_iff, List.nodup_append, List.nodup_cons]
    refine ⟨newsNodup, ⟨fun mem => ?_, tree.nodup⟩, fun a ha b hb e => ?_⟩
    · exact absurd fresh (tree.range q mem).2.ne
    · exact absurd (oldBelow b hb).2 (not_lt.mpr (e ▸ (newsFresh a ha).1))
  · intro i hi
    rcases List.mem_append.mp (perm.mem_iff.mp hi) with hi | hi
    · exact ⟨firstPages.trans (newsFresh i hi).1, (newsFresh i hi).2⟩
    · exact ⟨(oldBelow i hi).1, (oldBelow i hi).2.trans_le ext.grows⟩
  · rw [Store.leaves, Store.top, level]
    exact lr.congr kept
  · rw [Store.leaves, Store.top, level]
    exact fun l hl => ext.accounted l.2 (rowRange l hl).1 (rowRange l hl).2.2 (acc l hl)
  · rw [Store.leaves, Store.top, level]
    exact contents_congr _ _ _ fun l hl => by rw [kept l hl]

theorem Sound.extends {touched : List PageId} (sound : Sound s) (ext : Extends touched s s') : Sound s' where
  free := ext.free.trans sound.free
  first := sound.first.trans ext.grows
  limit := ext.limit sound.limit
  readable p lo hi := by
    refine ext.readable p ?_
    rcases lt_or_ge p s.metaPage.numPages with lt | ge
    · exact .inl (sound.readable p lo lt)
    · exact .inr ⟨ge, hi⟩

theorem counted {replacing : Bool} {u : Unit}
    (run : onlyIf (!replacing) (addToNumKeys 1) s = .ok u s') :
    ∃ n, s' = { s with metaPage := { s.metaPage with numKeys := n } } ∧
      n = s.metaPage.numKeys + if replacing then 0 else 1 := by
  rcases onlyIf_ok.mp run with ⟨yes, run⟩ | ⟨no, rfl⟩
  · cases run
    obtain rfl : replacing = false := by simpa using yes
    exact ⟨_, rfl, rfl⟩
  · obtain rfl : replacing = true := by simpa using no
    exact ⟨_, rfl, by simp⟩

theorem split_kept (tree : Tree s h) (row : s.leaves h = pre ++ x :: post)
    (fresh : q = s.metaPage.numPages) (ext : Extends ([x.2] ++ post.map Prod.snd ++ [x.2, q]) s t) :
    ∀ i, i ∈ innerIds s.bodies h s.top ∨ i ∈ pre.map Prod.snd →
      t.bodies i = s.bodies i ∧ ((s.view i).Accounted → (t.view i).Accounted) := by
  have nodup := tree.nodup
  have range := tree.range
  have row' : leavesOf s.bodies h s.top = pre ++ x :: post := row
  rw [idsOf, row', List.map_append, List.map_cons] at nodup range
  rw [List.nodup_append, List.nodup_append] at nodup
  obtain ⟨-, ⟨-, -, preRest⟩, disjoint⟩ := nodup
  intro i hi
  have lt : i < s.metaPage.numPages := by
    refine (range i ?_).2
    rcases hi with h | h <;> simp [h]
  have out : i ∉ [x.2] ++ post.map Prod.snd ++ [x.2, q] := by
    intro mem
    have hq : i ≠ q := fresh ▸ lt.ne
    have : i ∈ x.2 :: post.map Prod.snd := by
      simp only [List.mem_append, List.mem_cons, List.not_mem_nil, or_false] at mem ⊢
      rcases mem with (h | h) | h | h
      · exact .inl h
      · exact .inr h
      · exact .inl h
      · exact absurd h hq
    rcases hi with h | h
    · exact disjoint i h i (List.mem_append_right _ this) rfl
    · exact preRest i h i this rfl
  exact ⟨ext.frame i out lt, ext.accounted i out lt⟩

theorem split_pending {sep : Bytes} {ancestors : List PageId} (tree : Tree s h) (sound : Sound s)
    (row : s.leaves h = pre ++ x :: post)
    (climb : Climb s.bodies s.metaPage.rootPageId ancestors pre x post) (height : ancestors.length = h)
    (fresh : q = s.metaPage.numPages) (ext : Extends ([x.2] ++ post.map Prod.snd ++ [x.2, q]) s t)
    (root : t.metaPage.rootPageId = s.metaPage.rootPageId) (above : x.1 < sep)
    (below : ∀ y ∈ post, sep < y.1) (n : Int) :
    Pending { t with metaPage := { t.metaPage with numKeys := n } } ancestors pre x post sep := by
  have sameUp : ∀ i ∈ innerIds s.bodies h s.top, t.bodies i = s.bodies i := fun i hi =>
    (split_kept tree row fresh ext i (.inl hi)).1
  obtain ⟨-, innerEq, keepInner⟩ := levels_congr h s.top sameUp
  subst height
  refine ⟨?_, ?_, ?_, ?_, ?_, ?_, above, below⟩
  · change Climb t.bodies t.metaPage.rootPageId ancestors pre x post
    rw [root]
    exact climb.congr sameUp
  · exact ext.free.trans sound.free
  · change Inner t.bodies ancestors.length [([], t.metaPage.rootPageId)]
    rw [root]
    exact keepInner tree.inner
  · change (innerIds t.bodies ancestors.length [([], t.metaPage.rootPageId)]).Nodup
    rw [root, innerEq]
    exact (List.nodup_append.mp tree.nodup).1
  · change ∀ i ∈ innerIds t.bodies ancestors.length [([], t.metaPage.rootPageId)], i < t.metaPage.numPages
    rw [root, innerEq]
    exact fun i hi => (tree.range i (List.mem_append_left _ hi)).2.trans_le ext.grows
  · exact row ▸ tree.row.asc

theorem putSplitting_ok {wantBefore : Bool} {before : Option Bytes} {replacing : Bool} {u : Unit}
    {ancestors : List PageId} (tree : Tree s h) (sound : Sound s)
    (reached : Reached s h key pre x post prev next recs)
    (climb : Climb s.bodies s.metaPage.rootPageId ancestors pre x post) (height : ancestors.length = h)
    (fits : 4 + key.length + value.length ≤ kMaxLeafRecordBytes)
    (full : (s.view x.2).room < kSlotEntrySize + 4 + key.length + value.length)
    (run : putSplitting key value txid wantBefore before replacing x.2 ancestors s = .ok u s') :
    ∃ h' lo hi, Tree s' h' ∧ Sound s' ∧ recs = lo ++ hi ∧ (∀ r ∈ lo, r.1 < key) ∧
      (∀ r ∈ hi, key < r.1) ∧ contents s'.bodies (s'.leaves h') =
        contents s.bodies pre ++ (lo ++ (key, value) :: hi) ++ contents s.bodies post ∧
      s'.metaPage.numKeys = s.metaPage.numKeys + if replacing then 0 else 1 := by
  simp only [putSplitting, bind_ok] at run
  obtain ⟨⟨q, sep⟩, s₁, split, _, s₂, insert, _, s₃, count, run⟩ := run
  have some := full_ne_nil reached.body fits full
  obtain ⟨fresh, page₁, ext₁, halves₁, accPost, sepMem, sibling⟩ :=
    splitLeaf_halves tree sound reached some split
  have apart : q ≠ x.2 := fresh ▸ reached.old.ne'
  have joined : recs.take (recs.length / 2) ++ recs.drop (recs.length / 2) = recs :=
    List.take_append_drop _ _
  obtain ⟨page₂, ext₂, left, right, lo, hi, halves₂, cut, cut', lower, upper, inserted⟩ :=
    insertSplit_ok apart (by rw [joined]; exact reached.asc) halves₁ insert
  rw [joined] at cut
  have above : x.1 < sep := separator_gt reached full halves₁ sepMem inserted
  have below : ∀ y ∈ post, sep < y.1 := by
    obtain ⟨r, mem, rfl⟩ := sepMem
    exact fun y hy => reached.upper r (List.mem_of_mem_drop mem) y hy
  obtain ⟨n, rfl, keys⟩ := counted count
  have row : leavesOf s.bodies h s.top = pre ++ x :: post := reached.row
  have nodup := tree.nodup
  have range := tree.range
  rw [idsOf, row, List.map_append, List.map_cons] at nodup range
  rw [List.nodup_append, List.nodup_append, List.nodup_cons] at nodup
  obtain ⟨-, ⟨-, ⟨xPost, -⟩, -⟩, -⟩ := nodup
  have pages₁ : s₁.metaPage.numPages = q + 1 := by rw [page₁]
  have pages₂ : s₂.metaPage.numPages = q + 1 := by rw [page₂, pages₁]
  have root₂ : s₂.metaPage.rootPageId = s.metaPage.rootPageId := by rw [page₂, page₁]
  have ext := ext₁.trans ext₂
  have kept := split_kept tree reached.row fresh ext
  have keptPost : ∀ l ∈ post, s₂.bodies l.2 = s₁.bodies l.2 ∧
      ((s₁.view l.2).Accounted → (s₂.view l.2).Accounted) := by
    intro l hl
    have lt : l.2 < s.metaPage.numPages := (range l.2 (by simp [List.mem_map_of_mem hl])).2
    have out : l.2 ∉ [x.2, q] := by
      simp only [List.mem_cons, List.not_mem_nil, or_false, not_or]
      exact ⟨fun e => xPost (e ▸ List.mem_map_of_mem hl), fresh ▸ lt.ne⟩
    have lt₁ : l.2 < s₁.metaPage.numPages := lt.trans_le ext₁.grows
    exact ⟨ext₂.frame l.2 out lt₁, ext₂.accounted l.2 out lt₁⟩
  obtain ⟨lr, whole⟩ := split_row tree reached halves₂ cut cut' lower upper above below
    (fun l hl => (kept l.2 (.inr (List.mem_map_of_mem hl))).1) (by
      rintro y rest rfl
      obtain ⟨first, others⟩ := sibling y rest rfl
      refine ⟨fun m rs body => ?_, fun l hl => ?_⟩
      · rw [(keptPost y (by simp)).1]
        exact first m rs body
      · rw [(keptPost l (by simp [hl])).1]
        exact others l hl)
  have sameUp : ∀ i ∈ innerIds s.bodies h s.top, s₂.bodies i = s.bodies i := fun i hi =>
    (kept i (.inl hi)).1
  have pending := split_pending tree sound reached.row climb height fresh ext root₂ above below n
  subst height
  obtain ⟨d, news, climbed⟩ := propagate_ok pending run
  have acc : ∀ l ∈ pre ++ x :: (sep, q) :: post, (s₂.view l.2).Accounted := by
    intro l hl
    simp only [List.mem_append, List.mem_cons] at hl
    rcases hl with h | rfl | rfl | h
    · exact (kept l.2 (.inr (List.mem_map_of_mem h))).2 (tree.accounted l (by rw [reached.row]; simp [h]))
    · exact halves₂.leftAcc
    · exact halves₂.rightAcc
    · exact (keptPost l h).2 (accPost l h)
  obtain ⟨tree', -, whole'⟩ := Climbed.tree (t := { s₂ with metaPage := { s₂.metaPage with numKeys := n } })
    tree (fresh ▸ sound.first) fresh pages₂ root₂ sameUp reached.row lr acc climbed
  refine ⟨d, lo, hi, tree', ?_, cut, lower, upper, whole'.trans whole, ?_⟩
  · have sound₂ := sound.extends ext
    have sound₃ : Sound { s₂ with metaPage := { s₂.metaPage with numKeys := n } } :=
      ⟨sound₂.free, sound₂.first, sound₂.limit, sound₂.readable⟩
    exact sound₃.extends climbed.ext
  · have : s₂.metaPage.numKeys = s.metaPage.numKeys := ext.numKeys
    rw [climbed.ext.numKeys, ← this]
    exact keys

end PagerDB

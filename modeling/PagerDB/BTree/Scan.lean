import PagerDB.BTree.Cursor
import PagerDB.BTree.Reads

/-! A scan of a sound tree: the cursor walks the leaf chain, so what it has still to
show is a suffix of the entries, and the loop shows that suffix up to its bound. -/
namespace PagerDB

open SortedLib Store

variable {s s' : Store} {h : Nat} {key endKey : Bytes} {entries : List (Bytes × Bytes)}
  {callback : Bytes → Bytes → Bool} {post : List Link} {c : Cursor}

theorem attempt_ok {α : Type} {x : M α} {a : α} (run : x s = .ok a s') :
    attempt x s = .ok (.ok a) s' := by
  simp [attempt, run]

theorem attempt_error {α : Type} {x : M α} {e : Failure} (run : x s = .error e s') :
    attempt x s = .ok (.error e) s' := by
  simp [attempt, run]

theorem recs_eq (p : Page) : p.recs = recsOf p.body := by
  cases body : p.body <;> simp [Page.recs, recsOf, body]

/-- The cursor holds a copy of a leaf, and `post` are the leaves chained after it. -/
structure Ahead (s : Store) (c : Cursor) (post : List Link) : Prop where
  body : ∃ prev recs, c.page.body = .leaf prev ((post.map Prod.snd).headD kInvalidPageId) recs
  linked : ∃ pid, Linked s.bodies pid (post.map Prod.snd) kInvalidPageId
  range : ∀ l ∈ post, kFirstDataPage ≤ l.2 ∧ l.2 < s.metaPage.numPages
  short : post.length ≤ s.metaPage.numPages

def Cursor.remaining (bd : Bodies) (c : Cursor) (post : List Link) : List (Bytes × Bytes) :=
  c.page.recs.drop c.index ++ contents bd post

theorem Ahead.same (ahead : Ahead s c post) (same : Same s s') : Ahead s' c post := by
  obtain ⟨body, linked, range, short⟩ := ahead
  refine ⟨body, ?_, ?_, ?_⟩
  · rwa [same.bodies]
  · rwa [same.metaPage]
  · rwa [same.metaPage]

theorem Ahead.slots (ahead : Ahead s c post) : c.page.numSlots = c.page.recs.length := by
  obtain ⟨prev, recs, body⟩ := ahead.body
  simp [Page.numSlots, Page.recs, body]

/-- What a positioned cursor stands for. -/
inductive Positioned (s : Store) (rest : List (Bytes × Bytes)) (c : Cursor) : Prop where
  | done : c.valid = false → rest = [] → Positioned s rest c
  | live (post : List Link) : c.valid = true → Ahead s c post → c.index < c.page.numSlots →
      c.remaining s.bodies post = rest → Positioned s rest c

theorem skipToLiveEntry_positions {fuel : Nat} (sound : Sound s) (io : s.io = [])
    (valid : c.valid = true) (ahead : Ahead s c post) (enough : post.length < fuel) :
    ∃ c' s', skipToLiveEntry fuel c s = .ok c' s' ∧ Same s s' ∧ c'.status = c.status ∧
      Positioned s' (c.remaining s.bodies post) c' := by
  induction fuel generalizing s c post with
  | zero => cases enough
  | succ fuel ih =>
    unfold skipToLiveEntry
    by_cases live : c.index < c.page.numSlots
    · rw [if_pos live]
      exact ⟨c, s, rfl, Same.refl s, rfl, .live post valid ahead live rfl⟩
    rw [if_neg live]
    have spent : c.page.recs.drop c.index = [] :=
      List.drop_eq_nil_of_le (ahead.slots ▸ not_lt.mp live)
    obtain ⟨prev, recs, body⟩ := ahead.body
    have next : c.page.getNextLeaf = (post.map Prod.snd).headD kInvalidPageId := by
      simp [Page.getNextLeaf, body]
    cases post with
    | nil =>
      have last : c.page.getNextLeaf = kInvalidPageId := next
      rw [if_pos last]
      exact ⟨_, s, rfl, Same.refl s, rfl, .done rfl (by simp [Cursor.remaining, spent])⟩
    | cons l post =>
      have next' : c.page.getNextLeaf = l.2 := next
      obtain ⟨lo, hi⟩ := ahead.range l (by simp)
      obtain ⟨pid, ⟨recs', leaf⟩, linked⟩ := ahead.linked
      have body' : s.bodies l.2 = .leaf pid ((post.map Prod.snd).headD kInvalidPageId) recs' := leaf
      obtain ⟨t, fetch⟩ := fetchPage_succeeds io lo hi (sound.readable _ lo hi)
      have same := fetchPage_same fetch
      have there : (t.view l.2).body = s.bodies l.2 := congrFun same.bodies l.2
      have ahead' : Ahead t { c with page := t.view l.2, index := 0 } post := by
        refine ⟨⟨_, recs', there.trans body'⟩, ⟨l.2, ?_⟩, ?_, ?_⟩
        · rw [same.bodies]
          exact linked
        · rw [same.metaPage]
          exact fun x hx => ahead.range x (by simp [hx])
        · rw [same.metaPage]
          exact (Nat.le_succ _).trans ahead.short
      obtain ⟨c', u, run, same', status, positioned⟩ := ih (sound.same same) (same.io io)
        (c := { c with page := t.view l.2, index := 0 }) valid ahead'
        (Nat.lt_of_succ_lt_succ enough)
      have same_rest : Cursor.remaining t.bodies { c with page := t.view l.2, index := 0 } post =
          c.remaining s.bodies (l :: post) := by
        rw [Cursor.remaining, Cursor.remaining, spent]
        simp [recs_eq, there, same.bodies]
      refine ⟨c', u, ?_, same.trans same', status, same_rest ▸ positioned⟩
      rw [if_neg (next' ▸ (hi.trans_le sound.limit).ne), next', bind_of_ok (attempt_ok fetch)]
      simp only []
      rw [bind_of_ok (getPage_run _), if_pos (isLeaf_of_body (there.trans body'))]
      exact run

/- Where the chain ends. -/

theorem Tree.row_short (tree : Tree s h) : (s.leaves h).length ≤ s.metaPage.numPages := by
  have nodup : ((s.leaves h).map Prod.snd).Nodup := (List.nodup_append.mp tree.nodup).2.1
  have sub : (s.leaves h).map Prod.snd ⊆ List.range s.metaPage.numPages := by
    intro i hi
    exact List.mem_range.mpr (tree.range i (List.mem_append_right _ hi)).2
  have := (List.subperm_of_subset nodup sub).length_le
  rwa [List.length_map, List.length_range] at this

theorem recs_length_le {p : Page} (acc : p.Accounted) : (recsOf p.body).length ≤ kPageSize := by
  obtain ⟨total, start⟩ := acc
  have slots : (recsOf p.body).length ≤ p.numSlots := by
    cases body : p.body <;> simp [recsOf, Page.numSlots, body]
  unfold Page.freeSpaceStart at start
  have : p.numSlots ≤ p.numSlots * kSlotEntrySize := Nat.le_mul_of_pos_right _ (by decide)
  omega

theorem contents_length_le {bd : Bodies} {row : List Link} {n : Nat}
    (each : ∀ l ∈ row, (recsOf (bd l.2)).length ≤ n) : (contents bd row).length ≤ row.length * n := by
  induction row with
  | nil => simp
  | cons l row ih =>
    have here := each l (by simp)
    have rest := ih fun x hx => each x (by simp [hx])
    simp only [contents_cons, List.length_append, List.length_cons, Nat.succ_mul]
    omega

theorem Represents.length_le (rep : Represents s entries) :
    entries.length ≤ s.metaPage.numPages * kPageSize := by
  rcases rep.tree with ⟨-, rfl⟩ | ⟨h, tree, rfl⟩
  · exact Nat.zero_le _
  · exact (contents_length_le fun l hl => recs_length_le (tree.accounted l hl)).trans
      (Nat.mul_le_mul_right _ tree.row_short)

/- Positioning. -/

theorem moveTo_positions {pre : List Link} {x : Link} (tree : Tree s h) (sound : Sound s)
    (io : s.io = []) (row : s.leaves h = pre ++ x :: post) (index : Nat) :
    ∃ c' s', c.moveTo x.2 index s = .ok c' s' ∧ Same s s' ∧ c'.status = c.status ∧
      Positioned s' ((recsOf (s.bodies x.2)).drop index ++ contents s.bodies post) c' := by
  have mem : x ∈ s.leaves h := by simp [row]
  obtain ⟨lo, hi⟩ := tree.range _ (leaf_mem_ids mem)
  obtain ⟨t, fetch⟩ := fetchPage_succeeds io lo hi (sound.readable _ lo hi)
  have same := fetchPage_same fetch
  have there : (t.view x.2).body = s.bodies x.2 := congrFun same.bodies x.2
  have linked : Linked s.bodies kInvalidPageId ((pre ++ x :: post).map Prod.snd) kInvalidPageId :=
    row ▸ tree.row.linked
  rw [List.map_append, List.map_cons, linked_append] at linked
  obtain ⟨-, ⟨recs, body⟩, chain⟩ := linked
  have ahead : Ahead t { c with page := t.view x.2, index := index, valid := true } post := by
    refine ⟨⟨_, recs, there.trans body⟩, ⟨x.2, ?_⟩, ?_, ?_⟩
    · rw [same.bodies]
      exact chain
    · rw [same.metaPage]
      intro l hl
      have mem : l ∈ s.leaves h := by simp [row, hl]
      exact tree.range _ (leaf_mem_ids mem)
    · have := congrArg List.length row ▸ tree.row_short
      rw [List.length_append, List.length_cons] at this
      rw [same.metaPage]
      omega
  obtain ⟨c', u, run, same', status, positioned⟩ :=
    skipToLiveEntry_positions (sound.same same) (same.io io)
      (c := { c with page := t.view x.2, index := index, valid := true }) rfl ahead
      (Nat.lt_succ_of_le ahead.short)
  refine ⟨c', u, ?_, same.trans same', status, ?_⟩
  · unfold Cursor.moveTo
    rw [bind_of_ok (attempt_ok fetch)]
    simp only []
    rw [bind_of_ok (getPage_run _)]
    exact run
  · rwa [Cursor.remaining, recs_eq, there, same.bodies] at positioned

theorem Reached.lowerBound {pre : List Link} {x : Link} {prev next : PageId}
    {recs : List (Bytes × Bytes)} (reached : Reached s h key pre x post prev next recs) :
    recs.drop ((s.view x.2).lowerBound key) ++ contents s.bodies post =
      (contents s.bodies (s.leaves h)).filter (fun r => key ≤ r.1) := by
  obtain ⟨lo, hi, rfl, below, above⟩ := ascending_cut reached.asc key
  have bound : (s.view x.2).lowerBound key = lo.length := by
    rw [Page.lowerBound, Page.findKeyIndex_leaf reached.body reached.asc below above]
  have small := reached.smaller below
  rw [reached.whole, bound, List.drop_left, List.append_assoc, List.append_assoc,
    ← List.append_assoc, List.filter_append]
  have gone : (contents s.bodies pre ++ lo).filter (fun r => key ≤ r.1) = [] :=
    List.filter_eq_nil_iff.mpr fun r hr => by simpa using small r hr
  have kept : (hi ++ contents s.bodies post).filter (fun r => key ≤ r.1) =
      hi ++ contents s.bodies post := by
    refine List.filter_eq_self.mpr fun r hr => ?_
    rcases List.mem_append.mp hr with mem | mem
    · simpa using above r mem
    · simpa using (reached.right r mem).le
  rw [gone, kept, List.nil_append]

theorem seek_positions (rep : Represents s entries) (io : s.io = []) (key : Bytes) :
    ∃ c s', seek key s = .ok c s' ∧ Same s s' ∧ c.status = none ∧
      Positioned s' (entries.filter (fun r => key ≤ r.1)) c := by
  unfold seek
  by_cases root : s.metaPage.rootPageId = kInvalidPageId
  · have missing : findLeafOrEmpty key s = .error (.status (.NotFound "Tree is empty")) s := by
      unfold findLeafOrEmpty
      rw [bind_of_ok isEmpty_run, bind_of_error (failIf_of (by simpa using root))]
    rw [bind_of_ok (attempt_error missing), rep.empty root]
    exact ⟨_, s, rfl, Same.refl s, rfl, .done rfl rfl⟩
  · obtain ⟨h, tree, eq⟩ := rep.grown root
    rcases findLeaf_cases tree rep.sound key with
      ⟨pre, x, post, prev, next, recs, t, run, same, reached⟩ | ⟨e, t, run, foreign, some⟩
    · have found : findLeafOrEmpty key s = .ok x.2 t := by
        unfold findLeafOrEmpty
        rw [bind_of_ok isEmpty_run, bind_of_ok (failIf_of_not (by simpa using root)), run]
      have rep' := rep.same same
      have mem : x ∈ t.leaves h := by simp [reached.row]
      obtain ⟨lo, hi⟩ := (tree.same same).range _ (leaf_mem_ids mem)
      obtain ⟨u, fetch⟩ := fetchPage_succeeds (same.io io) lo hi (rep'.sound.readable _ lo hi)
      have same' := fetchPage_same fetch
      have reached' := reached.same same'
      obtain ⟨c, v, move, same'', status, positioned⟩ := moveTo_positions
        (c := .unpositioned) ((tree.same same).same same') (rep'.sound.same same')
        (same'.io (same.io io)) reached'.row ((u.view x.2).lowerBound key)
      refine ⟨c, v, ?_, (same.trans same').trans same'', status, ?_⟩
      · rw [bind_of_ok (attempt_ok found)]
        simp only [seekInLeaf]
        rw [bind_of_ok (attempt_ok fetch)]
        simp only []
        rw [bind_of_ok (getPage_run _)]
        exact move
      · rwa [reached'.body, recsOf, reached'.lowerBound, contents_same same', contents_same same,
          eq] at positioned
    · exact absurd io some

theorem descendFirst_reaches {fuel : Nat} {rest : List Link} {x : Link} (sound : Sound s) (io : s.io = [])
    (below : Below s h (x :: rest)) (enough : h < fuel) :
    ∃ y post s', descendFirst fuel x.2 s = .ok y.2 s' ∧ Same s s' ∧
      leavesOf s.bodies h (x :: rest) = y :: post := by
  induction h generalizing s fuel rest x with
  | zero =>
    cases fuel with
    | zero => cases enough
    | succ fuel =>
      obtain ⟨lo, hi⟩ := below.mem List.mem_cons_self
      obtain ⟨t, fetch⟩ := fetchPage_succeeds io lo hi (sound.readable _ lo hi)
      have same := fetchPage_same fetch
      obtain ⟨prev, next, recs, body⟩ := below.leaf x List.mem_cons_self
      rw [← same.bodies] at body
      refine ⟨x, rest, t, ?_, same, rfl⟩
      rw [descendFirst, bind_of_ok fetch, bind_of_ok (getPage_run _), if_pos (isLeaf_of_body body)]
      rfl
  | succ h ih =>
    cases fuel with
    | zero => cases enough
    | succ fuel =>
      obtain ⟨lo, hi⟩ := below.mem List.mem_cons_self
      obtain ⟨t, fetch⟩ := fetchPage_succeeds io lo hi (sound.readable _ lo hi)
      have same := fetchPage_same fetch
      obtain ⟨r, es, body⟩ := below.inner.1 x List.mem_cons_self
      have body' : (t.view x.2).body = .internal r es := (congrFun same.bodies x.2).trans body
      obtain ⟨c, siblings, level, next⟩ : ∃ c siblings, expand s.bodies (x :: rest) = c :: siblings ∧
          (if 0 < (t.view x.2).numSlots then (t.view x.2).getChild 0 else
            (t.view x.2).getRightmostChild) = c.2 := by
        cases es with
        | nil =>
          refine ⟨(x.1, r), expand s.bodies rest, ?_, ?_⟩
          · simp [expand, body, segOf, seg]
          · simp [Page.numSlots, Page.getRightmostChild, body']
        | cons e es =>
          refine ⟨(x.1, e.2), seg e.1 es r ++ expand s.bodies rest, ?_, ?_⟩
          · simp [expand, body, segOf, seg]
          · simp [Page.numSlots, Page.getChild, Page.entries, body']
      have child := level ▸ below.child
      have valid : c.2 ≠ kInvalidPageId := ((child.mem List.mem_cons_self).2.trans_le sound.limit).ne
      obtain ⟨y, post, s', run, same', leaves⟩ := ih (sound.same same) (same.io io) (child.same same)
        (Nat.lt_of_succ_lt_succ enough)
      refine ⟨y, post, s', ?_, same.trans same', ?_⟩
      · rw [descendFirst, bind_of_ok fetch, bind_of_ok (getPage_run _),
          if_neg (by simp [not_isLeaf_of_body body'])]
        refine (bind_of_ok (failIf_of_not (next ▸ valid))).trans ?_
        rw [next]
        exact run
      · rw [leavesOf, level, ← same.bodies]
        exact leaves

theorem seekToFirst_positions (rep : Represents s entries) (io : s.io = []) :
    ∃ c s', seekToFirst s = .ok c s' ∧ Same s s' ∧ c.status = none ∧ Positioned s' entries c := by
  unfold seekToFirst
  rw [bind_of_ok isEmpty_run]
  by_cases root : s.metaPage.rootPageId = kInvalidPageId
  · rw [if_pos (by simpa using root), rep.empty root]
    exact ⟨_, s, rfl, Same.refl s, rfl, .done rfl rfl⟩
  · obtain ⟨h, tree, eq⟩ := rep.grown root
    obtain ⟨x, post, t, run, same, leaves⟩ :=
      descendFirst_reaches rep.sound io tree.below (Nat.lt_succ_of_lt tree.height_lt)
    have tree' := tree.same same
    have row : t.leaves h = [] ++ x :: post := by
      rw [Store.leaves, Store.top, same.bodies, same.metaPage]
      exact leaves
    obtain ⟨c, u, move, same', status, positioned⟩ := moveTo_positions (c := .unpositioned) tree'
      (rep.sound.same same) (same.io io) row 0
    refine ⟨c, u, ?_, same.trans same', status, ?_⟩
    · rw [if_neg (by simpa using root), bind_of_ok get_run, bind_of_ok (attempt_ok run)]
      exact move
    · have all : contents t.bodies (x :: post) = entries := by
        rw [← eq, ← contents_same same, row]
        rfl
      rwa [List.drop_zero, ← contents_cons, all] at positioned

/- The loop. -/

def shown (endKey : Bytes) (callback : Bytes → Bytes → Bool) :
    List (Bytes × Bytes) → List (Bytes × Bytes)
  | [] => []
  | r :: rest =>
    if endKey ≠ [] ∧ endKey ≤ r.1 then []
    else if callback r.1 r.2 then r :: shown endKey callback rest else [r]

theorem Positioned.same {rest : List (Bytes × Bytes)} (positioned : Positioned s rest c)
    (same : Same s s') : Positioned s' rest c := by
  cases positioned with
  | done invalid nil => exact .done invalid nil
  | live post valid ahead index rest =>
    exact .live post valid (ahead.same same) index (by rw [same.bodies]; exact rest)

theorem Ahead.head (ahead : Ahead s c post) (valid : c.valid = true)
    (live : c.index < c.page.numSlots) :
    c.remaining s.bodies post = (c.key, c.value) ::
      Cursor.remaining s.bodies { c with index := c.index + 1 } post := by
  obtain ⟨prev, recs, body⟩ := ahead.body
  rw [ahead.slots] at live
  have keys : c.page.keys = c.page.recs.map Prod.fst := by simp [Page.keys, Page.recs, body]
  have here : (c.key, c.value) = c.page.recs[c.index] := by
    simp [Cursor.key, Cursor.value, valid, Page.getKey, Page.getValueAt, keys, live]
  rw [Cursor.remaining, Cursor.remaining, here, List.drop_eq_getElem_cons live]
  rfl

theorem next_positions (sound : Sound s) (io : s.io = []) (valid : c.valid = true)
    (ahead : Ahead s c post) :
    ∃ c' s', c.next s = .ok c' s' ∧ Same s s' ∧ c'.status = c.status ∧
      Positioned s' (Cursor.remaining s.bodies { c with index := c.index + 1 } post) c' := by
  unfold Cursor.next
  rw [if_pos valid]
  exact skipToLiveEntry_positions sound io (c := { c with index := c.index + 1 }) valid
    ⟨ahead.body, ahead.linked, ahead.range, ahead.short⟩ (Nat.lt_succ_of_le ahead.short)

theorem scanLoop_shows {fuel : Nat} {rest : List (Bytes × Bytes)} (endKey : Bytes)
    (callback : Bytes → Bytes → Bool) (sound : Sound s) (io : s.io = [])
    (positioned : Positioned s rest c) (enough : rest.length < fuel) :
    ∃ last s', scanLoop endKey callback fuel c s = .ok (shown endKey callback rest, last) s' ∧
      Same s s' ∧ last.status = c.status := by
  induction fuel generalizing s c rest with
  | zero => cases enough
  | succ fuel ih =>
    unfold scanLoop
    cases positioned with
    | done invalid nil =>
      rw [if_neg (by simp [invalid]), nil]
      exact ⟨c, s, rfl, Same.refl s, rfl⟩
    | live post valid ahead index eq =>
      rw [if_pos valid, ← eq, ahead.head valid index, shown]
      by_cases bound : endKey ≠ [] ∧ endKey ≤ c.key
      · rw [if_pos bound, if_pos bound]
        exact ⟨c, s, rfl, Same.refl s, rfl⟩
      rw [if_neg bound, if_neg bound]
      by_cases more : callback c.key c.value = true
      · rw [if_pos more, if_pos more]
        obtain ⟨c', t, run, same, status, positioned'⟩ := next_positions sound io valid ahead
        have fewer := eq ▸ enough
        rw [ahead.head valid index, List.length_cons] at fewer
        obtain ⟨last, u, loop, same', status'⟩ := ih (sound.same same) (same.io io) positioned'
          (Nat.lt_of_succ_lt_succ fewer)
        refine ⟨last, u, ?_, same.trans same', status'.trans status⟩
        rw [bind_of_ok run, bind_of_ok loop]
        rfl
      · rw [if_neg more, if_neg more]
        exact ⟨c, s, rfl, Same.refl s, rfl⟩

theorem scanFuel_run (s : Store) : scanFuel s = .ok (s.metaPage.numPages * kPageSize + 1) s := by
  unfold scanFuel
  rw [bind_of_ok get_run]
  rfl

theorem scan_shows (rep : Represents s entries) (io : s.io = []) (start endKey : Bytes)
    (callback : Bytes → Bytes → Bool) :
    ∃ s', Same s s' ∧ scan start endKey callback s =
      .ok (shown endKey callback (entries.filter (fun r => start ≤ r.1)), none) s' := by
  obtain ⟨c, t, run, same, status, positioned⟩ := seek_positions rep io start
  have rep' := rep.same same
  have short := (List.length_filter_le (fun r => decide (start ≤ r.1)) entries).trans rep'.length_le
  obtain ⟨last, u, loop, same', status'⟩ :=
    scanLoop_shows endKey callback rep'.sound (same.io io) positioned (Nat.lt_succ_of_le short)
  refine ⟨u, same.trans same', ?_⟩
  unfold scan
  rw [bind_of_ok run, bind_of_ok (scanFuel_run t), bind_of_ok loop]
  simp only [status', status]
  rfl

/-- With a callback that never stops, the loop shows the keys below its bound. -/
theorem shown_all {rest : List (Bytes × Bytes)} (asc : (rest.map Prod.fst).Pairwise (· < ·)) :
    shown endKey (fun _ _ => true) rest = rest.filter (fun r => endKey = [] ∨ r.1 < endKey) := by
  induction rest with
  | nil => rfl
  | cons r rest ih =>
    rw [List.map_cons, List.pairwise_cons] at asc
    rw [shown]
    by_cases bound : endKey ≠ [] ∧ endKey ≤ r.1
    · rw [if_pos bound]
      symm
      refine List.filter_eq_nil_iff.mpr fun x hx => ?_
      have le : r.1 ≤ x.1 := by
        rcases List.mem_cons.mp hx with rfl | mem
        · exact le_rfl
        · exact (asc.1 _ (List.mem_map_of_mem mem)).le
      simpa [bound.1] using bound.2.trans le
    · have within : endKey = [] ∨ r.1 < endKey := by
        by_cases nil : endKey = []
        · exact .inl nil
        · exact .inr (not_le.mp fun le => bound ⟨nil, le⟩)
      rw [if_neg bound, if_pos rfl, ih asc.2, List.filter_cons_of_pos (by simpa using within)]

end PagerDB

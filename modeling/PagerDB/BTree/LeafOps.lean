import PagerDB.BTree.Sound

/-! Operations that change one leaf: Get, Delete and the Put that does not split. -/
namespace PagerDB

open SortedLib Store
open Page (lookup_cut lookup_absent)

variable {s s' t : Store} {h : Nat} {key value : Bytes} {entries : List (Bytes × Bytes)}
  {pre post : List Link} {x : Link}

def Put (key value : Bytes) (entries entries' : List (Bytes × Bytes)) : Prop :=
  ∀ k, entries'.lookup k = if k = key then some value else entries.lookup k

def Erased (key : Bytes) (entries entries' : List (Bytes × Bytes)) : Prop :=
  ∀ k, entries'.lookup k = if k = key then none else entries.lookup k

section Lists

variable {lo : List (Bytes × Bytes)}

theorem put_new (value : Bytes) (hi : List (Bytes × Bytes)) (below : ∀ r ∈ lo, r.1 < key) :
    Put key value (lo ++ hi) (lo ++ (key, value) :: hi) :=
  fun k => lookup_cut below k

theorem put_over (old value : Bytes) (hi : List (Bytes × Bytes)) (below : ∀ r ∈ lo, r.1 < key) :
    Put key value (lo ++ (key, old) :: hi) (lo ++ (key, value) :: hi) := by
  intro k
  rw [lookup_cut below, lookup_cut below]
  split <;> rfl

theorem erased_cut {hi : List (Bytes × Bytes)} (old : Bytes) (below : ∀ r ∈ lo, r.1 < key)
    (above : ∀ r ∈ hi, key < r.1) :
    Erased key (lo ++ (key, old) :: hi) (lo ++ hi) := by
  intro k
  rw [lookup_cut below]
  split
  · rename_i e
    rw [e, lookup_absent below above]
  · rfl

end Lists

theorem Tree.apart (tree : Tree s h) (row : s.leaves h = pre ++ x :: post) :
    x.2 ∉ innerIds s.bodies h s.top ∧ ∀ l ∈ pre ++ post, l.2 ≠ x.2 := by
  have nodup := tree.nodup
  have row' : leavesOf s.bodies h s.top = pre ++ x :: post := row
  rw [idsOf, List.nodup_append, row'] at nodup
  obtain ⟨-, leavesNodup, disjoint⟩ := nodup
  rw [List.map_append, List.map_cons, List.nodup_append] at leavesNodup
  refine ⟨fun mem => disjoint x.2 mem x.2 (by simp) rfl, fun l hl => ?_⟩
  rcases List.mem_append.mp hl with mem | mem
  · exact fun e => leavesNodup.2.2 l.2 (List.mem_map_of_mem mem) x.2 (by simp) e
  · exact fun e => (List.nodup_cons.mp leavesNodup.2.1).1 (e ▸ List.mem_map_of_mem mem)

theorem Tree.rewrite {prev next : PageId} {recs recs' : List (Bytes × Bytes)} (tree : Tree s h)
    (row : s.leaves h = pre ++ x :: post) (old : s.bodies x.2 = .leaf prev next recs)
    (wrote : Wrote x.2 (.leaf prev next recs') s s') (acc : (s'.view x.2).Accounted)
    (asc : (recs'.map Prod.fst).Pairwise (· < ·)) (lower : ∀ r ∈ recs', x.1 ≤ r.1)
    (upper : ∀ r ∈ recs', ∀ y ∈ post, r.1 < y.1) :
    Tree s' h ∧ s'.leaves h = pre ++ x :: post ∧ contents s'.bodies (s'.leaves h) =
      contents s.bodies pre ++ recs' ++ contents s.bodies post := by
  have top : s'.top = s.top := by rw [Store.top, Store.top, wrote.metaPage]
  obtain ⟨outside, apart⟩ := tree.apart row
  obtain ⟨leaves, ids, keep⟩ := level_update (.leaf prev next recs') outside
  have leaves' : s'.leaves h = pre ++ x :: post := by
    rw [Store.leaves, top, wrote.bodies, leaves]
    exact row
  have ids' : idsOf s'.bodies h s'.top = idsOf s.bodies h s.top := by
    rw [idsOf, idsOf, top, wrote.bodies, leaves, ids]
  have new : s'.bodies x.2 = .leaf prev next recs' := by rw [wrote.bodies, Function.update_self]
  have others : ∀ l ∈ pre ++ post, s'.bodies l.2 = s.bodies l.2 := by
    intro l hl
    rw [wrote.bodies, Function.update_of_ne (apart l hl)]
  have lr := row ▸ tree.row
  refine ⟨⟨?_, ?_, ?_, ?_, ?_⟩, leaves', ?_⟩
  · rw [top, wrote.bodies]
    exact keep tree.inner
  · rw [ids']
    exact tree.nodup
  · rw [ids', wrote.metaPage]
    exact tree.range
  · rw [leaves']
    exact lr.update old new others asc lower upper
  · rw [leaves']
    intro l hl
    by_cases e : l.2 = x.2
    · rw [e]
      exact acc
    · exact wrote.accounted l.2 e (tree.accounted l (row ▸ hl))
  · rw [leaves']
    exact LeafRow.update_contents new others

theorem contents_here {bd : Bodies} {prev next : PageId} {recs : List (Bytes × Bytes)}
    (old : bd x.2 = .leaf prev next recs) :
    contents bd (pre ++ x :: post) = contents bd pre ++ recs ++ contents bd post := by
  simp [old, recsOf]

theorem Sound.wrote {pid : PageId} {body : Body} (sound : Sound s) (wrote : Wrote pid body s s') :
    Sound s' where
  free := by rw [wrote.metaPage]; exact sound.free
  first := by rw [wrote.metaPage]; exact sound.first
  limit := by rw [wrote.metaPage]; exact sound.limit
  readable p lo hi := wrote.readable p (sound.readable p lo (by rw [← wrote.metaPage]; exact hi))

def Store.counted (s : Store) (d : Int) : Store :=
  { s with metaPage := { s.metaPage with numKeys := s.metaPage.numKeys + d } }

theorem Represents.counted {n : Int} (sound : Sound s) (tree : Tree s h)
    (eq : contents s.bodies (s.leaves h) = entries) (count : n = entries.length) :
    Represents { s with metaPage := { s.metaPage with numKeys := n } } entries :=
  ⟨⟨sound.free, sound.first, sound.limit, sound.readable⟩, count, .inr ⟨h,
    ⟨tree.inner, tree.nodup, tree.range, tree.row, tree.accounted⟩, eq⟩⟩

/-- What the descent for a key knows about the leaf it reached. -/
structure Reached (s : Store) (h : Nat) (key : Bytes) (pre : List Link) (x : Link) (post : List Link)
    (prev next : PageId) (recs : List (Bytes × Bytes)) : Prop where
  row : s.leaves h = pre ++ x :: post
  le : x.1 ≤ key
  lt : ∀ y ∈ post, key < y.1
  body : s.bodies x.2 = .leaf prev next recs
  asc : (recs.map Prod.fst).Pairwise (· < ·)
  lower : ∀ r ∈ recs, x.1 ≤ r.1
  upper : ∀ r ∈ recs, ∀ y ∈ post, r.1 < y.1
  left : ∀ r ∈ contents s.bodies pre, r.1 < key
  right : ∀ r ∈ contents s.bodies post, key < r.1
  accounted : (s.view x.2).Accounted
  old : x.2 < s.metaPage.numPages

theorem Tree.reached (tree : Tree s h) (loc : Located (s.leaves h) key pre x post) :
    ∃ prev next recs, Reached s h key pre x post prev next recs := by
  obtain ⟨eq, le, lt⟩ := loc
  have mem : x ∈ s.leaves h := by simp [eq]
  obtain ⟨prev, next, recs, body⟩ := tree.row.isLeaf mem
  have lr := eq ▸ tree.row
  have here : recsOf (s.bodies x.2) = recs := by rw [body]; rfl
  refine ⟨prev, next, recs, eq, le, lt, body, here ▸ tree.row.keys x mem, here ▸ tree.row.lower x mem,
    fun r hr y hy => lr.here_lt (here ▸ hr) hy, fun r hr => (lr.left_lt hr).trans_le le, fun r hr => ?_,
    tree.accounted x mem, (tree.range _ (leaf_mem_ids mem)).2⟩
  obtain ⟨y, hy, yle⟩ := lr.right_ge hr
  exact (lt y hy).trans_le yle

theorem Reached.same {prev next : PageId} {recs : List (Bytes × Bytes)}
    (reached : Reached s h key pre x post prev next recs) (same : Same s s') :
    Reached s' h key pre x post prev next recs := by
  obtain ⟨row, le, lt, body, asc, lower, upper, left, right, accounted, old⟩ := reached
  refine ⟨?_, le, lt, ?_, asc, lower, upper, ?_, ?_, same.accounted _ accounted, ?_⟩
  · rw [Store.leaves, Store.top, same.bodies, same.metaPage]
    exact row
  · rwa [same.bodies]
  · rwa [same.bodies]
  · rwa [same.bodies]
  · rwa [same.metaPage]

theorem Reached.whole {prev next : PageId} {recs : List (Bytes × Bytes)}
    (reached : Reached s h key pre x post prev next recs) : contents s.bodies (s.leaves h) =
      contents s.bodies pre ++ recs ++ contents s.bodies post := by
  rw [reached.row]
  exact contents_here reached.body

theorem Reached.lookup {prev next : PageId} {recs : List (Bytes × Bytes)} (tree : Tree s h)
    (reached : Reached s h key pre x post prev next recs) :
    (contents s.bodies (s.leaves h)).lookup key = recs.lookup key := by
  have := tree.row.lookup ⟨reached.row, reached.le, reached.lt⟩
  rwa [reached.body] at this

section AtLeaf

variable {prev next : PageId} {recs : List (Bytes × Bytes)} {txid : TxId} {wantBefore : Bool}

theorem search_leaf {leaf : PageId} (body : s.bodies leaf = .leaf prev next recs)
    (asc : (recs.map Prod.fst).Pairwise (· < ·)) (key : Bytes) :
    (∃ lo old hi, recs = lo ++ (key, old) :: hi ∧ (∀ r ∈ lo, r.1 < key) ∧ (∀ r ∈ hi, key < r.1) ∧
      (s.view leaf).findKeyIndex key = (lo.length, true) ∧ recs.lookup key = some old ∧
      (s.view leaf).getValueAt lo.length = old) ∨
    (∃ lo hi, recs = lo ++ hi ∧ (∀ r ∈ lo, r.1 < key) ∧ (∀ r ∈ hi, key < r.1) ∧
      (s.view leaf).findKeyIndex key = (lo.length, false) ∧ recs.lookup key = none) := by
  have body' : (s.view leaf).body = .leaf prev next recs := body
  rcases Page.findKeyIndex_leaf_cases body' asc key with
    ⟨lo, old, hi, rfl, below, above, find⟩ | ⟨lo, hi, rfl, below, above, find⟩
  · refine .inl ⟨lo, old, hi, rfl, below, above, find, ?_, ?_⟩
    · simp [lookup_cut below]
    · simp [Page.getValueAt, Page.recs, body']
  · exact .inr ⟨lo, hi, rfl, below, above, find, lookup_absent below above⟩

theorem Reached.search (reached : Reached s h key pre x post prev next recs) :
    (∃ lo old hi, recs = lo ++ (key, old) :: hi ∧ (∀ r ∈ lo, r.1 < key) ∧ (∀ r ∈ hi, key < r.1) ∧
      (s.view x.2).findKeyIndex key = (lo.length, true) ∧ recs.lookup key = some old ∧
      (s.view x.2).getValueAt lo.length = old) ∨
    (∃ lo hi, recs = lo ++ hi ∧ (∀ r ∈ lo, r.1 < key) ∧ (∀ r ∈ hi, key < r.1) ∧
      (s.view x.2).findKeyIndex key = (lo.length, false) ∧ recs.lookup key = none) :=
  search_leaf reached.body reached.asc key

theorem Reached.smaller {lo : List (Bytes × Bytes)}
    (reached : Reached s h key pre x post prev next recs) (below : ∀ r ∈ lo, r.1 < key) :
    ∀ r ∈ contents s.bodies pre ++ lo, r.1 < key := by
  intro r hr
  rcases List.mem_append.mp hr with h | h
  · exact reached.left r h
  · exact below r h

theorem Reached.rewritten {recs' : List (Bytes × Bytes)} {n : Int}
    (reached : Reached s h key pre x post prev next recs) (tree : Tree s h) (sound : Sound s)
    (wrote : Wrote x.2 (.leaf prev next recs') s t) (acc : (t.view x.2).Accounted)
    (asc : (recs'.map Prod.fst).Pairwise (· < ·)) (lower : ∀ r ∈ recs', x.1 ≤ r.1)
    (upper : ∀ r ∈ recs', ∀ y ∈ post, r.1 < y.1)
    (count : n = (contents s.bodies pre ++ recs' ++ contents s.bodies post).length) :
    Represents { t with metaPage := { t.metaPage with numKeys := n } }
      (contents s.bodies pre ++ recs' ++ contents s.bodies post) := by
  obtain ⟨tree', -, eq⟩ := tree.rewrite reached.row reached.body wrote acc asc lower upper
  exact Represents.counted (sound.wrote wrote) tree' eq count

theorem wrote_logged {pid : PageId} {p : Page} {body : Body} (pbody : p.body = body)
    (acc : p.Accounted) (same : Same (s.putPage pid p) t) :
    Wrote pid body s t ∧ (t.view pid).Accounted :=
  ⟨pbody ▸ (wrote_putPage s pid p).same same, same.accounted pid (by simpa using acc)⟩

theorem deleteAtLeaf_local {leaf : PageId} (key : Bytes) (txid : TxId) (wantBefore : Bool)
    (body : s.bodies leaf = .leaf prev next recs) (asc : (recs.map Prod.fst).Pairwise (· < ·))
    (acc : (s.view leaf).Accounted) :
    match recs.lookup key with
    | none => deleteAtLeaf key txid wantBefore leaf s = .error (.status (.NotFound "Key not found")) s
    | some old => ∃ lo hi t, recs = lo ++ (key, old) :: hi ∧ (∀ r ∈ lo, r.1 < key) ∧
        (∀ r ∈ hi, key < r.1) ∧ Wrote leaf (.leaf prev next (lo ++ hi)) s t ∧
        (t.view leaf).Accounted ∧ deleteAtLeaf key txid wantBefore leaf s =
          .ok (if wantBefore then some old else none) (t.counted (-1)) := by
  rcases search_leaf body asc key with ⟨lo, old, hi, rfl, below, above, find, look, val⟩ |
    ⟨lo, hi, rfl, below, above, find, look⟩
  · rw [look]
    have body' : (s.view leaf).body = .leaf prev next (lo ++ (key, old) :: hi) := body
    have removed := Page.deleteAt_cut body'
    have acc' := Page.delete_accounted body' acc
    generalize gone : ({ s.view leaf with
      deadBytes := (s.view leaf).deadBytes + leafRecordBytes (key, old)
      body := .leaf prev next (lo ++ hi) } : Page) = p at removed acc'
    obtain ⟨t, log⟩ := logKeyRecord_succeeds (s.putPage leaf p)
      (.delete leaf key (if wantBefore then some old else none)) txid leaf true wantBefore
    have pbody : p.body = .leaf prev next (lo ++ hi) := by rw [← gone]
    obtain ⟨wrote, accounted⟩ := wrote_logged pbody acc' (logKeyRecord_same log)
    refine ⟨lo, hi, t, rfl, below, above, wrote, accounted, ?_⟩
    unfold deleteAtLeaf
    rw [bind_of_ok (getPage_run _)]
    simp only [find, val]
    rw [bind_of_ok (failIf_of_not (by simp [find])), bind_of_ok (withNode_run _ _)]
    simp only [removed]
    rw [bind_of_ok (failIf_of_not (by simp [removed])), bind_of_ok log,
      bind_of_ok (addToNumKeys_run _)]
    rfl
  · rw [look]
    unfold deleteAtLeaf
    rw [bind_of_ok (getPage_run _)]
    simp only [find]
    exact bind_of_error (failIf_of (by simp [find]))

theorem deleteAtLeaf_spec (txid : TxId) (wantBefore : Bool)
    (reached : Reached s h key pre x post prev next recs) (tree : Tree s h) (sound : Sound s)
    (eq : contents s.bodies (s.leaves h) = entries) (count : s.metaPage.numKeys = entries.length) :
    match entries.lookup key with
    | none => deleteAtLeaf key txid wantBefore x.2 s = .error (.status (.NotFound "Key not found")) s
    | some old => ∃ s' entries', Represents s' entries' ∧ Erased key entries entries' ∧
        deleteAtLeaf key txid wantBefore x.2 s = .ok (if wantBefore then some old else none) s' := by
  have whole := reached.whole.symm.trans eq
  have lookup := reached.lookup tree
  rw [eq] at lookup
  rw [lookup]
  have here := deleteAtLeaf_local key txid wantBefore reached.body reached.asc reached.accounted
  cases look : recs.lookup key with
  | none =>
    rw [look] at here
    exact here
  | some old =>
    rw [look] at here
    obtain ⟨lo, hi, t, rfl, below, above, wrote, acc, run⟩ := here
    have sub : ∀ r ∈ lo ++ hi, r ∈ lo ++ (key, old) :: hi := by
      intro r hr
      rcases List.mem_append.mp hr with h | h <;> simp [h]
    have keys : t.metaPage.numKeys = entries.length := by
      rw [wrote.metaPage]
      exact count
    refine ⟨_, _, reached.rewritten tree sound wrote acc
      (reached.asc.sublist (by simp)) (fun r hr => reached.lower r (sub r hr))
      (fun r hr => reached.upper r (sub r hr)) (n := t.metaPage.numKeys + -1) ?_, ?_, run⟩
    · rw [keys, ← whole]
      simp
      omega
    · rw [← whole]
      have larger : ∀ r ∈ hi ++ contents s.bodies post, key < r.1 := by
        intro r hr
        rcases List.mem_append.mp hr with h | h
        · exact above r h
        · exact reached.right r h
      simpa using erased_cut old (reached.smaller below) larger

theorem fits_between {recs lo hi : List (Bytes × Bytes)} (value : Bytes)
    (asc : (recs.map Prod.fst).Pairwise (· < ·)) (lower : ∀ r ∈ recs, x.1 ≤ r.1)
    (upper : ∀ r ∈ recs, ∀ y ∈ post, r.1 < y.1) (le : x.1 ≤ key) (lt : ∀ y ∈ post, key < y.1)
    (cut : recs = lo ++ hi ∨ ∃ old, recs = lo ++ (key, old) :: hi) (below : ∀ r ∈ lo, r.1 < key)
    (above : ∀ r ∈ hi, key < r.1) :
    ((lo ++ (key, value) :: hi).map Prod.fst).Pairwise (· < ·) ∧
      (∀ r ∈ lo ++ (key, value) :: hi, x.1 ≤ r.1) ∧
      ∀ r ∈ lo ++ (key, value) :: hi, ∀ y ∈ post, r.1 < y.1 := by
  have loIn : ∀ r ∈ lo, r ∈ recs := by
    rcases cut with rfl | ⟨old, rfl⟩ <;> intro r hr <;> simp [hr]
  have hiIn : ∀ r ∈ hi, r ∈ recs := by
    rcases cut with rfl | ⟨old, rfl⟩ <;> intro r hr <;> simp [hr]
  have rest : ((lo ++ hi).map Prod.fst).Pairwise (· < ·) := by
    refine asc.sublist (List.Sublist.map _ ?_)
    rcases cut with rfl | ⟨old, rfl⟩ <;> simp
  refine ⟨ascending_insert rest below above, ?_, ?_⟩
  · intro r hr
    simp only [List.mem_append, List.mem_cons] at hr
    rcases hr with h | rfl | h
    · exact lower r (loIn r h)
    · exact le
    · exact lower r (hiIn r h)
  · intro r hr
    simp only [List.mem_append, List.mem_cons] at hr
    rcases hr with h | rfl | h
    · exact upper r (loIn r h)
    · exact lt
    · exact upper r (hiIn r h)

theorem Reached.fits {lo hi : List (Bytes × Bytes)} (value : Bytes)
    (reached : Reached s h key pre x post prev next recs)
    (cut : recs = lo ++ hi ∨ ∃ old, recs = lo ++ (key, old) :: hi) (below : ∀ r ∈ lo, r.1 < key)
    (above : ∀ r ∈ hi, key < r.1) :
    ((lo ++ (key, value) :: hi).map Prod.fst).Pairwise (· < ·) ∧
      (∀ r ∈ lo ++ (key, value) :: hi, x.1 ≤ r.1) ∧
      ∀ r ∈ lo ++ (key, value) :: hi, ∀ y ∈ post, r.1 < y.1 :=
  fits_between value reached.asc reached.lower reached.upper reached.le reached.lt cut below above

theorem Reached.placed {lo hi : List (Bytes × Bytes)} {n : Int}
    (reached : Reached s h key pre x post prev next recs) (tree : Tree s h) (sound : Sound s)
    (cut : recs = lo ++ hi ∨ ∃ old, recs = lo ++ (key, old) :: hi) (below : ∀ r ∈ lo, r.1 < key)
    (above : ∀ r ∈ hi, key < r.1) (wrote : Wrote x.2 (.leaf prev next (lo ++ (key, value) :: hi)) s t)
    (acc : (t.view x.2).Accounted)
    (count : n = (contents s.bodies pre ++ (lo ++ (key, value) :: hi) ++ contents s.bodies post).length) :
    ∃ entries', Represents { t with metaPage := { t.metaPage with numKeys := n } } entries' ∧
      Put key value (contents s.bodies (s.leaves h)) entries' := by
  obtain ⟨asc, lower, upper⟩ := reached.fits value cut below above
  refine ⟨_, reached.rewritten tree sound wrote acc asc lower upper count, ?_⟩
  rw [reached.whole]
  rcases cut with rfl | ⟨old, rfl⟩
  · simpa using put_new value (hi ++ contents s.bodies post) (reached.smaller below)
  · simpa using put_over old value (hi ++ contents s.bodies post) (reached.smaller below)

def PlacedAt (key value : Bytes) (leaf prev next : PageId) (recs : List (Bytes × Bytes))
    (s s' : Store) : Prop :=
  ∃ lo hi t, (recs = lo ++ hi ∧ s' = t.counted 1 ∨ (∃ old, recs = lo ++ (key, old) :: hi) ∧ s' = t) ∧
    (∀ r ∈ lo, r.1 < key) ∧ (∀ r ∈ hi, key < r.1) ∧
    Wrote leaf (.leaf prev next (lo ++ (key, value) :: hi)) s t ∧ (t.view leaf).Accounted

theorem putAtLeaf_local {leaf : PageId} (key value : Bytes) (txid : TxId) (wantBefore : Bool)
    (body : s.bodies leaf = .leaf prev next recs) (asc : (recs.map Prod.fst).Pairwise (· < ·))
    (acc : (s.view leaf).Accounted) :
    (∃ s', putAtLeaf key value txid wantBefore leaf s = .ok none s' ∧ Same s s') ∨
    ∃ s', PlacedAt key value leaf prev next recs s s' ∧ putAtLeaf key value txid wantBefore leaf s =
      .ok (some (if wantBefore then recs.lookup key else none)) s' := by
  have body' : (s.view leaf).body = .leaf prev next recs := body
  rcases search_leaf body asc key with ⟨lo, old, hi, cut, below, above, find, look, val⟩ |
    ⟨lo, hi, cut, below, above, find, look⟩
  · generalize update : (s.view leaf).updateLeaf key value = out
    obtain ⟨flag, p⟩ := out
    cases flag with
    | false =>
      obtain rfl := Page.updateLeaf_false update
      refine .inl ⟨_, ?_, same_putPage s leaf (s.view leaf) rfl id⟩
      unfold putAtLeaf
      rw [bind_of_ok (getPage_run _)]
      simp only [find, if_true]
      rw [bind_of_ok (withNode_run _ _)]
      simp only [update]
      rfl
    | true =>
      obtain ⟨lo', old', hi', cut', below', above', pbody, -, -, pacc⟩ :=
        Page.updateLeaf_true body' asc update
      obtain ⟨t, log⟩ := logKeyRecord_succeeds (s.putPage leaf p)
        (.put leaf key value (if wantBefore then some old else none)) txid leaf true wantBefore
      obtain ⟨wrote, accounted⟩ := wrote_logged pbody (pacc acc) (logKeyRecord_same log)
      refine .inr ⟨t, ⟨lo', hi', t, .inr ⟨⟨old', cut'⟩, rfl⟩, below', above', wrote, accounted⟩, ?_⟩
      unfold putAtLeaf
      rw [bind_of_ok (getPage_run _)]
      simp only [find, if_true, Bool.and_true, val, look]
      rw [bind_of_ok (withNode_run _ _)]
      simp only [update, if_true]
      rw [bind_of_ok log]
      rfl
  · generalize insert : (s.view leaf).insertLeaf key value = out
    obtain ⟨flag, p⟩ := out
    have absent : ∀ r ∈ recs, r.1 ≠ key := by
      intro r hr
      rw [cut] at hr
      rcases List.mem_append.mp hr with h | h
      · exact (below r h).ne
      · exact (above r h).ne'
    cases flag with
    | false =>
      obtain ⟨rfl, -⟩ := Page.insertLeaf_false body' asc absent acc insert
      refine .inl ⟨_, ?_, same_putPage s leaf (s.view leaf) rfl id⟩
      unfold putAtLeaf
      rw [bind_of_ok (getPage_run _)]
      simp only [find, Bool.false_eq_true, if_false]
      rw [bind_of_ok (withNode_run _ _)]
      simp only [insert]
      rfl
    | true =>
      obtain ⟨lo', hi', cut', below', above', pbody, -, -, pacc⟩ :=
        Page.insertLeaf_true body' asc insert
      obtain ⟨t, log⟩ := logKeyRecord_succeeds (s.putPage leaf p)
        (.put leaf key value none) txid leaf true wantBefore
      obtain ⟨wrote, accounted⟩ := wrote_logged pbody (pacc acc) (logKeyRecord_same log)
      refine .inr ⟨t.counted 1, ⟨lo', hi', t, .inl ⟨cut', rfl⟩, below', above', wrote, accounted⟩, ?_⟩
      unfold putAtLeaf
      rw [bind_of_ok (getPage_run _)]
      simp only [find, Bool.false_eq_true, if_false, Bool.and_false, look, ite_self]
      rw [bind_of_ok (withNode_run _ _)]
      simp only [insert, if_true]
      rw [bind_of_ok log, bind_of_ok (addToNumKeys_run _)]
      rfl

theorem removeGrown_local {leaf : PageId} {lo hi : List (Bytes × Bytes)} {old : Bytes} {u : Unit}
    (body : s.bodies leaf = .leaf prev next (lo ++ (key, old) :: hi)) (acc : (s.view leaf).Accounted)
    (run : removeGrown leaf lo.length s = .ok u s') :
    Wrote leaf (.leaf prev next (lo ++ hi)) s s' ∧ (s'.view leaf).Accounted := by
  have body' : (s.view leaf).body = .leaf prev next (lo ++ (key, old) :: hi) := body
  have removed := Page.deleteAt_cut body'
  simp only [removeGrown, bind_ok, withNode_run, failIf_ok, markDirty_run, removed] at run
  obtain ⟨_, t, put, _, _, ⟨-, rfl⟩, dirty⟩ := run
  cases put
  cases dirty
  exact wrote_logged rfl (Page.delete_accounted body' acc) (same_dirtied _ leaf)

theorem insertHeld_local {leaf : PageId} {lo hi : List (Bytes × Bytes)} {found : Bool}
    {before : Option Bytes} {r : AtLeaf} (body : s.bodies leaf = .leaf prev next (lo ++ hi))
    (asc : ((lo ++ hi).map Prod.fst).Pairwise (· < ·)) (acc : (s.view leaf).Accounted)
    (below : ∀ r ∈ lo, r.1 < key) (above : ∀ r ∈ hi, key < r.1)
    (run : (do
      if ← withNode leaf (·.insertLeaf key value) then
        logKeyRecord (.put leaf key value before) txid leaf true wantBefore
        onlyIf (!found) (addToNumKeys 1)
        return (⟨before, found, true⟩ : AtLeaf)
      else return ⟨before, found, false⟩) s = .ok r s') :
    (∃ t, r = ⟨before, found, true⟩ ∧ Wrote leaf (.leaf prev next (lo ++ (key, value) :: hi)) s t ∧
      (t.view leaf).Accounted ∧ s' = if found then t else t.counted 1) ∨
    r = ⟨before, found, false⟩ ∧ Same s s' ∧
      (s.view leaf).room < kSlotEntrySize + 4 + key.length + value.length := by
  have body' : (s.view leaf).body = .leaf prev next (lo ++ hi) := body
  simp only [bind_ok, withNode_run] at run
  obtain ⟨_, _, put, run⟩ := run
  cases put
  generalize insert : (s.view leaf).insertLeaf key value = out at run
  obtain ⟨flag, p⟩ := out
  cases flag with
  | true =>
    simp only [if_true, bind_ok] at run
    obtain ⟨_, t, log, _, t', count, ret⟩ := run
    obtain ⟨rfl, rfl⟩ := pure_ok.mp ret
    obtain ⟨lo', hi', cut, below', above', pbody, -, -, pacc⟩ := Page.insertLeaf_true body' asc insert
    obtain ⟨rfl, rfl⟩ := cut_unique cut below above below' above'
    obtain ⟨wrote, acc'⟩ := wrote_logged pbody (pacc acc) (logKeyRecord_same log)
    refine .inl ⟨t, rfl, wrote, acc', ?_⟩
    cases found with
    | true =>
      rcases onlyIf_ok.mp count with ⟨no, -⟩ | ⟨-, rfl⟩
      · cases no
      · rfl
    | false =>
      rcases onlyIf_ok.mp count with ⟨-, count⟩ | ⟨no, -⟩
      · cases count
        rfl
      · cases no
  | false =>
    have absent : ∀ r ∈ lo ++ hi, r.1 ≠ key := by
      intro r hr
      rcases List.mem_append.mp hr with h | h
      · exact (below r h).ne
      · exact (above r h).ne'
    obtain ⟨rfl, full⟩ := Page.insertLeaf_false body' asc absent acc insert
    obtain ⟨rfl, rfl⟩ := pure_ok.mp run
    exact .inr ⟨rfl, same_putPage s leaf (s.view leaf) rfl id, full⟩

/-- The pessimistic write at its leaf: the record is placed, or the leaf is too full for it
and an old record that outgrew its place is gone. -/
theorem putHeldLeaf_local {leaf : PageId} {r : AtLeaf} (body : s.bodies leaf = .leaf prev next recs)
    (asc : (recs.map Prod.fst).Pairwise (· < ·)) (acc : (s.view leaf).Accounted)
    (run : putHeldLeaf key value txid wantBefore leaf s = .ok r s') :
    r.before = (if wantBefore then recs.lookup key else none) ∧
    (r.absorbed = true ∧ PlacedAt key value leaf prev next recs s s' ∨
     r.absorbed = false ∧ ∃ lo hi, (recs = lo ++ hi ∧ r.replacing = false ∨
        (∃ old, recs = lo ++ (key, old) :: hi) ∧ r.replacing = true) ∧ (∀ r ∈ lo, r.1 < key) ∧
      (∀ r ∈ hi, key < r.1) ∧ Wrote leaf (.leaf prev next (lo ++ hi)) s s' ∧
      (s'.view leaf).Accounted ∧
      (s'.view leaf).room < kSlotEntrySize + 4 + key.length + value.length) := by
  have body' : (s.view leaf).body = .leaf prev next recs := body
  have same := same_putPage s leaf (s.view leaf) rfl id
  simp only [putHeldLeaf, bind_ok, getPage_run, withNode_run] at run
  obtain ⟨_, _, ⟨rfl, rfl⟩, flag, t, put, run⟩ := run
  cases put
  rcases search_leaf body asc key with ⟨lo, old, hi, rfl, below, above, find, look, val⟩ |
    ⟨lo, hi, rfl, below, above, find, look⟩
  · rw [look]
    simp only [find, if_true, Bool.and_true, val] at run
    generalize update : (s.view leaf).updateLeaf key value = out at run
    obtain ⟨flag, p⟩ := out
    cases flag with
    | true =>
      simp only [if_true, bind_ok] at run
      obtain ⟨_, t, log, ret⟩ := run
      obtain ⟨rfl, rfl⟩ := pure_ok.mp ret
      obtain ⟨lo', old', hi', cut', below', above', pbody, -, -, pacc⟩ :=
        Page.updateLeaf_true body' asc update
      obtain ⟨wrote, acc'⟩ := wrote_logged pbody (pacc acc) (logKeyRecord_same log)
      exact ⟨rfl, .inl ⟨rfl, lo', hi', t, .inr ⟨⟨old', cut'⟩, rfl⟩, below', above', wrote, acc'⟩⟩
    | false =>
      obtain rfl := Page.updateLeaf_false update
      simp only [Bool.false_eq_true, if_false, bind_ok] at run
      obtain ⟨_, t, grown, run⟩ := run
      rcases onlyIf_ok.mp grown with ⟨-, grown⟩ | ⟨no, -⟩
      · obtain ⟨wrote, acc'⟩ := removeGrown_local ((congrFun same.bodies leaf).trans body)
          (same.accounted leaf acc) grown
        have body₁ : t.bodies leaf = .leaf prev next (lo ++ hi) := by
          rw [wrote.bodies, Function.update_self]
        have asc₁ : ((lo ++ hi).map Prod.fst).Pairwise (· < ·) := asc.sublist (by simp)
        rcases insertHeld_local body₁ asc₁ acc' below above (bind_ok.mpr run) with
          ⟨u, rfl, wrote', acc'', eq⟩ | ⟨rfl, same', full⟩
        · exact ⟨rfl, .inl ⟨rfl, lo, hi, u, .inr ⟨⟨old, rfl⟩, eq⟩, below, above,
            same.wrote (wrote.again wrote'), acc''⟩⟩
        · refine ⟨rfl, .inr ⟨rfl, lo, hi, .inr ⟨⟨old, rfl⟩, rfl⟩, below, above,
            same.wrote (wrote.same same'), same'.accounted leaf acc', ?_⟩⟩
          rw [Page.leaf_room body₁] at full
          rw [Page.leaf_room ((congrFun same'.bodies leaf).trans body₁)]
          exact full
      · cases no
  · rw [look]
    simp only [find, Bool.false_eq_true, if_false, Bool.and_false, bind_ok] at run
    obtain ⟨_, t, grown, run⟩ := run
    rcases onlyIf_ok.mp grown with ⟨yes, -⟩ | ⟨-, rfl⟩
    · cases yes
    · have body₁ := (congrFun same.bodies leaf).trans body
      rcases insertHeld_local body₁ asc (same.accounted leaf acc) below above (bind_ok.mpr run) with
        ⟨u, rfl, wrote', acc'', rfl⟩ | ⟨rfl, same', full⟩
      · exact ⟨by simp, .inl ⟨rfl, lo, hi, u, .inl ⟨rfl, rfl⟩, below, above, same.wrote wrote', acc''⟩⟩
      · have both := same.trans same'
        refine ⟨by simp, .inr ⟨rfl, lo, hi, .inl ⟨rfl, rfl⟩, below, above, ?_, both.accounted leaf acc, ?_⟩⟩
        · have self := wrote_self s leaf
          rw [body'] at self
          exact self.same both
        · rw [Page.leaf_room body₁] at full
          rw [Page.leaf_room ((congrFun both.bodies leaf).trans body)]
          exact full

theorem putAtLeaf_spec (reached : Reached s h key pre x post prev next recs) (tree : Tree s h)
    (sound : Sound s) (eq : contents s.bodies (s.leaves h) = entries)
    (count : s.metaPage.numKeys = entries.length) :
    (∃ s', putAtLeaf key value txid wantBefore x.2 s = .ok none s' ∧ Same s s') ∨
    ∃ s' entries', Represents s' entries' ∧ Put key value entries entries' ∧
      putAtLeaf key value txid wantBefore x.2 s =
        .ok (some (if wantBefore then entries.lookup key else none)) s' := by
  have whole := reached.whole.symm.trans eq
  have lookup := reached.lookup tree
  rw [eq] at lookup
  rw [lookup]
  rcases putAtLeaf_local key value txid wantBefore reached.body reached.asc reached.accounted with
    full | ⟨s', ⟨lo, hi, t, cut, below, above, wrote, acc⟩, run⟩
  · exact .inl full
  · have keys : t.metaPage.numKeys = entries.length := by
      rw [wrote.metaPage]
      exact count
    rcases cut with ⟨cut, rfl⟩ | ⟨⟨old, cut⟩, rfl⟩
    · obtain ⟨entries', rep, put⟩ := reached.placed tree sound (.inl cut) below above wrote acc
        (n := t.metaPage.numKeys + 1) (by rw [keys, ← whole, cut]; simp; omega)
      exact .inr ⟨_, entries', rep, eq ▸ put, run⟩
    · obtain ⟨entries', rep, put⟩ := reached.placed tree sound (.inr ⟨old, cut⟩) below above wrote acc
        (n := s'.metaPage.numKeys) (by rw [keys, ← whole, cut]; simp)
      exact .inr ⟨s', entries', rep, eq ▸ put, run⟩

end AtLeaf

end PagerDB

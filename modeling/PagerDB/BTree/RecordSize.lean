import PagerDB.BTree.PutFits
import PagerDB.BTree.OrderedMap

/-! The documented limit on records. Within it a Put can still fail: it ends well when the leaf
of its key has room, or the half of the split that the key belongs to does, and so on upwards. -/
namespace PagerDB

open KeepsLib MachineLib SortedLib Store

variable {s s' t : Store} {h : Nat} {key value : Bytes} {pre post : List Link} {x : Link}
  {prev next : PageId} {recs : List (Bytes × Bytes)} {txid : TxId} {wantBefore : Bool}
  {ancestors : List PageId} {entries : List (Bytes × Bytes)} {E : Failure → Prop} {q ok : Prop}

theorem putSplitting_fails {before : Option Bytes} {replacing : Bool} (adm : Admits E q ok)
    (tree : Tree s h) (sound : Sound s) (neat : Neat q s)
      (reached : Reached s h key pre x post prev next recs)
    (climb : Climb s.bodies s.metaPage.rootPageId ancestors pre x post) (height : ancestors.length = h)
    (absent : ∀ r ∈ recs, r.1 ≠ key) (size : 4 + key.length + value.length ≤ kMaxLeafRecordBytes)
    (full : (s.view x.2).room < kSlotEntrySize + 4 + key.length + value.length)
    (fits : ok → SplitTakes recs key value ∧ SepFits s.bodies ancestors (middleKey recs)) :
    FailsOnly E (putSplitting key value txid wantBefore before replacing x.2 ancestors) s := by
  refine (splitLeaf_fails adm neat sound reached.body reached.accounted reached.asc
    (reached.sibling tree)).bind
    fun out s₁ split => ?_
  obtain ⟨new, sep⟩ := out
  obtain rfl := splitLeaf_key reached.body split
  obtain ⟨fresh, page₁, ext₁, halves, -, sepMem, -⟩ :=
    splitLeaf_halves tree sound reached (full_ne_nil reached.body size full) split
  have joined : recs.take (recs.length / 2) ++ recs.drop (recs.length / 2) = recs :=
    List.take_append_drop _ _
  have asc : ((recs.take (recs.length / 2) ++ recs.drop (recs.length / 2)).map Prod.fst).Pairwise
      (· < ·) := by
    rw [joined]
    exact reached.asc
  refine (insertSplit_fails adm halves asc (by rwa [joined]) fun here => (fits here).1).bind
    fun u s₂ insert => ?_
  have apart : new ≠ x.2 := fresh ▸ reached.old.ne'
  obtain ⟨page₂, ext₂, -, -, -, -, -, -, -, -, -, inserted⟩ := insertSplit_ok apart asc halves insert
  refine .bind (.ite (fun _ => .of_ok (addToNumKeys_run 1)) fun _ => .of_ok (pure_run _))
    fun u s₃ count => ?_
  have neat₃ := keeps_onlyIf (keeps_addToNumKeys 1) _ _ _ count
    (keeps_insertSplit key value txid wantBefore before _ x.2 new _ _ _ insert
      (keeps_splitLeaf x.2 txid _ _ _ split neat))
  obtain ⟨n, rfl, -⟩ := counted count
  have ext := ext₁.trans ext₂
  have root : s₂.metaPage.rootPageId = s.metaPage.rootPageId := by rw [page₂, page₁]
  have above : x.1 < middleKey recs := separator_gt reached full halves sepMem inserted
  have below : ∀ y ∈ post, middleKey recs < y.1 := by
    obtain ⟨r, mem, eq⟩ := sepMem
    rw [← eq]
    exact fun y hy => reached.upper r (List.mem_of_mem_drop mem) y hy
  have pending := split_pending tree sound reached.row climb height fresh ext root above below n
  refine propagate_fails adm pending neat₃ fun here => (fits here).2.congr fun a mem => ?_
  exact (split_kept tree reached.row fresh ext a (.inl (height ▸ climb.mem a mem))).1

theorem putFirst_fails (adm : Admits E q ok) (neat : Neat q s) (sound : Sound s)
    (size : 4 + key.length + value.length ≤ kMaxLeafRecordBytes) :
    FailsOnly E (putFirst key value txid) s := by
  have takes : LeafTakes [] key value := by
    simp only [LeafTakes, List.map_nil, List.sum_nil, leafCost, leafRecordBytes, kMaxLeafRecordBytes,
      kPageCapacity, kPageSize, kPageHeaderSize, kSlotEntrySize] at size ⊢
    omega
  refine (newPage_fails adm neat sound.free).bind fun root t _ => .bind (.of_ok (setPage_run root _))
    fun _ t set => ?_
  cases set
  refine edit_fails adm (fun _ => ?_) fun t => ?_
  · rw [view_putPage, if_pos rfl]
    exact Page.insertLeaf_takes rfl List.Pairwise.nil (by simp)
      (init_accounted root kInvalidPageId kInvalidPageId) takes
  · exact (logPageEvent_fails _ _ _ _).bind fun _ t _ => (logPageImage_fails _ _ _ _).bind fun _ t _ =>
      (logPageEvent_fails _ _ _ _).bind fun _ t _ => .bind (.of_ok (setRootPageId_run root)) fun _ t _ =>
      .of_ok (addToNumKeys_run 1)

theorem insertOrSplit_fails {before : Option Bytes} {found : Bool} (adm : Admits E q ok)
    (tree : Tree s h) (sound : Sound s) (neat : Neat q s)
      (reached : Reached s h key pre x post prev next recs)
    (climb : Climb s.bodies s.metaPage.rootPageId ancestors pre x post) (height : ancestors.length = h)
    (absent : ∀ r ∈ recs, r.1 ≠ key) (size : 4 + key.length + value.length ≤ kMaxLeafRecordBytes)
    (fits : ok → LeafTakes recs key value ∨
      SplitTakes recs key value ∧ SepFits s.bodies ancestors (middleKey recs)) :
    FailsOnly E (do
      if ← withNode x.2 (·.insertLeaf key value) then
        logKeyRecord (.put x.2 key value before) txid x.2 true wantBefore
        onlyIf (!found) (addToNumKeys 1)
        return before
      else
        putSplitting key value txid wantBefore before found x.2 ancestors
        return before) s := by
  have body : (s.view x.2).body = .leaf prev next recs := reached.body
  refine .bind (.of_ok (withNode_run x.2 _)) fun flag t put => ?_
  rw [withNode_run] at put
  generalize insert : (s.view x.2).insertLeaf key value = out at put
  obtain ⟨given, p⟩ := out
  cases put
  refine .ite (fun _ => ?_) fun refused => ?_
  · exact (logKeyRecord_fails _ _ _ _ _ _).bind fun _ t _ =>
      .bind (.ite (fun _ => .of_ok (addToNumKeys_run 1)) fun _ => .of_ok (pure_run _)) fun _ t _ =>
      .of_ok (pure_run _)
  · obtain rfl : given = false := by simpa using refused
    obtain ⟨rfl, full⟩ := Page.insertLeaf_false body reached.asc absent reached.accounted insert
    -- the leaf refused the record, so it is the split that has room
    have fits' := fun here => (fits here).resolve_left fun takes => by
      have := Page.insertLeaf_takes body reached.asc absent reached.accounted takes
      rw [insert] at this
      cases this
    have same := same_putPage s x.2 (s.view x.2) rfl id
    have neat₁ : Neat q (s.putPage x.2 (s.view x.2)) := neat.putPage (neat.packed x.2)
    have full₁ : ((s.putPage x.2 (s.view x.2)).view x.2).room <
        kSlotEntrySize + 4 + key.length + value.length := by simpa using full
    generalize s.putPage x.2 (s.view x.2) = t at same neat₁ full₁
    rw [← same.bodies] at climb fits'
    rw [← same.metaPage] at climb
    refine .bind ?_ fun _ t _ => .of_ok (pure_run _)
    exact putSplitting_fails adm (tree.same same) (sound.same same) neat₁ (reached.same same) climb
      height absent size full₁ fits'

theorem filter_absent (absent : ∀ r ∈ recs, r.1 ≠ key) : (recs.filter fun r => r.1 ≠ key) = recs :=
  List.filter_eq_self.mpr fun r mem => decide_eq_true (absent r mem)

theorem putHeld_fails (adm : Admits E q ok) (tree : Tree s h) (sound : Sound s) (neat : Neat q s)
    (reached : Reached s h key pre x post prev next recs)
    (climb : Climb s.bodies s.metaPage.rootPageId ancestors pre x post) (height : ancestors.length = h)
    (size : 4 + key.length + value.length ≤ kMaxLeafRecordBytes)
    (fits : ok → LeafTakes (recs.filter fun r => r.1 ≠ key) key value ∨
      SplitTakes (recs.filter fun r => r.1 ≠ key) key value ∧
        SepFits s.bodies ancestors (middleKey (recs.filter fun r => r.1 ≠ key))) :
    FailsOnly E (putHeld key value txid wantBefore x.2 ancestors) s := by
  have body : (s.view x.2).body = .leaf prev next recs := reached.body
  have same := same_putPage s x.2 (s.view x.2) rfl id
  have neat₁ : Neat q (s.putPage x.2 (s.view x.2)) := neat.putPage (neat.packed x.2)
  have outside := (tree.apart reached.row).1
  refine .bind (.of_ok (getPage_run x.2)) fun node t got => ?_
  cases got
  have absent : ∀ {lo hi : List (Bytes × Bytes)}, (∀ r ∈ lo, r.1 < key) → (∀ r ∈ hi, key < r.1) →
      ∀ r ∈ lo ++ hi, r.1 ≠ key := by
    intro lo hi below above r mem
    rcases List.mem_append.mp mem with h | h
    · exact (below r h).ne
    · exact (above r h).ne'
  rcases reached.search with ⟨lo, old, hi, rfl, below, above, find, look, val⟩ |
    ⟨lo, hi, rfl, below, above, find, look⟩
  · have others : (lo ++ (key, old) :: hi).filter (fun r => r.1 ≠ key) = lo ++ hi := by
      rw [List.filter_append, List.filter_cons_of_neg (by simp), ← List.filter_append]
      exact filter_absent (absent below above)
    rw [others] at fits
    simp only [find]
    refine .bind (.of_ok (withNode_run x.2 _)) fun flag t put => ?_
    simp only [withNode_run, if_true] at put
    generalize update : (s.view x.2).updateLeaf key value = out at put
    obtain ⟨given, p⟩ := out
    cases put
    refine .ite (fun _ => ?_) fun refused => ?_
    · exact (logKeyRecord_fails _ _ _ _ _ _).bind fun _ t _ => .of_ok (pure_run _)
    · obtain rfl : given = false := by simpa using refused
      obtain rfl := Page.updateLeaf_false update
      generalize s.putPage x.2 (s.view x.2) = t at same neat₁
      have body₁ : (t.view x.2).body = .leaf prev next (lo ++ (key, old) :: hi) :=
        (congrFun same.bodies x.2).trans body
      have grown : FailsOnly E (onlyIf true (removeGrown x.2 lo.length)) t :=
        edit_fails adm (fun _ => by rw [Page.deleteAt_cut body₁]) fun t => .of_ok (markDirty_run x.2)
      refine grown.bind fun _ s₁ removed => ?_
      obtain ⟨-, removed⟩ | ⟨no, -⟩ := onlyIf_ok.mp removed
      · obtain ⟨wrote, tree₁, reached₁⟩ := removeGrown_ok (tree.same same) (reached.same same) removed
        have kept : ∀ a ∈ innerIds s.bodies ancestors.length [([], s.metaPage.rootPageId)],
            s₁.bodies a = s.bodies a := by
          intro a mem
          rw [wrote.bodies, same.bodies, Function.update_of_ne]
          rintro rfl
          exact outside (height ▸ mem)
        have climb₁ : Climb s₁.bodies s₁.metaPage.rootPageId ancestors pre x post := by
          rw [wrote.metaPage, same.metaPage]
          exact climb.congr kept
        have neat₂ := removeGrown_neat (Page.leaf_isLeaf body₁) neat₁ removed
        refine insertOrSplit_fails adm tree₁ ((sound.same same).wrote wrote) neat₂ reached₁ climb₁ height
          (absent below above) size fun here => (fits here).imp_right fun ⟨takes, up⟩ =>
            ⟨takes, up.congr fun a mem => ?_⟩
        exact kept a (climb.mem a mem)
      · cases no
  · rw [filter_absent (absent below above)] at fits
    simp only [find]
    refine .bind (.of_ok (withNode_run x.2 _)) fun flag t put => ?_
    simp only [withNode_run, Bool.false_eq_true, if_false] at put
    cases put
    generalize s.putPage x.2 (s.view x.2) = t at same neat₁
    rw [← same.bodies] at climb fits
    rw [← same.metaPage] at climb
    refine .ite (fun no => absurd no (by simp)) fun _ => .bind (.of_ok (pure_run ())) fun _ t' skip => ?_
    obtain ⟨-, rfl⟩ := pure_ok.mp skip
    exact insertOrSplit_fails adm (tree.same same) (sound.same same) neat₁ (reached.same same) climb height
      (absent below above) size fits

/- The descent. -/

theorem Page.findChild_congr {p q : Page} (same : p.body = q.body) (key : Bytes) :
    p.findChild key = q.findChild key := by
  have keys : p.keys = q.keys := by simp only [Page.keys, same]
  have slots : p.numSlots = q.numSlots := by simp only [Page.numSlots, same]
  have entries : p.entries = q.entries := by simp only [Page.entries, same]
  have rightmost : p.getRightmostChild = q.getRightmostChild := by
    simp only [Page.getRightmostChild, same]
  have inner : p.isInternal = q.isInternal := by simp only [Page.isInternal, same]
  unfold Page.findChild Page.findChildIndex Page.findKeyIndex Page.getChild
  rw [keys, slots, entries, rightmost, inner]

theorem route_congr {v w : PageId → Page} (same : ∀ p, (v p).body = (w p).body) (key : Bytes)
    (fuel : Nat) (pid : PageId) : route v key fuel pid = route w key fuel pid := by
  induction fuel generalizing pid with
  | zero => rfl
  | succ fuel ih =>
    have leaf : (v pid).isLeaf = (w pid).isLeaf := by simp only [Page.isLeaf, same pid]
    rw [route, route, leaf, Page.findChild_congr (same pid), ih]

theorem Store.PutFits.congr (fits : s.PutFits key value) (bodies : t.bodies = s.bodies)
    (page : t.metaPage = s.metaPage) : t.PutFits key value := by
  have here : ∀ p, (t.view p).body = (s.view p).body := fun p => congrFun bodies p
  have recs : ∀ p, (t.view p).recs = (s.view p).recs := fun p => by simp only [Page.recs, here]
  unfold Store.PutFits at fits ⊢
  rw [page, bodies, route_congr here]
  simpa only [recs] using fits

theorem Store.PutFits.same (fits : s.PutFits key value) (same : Same s t) : t.PutFits key value :=
  fits.congr same.bodies same.metaPage

theorem descendPath_route {fuel : Nat} {pid : PageId} {stack : List PageId}
    (run : descendPath key fuel pid s = .ok stack s') : stack = route s.view key fuel pid := by
  induction fuel generalizing pid s s' stack with
  | zero => cases run
  | succ fuel ih =>
    simp only [descendPath, bind_ok, getPage_run] at run
    obtain ⟨_, t, fetch, _, _, ⟨rfl, rfl⟩, run⟩ := run
    rw [(fetchPage_untouched fetch).view] at run
    rw [route]
    split at run
    · obtain ⟨rfl, -⟩ := pure_ok.mp run
      rw [if_pos ‹_›]
    · simp only [bind_ok, failIf_ok] at run
      obtain ⟨_, _, ⟨-, rfl⟩, rest, t', run, ret⟩ := run
      obtain ⟨rfl, -⟩ := pure_ok.mp ret
      rw [if_neg ‹_›, ih run, (fetchPage_untouched fetch).view]

theorem descendPath_fails {fuel : Nat} {links : List Link} (adm : Admits E q ok) (neat : Neat q s)
    (sound : Sound s) (loc : Located links key pre x post) (below : Below s h links)
    (enough : h < fuel) : FailsOnly E (descendPath key fuel x.2) s := by
  induction h generalizing s fuel links pre x post with
  | zero =>
    cases fuel with
    | zero => cases enough
    | succ fuel =>
      obtain ⟨lo, hi⟩ := below.mem (l := x) (by simp [loc.eq])
      refine (fetchPage_fails adm neat lo hi (sound.readable _ lo hi)).bind fun _ t fetch =>
        .bind (.of_ok (getPage_run x.2)) fun page t' got => ?_
      cases got
      obtain ⟨prev, next, recs, body⟩ := below.leaf x (by simp [leavesOf, loc.eq])
      rw [← (fetchPage_same fetch).bodies] at body
      rw [if_pos (isLeaf_of_body body)]
      exact .of_ok (pure_run _)
  | succ h ih =>
    cases fuel with
    | zero => cases enough
    | succ fuel =>
      obtain ⟨lo, hi⟩ := below.mem (l := x) (by simp [loc.eq])
      refine (fetchPage_fails adm neat lo hi (sound.readable _ lo hi)).bind fun _ t fetch =>
        .bind (.of_ok (getPage_run x.2)) fun page t' got => ?_
      cases got
      have same := fetchPage_same fetch
      have expandAsc := asc_of_leaves below.inner.2 below.asc
      obtain ⟨r, es, spre, y, spost, body, children, loc', find⟩ := loc.child below.inner.1 expandAsc
      have body' : (t.view x.2).body = s.bodies x.2 := congrFun same.bodies x.2
      have child := find _ body'
      have valid : (t.view x.2).findChild key ≠ kInvalidPageId := by
        have := (below.child.mem (l := y) (by simp [loc'.eq])).2
        exact child ▸ (this.trans_le sound.limit).ne
      rw [if_neg (by simp [not_isLeaf_of_body (body'.trans body)])]
      refine .bind (.of_ok (failIf_of_not valid)) fun _ t' skip => ?_
      obtain ⟨-, rfl⟩ := failIf_ok.mp skip
      rw [child]
      exact (ih (keeps_fetchPage x.2 _ _ _ fetch neat) (sound.same same) loc' (below.child.same same)
        (Nat.lt_of_succ_lt_succ enough)).bind fun _ t _ => .of_ok (pure_run _)

theorem descend_error_of_path {fuel : Nat} {pid : PageId} {e : Failure}
    (run : descend key fuel pid s = .error e s') : descendPath key fuel pid s = .error e s' := by
  induction fuel generalizing pid s with
  | zero =>
    cases run
    rfl
  | succ fuel ih =>
    rw [descend] at run
    rw [descendPath]
    rcases bind_error.mp run with run | ⟨_, t, fetch, run⟩
    · exact bind_of_error run
    · rw [bind_of_ok (getPage_run pid)] at run
      rw [bind_of_ok fetch, bind_of_ok (getPage_run pid)]
      split at run
      · cases run
      · rw [if_neg ‹_›]
        rcases bind_error.mp run with run | ⟨_, t', valid, run⟩
        · exact bind_of_error run
        · refine (bind_of_ok valid).trans ?_
          exact bind_of_error (ih run)

theorem descend_fails {fuel : Nat} {links : List Link} (adm : Admits E q ok) (neat : Neat q s)
    (sound : Sound s) (loc : Located links key pre x post) (below : Below s h links)
    (enough : h < fuel) : FailsOnly E (descend key fuel x.2) s := fun e s' run =>
  descendPath_fails adm neat sound loc below enough e s' (descend_error_of_path run)

theorem putPessimistic_fails (adm : Admits E q ok) (rep : Represents s entries) (neat : Neat q s)
    (size : 4 + key.length + value.length ≤ kMaxLeafRecordBytes) (fits : ok → s.PutFits key value) :
    FailsOnly E (putPessimistic key value txid wantBefore) s := by
  refine .bind (.of_ok isEmpty_run) fun empty t got => ?_
  cases got
  refine .ite (fun _ => ?_) fun grown => ?_
  · exact (putFirst_fails adm neat rep.sound size).bind fun _ t _ => .of_ok (pure_run _)
  · have root : s.metaPage.rootPageId ≠ kInvalidPageId := by simpa using grown
    obtain ⟨h, tree, -⟩ := rep.grown root
    have below : Below s h ([] ++ ([], s.metaPage.rootPageId) :: []) := tree.below
    refine .bind (.of_ok get_run) fun m t' got => ?_
    cases got
    refine (descendPath_fails adm neat rep.sound (Tree.located s key) tree.below
      (Nat.lt_succ_of_lt tree.height_lt)).bind fun stack t path => ?_
    obtain ⟨same, up, pre, x, post, eq, len, climb, loc⟩ :=
      descendPath_ok Climb.top (nil_le_bytes key) (by simp) below path
    obtain ⟨prev, next, recs, reached⟩ := tree.reached (s := s) loc
    have route := descendPath_route path
    have fits' := fun here => (fits here).resolve_left root
    simp only [← route, eq, List.getLastD_concat, List.dropLast_concat] at fits' ⊢
    rw [List.append_nil] at climb
    have here : (s.view x.2).recs = recs := by
      have body : (s.view x.2).body = .leaf prev next recs := reached.body
      simp [Page.recs, body]
    rw [here, ← same.bodies] at fits'
    rw [← same.bodies, ← same.metaPage] at climb
    exact putHeld_fails adm (tree.same same) (rep.sound.same same)
      (keeps_descendPath keeps_fetchPage key _ _ _ _ _ path neat) (reached.same same) climb
        (by simpa using len) size fits'

theorem treePut_fails (adm : Admits E q ok) (rep : Represents s entries) (neat : Neat q s)
    (size : 4 + key.length + value.length ≤ kMaxLeafRecordBytes) (fits : ok → s.PutFits key value) :
    FailsOnly E (treePut key value txid wantBefore) s := by
  refine .bind (.of_ok (failIf_of_not (not_lt.mpr size))) fun _ t got => ?_
  obtain ⟨-, rfl⟩ := failIf_ok.mp got
  rcases rep.tree with ⟨root, -⟩ | ⟨h, tree, eq⟩
  · have empty : putOptimistic key value txid wantBefore s = .ok none s := by
      unfold putOptimistic
      rw [bind_of_ok isEmpty_run]
      simp only [root, decide_true, if_true]
      rfl
    refine .bind (.of_ok empty) fun out t run => ?_
    cases empty.symm.trans run
    exact putPessimistic_fails adm rep neat size fits
  · have optimistic : putOptimistic key value txid wantBefore s =
        (findLeaf key >>= putAtLeaf key value txid wantBefore) s := by
      unfold putOptimistic
      rw [bind_of_ok isEmpty_run]
      simp only [tree.root_ne rep.sound, decide_false, Bool.false_eq_true, if_false]
    have search : FailsOnly E (findLeaf key) s :=
      .bind (.of_ok get_run) fun m t got => by
        cases got
        exact descend_fails adm neat rep.sound (Tree.located s key) tree.below
          (Nat.lt_succ_of_lt tree.height_lt)
    -- the leaf takes the record or is left as it was
    have placed : ∀ leaf t, findLeaf key s = .ok leaf t → ∃ out u,
        putAtLeaf key value txid wantBefore leaf t = .ok out u ∧ (out = none → Same s u) := by
      intro leaf t find
      obtain ⟨same, pre, x, post, loc, rfl⟩ := findLeaf_ok tree find
      obtain ⟨prev, next, recs, reached⟩ := tree.reached loc
      have eq₁ : contents t.bodies (t.leaves h) = entries := by
        rw [← eq, Store.leaves, Store.leaves, Store.top, Store.top, same.bodies, same.metaPage]
      have count₁ : t.metaPage.numKeys = entries.length := by
        rw [same.metaPage]
        exact rep.count
      have spec := @putAtLeaf_spec _ _ _ value _ _ _ _ _ _ _ txid wantBefore
        (reached.same same) (tree.same same) (rep.sound.same same) eq₁ count₁
      rcases spec with ⟨u, gave, same'⟩ | ⟨u, entries', -, -, done⟩
      · exact ⟨none, u, gave, fun _ => same.trans same'⟩
      · refine ⟨_, u, done, fun none => ?_⟩
        cases none
    have first : FailsOnly E (putOptimistic key value txid wantBefore) s := by
      intro e s' run
      rw [optimistic] at run
      refine search.bind (fun leaf t find => ?_) e s' run
      obtain ⟨out, u, done, -⟩ := placed leaf t find
      exact .of_ok done
    refine first.bind fun out u run => ?_
    have run' := run
    rw [optimistic] at run'
    obtain ⟨leaf, t, find, run'⟩ := bind_ok.mp run'
    obtain ⟨out', u', done, kept⟩ := placed leaf t find
    cases done.symm.trans run'
    cases out with
    | some before => exact .of_ok (pure_run _)
    | none =>
      have same := kept rfl
      exact putPessimistic_fails adm (rep.same same)
        (keeps_putAtLeaf key value txid wantBefore leaf _ _ _ done
          (keeps_findLeaf keeps_fetchPage key _ _ _ find neat))
        size fun here => (fits here).same same

theorem treePut_invalidArgument {e : Status} (rep : Represents s entries) (neat : Neat False s)
    (invalid : e.code = .invalidArgument)
    (run : treePut key value txid wantBefore s = .error (.status e) s') : s' = s := by
  by_cases size : kMaxLeafRecordBytes < 4 + key.length + value.length
  · unfold treePut at run
    rw [bind_of_error (failIf_of size)] at run
    cases run
    rfl
  · have adm : Admits (fun e => ∀ st, e = .status st → st.code ≠ .invalidArgument) False False := by
      refine ⟨?_, fun _ f => ?_, fun _ message => ?_, fun _ => nofun⟩
      · rintro _ ⟨⟩
        nofun
      · rintro _ ⟨⟩
        cases f <;> nofun
      · rintro _ ⟨⟩
        nofun
    exact absurd invalid (treePut_fails adm rep neat (not_lt.mp size) False.elim _ _ run e rfl)

/- Runs. -/

theorem Neat.facing (neat : Neat False s) (io : List (Option Fault)) : Neat False (s.facing io) :=
  ⟨False.elim, neat.packed⟩

theorem evict_view {pid : PageId} (run : s.evict pid = some s') : s'.view = s.view := by
  unfold Store.evict at run
  cases frame : s.cache pid with
  | none =>
    simp only [frame] at run
    cases run
  | some f =>
    simp only [frame, Option.ite_none_right_eq_some, Option.some.injEq] at run
    obtain ⟨-, rfl⟩ := run
    funext q
    by_cases e : q = pid
    · subst e
      simp [Store.view, Store.setDisk, frame]
    · simp [Store.view, Store.setDisk, e]

theorem Untouched.neat (neat : Neat False s) (same : Untouched s s') : Neat False s' :=
  ⟨False.elim, fun p => by rw [same.view]; exact neat.packed p⟩

theorem treeStep_neat {m : RefMap} {ev : Event} {y : Store × RefMap} (models : Models s m)
    (neat : Neat False s) (step : treeStep (s, m) ev = some y) : Neat False y.1 := by
  cases ev with
  | evict pid =>
    obtain ⟨s', run, rfl⟩ := Option.map_eq_some_iff.mp step
    exact ⟨False.elim, fun p => by rw [evict_view run]; exact neat.packed p⟩
  | call c txid wantBefore io =>
    cases c with
    | put key value =>
      simp only [treeStep, Call.perform] at step
      cases run : treePut key value txid wantBefore (s.facing io) with
      | error e u => simp [run, Call.mayEndWith] at step
      | ok b u =>
        simp only [run, Option.some.injEq] at step
        subst step
        exact keeps_treePut key value txid wantBefore _ _ _ run (neat.facing io)
    | delete key =>
      simp only [treeStep, Call.perform] at step
      have gone := models.agrees.delete key txid wantBefore io
      cases run : treeDelete key txid wantBefore (s.facing io) with
      | error e u =>
        simp only [run] at step gone
        obtain ⟨absent, eq⟩ := Option.ite_none_right_eq_some.mp step
        cases eq
        exact (gone.1 absent).2.neat neat
      | ok b u =>
        simp only [run, Option.some.injEq] at step
        subst step
        exact keeps_treeDelete key txid wantBefore _ _ _ run (neat.facing io)

/-- The call ends well, unless the file cannot grow. -/
def PutSucceeds (s : Store) (key value : Bytes) (txid : TxId) (wantBefore : Bool) : Prop :=
  match treePut key value txid wantBefore (s.facing []) with
  | .ok .. => True
  | .error e _ => e = fileFull

instance (s : Store) (key value : Bytes) (txid : TxId) (wantBefore : Bool) :
    Decidable (PutSucceeds s key value txid wantBefore) := by
  unfold PutSucceeds
  split <;> infer_instance

/-- After any run, a Put within the documented size that finds room ends well. -/
theorem fitting_puts_succeed (vol : Volume) (wal : Option LogWriter) (events : List Event) :
    EveryState treeStep (fun x => ∀ key value txid wantBefore, key.length + value.length ≤ 1000 →
      x.1.PutFits key value → PutSucceeds x.1 key value txid wantBefore)
      (create vol wal, fun _ => none) events := by
  have start : Models (create vol wal) (fun _ => none) ∧ Neat False (create vol wal) :=
    ⟨create_models vol wal, False.elim, fun p => Page.packed_blank rfl⟩
  have always : EveryState treeStep (fun x => Models x.1 x.2 ∧ Neat False x.1)
      (create vol wal, fun _ => none) events :=
    everyState_invariant (fun _ _ _ ⟨models, neat⟩ step =>
      ⟨treeStep_models models step, treeStep_neat models neat step⟩) start
  refine always.imp fun x inv key value txid wantBefore small fits => ?_
  obtain ⟨⟨entries, rep, -⟩, neat⟩ := inv
  have size : 4 + key.length + value.length ≤ kMaxLeafRecordBytes := by
    simp only [kMaxLeafRecordBytes, kPageSize, kPageHeaderSize, kSlotEntrySize]
    omega
  have adm : Admits (· = fileFull) True True :=
    ⟨rfl, fun no => absurd trivial no, fun no => absurd trivial no, fun no => absurd trivial no⟩
  have only : FailsOnly (· = fileFull) (treePut key value txid wantBefore) (x.1.facing []) :=
    treePut_fails adm (rep.facing []) ⟨fun _ => rfl, neat.packed⟩ size fun _ => fits
  unfold PutSucceeds
  split
  · trivial
  · exact only _ _ ‹_›

def Event.small : Event → Bool
  | .call (.put key value) .. => key.length + value.length ≤ 1000
  | _ => true

/-- Three records of one byte and four that fill the rest of the leaf. -/
def crowdedLeaf : List Event :=
  [(1, 0), (2, 0), (3, 0), (4, 979), (5, 979), (6, 979), (7, 979)].map fun r =>
    .call (.put [r.1] (List.replicate r.2 0)) 0 false []

theorem large_record_meets_roomy_half : ∃ x, run treeStep
    (create ⟨100, by decide⟩ (some (.open [] 1)), fun _ => none) crowdedLeaf = some x ∧
      x.1.PutFits [0] (List.replicate 999 0) ∧ PutSucceeds x.1 [0] (List.replicate 999 0) 0 false := by
  have roomy : (run treeStep (create ⟨100, by decide⟩ (some (.open [] 1)), fun _ => none)
      crowdedLeaf).map (fun x => decide (x.1.PutFits [0] (List.replicate 999 0))) = some true := by
    decide +kernel
  obtain ⟨x, reached, fits⟩ := Option.map_eq_some_iff.mp roomy
  have length : (List.replicate 999 (0 : Byte)).length = 999 := List.length_replicate
  generalize List.replicate 999 (0 : Byte) = value at fits length
  have fits' := of_decide_eq_true fits
  refine ⟨x, reached, fits', (fitting_puts_succeed _ _ crowdedLeaf).last reached [0] value 0 false ?_ fits'⟩
  rw [length]
  decide

/-- A split of that leaf by count leaves the four large records in the half of a new one. -/
theorem large_record_meets_full_half :
    ¬ ∀ (vol : Volume) (wal : Option LogWriter) (events : List Event), events.all Event.small →
      EveryState treeStep (fun x => ∀ key value txid wantBefore, key.length + value.length ≤ 1000 →
        PutSucceeds x.1 key value txid wantBefore) (create vol wal, fun _ => none) events := by
  intro every
  have refused : (run treeStep (create ⟨100, by decide⟩ (some (.open [] 1)), fun _ => none)
      crowdedLeaf).map (fun x => decide (PutSucceeds x.1 [8] (List.replicate 999 0) 0 false)) =
        some false := by
    decide +kernel
  obtain ⟨x, reached, fails⟩ := Option.map_eq_some_iff.mp refused
  have small : crowdedLeaf.all Event.small = true := by decide +kernel
  have length : (List.replicate 999 (0 : Byte)).length = 999 := List.length_replicate
  generalize List.replicate 999 (0 : Byte) = value at fails length
  refine of_decide_eq_false fails ((every _ _ crowdedLeaf small).last reached [8] value 0 false ?_)
  rw [length]
  decide

end PagerDB

import PagerDB.BTree.PutSplit

/-! Get, Put and Delete against the entries a store represents. -/
namespace PagerDB

open SortedLib Store

variable {s s' : Store} {key value : Bytes} {entries : List (Bytes × Bytes)} {txid : TxId}
  {wantBefore : Bool}

/- Put. -/

theorem putFirst_ok {u : Unit} (sound : Sound s) (count : s.metaPage.numKeys = 0)
    (run : putFirst key value txid s = .ok u s') :
    Represents s' [(key, value)] ∧ s'.metaPage.numPages = s.metaPage.numPages + 1 := by
  simp only [putFirst, bind_ok, setPage_run, withNode_run, failIf_ok, setRootPageId_run,
    addToNumKeys_run] at run
  obtain ⟨new, s₁, alloc, _, s₂, init, ins, s₃, put, _, _, ⟨yes, rfl⟩, _, s₄, event, _, s₅, image,
    _, s₆, event', _, s₇, root, keys⟩ := run
  cases init
  cases put
  cases root
  cases keys
  have grew := newPage_grew sound.free alloc
  have fresh := grew.fresh
  simp only [view_putPage, if_true] at yes event
  generalize insert : (Page.init new (.leaf kInvalidPageId kInvalidPageId [])).insertLeaf key value = out
    at yes event
  obtain ⟨flag, p⟩ := out
  obtain rfl : flag = true := by simpa using yes
  have blank : (Page.init new (.leaf kInvalidPageId kInvalidPageId [])).body =
    .leaf kInvalidPageId kInvalidPageId [] := rfl
  obtain ⟨lo, hi, cut, -, -, body, -, -, acc⟩ := Page.insertLeaf_true blank List.Pairwise.nil insert
  obtain ⟨rfl, rfl⟩ := List.append_eq_nil_iff.mp cut.symm
  have same := ((logPageEvent_same event).trans (logPageImage_same image)).trans (logPageEvent_same event')
  have wrote := ((wrote_putPage s₁ new (.init new (.leaf kInvalidPageId kInvalidPageId []))).again
    (wrote_putPage _ new p)).same same
  rw [body] at wrote
  have accNew : (s₆.view new).Accounted :=
    same.accounted new (by simpa using acc (init_accounted new kInvalidPageId kInvalidPageId))
  have ext := grew.extends.trans wrote.extends
  have node : s₆.bodies new = .leaf kInvalidPageId kInvalidPageId [(key, value)] := by
    rw [wrote.bodies, Function.update_self]
    rfl
  have pages : s₆.metaPage.numPages = new + 1 := by rw [wrote.metaPage, grew.metaPage]
  have sound₆ := sound.extends ext
  have keys₆ : s₆.metaPage.numKeys = 0 := by rw [wrote.metaPage, grew.metaPage]; exact count
  refine ⟨⟨⟨sound₆.free, sound₆.first, sound₆.limit, sound₆.readable⟩, ?_,
    .inr ⟨0, ⟨trivial, ?_, ?_, ?_, ?_⟩, ?_⟩⟩, fresh ▸ pages⟩
  · change s₆.metaPage.numKeys + 1 = 1
    rw [keys₆]
    rfl
  · simp [idsOf, innerIds, leavesOf]
  · intro i hi
    simp only [idsOf, innerIds, leavesOf, List.nil_append, List.map_cons, List.map_nil,
      List.mem_singleton] at hi
    rw [hi]
    refine ⟨fresh ▸ sound.first, ?_⟩
    change new < s₆.metaPage.numPages
    rw [pages]
    exact Nat.lt_succ_self _
  · change LeafRow s₆.bodies [([], new)]
    refine ⟨by simp [Asc], ⟨⟨_, node⟩, trivial⟩, ?_, ?_, by simp⟩
    · simp [node, recsOf]
    · simpa [node, recsOf] using nil_le_bytes key
  · intro l hl
    obtain rfl := List.mem_singleton.mp hl
    exact accNew
  · change contents s₆.bodies [([], new)] = _
    simp [node, recsOf]

theorem Reached.shrunk {h : Nat} {pre post : List Link} {x : Link} {prev next : PageId}
    {recs recs' : List (Bytes × Bytes)} (tree : Tree s h)
      (reached : Reached s h key pre x post prev next recs)
    (sub : recs'.Sublist recs) (wrote : Wrote x.2 (.leaf prev next recs') s s')
      (acc : (s'.view x.2).Accounted) :
    Tree s' h ∧ Reached s' h key pre x post prev next recs' := by
  obtain ⟨tree', row', -⟩ := tree.rewrite reached.row reached.body wrote acc (reached.asc.sublist (sub.map _))
    (fun r hr => reached.lower r (sub.subset hr)) (fun r hr => reached.upper r (sub.subset hr))
  refine ⟨tree', ?_⟩
  obtain ⟨prev', next', recs'', again⟩ := tree'.reached ⟨row', reached.le, reached.lt⟩
  have : Body.leaf prev' next' recs'' = .leaf prev next recs' :=
    again.body.symm.trans (by rw [wrote.bodies, Function.update_self])
  obtain ⟨rfl, rfl, rfl⟩ := Body.leaf.inj this
  exact again

theorem removeGrown_ok {h : Nat} {pre post : List Link} {x : Link} {prev next : PageId}
    {lo hi : List (Bytes × Bytes)} {old : Bytes} {u : Unit} (tree : Tree s h)
    (reached : Reached s h key pre x post prev next (lo ++ (key, old) :: hi))
    (run : removeGrown x.2 lo.length s = .ok u s') :
    Wrote x.2 (.leaf prev next (lo ++ hi)) s s' ∧ Tree s' h ∧
      Reached s' h key pre x post prev next (lo ++ hi) := by
  have body : (s.view x.2).body = .leaf prev next (lo ++ (key, old) :: hi) := reached.body
  have removed := Page.deleteAt_cut body
  have acc := Page.delete_accounted body reached.accounted
  simp only [removeGrown, bind_ok, withNode_run, failIf_ok, markDirty_run, removed] at run
  obtain ⟨_, t, put, _, _, ⟨-, rfl⟩, dirty⟩ := run
  cases put
  cases dirty
  obtain ⟨wrote, acc'⟩ := wrote_logged rfl acc (same_dirtied _ x.2)
  exact ⟨wrote, reached.shrunk tree (by simp) wrote acc'⟩

theorem put_of_cut {cpre cpost recs lo hi : List (Bytes × Bytes)} {lo' hi' : List (Bytes × Bytes)}
    (cut : recs = lo ++ hi ∨ ∃ old, recs = lo ++ (key, old) :: hi) (same : lo ++ hi = lo' ++ hi')
    (left : ∀ r ∈ cpre, r.1 < key) (below : ∀ r ∈ lo, r.1 < key) (below' : ∀ r ∈ lo', r.1 < key) :
    Put key value (cpre ++ recs ++ cpost) (cpre ++ (lo' ++ (key, value) :: hi') ++ cpost) := by
  have smaller : ∀ r ∈ cpre ++ lo, r.1 < key := by
    intro r hr
    rcases List.mem_append.mp hr with h | h
    · exact left r h
    · exact below r h
  have smaller' : ∀ r ∈ cpre ++ lo', r.1 < key := by
    intro r hr
    rcases List.mem_append.mp hr with h | h
    · exact left r h
    · exact below' r h
  have joined : cpre ++ lo ++ (hi ++ cpost) = cpre ++ lo' ++ (hi' ++ cpost) := by
    rw [List.append_assoc, ← List.append_assoc lo, same]
    simp
  rcases cut with rfl | ⟨old, rfl⟩
  · have put := put_new value (hi' ++ cpost) smaller'
    rw [← joined] at put
    simpa using put
  · -- first drop the old record, then place the new one
    have put := put_new value (hi' ++ cpost) smaller'
    rw [← joined] at put
    intro k
    have old' := put_new old (hi ++ cpost) smaller k
    have new' := put k
    simp only [List.append_assoc, List.cons_append] at old' new' ⊢
    rw [new', old']
    split <;> rfl

theorem insertOrSplit_ok {s₁ : Store} {h : Nat} {pre post : List Link} {x : Link} {prev next : PageId}
    {recs lo hi : List (Bytes × Bytes)} {found : Bool} {before b : Option Bytes}
    {ancestors : List PageId} (tree : Tree s h) (sound : Sound s)
    (reached : Reached s h key pre x post prev next recs) (eq : contents s.bodies (s.leaves h) = entries)
    (count : s.metaPage.numKeys = entries.length)
    (cut : found = false ∧ recs = lo ++ hi ∨ found = true ∧ ∃ old, recs = lo ++ (key, old) :: hi)
    (below : ∀ r ∈ lo, r.1 < key) (above : ∀ r ∈ hi, key < r.1)
    (climb : Climb s.bodies s.metaPage.rootPageId ancestors pre x post) (height : ancestors.length = h)
    (fits : 4 + key.length + value.length ≤ kMaxLeafRecordBytes)
    (wrote : Wrote x.2 (.leaf prev next (lo ++ hi)) s s₁) (tree₁ : Tree s₁ h)
    (reached₁ : Reached s₁ h key pre x post prev next (lo ++ hi))
    (run : (do
      if ← withNode x.2 (·.insertLeaf key value) then
        logKeyRecord (.put x.2 key value before) txid x.2 true wantBefore
        onlyIf (!found) (addToNumKeys 1)
        return before
      else
        putSplitting key value txid wantBefore before found x.2 ancestors
        return before) s₁ = .ok b s') :
    b = before ∧ ∃ entries', Represents s' entries' ∧ Put key value entries entries' := by
  have cut' : recs = lo ++ hi ∨ ∃ old, recs = lo ++ (key, old) :: hi := cut.imp And.right And.right
  have whole := reached.whole.symm.trans eq
  have keys : ∀ lo' hi', lo ++ hi = lo' ++ hi' → (entries.length : Int) + (if found then 0 else 1) =
      (contents s.bodies pre ++ (lo' ++ (key, value) :: hi') ++ contents s.bodies post).length := by
    intro lo' hi' eq'
    have := congrArg List.length eq'
    rw [← whole]
    rcases cut with ⟨rfl, rfl⟩ | ⟨rfl, old, rfl⟩
    · simp at this ⊢
      omega
    · simp at this ⊢
      omega
  have count₁ : s₁.metaPage.numKeys = entries.length := by
    rw [wrote.metaPage]
    exact count
  have body₁ : (s₁.view x.2).body = .leaf prev next (lo ++ hi) := reached₁.body
  have absent : ∀ r ∈ lo ++ hi, r.1 ≠ key := by
    intro r hr
    rcases List.mem_append.mp hr with h | h
    · exact (below r h).ne
    · exact (above r h).ne'
  simp only [bind_ok, withNode_run] at run
  obtain ⟨flag, t, put, run⟩ := run
  cases put
  generalize insert : (s₁.view x.2).insertLeaf key value = out at run
  obtain ⟨flag, p⟩ := out
  cases flag with
  | true =>
    simp only [if_true, bind_ok] at run
    obtain ⟨_, t, log, _, t', add, ret⟩ := run
    obtain ⟨rfl, rfl⟩ := pure_ok.mp ret
    obtain ⟨n, rfl, nEq⟩ := counted add
    obtain ⟨lo', hi', eq', below', above', pbody, -, -, pacc⟩ :=
      Page.insertLeaf_true body₁ reached₁.asc insert
    obtain ⟨wrote', acc⟩ := wrote_logged pbody (pacc reached₁.accounted) (logKeyRecord_same log)
    obtain ⟨asc, lower, upper⟩ := reached₁.fits value (.inl eq') below' above'
    have rep := reached.rewritten tree sound (wrote.again wrote') acc asc lower upper (n := n)
      (by rw [nEq, wrote'.metaPage, count₁, keys lo' hi' eq'])
    refine ⟨rfl, _, rep, ?_⟩
    rw [← whole]
    exact put_of_cut cut' eq' reached.left below below'
  | false =>
    obtain ⟨rfl, full⟩ := Page.insertLeaf_false body₁ reached₁.asc absent reached₁.accounted insert
    simp only [Bool.false_eq_true, if_false, bind_ok] at run
    obtain ⟨_, t, run, ret⟩ := run
    obtain ⟨rfl, rfl⟩ := pure_ok.mp ret
    have same := same_putPage s₁ x.2 (s₁.view x.2) rfl id
    have full' : ((s₁.putPage x.2 (s₁.view x.2)).view x.2).room <
        kSlotEntrySize + 4 + key.length + value.length := by simpa using full
    generalize s₁.putPage x.2 (s₁.view x.2) = s₂ at run same full'
    obtain ⟨outside, apart⟩ := tree.apart reached.row
    have climb₂ : Climb s₂.bodies s₂.metaPage.rootPageId ancestors pre x post := by
      rw [same.metaPage, wrote.metaPage, same.bodies]
      refine climb.congr fun i hi => ?_
      rw [wrote.bodies, Function.update_of_ne]
      rintro rfl
      exact outside (height ▸ hi)
    obtain ⟨h', lo', hi', tree', sound', eq', below', -, whole', keys'⟩ :=
      putSplitting_ok (tree₁.same same) ((sound.wrote wrote).same same) (reached₁.same same) climb₂ height
        fits full' run
    have kept : ∀ l ∈ pre ++ post, s₂.bodies l.2 = s.bodies l.2 := by
      intro l hl
      rw [same.bodies, wrote.bodies, Function.update_of_ne (apart l hl)]
    have left : contents s₂.bodies pre = contents s.bodies pre :=
      contents_congr _ _ _ fun l hl => by rw [kept l (List.mem_append_left _ hl)]
    have right : contents s₂.bodies post = contents s.bodies post :=
      contents_congr _ _ _ fun l hl => by rw [kept l (List.mem_append_right _ hl)]
    rw [left, right] at whole'
    refine ⟨rfl, _, ⟨sound', ?_, .inr ⟨h', tree', whole'⟩⟩, ?_⟩
    · rw [keys', same.metaPage, count₁, keys lo' hi' eq']
    · rw [← whole]
      exact put_of_cut cut' eq' reached.left below below'

theorem putHeld_ok {h : Nat} {pre post : List Link} {x : Link} {prev next : PageId}
    {recs : List (Bytes × Bytes)} {ancestors : List PageId} {b : Option Bytes} (tree : Tree s h)
    (sound : Sound s) (reached : Reached s h key pre x post prev next recs)
    (eq : contents s.bodies (s.leaves h) = entries) (count : s.metaPage.numKeys = entries.length)
    (climb : Climb s.bodies s.metaPage.rootPageId ancestors pre x post) (height : ancestors.length = h)
    (fits : 4 + key.length + value.length ≤ kMaxLeafRecordBytes)
    (run : putHeld key value txid wantBefore x.2 ancestors s = .ok b s') :
    b = (if wantBefore then entries.lookup key else none) ∧
      ∃ entries', Represents s' entries' ∧ Put key value entries entries' := by
  have lookup := reached.lookup tree
  rw [eq] at lookup
  have body : (s.view x.2).body = .leaf prev next recs := reached.body
  simp only [putHeld, bind_ok, getPage_run, withNode_run] at run
  obtain ⟨_, _, ⟨rfl, rfl⟩, flag, t, put, run⟩ := run
  cases put
  have same := same_putPage s x.2 (s.view x.2) rfl id
  rcases reached.search with ⟨lo, old, hi, cut, below, above, find, look, val⟩ |
    ⟨lo, hi, cut, below, above, find, look⟩
  · rw [lookup, look]
    simp only [find, if_true, Bool.and_true, val] at run
    generalize update : (s.view x.2).updateLeaf key value = out at run
    obtain ⟨flag, p⟩ := out
    cases flag with
    | true =>
      simp only [if_true, bind_ok] at run
      obtain ⟨_, t, log, ret⟩ := run
      obtain ⟨rfl, rfl⟩ := pure_ok.mp ret
      obtain ⟨lo', old', hi', cut', below', above', pbody, -, -, pacc⟩ :=
        Page.updateLeaf_true body reached.asc update
      obtain ⟨wrote, acc⟩ := wrote_logged pbody (pacc reached.accounted) (logKeyRecord_same log)
      have whole := reached.whole.symm.trans eq
      obtain ⟨entries', rep, put⟩ := reached.placed tree sound (.inr ⟨old', cut'⟩) below' above'
        wrote acc (n := t.metaPage.numKeys) (by rw [wrote.metaPage, count, ← whole, cut']; simp)
      exact ⟨rfl, entries', rep, eq ▸ put⟩
    | false =>
      obtain rfl := Page.updateLeaf_false update
      simp only [Bool.false_eq_true, if_false, bind_ok] at run
      obtain ⟨_, t, grown, run⟩ := run
      rcases onlyIf_ok.mp grown with ⟨-, grown⟩ | ⟨no, -⟩
      · rw [cut] at reached
        obtain ⟨wrote, tree', reached'⟩ := removeGrown_ok (tree.same same) (reached.same same) grown
        exact insertOrSplit_ok tree sound reached eq count (.inr ⟨rfl, old, rfl⟩) below above climb height
          fits (same.wrote wrote) tree' reached' (bind_ok.mpr run)
      · cases no
  · rw [lookup, look]
    simp only [find, Bool.false_eq_true, if_false, Bool.and_false, bind_ok] at run
    obtain ⟨_, t, grown, run⟩ := run
    rcases onlyIf_ok.mp grown with ⟨yes, -⟩ | ⟨-, rfl⟩
    · cases yes
    · have wrote : Wrote x.2 (.leaf prev next (lo ++ hi)) s (s.putPage x.2 (s.view x.2)) := by
        have := wrote_putPage s x.2 (s.view x.2)
        rwa [body, cut] at this
      rw [cut] at reached
      have done := insertOrSplit_ok tree sound reached eq count (.inl ⟨rfl, rfl⟩) below above climb height
        fits wrote (tree.same same) (reached.same same) (bind_ok.mpr run)
      simpa using done

theorem putPessimistic_ok {b : Option Bytes} (rep : Represents s entries)
    (fits : 4 + key.length + value.length ≤ kMaxLeafRecordBytes)
    (run : putPessimistic key value txid wantBefore s = .ok b s') :
    b = (if wantBefore then entries.lookup key else none) ∧
      ∃ entries', Represents s' entries' ∧ Put key value entries entries' := by
  simp only [putPessimistic, bind_ok, isEmpty_run] at run
  obtain ⟨_, _, ⟨rfl, rfl⟩, run⟩ := run
  rcases rep.tree with ⟨root, rfl⟩ | ⟨h, tree, eq⟩
  · simp only [root, decide_true, if_true, bind_ok] at run
    obtain ⟨_, t, first, ret⟩ := run
    obtain ⟨rfl, rfl⟩ := pure_ok.mp ret
    refine ⟨by simp, _, (putFirst_ok rep.sound rep.count first).1, fun k => ?_⟩
    by_cases e : k = key
    · simp [e]
    · simp [e, List.lookup_cons, beq_eq_false_iff_ne.mpr e]
  · simp only [tree.root_ne rep.sound, decide_false, Bool.false_eq_true, if_false, bind_ok,
      get_run] at run
    obtain ⟨_, _, ⟨rfl, rfl⟩, stack, s₁, path, run⟩ := run
    have below : Below s h ([] ++ ([], s.metaPage.rootPageId) :: []) := tree.below
    obtain ⟨same, ancestors, pre, x, post, rfl, len, climb, loc⟩ :=
      descendPath_ok Climb.top (nil_le_bytes key) (by simp) below path
    rw [List.append_nil] at climb
    have loc' : Located (s.leaves h) key pre x post := loc
    obtain ⟨prev, next, recs, reached⟩ := tree.reached loc'
    have eq₁ : contents s₁.bodies (s₁.leaves h) = entries := by
      rw [← eq, Store.leaves, Store.leaves, Store.top, Store.top, same.bodies, same.metaPage]
    have count₁ : s₁.metaPage.numKeys = entries.length := by
      rw [same.metaPage]
      exact rep.count
    have climb₁ : Climb s₁.bodies s₁.metaPage.rootPageId ancestors.reverse pre x post := by
      rw [same.bodies, same.metaPage]
      exact climb
    simp only [List.getLastD_concat, List.dropLast_concat] at run
    exact putHeld_ok (tree.same same) (rep.sound.same same) (reached.same same) eq₁ count₁ climb₁
      (by simpa using len) fits run

theorem treePut_ok {b : Option Bytes} (rep : Represents s entries)
    (run : treePut key value txid wantBefore s = .ok b s') :
    b = (if wantBefore then entries.lookup key else none) ∧
      ∃ entries', Represents s' entries' ∧ Put key value entries entries' := by
  simp only [treePut, bind_ok, failIf_ok] at run
  obtain ⟨_, _, ⟨size, rfl⟩, r, t, optimistic, run⟩ := run
  have fits := not_lt.mp size
  simp only [putOptimistic, bind_ok, isEmpty_run] at optimistic
  obtain ⟨_, _, ⟨rfl, rfl⟩, optimistic⟩ := optimistic
  rcases rep.tree with ⟨root, nil⟩ | ⟨h, tree, eq⟩
  · simp only [root, decide_true, if_true] at optimistic
    obtain ⟨rfl, rfl⟩ := pure_ok.mp optimistic
    exact putPessimistic_ok rep fits run
  · simp only [tree.root_ne rep.sound, decide_false, Bool.false_eq_true, if_false, bind_ok] at optimistic
    obtain ⟨leaf, s₁, find, optimistic⟩ := optimistic
    obtain ⟨same, pre, x, post, loc, rfl⟩ := findLeaf_ok tree find
    obtain ⟨prev, next, recs, reached⟩ := tree.reached loc
    have eq₁ : contents s₁.bodies (s₁.leaves h) = entries := by
      rw [← eq, Store.leaves, Store.leaves, Store.top, Store.top, same.bodies, same.metaPage]
    have count₁ : s₁.metaPage.numKeys = entries.length := by
      rw [same.metaPage]
      exact rep.count
    rcases putAtLeaf_spec (reached.same same) (tree.same same) (rep.sound.same same) eq₁ count₁ with
      ⟨t', gave, same'⟩ | ⟨t', entries', rep', put, done⟩
    · cases gave.symm.trans optimistic
      exact putPessimistic_ok ((rep.same same).same same') fits run
    · cases done.symm.trans optimistic
      obtain ⟨rfl, rfl⟩ := pure_ok.mp run
      exact ⟨rfl, entries', rep', put⟩

end PagerDB

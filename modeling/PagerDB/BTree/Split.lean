import PagerDB.BTree.LeafRow
import PagerDB.BTree.Climb
import PagerDB.BTree.SplitPieces
import PagerDB.Storage.Run

/-! What the splits leave behind, node by node. -/
namespace PagerDB

open SortedLib Store

/-- The store grew; of its older pages only the touched ones have a new body. -/
structure Extends (touched : List PageId) (s s' : Store) : Prop where
  grows : s.metaPage.numPages ≤ s'.metaPage.numPages
  limit : s.metaPage.numPages ≤ kInvalidPageId → s'.metaPage.numPages ≤ kInvalidPageId
  frame : ∀ p, p ∉ touched → p < s.metaPage.numPages → s'.bodies p = s.bodies p
  accounted : ∀ p, p ∉ touched → p < s.metaPage.numPages →
    (s.view p).Accounted → (s'.view p).Accounted
  numKeys : s'.metaPage.numKeys = s.metaPage.numKeys
  free : s'.metaPage.freeListHead = s.metaPage.freeListHead
  readable : ∀ p, (s.disk p).isSome ∨ s.metaPage.numPages ≤ p ∧ p < s'.metaPage.numPages →
    (s'.disk p).isSome

section

variable {s s' a b c : Store} {pid : PageId}

theorem Extends.trans {t u : List PageId} (h : Extends t a b) (g : Extends u b c) :
    Extends (t ++ u) a c where
  grows := h.grows.trans g.grows
  limit x := g.limit (h.limit x)
  frame p out lt := by
    simp only [List.mem_append, not_or] at out
    rw [g.frame p out.2 (lt.trans_le h.grows), h.frame p out.1 lt]
  accounted p out lt acc := by
    simp only [List.mem_append, not_or] at out
    exact g.accounted p out.2 (lt.trans_le h.grows) (h.accounted p out.1 lt acc)
  numKeys := g.numKeys.trans h.numKeys
  free := g.free.trans h.free
  readable p x := by
    rcases x with x | ⟨lo, hi⟩
    · exact g.readable p (.inl (h.readable p (.inl x)))
    · rcases lt_or_ge p b.metaPage.numPages with lt | ge
      · exact g.readable p (.inl (h.readable p (.inr ⟨lo, lt⟩)))
      · exact g.readable p (.inr ⟨ge, hi⟩)

theorem Extends.mono {t u : List PageId} (h : Extends t a b)
    (sub : ∀ p, p ∈ t → p < a.metaPage.numPages → p ∈ u) : Extends u a b where
  grows := h.grows
  limit := h.limit
  frame p out lt := h.frame p (fun x => out (sub p x lt)) lt
  accounted p out lt := h.accounted p (fun x => out (sub p x lt)) lt
  numKeys := h.numKeys
  free := h.free
  readable := h.readable

theorem Store.Same.extends (h : Same s s') : Extends [] s s' where
  grows := by rw [h.metaPage]
  limit := by rw [h.metaPage]; exact id
  frame p _ _ := congrFun h.bodies p
  accounted p _ _ := h.accounted p
  numKeys := by rw [h.metaPage]
  free := by rw [h.metaPage]
  readable p x := by
    rw [h.metaPage] at x
    exact h.readable p (x.resolve_right fun y => absurd y.2 (not_lt.mpr y.1))

theorem Store.Wrote.extends {body : Body} (h : Wrote pid body s s') : Extends [pid] s s' where
  grows := by rw [h.metaPage]
  limit := by rw [h.metaPage]; exact id
  frame p out _ := by
    rw [h.bodies, Function.update_of_ne (List.ne_of_not_mem_cons out)]
  accounted p out _ := h.accounted p (List.ne_of_not_mem_cons out)
  numKeys := by rw [h.metaPage]
  free := by rw [h.metaPage]
  readable p x := by
    rw [h.metaPage] at x
    exact h.readable p (x.resolve_right fun y => absurd y.2 (not_lt.mpr y.1))

theorem Grew.extends (h : Grew pid s s') : Extends [] s s' where
  grows := by rw [h.metaPage, h.fresh]; exact Nat.le_succ _
  limit _ := by rw [h.metaPage]; exact h.below
  frame p _ lt := by rw [h.bodies, Function.update_of_ne (h.fresh ▸ lt.ne)]
  accounted p _ lt := h.accounted p (h.fresh ▸ lt.ne)
  numKeys := by rw [h.metaPage]
  free := by rw [h.metaPage]
  readable p x := by
    refine h.readable p (x.imp_right fun y => ?_)
    rw [h.metaPage, ← h.fresh] at y
    exact Nat.le_antisymm (Nat.lt_succ_iff.mp y.2) y.1

/- Rebuilding a half. -/

theorem init_accounted (pid prev next : PageId) : (Page.init pid (.leaf prev next [])).Accounted :=
  ⟨rfl, by simp [Page.freeSpaceStart, Page.numSlots, Page.init, kPageHeaderSize, kPageSize]⟩

theorem view_init (s : Store) (pid : PageId) (body : Body) :
    ((s.putPage pid (.init pid body)).view pid).body = body := by
  simp [Page.init]

theorem wrote_self (s : Store) (pid : PageId) : Wrote pid (s.view pid).body s s :=
  ⟨(Function.update_eq_self pid s.bodies).symm, fun _ _ h => h, rfl, fun _ h => h, rfl, id⟩

theorem rebuildLeaf_ok {overflow : String} {prev next : PageId} {done rest : List (Bytes × Bytes)}
    {u : Unit} (body : (s.view pid).body = .leaf prev next done) (acc : (s.view pid).Accounted)
    (asc : ((done ++ rest).map Prod.fst).Pairwise (· < ·))
    (h : rebuildLeaf pid overflow rest s = .ok u s') :
    Wrote pid (.leaf prev next (done ++ rest)) s s' ∧ (s'.view pid).Accounted := by
  induction rest generalizing s done with
  | nil =>
    obtain ⟨-, rfl⟩ := pure_ok.mp h
    rw [List.append_nil, ← body]
    exact ⟨wrote_self s pid, acc⟩
  | cons e rest ih =>
    obtain ⟨k, v⟩ := e
    simp only [rebuildLeaf, bind_ok, withNode_run, failIf_ok] at h
    obtain ⟨ins, t, put, _, _, ⟨yes, rfl⟩, h⟩ := h
    cases put
    generalize insert : (s.view pid).insertLeaf k v = out at yes h
    obtain ⟨flag, p⟩ := out
    obtain rfl : flag = true := by simpa using yes
    have order := asc
    rw [List.map_append, List.pairwise_append] at order
    obtain ⟨lo, hi, eq, below, above, pbody, -, -, pacc⟩ := Page.insertLeaf_true body order.1 insert
    -- every record already there is smaller, so the new one comes last
    have last : hi = [] := by
      cases hi with
      | nil => rfl
      | cons x hi =>
        have lt := order.2.2 x.1 (by simp [eq]) k (by simp)
        exact absurd (lt.trans (above x (by simp))) (lt_irrefl _)
    subst last
    rw [List.append_nil] at eq
    subst eq
    have wrote := wrote_putPage s pid p
    have tbody : ((s.putPage pid p).view pid).body = .leaf prev next (done ++ [(k, v)]) := by
      simpa using pbody
    obtain ⟨w, a⟩ := ih tbody (by simpa using pacc acc) (by simpa using asc) h
    rw [List.append_assoc] at w
    exact ⟨wrote.again w, a⟩

theorem rebuildInternal_ok {overflow : String} {rightmost : PageId}
    {done rest : List (Bytes × PageId)} {u : Unit}
    (body : (s.view pid).body = .internal rightmost done)
    (asc : ((done ++ rest).map Prod.fst).Pairwise (· < ·))
    (h : rebuildInternal pid overflow rest s = .ok u s') :
    Wrote pid (.internal rightmost (done ++ rest)) s s' := by
  induction rest generalizing s done with
  | nil =>
    obtain ⟨-, rfl⟩ := pure_ok.mp h
    rw [List.append_nil, ← body]
    exact wrote_self s pid
  | cons e rest ih =>
    obtain ⟨k, c⟩ := e
    simp only [rebuildInternal, bind_ok, withNode_run, failIf_ok] at h
    obtain ⟨ins, t, put, _, _, ⟨yes, rfl⟩, h⟩ := h
    cases put
    generalize insert : (s.view pid).insertInternal k c = out at yes h
    obtain ⟨flag, p⟩ := out
    obtain rfl : flag = true := by simpa using yes
    have order := asc
    rw [List.map_append, List.pairwise_append] at order
    have pbody := insertInternal_last body order.1
      (fun e he => order.2.2 e.1 (List.mem_map_of_mem he) k (by simp)) insert
    have wrote := wrote_putPage s pid p
    have tbody : ((s.putPage pid p).view pid).body = .internal rightmost (done ++ [(k, c)]) := by
      simpa using pbody
    have w := ih tbody (by simpa using asc) h
    rw [List.append_assoc] at w
    exact wrote.again w

/- The three structural steps. -/

def relinked (prev : PageId) : Body → Body
  | .leaf _ next recs => .leaf prev next recs
  | body => body

theorem setPrevLeaf_body (p : Page) (prev : PageId) :
    (p.setPrevLeaf prev).body = relinked prev p.body := by
  unfold Page.setPrevLeaf
  cases h : p.body <;> simp [relinked, h]

theorem setPrevLeaf_accounted {p : Page} (prev : PageId) (acc : p.Accounted) :
    (p.setPrevLeaf prev).Accounted := by
  unfold Page.setPrevLeaf
  split
  · rename_i l n recs body
    simpa [Page.Accounted, Page.liveBytes, Page.freeSpaceStart, Page.numSlots, body] using acc
  · exact acc

theorem relinkSibling_ok {sib new : PageId} {txid : TxId} {u : Unit}
    (h : relinkSibling sib new txid s = .ok u s') :
    Wrote sib (relinked new (s.bodies sib)) s s' ∧
      ((s.view sib).Accounted → (s'.view sib).Accounted) := by
  simp only [relinkSibling, bind_ok, getPage_run, setPage_run] at h
  obtain ⟨_, t, fetch, _, _, ⟨rfl, rfl⟩, _, _, put, log⟩ := h
  cases put
  have same := fetchPage_same fetch
  have logged := logPageImage_same log
  have wrote := wrote_putPage t sib ((t.view sib).setPrevLeaf new)
  have body : ((t.view sib).setPrevLeaf new).body = relinked new (s.bodies sib) := by
    rw [setPrevLeaf_body, ← same.bodies]
    rfl
  rw [body] at wrote
  refine ⟨same.wrote (wrote.same logged), fun acc => logged.accounted sib ?_⟩
  simpa using setPrevLeaf_accounted new (same.accounted sib acc)

def splitBodies (bd : Bodies) (pid q prev next : PageId) (left right : List (Bytes × Bytes)) : Bodies :=
  let halves := Function.update (Function.update bd pid (.leaf prev q left)) q (.leaf pid next right)
  if next = kInvalidPageId then halves
  else Function.update halves next (relinked q (halves next))

theorem splitLeafLeft_ok {txid : TxId} {cut : LeafCut} {prev next : PageId} {recs : List (Bytes × Bytes)}
    (free : s.metaPage.freeListHead = kInvalidPageId) (body : s.bodies pid = .leaf prev next recs)
    (asc : (recs.map Prod.fst).Pairwise (· < ·)) (h : splitLeafLeft pid txid s = .ok cut s') :
    cut = ⟨s.metaPage.numPages, (recs.map Prod.fst).getD (recs.length / 2) [],
        recs.drop (recs.length / 2), next⟩ ∧
      s'.bodies = Function.update (Function.update s.bodies s.metaPage.numPages .blank) pid
        (.leaf prev s.metaPage.numPages (recs.take (recs.length / 2))) ∧
      s'.metaPage = { s.metaPage with numPages := s.metaPage.numPages + 1 } ∧
      (s'.view pid).Accounted ∧ Extends [pid] s s' := by
  have body' : (s.view pid).body = .leaf prev next recs := body
  simp only [splitLeafLeft, bind_ok, getPage_run, setPage_run] at h
  obtain ⟨_, _, ⟨rfl, rfl⟩, new, s1, alloc, _, s2, event, _, s3, init, _, s4, left, _, s5, image,
    ret⟩ := h
  obtain ⟨rfl, rfl⟩ := pure_ok.mp ret
  simp only [Page.recs, Page.getNextLeaf, Page.getPrevLeaf, Page.getKey, Page.keys, Page.numSlots,
    body'] at *
  have grew := newPage_grew free alloc
  obtain rfl := grew.fresh
  have same2 := logPageEvent_same event
  cases init
  have wrote3 := wrote_putPage s2 pid (.init pid (.leaf prev s.metaPage.numPages []))
  obtain ⟨wrote4, acc4⟩ := rebuildLeaf_ok (view_init s2 pid _)
    (by simpa using init_accounted pid prev s.metaPage.numPages)
    (asc.sublist ((List.take_sublist _ _).map _)) left
  have same5 := logPageImage_same image
  have wrote := (same2.wrote (wrote3.again wrote4)).same same5
  rw [List.nil_append] at wrote
  refine ⟨rfl, ?_, ?_, same5.accounted pid acc4, ?_⟩
  · rw [wrote.bodies, grew.bodies]
  · rw [wrote.metaPage, grew.metaPage]
  · simpa using grew.extends.trans wrote.extends

theorem splitLeafRight_ok {txid : TxId} {cut : LeafCut} {u : Unit}
    (asc : (cut.rightEntries.map Prod.fst).Pairwise (· < ·))
    (h : splitLeafRight pid txid cut s = .ok u s') :
    Wrote cut.new (.leaf pid cut.oldNext cut.rightEntries) s s' ∧ (s'.view cut.new).Accounted := by
  simp only [splitLeafRight, bind_ok, setPage_run] at h
  obtain ⟨_, s1, init, _, s2, right, image⟩ := h
  cases init
  rw [← List.nil_append cut.rightEntries] at asc
  obtain ⟨wrote, acc⟩ := rebuildLeaf_ok (view_init s cut.new _)
    (by simpa using init_accounted cut.new pid cut.oldNext) asc right
  have same := logPageImage_same image
  exact ⟨((wrote_putPage s cut.new _).again wrote).same same, same.accounted _ acc⟩

theorem splitLeaf_ok {txid : TxId} {q prev next : PageId} {k : Bytes} {recs : List (Bytes × Bytes)}
    (free : s.metaPage.freeListHead = kInvalidPageId) (old : pid < s.metaPage.numPages)
    (body : s.bodies pid = .leaf prev next recs) (sibling : next ≠ pid)
    (asc : (recs.map Prod.fst).Pairwise (· < ·)) (h : splitLeaf pid txid s = .ok (q, k) s') :
    q = s.metaPage.numPages ∧ k = (recs.map Prod.fst).getD (recs.length / 2) [] ∧
      s'.bodies = splitBodies s.bodies pid q prev next (recs.take (recs.length / 2))
        (recs.drop (recs.length / 2)) ∧
      s'.metaPage = { s.metaPage with numPages := q + 1 } ∧
      (s'.view pid).Accounted ∧ (s'.view q).Accounted ∧
      (∀ p, p ≠ pid → p < s.metaPage.numPages → (s.view p).Accounted → (s'.view p).Accounted) ∧
      Extends [pid, next] s s' := by
  rw [splitLeaf_eq] at h
  simp only [bind_ok] at h
  obtain ⟨cut, s1, left, _, s8, right, _, s9, relink, ret⟩ := h
  obtain ⟨eq, rfl⟩ := pure_ok.mp ret
  obtain ⟨rfl, rfl⟩ := Prod.mk.inj eq
  obtain ⟨rfl, bodies1, meta1, acc1, ext1⟩ := splitLeafLeft_ok free body asc left
  obtain ⟨wroteR, accR⟩ := splitLeafRight_ok (asc.sublist ((List.drop_sublist _ _).map _)) right
  dsimp only at *
  generalize fresh : s.metaPage.numPages = new at *
  have ne : new ≠ pid := old.ne'
  -- the left half, then the right half
  have bodies8 : s8.bodies = Function.update (Function.update s.bodies pid
      (.leaf prev new (recs.take (recs.length / 2)))) new (.leaf pid next (recs.drop (recs.length / 2))) := by
    rw [wroteR.bodies, bodies1, Function.update_comm ne, Function.update_idem]
  have meta8 : s8.metaPage = { s.metaPage with numPages := new + 1 } := wroteR.metaPage.trans meta1
  have accL : (s8.view pid).Accounted := wroteR.accounted pid ne.symm acc1
  have others : ∀ p, p ≠ pid → p < new → (s.view p).Accounted → (s8.view p).Accounted := by
    intro p hp lt acc
    exact wroteR.accounted p lt.ne (ext1.accounted p (by simpa using hp) (fresh ▸ lt) acc)
  have ext : Extends [pid, new] s s8 := ext1.trans wroteR.extends
  refine ⟨rfl, rfl, ?_⟩
  rcases onlyIf_ok.mp relink with ⟨some, relink⟩ | ⟨none, rfl⟩
  · obtain ⟨wrote9, acc9⟩ := relinkSibling_ok relink
    refine ⟨?_, wrote9.metaPage.trans meta8, wrote9.accounted pid sibling.symm accL, ?_, ?_, ?_⟩
    · rw [wrote9.bodies, bodies8, splitBodies, if_neg (of_decide_eq_true some)]
    · by_cases e : new = next
      · exact e ▸ acc9 (e ▸ accR)
      · exact wrote9.accounted new e accR
    · intro p hp lt acc
      by_cases e : p = next
      · exact e ▸ acc9 (e ▸ others p hp lt acc)
      · exact wrote9.accounted p e (others p hp lt acc)
    · refine (ext.trans wrote9.extends).mono fun p mem lt => ?_
      simp only [List.mem_append, List.mem_cons, List.not_mem_nil, or_false] at mem ⊢
      rcases mem with (h | h) | h
      · exact .inl h
      · exact absurd (h.trans fresh.symm) lt.ne
      · exact .inr h
  · refine ⟨?_, meta8, accL, accR, others, ext.mono fun p mem lt => ?_⟩
    · rw [bodies8, splitBodies, if_pos (not_not.mp (of_decide_eq_false none))]
    · simp only [List.mem_cons, List.not_mem_nil, or_false] at mem ⊢
      rcases mem with h | h
      · exact .inl h
      · exact absurd (h.trans fresh.symm) lt.ne

theorem splitInternalLeft_ok {txid : TxId} {cut : NodeCut} {rightmost : PageId}
    {es : List (Bytes × PageId)} (free : s.metaPage.freeListHead = kInvalidPageId)
    (body : s.bodies pid = .internal rightmost es) (asc : (es.map Prod.fst).Pairwise (· < ·))
    (h : splitInternalLeft pid txid s = .ok cut s') :
    s'.metaPage = { s.metaPage with numPages := s.metaPage.numPages + 1 } ∧ Extends [pid] s s' ∧
      ∃ (i : Nat) (hi : i < es.length), i = es.length / 2 ∧
        cut = ⟨s.metaPage.numPages, es[i].1, es.drop (i + 1), rightmost⟩ ∧
        s'.bodies = Function.update (Function.update s.bodies s.metaPage.numPages .blank) pid
          (.internal es[i].2 (es.take i)) := by
  have body' : (s.view pid).body = .internal rightmost es := body
  simp only [splitInternalLeft, bind_ok, getPage_run, setPage_run, failIf_ok] at h
  obtain ⟨_, _, ⟨rfl, rfl⟩, new, s1, alloc, _, s2, event, _, _, ⟨some, rfl⟩, _, s3, init, _, s4, left,
    _, s5, image, ret⟩ := h
  obtain ⟨rfl, rfl⟩ := pure_ok.mp ret
  simp only [Page.entries, Page.getRightmostChild, Page.getChild, Page.getKey, Page.keys,
    Page.numSlots, body'] at *
  have grew := newPage_grew free alloc
  obtain rfl := grew.fresh
  have same2 := logPageEvent_same event
  cases init
  have inside : es.length / 2 < es.length := Nat.div_lt_self (Nat.pos_of_ne_zero some) (by decide)
  have wrote3 := wrote_putPage s2 pid
    (.init pid (.internal (es.getD (es.length / 2) ([], kInvalidPageId)).2 []))
  have wrote4 := rebuildInternal_ok (view_init s2 pid _)
    (asc.sublist ((List.take_sublist _ _).map _)) left
  have wrote := (same2.wrote (wrote3.again wrote4)).same (logPageImage_same image)
  rw [List.nil_append] at wrote
  refine ⟨?_, ?_, es.length / 2, inside, rfl, by simp [inside], ?_⟩
  · rw [wrote.metaPage, grew.metaPage]
  · simpa using grew.extends.trans wrote.extends
  · rw [wrote.bodies, grew.bodies]
    simp [inside]

theorem splitInternalRight_ok {txid : TxId} {cut : NodeCut} {u : Unit}
    (asc : (cut.rightEntries.map Prod.fst).Pairwise (· < ·))
    (h : splitInternalRight txid cut s = .ok u s') :
    Wrote cut.new (.internal cut.rightRightmost cut.rightEntries) s s' := by
  simp only [splitInternalRight, bind_ok, setPage_run] at h
  obtain ⟨_, s1, init, _, s2, right, image⟩ := h
  cases init
  rw [← List.nil_append cut.rightEntries] at asc
  have wrote := rebuildInternal_ok (view_init s cut.new _) asc right
  exact ((wrote_putPage s cut.new _).again wrote).same (logPageImage_same image)

theorem splitInternal_ok {txid : TxId} {q rightmost : PageId} {k : Bytes}
    {es : List (Bytes × PageId)} (free : s.metaPage.freeListHead = kInvalidPageId)
    (old : pid < s.metaPage.numPages) (body : s.bodies pid = .internal rightmost es)
    (asc : (es.map Prod.fst).Pairwise (· < ·)) (h : splitInternal pid txid s = .ok (q, k) s') :
    q = s.metaPage.numPages ∧ s'.metaPage = { s.metaPage with numPages := q + 1 } ∧
      Extends [pid] s s' ∧ ∃ (i : Nat) (hi : i < es.length), i = es.length / 2 ∧ k = es[i].1 ∧
        s'.bodies = Function.update (Function.update s.bodies pid (.internal es[i].2 (es.take i)))
          q (.internal rightmost (es.drop (i + 1))) := by
  rw [splitInternal_eq] at h
  simp only [bind_ok] at h
  obtain ⟨cut, s1, left, _, s8, right, ret⟩ := h
  obtain ⟨eq, rfl⟩ := pure_ok.mp ret
  obtain ⟨rfl, rfl⟩ := Prod.mk.inj eq
  obtain ⟨meta1, ext1, i, hi, half, rfl, bodies1⟩ := splitInternalLeft_ok free body asc left
  have wroteR := splitInternalRight_ok (asc.sublist ((List.drop_sublist _ _).map _)) right
  have ne : s.metaPage.numPages ≠ pid := old.ne'
  refine ⟨rfl, wroteR.metaPage.trans meta1, ?_, i, hi, half, rfl, ?_⟩
  · refine (ext1.trans wroteR.extends).mono fun p mem lt => ?_
    simp only [List.cons_append, List.nil_append, List.mem_cons, List.not_mem_nil, or_false] at mem ⊢
    rcases mem with h | h
    · exact h
    · exact absurd h lt.ne
  · rw [wroteR.bodies, bodies1, Function.update_comm ne, Function.update_idem]

theorem createNewRoot_ok {splitKey : Bytes} {left right : PageId} {txid : TxId} {u : Unit}
    (free : s.metaPage.freeListHead = kInvalidPageId)
    (h : createNewRoot splitKey left right txid s = .ok u s') :
    s'.bodies = Function.update s.bodies s.metaPage.numPages (.internal right [(splitKey, left)]) ∧
      s'.metaPage = { s.metaPage with
        rootPageId := s.metaPage.numPages, numPages := s.metaPage.numPages + 1 } ∧
      Extends [] s s' := by
  simp only [createNewRoot, bind_ok, getPage_run, setPage_run, withNode_run, failIf_ok,
    setRootPageId_run] at h
  obtain ⟨new, s1, alloc, _, s2, event, _, s3, init, ins, s4, put, _, _, ⟨yes, rfl⟩, _, _, ⟨rfl, rfl⟩,
    _, s5, put', _, s6, image, _, s7, event', root⟩ := h
  cases init
  cases put
  cases put'
  cases root
  have grew := newPage_grew free alloc
  have same2 := logPageEvent_same event
  have same6 := logPageImage_same image
  have same7 := logPageEvent_same event'
  simp only [view_putPage, if_true] at yes same6
  generalize insert : (Page.init new (.internal kInvalidPageId [])).insertInternal splitKey left = out
    at yes same6
  obtain ⟨flag, p⟩ := out
  obtain rfl : flag = true := by simpa using yes
  have blank : (Page.init new (.internal kInvalidPageId [])).body = .internal kInvalidPageId [] := rfl
  have body : p.body = .internal kInvalidPageId [(splitKey, left)] :=
    insertInternal_last blank List.Pairwise.nil (by simp) insert
  have entries : p.entries = [(splitKey, left)] := by simp [Page.entries, body]
  have wrote := ((wrote_putPage s2 new (.init new (.internal kInvalidPageId []))).again
      (wrote_putPage _ new p)).again
    (wrote_putPage _ new { p with body := .internal right p.entries })
  have wrote := (same2.wrote wrote).same (same6.trans same7)
  rw [entries] at wrote
  have fresh := grew.fresh
  have ext := grew.extends.trans wrote.extends
  refine ⟨?_, ?_, ?_⟩
  · change s7.bodies = _
    rw [wrote.bodies, grew.bodies, Function.update_idem, fresh]
  · simp only [wrote.metaPage, grew.metaPage, ← fresh]
  · have rooted : Extends [] s7 { s7 with metaPage := { s7.metaPage with rootPageId := new } } :=
      ⟨le_rfl, id, fun _ _ _ => rfl, fun _ _ _ h => h, rfl, rfl,
        fun p x => x.resolve_right fun y => absurd y.2 (not_lt.mpr y.1)⟩
    refine (ext.trans rooted).mono fun p mem lt => ?_
    simp only [List.nil_append, List.append_nil, List.mem_singleton] at mem
    exact absurd (mem.trans fresh) lt.ne

end

end PagerDB

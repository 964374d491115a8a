import PagerDB.BTree.Propagate

/-! Where an internal node sends each key, before and after one of its children was split. The node
absorbs the separator, or it is split itself and the half that routes the separator absorbs it. -/
namespace PagerDB

open SortedLib Store

def childFor : List (Bytes × PageId) → PageId → Bytes → PageId
  | [], r, _ => r
  | (k, c) :: es, r, key => if key < k then c else childFor es r key

/-- The entries with the separator behind `pre`; the child it splits is the one that followed. -/
def spliced (s : Bytes) (c new : PageId) (pre : List (Bytes × PageId)) :
    List (Bytes × PageId) → PageId → List (Bytes × PageId) × PageId
  | [], _ => (pre ++ [(s, c)], new)
  | (k, _) :: post, r => (pre ++ (s, c) :: (k, new) :: post, r)

def childrenOf (es : List (Bytes × PageId)) (r : PageId) : List PageId := es.map Prod.snd ++ [r]

def Page.children (p : Page) : List PageId := childrenOf p.entries p.getRightmostChild

section Lists

variable {pre post es : List (Bytes × PageId)} {r r' c new : PageId} {s key k : Bytes}

theorem childFor_above (le : ∀ e ∈ pre, e.1 ≤ key) : childFor (pre ++ es) r key = childFor es r key := by
  induction pre with
  | nil => rfl
  | cons e pre ih =>
    have first : ¬ key < e.1 := not_lt.mpr (le e (by simp))
    rw [List.cons_append, childFor, if_neg first]
    exact ih fun x hx => le x (by simp [hx])

theorem childFor_within (lt : ∃ e ∈ pre, key < e.1) (es' : List (Bytes × PageId)) (r' : PageId) :
    childFor (pre ++ es) r key = childFor (pre ++ es') r' key := by
  induction pre with
  | nil => simp at lt
  | cons e pre ih =>
    rw [List.cons_append, List.cons_append, childFor, childFor]
    by_cases first : key < e.1
    · rw [if_pos first, if_pos first]
    · rw [if_neg first, if_neg first]
      obtain ⟨x, mem, below⟩ := lt
      rcases List.mem_cons.mp mem with rfl | mem
      · contradiction
      · exact ih ⟨x, mem, below⟩

theorem childFor_split (asc : ((pre ++ (k, c) :: post).map Prod.fst).Pairwise (· < ·)) :
    (if key < k then childFor pre c key else childFor post r key) =
      childFor (pre ++ (k, c) :: post) r key := by
  simp only [List.map_append, List.map_cons, List.pairwise_append] at asc
  by_cases left : key < k
  · rw [if_pos left]
    by_cases lt : ∃ e ∈ pre, key < e.1
    · have := @childFor_within pre [] c key lt ((k, c) :: post) r
      rwa [List.append_nil] at this
    · simp only [not_exists, not_and, not_lt] at lt
      have alone := @childFor_above pre [] c key lt
      rw [List.append_nil] at alone
      rw [alone, childFor_above lt]
      simp [childFor, left]
  · have le : ∀ e ∈ pre, e.1 ≤ key := fun e he =>
      (asc.2.2 e.1 (List.mem_map_of_mem he) k (by simp)).le.trans (not_lt.mp left)
    rw [if_neg left, childFor_above le]
    simp [childFor, left]

/- The splice. -/

theorem spliceEntries_eq (s : Bytes) (c new : PageId) (pre post : List (Bytes × PageId)) (r : PageId) :
    (spliceEntries s c new pre.length (pre ++ post),
      if pre.length = (pre ++ post).length then new else r) = spliced s c new pre post r := by
  induction pre with
  | nil =>
    cases post with
    | nil => rfl
    | cons e post => rfl
  | cons e pre ih =>
    cases post with
    | nil =>
      simp only [spliced, Prod.mk.injEq, List.append_nil, if_true, and_true] at ih ⊢
      simp [spliceEntries, ih]
    | cons x post =>
      simp only [spliced, Prod.mk.injEq] at ih ⊢
      simp only [List.length_cons, List.cons_append, spliceEntries, ih.1, true_and]
      simp

theorem spliced_children (first : (childrenOf post r).head? = some c) :
    (childrenOf (spliced s c new pre post r).1 (spliced s c new pre post r).2).Perm
      (new :: childrenOf (pre ++ post) r) := by
  cases post with
  | nil =>
    obtain rfl : r = c := by simpa [childrenOf] using first
    simp only [spliced, childrenOf, List.map_append, List.map_cons, List.map_nil, List.append_nil]
    exact List.perm_append_singleton new _
  | cons e post =>
    obtain rfl : e.2 = c := by simpa [childrenOf] using first
    simp only [spliced, childrenOf, List.map_append, List.map_cons, List.append_assoc, List.cons_append]
    refine ((List.Perm.swap new e.2 _).append_left _).trans ?_
    exact List.perm_middle

theorem spliced_asc (asc : ((pre ++ post).map Prod.fst).Pairwise (· < ·)) (above : ∀ e ∈ pre, e.1 < s)
    (below : ∀ e ∈ post, s < e.1) :
    ((spliced s c new pre post r).1.map Prod.fst).Pairwise (· < ·) := by
  have shape : (spliced s c new pre post r).1.map Prod.fst =
      pre.map Prod.fst ++ s :: post.map Prod.fst := by
    cases post with
    | nil => simp [spliced]
    | cons e post => simp [spliced]
  rw [shape]
  simp only [List.map_append, List.pairwise_append] at asc
  simp only [List.pairwise_append, List.pairwise_cons, List.mem_cons, List.mem_map]
  refine ⟨asc.1, ⟨?_, asc.2.1⟩, ?_⟩
  · rintro k ⟨e, mem, rfl⟩
    exact below e mem
  · rintro k ⟨e, mem, rfl⟩ k' (rfl | ⟨e', mem', rfl⟩)
    · exact above e mem
    · exact (above e mem).trans (below e' mem')

theorem spliced_childFor (asc : ((pre ++ post).map Prod.fst).Pairwise (· < ·))
    (below : ∀ e ∈ post, s < e.1) (key : Bytes) :
    childFor (spliced s c new pre post r).1 (spliced s c new pre post r).2 key =
      if (∀ e ∈ pre, e.1 ≤ key) ∧ ∀ e ∈ post, key < e.1 then (if key < s then c else new)
      else childFor (pre ++ post) r key := by
  by_cases within : ∀ e ∈ pre, e.1 ≤ key
  · cases post with
    | nil =>
      rw [if_pos ⟨within, by simp⟩]
      simp only [spliced, childFor_above within, childFor]
    | cons e post =>
      simp only [spliced, childFor_above within, childFor]
      simp only [List.map_append, List.map_cons, List.pairwise_append, List.pairwise_cons] at asc
      by_cases behind : key < e.1
      · have all : ∀ x ∈ e :: post, key < x.1 := by
          intro x mem
          rcases List.mem_cons.mp mem with rfl | mem
          · exact behind
          · exact behind.trans (asc.2.1.1 x.1 (List.mem_map_of_mem mem))
        have inside : (∀ x ∈ pre, x.1 ≤ key) ∧ ∀ x ∈ e :: post, key < x.1 := ⟨within, all⟩
        rw [if_pos inside, if_pos behind]
      · have notAll : ¬((∀ x ∈ pre, x.1 ≤ key) ∧ ∀ x ∈ e :: post, key < x.1) :=
          fun both => behind (both.2 e (by simp))
        have past : ¬ key < s := fun lt => behind (lt.trans (below e (by simp)))
        rw [if_neg notAll, if_neg past, if_neg behind, if_neg behind]
  · have lt : ∃ e ∈ pre, key < e.1 := by simpa using within
    rw [if_neg fun both => within both.1]
    cases post with
    | nil => exact childFor_within lt _ _
    | cons e post => exact childFor_within lt _ _

theorem spliced_left (post' : List (Bytes × PageId)) :
    (spliced s c new pre post r).1 ++ (k, (spliced s c new pre post r).2) :: post' =
      (spliced s c new pre (post ++ (k, r) :: post') r').1 ∧
    (spliced s c new pre (post ++ (k, r) :: post') r').2 = r' := by
  cases post with
  | nil => simp [spliced]
  | cons e post => simp [spliced]

theorem spliced_right (pre' : List (Bytes × PageId)) :
    spliced s c new (pre' ++ pre) post r =
      (pre' ++ (spliced s c new pre post r).1, (spliced s c new pre post r).2) := by
  cases post with
  | nil => simp [spliced]
  | cons e post => simp [spliced]

end Lists

/- One page. -/

section Node

variable {p p' : Page} {r c new : PageId} {es pre post : List (Bytes × PageId)} {s lo key : Bytes}
  {hi : Option Bytes}

theorem findChildIndex_cut (body : p.body = .internal r (pre ++ post))
    (asc : ((pre ++ post).map Prod.fst).Pairwise (· < ·)) (low : ∀ e ∈ pre, e.1 ≤ key)
    (high : ∀ e ∈ post, key < e.1) : p.findChildIndex key = pre.length := by
  have keys : p.keys = pre.map Prod.fst ++ post.map Prod.fst := by simp [Page.keys, body]
  have size : (pre.map Prod.fst).length = pre.length := List.length_map _
  rw [← size]
  apply findChildIndex_bounds keys
  · rw [keys, ← List.map_append]
    exact asc
  · simpa using fun k c => low (k, c)
  · simpa using fun k c => high (k, c)

theorem findChild_childFor (body : p.body = .internal r es) (asc : (es.map Prod.fst).Pairwise (· < ·))
    (key : Bytes) : p.findChild key = childFor es r key := by
  obtain ⟨pre, post, rfl, low, high⟩ := ascending_cut_after asc key
  have index := findChildIndex_cut body asc low high
  rw [childFor_above low]
  simp only [Page.findChild, Page.isInternal, body, if_true, index, Page.numSlots, Page.getChild,
    Page.entries, Page.getRightmostChild]
  cases post with
  | nil => simp [childFor]
  | cons e post => simp [childFor, high e (by simp)]

/-- `FindChild` takes the child slot `i`, which holds `c`, for exactly the keys from `lo` up to
`hi`. -/
structure Targets (p : Page) (i : Nat) (c : PageId) (lo : Bytes) (hi : Option Bytes) : Prop where
  child : p.children[i]? = some c
  exactly : ∀ key, p.findChildIndex key = i ↔ lo ≤ key ∧ ∀ h ∈ hi, key < h

theorem Targets.cut {i : Nat} (targets : Targets p i c lo hi) (body : p.body = .internal r es)
    (asc : (es.map Prod.fst).Pairwise (· < ·)) :
    ∃ pre post, es = pre ++ post ∧ (childrenOf post r).head? = some c ∧
      ∀ key, ((∀ e ∈ pre, e.1 ≤ key) ∧ ∀ e ∈ post, key < e.1) ↔ lo ≤ key ∧ ∀ h ∈ hi, key < h := by
  obtain ⟨child, exactly⟩ := targets
  have slots : p.children = childrenOf es r := by
    simp [Page.children, Page.entries, Page.getRightmostChild, body]
  rw [slots] at child
  have inside : i ≤ es.length := by
    have := (List.getElem?_eq_some_iff.mp child).1
    simp only [childrenOf, List.length_append, List.length_map, List.length_singleton] at this
    omega
  refine ⟨es.take i, es.drop i, (List.take_append_drop i es).symm, ?_, ?_⟩
  · have : childrenOf (es.drop i) r = (childrenOf es r).drop i := by
      simp only [childrenOf, List.map_drop]
      rw [List.drop_append_of_le_length (by simpa using inside)]
    rw [this, List.head?_drop]
    exact child
  · intro key
    rw [← exactly key]
    constructor
    · rintro ⟨low, high⟩
      rw [← List.take_append_drop i es] at body asc
      rw [findChildIndex_cut body asc low high]
      simpa using inside
    · intro index
      obtain ⟨pre, post, rfl, low, high⟩ := ascending_cut_after asc key
      rw [findChildIndex_cut body asc low high] at index
      subst index
      simpa using ⟨fun k c => low (k, c), fun k c => high (k, c)⟩

theorem targets_of_cut (body : p.body = .internal r (pre ++ post))
    (asc : ((pre ++ post).map Prod.fst).Pairwise (· < ·)) (first : (childrenOf post r).head? = some c)
    (range : ∀ key, ((∀ e ∈ pre, e.1 ≤ key) ∧ ∀ e ∈ post, key < e.1) ↔ lo ≤ key ∧ ∀ h ∈ hi, key < h) :
    Targets p pre.length c lo hi := by
  have slots : p.children = pre.map Prod.snd ++ childrenOf post r := by
    simp [Page.children, Page.entries, Page.getRightmostChild, body, childrenOf]
  constructor
  · rw [slots, List.getElem?_append_right (List.length_map _).le, List.length_map, Nat.sub_self,
      ← List.head?_eq_getElem?]
    exact first
  · intro key
    rw [← range key]
    obtain ⟨pre', post', eq, low, high⟩ := ascending_cut_after asc key
    rw [eq] at body asc
    rw [findChildIndex_cut body asc low high]
    constructor
    · intro same
      obtain ⟨rfl, rfl⟩ := List.append_inj eq same.symm
      exact ⟨low, high⟩
    · rintro ⟨low', high'⟩
      rw [← eq] at body asc
      rw [← findChildIndex_cut body asc low' high', findChildIndex_cut (eq ▸ body) (eq ▸ asc) low high]

theorem insertInternalAfterSplit_spliced (body : p.body = .internal r (pre ++ post))
    (asc : ((pre ++ post).map Prod.fst).Pairwise (· < ·)) (above : ∀ e ∈ pre, e.1 < s)
    (below : ∀ e ∈ post, s < e.1) (run : p.insertInternalAfterSplit s c new = (true, p')) :
    p'.body = .internal (spliced s c new pre post r).2 (spliced s c new pre post r).1 := by
  have keys : p.keys = pre.map Prod.fst ++ post.map Prod.fst := by simp [Page.keys, body]
  have cut : CutAt p.keys (pre.map Prod.fst) (post.map Prod.fst) s :=
    ⟨keys, by simpa using fun k c => above (k, c), by simpa using fun k c mem => (below (k, c) mem).le⟩
  have index : p.lowerBound s = pre.length := by
    rw [Page.lowerBound, p.findKeyIndex_cut cut (by rw [keys, ← List.map_append]; exact asc)]
    simp
  unfold Page.insertInternalAfterSplit at run
  simp only [body, index] at run
  rw [← spliceEntries_eq s c new pre post r]
  split at run
  · split at run
    · cases run
    · cases run
      rfl
  · cases run

end Node

/- The split. -/

section Split

variable {s s' : Store}

theorem splitInternal_halves {txid : TxId} {pid q r : PageId} {k : Bytes} {es : List (Bytes × PageId)}
    (apart : q ≠ pid) (body : (s.view pid).body = .internal r es)
    (asc : (es.map Prod.fst).Pairwise (· < ·)) (run : splitInternal pid txid s = .ok (q, k) s') :
    ∃ left child right, es = left ++ (k, child) :: right ∧ (s'.view pid).body = .internal child left ∧
      (s'.view q).body = .internal r right := by
  simp only [splitInternal, bind_ok, getPage_run, setPage_run, failIf_ok] at run
  obtain ⟨_, _, ⟨rfl, rfl⟩, new, s1, alloc, _, s2, event, _, _, ⟨some, rfl⟩, _, s3, init, _, s4, left,
    _, s5, image, _, s6, init', _, s7, right, _, s8, image', ret⟩ := run
  obtain ⟨eq, rfl⟩ := pure_ok.mp ret
  obtain ⟨rfl, rfl⟩ := Prod.mk.inj eq
  simp only [Page.entries, Page.getRightmostChild, Page.getChild, Page.getKey, Page.keys,
    Page.numSlots, body] at *
  cases init
  cases init'
  have inside : es.length / 2 < es.length := Nat.div_lt_self (Nat.pos_of_ne_zero some) (by decide)
  have wroteL := (((wrote_putPage s2 pid _).again (rebuildInternal_ok (view_init s2 pid _)
    (asc.sublist ((List.take_sublist _ _).map _)) left)).same (logPageImage_same image))
  have wroteR := (((wrote_putPage s5 new _).again (rebuildInternal_ok (view_init s5 new _)
    (asc.sublist ((List.drop_sublist _ _).map _)) right)).same (logPageImage_same image'))
  rw [List.nil_append] at wroteL wroteR
  refine ⟨es.take (es.length / 2), es[es.length / 2].2, es.drop (es.length / 2 + 1), ?_, ?_, wroteR.body⟩
  · simp [inside]
  · have kept := congrFun wroteR.bodies pid
    rw [Function.update_of_ne apart.symm] at kept
    have half := kept.trans wroteL.body
    simpa [Store.bodies, inside] using half

theorem insertIntoHalf_pages {txid : TxId} {k newKey : Bytes} {c new pid q : PageId} {u : Unit}
    (apart : q ≠ pid) (run : insertIntoHalf txid k newKey c new pid q s = .ok u s') :
    (k < newKey ∧ ∃ p, (s.view pid).insertInternalAfterSplit k c new = (true, p) ∧
      (s'.view pid).body = p.body ∧ (s'.view q).body = (s.view q).body) ∨
    (newKey ≤ k ∧ ∃ p, (s.view q).insertInternalAfterSplit k c new = (true, p) ∧
      (s'.view q).body = p.body ∧ (s'.view pid).body = (s.view pid).body) := by
  have one : ∀ (target : PageId) (message : String), (do
        let inserted ← withNode target (·.insertInternalAfterSplit k c new)
        failIf (!inserted) (.status (.Internal message))
        logPageImage target txid false) s = .ok u s' →
      ∃ p, (s.view target).insertInternalAfterSplit k c new = (true, p) ∧
        (s'.view target).body = p.body ∧ ∀ i, i ≠ target → (s'.view i).body = (s.view i).body := by
    intro target message run
    simp only [bind_ok, withNode_run, failIf_ok] at run
    obtain ⟨ins, t, put, _, _, ⟨yes, rfl⟩, log⟩ := run
    cases put
    generalize insert : (s.view target).insertInternalAfterSplit k c new = out at yes log
    obtain ⟨flag, p⟩ := out
    obtain rfl : flag = true := by simpa using yes
    have wrote := (wrote_putPage s target p).same (logPageImage_same log)
    refine ⟨p, rfl, wrote.body, fun i ne => ?_⟩
    have := congrFun wrote.bodies i
    rwa [Function.update_of_ne ne] at this
  unfold insertIntoHalf at run
  split at run
  · rename_i lt
    obtain ⟨p, insert, here, others⟩ := one _ _ run
    exact .inl ⟨lt, p, insert, here, others q apart⟩
  · rename_i ge
    obtain ⟨p, insert, here, others⟩ := one _ _ run
    exact .inr ⟨not_lt.mp ge, p, insert, here, others pid apart.symm⟩

end Split

/- Both ways of inserting the separator. -/

/-- Keys of `[lo, hi)` go to `c` below `s` and to `new` from `s` on; every other key goes where it
went. -/
def Reroutes (before after : Bytes → PageId) (c new : PageId) (lo s : Bytes) (hi : Option Bytes) :
    Prop :=
  ∀ key, after key =
    if lo ≤ key ∧ ∀ h ∈ hi, key < h then (if key < s then c else new) else before key

section Separator

variable {st : Store} {pid r c new : PageId} {es : List (Bytes × PageId)} {i : Nat} {lo s : Bytes}
  {hi : Option Bytes}

theorem spliced_reroutes {pre post : List (Bytes × PageId)}
    (asc : ((pre ++ post).map Prod.fst).Pairwise (· < ·)) (below : ∀ e ∈ post, s < e.1)
    (range : ∀ key, ((∀ e ∈ pre, e.1 ≤ key) ∧ ∀ e ∈ post, key < e.1) ↔ lo ≤ key ∧ ∀ h ∈ hi, key < h) :
    Reroutes (childFor (pre ++ post) r)
      (childFor (spliced s c new pre post r).1 (spliced s c new pre post r).2) c new lo s hi := by
  intro key
  rw [spliced_childFor asc below key]
  by_cases inside : lo ≤ key ∧ ∀ h ∈ hi, key < h
  · rw [if_pos ((range key).mpr inside), if_pos inside]
  · rw [if_neg (mt (range key).mp inside), if_neg inside]

theorem halves_join {left right : Page} {child : PageId} {promoted : Bytes}
    {es₁ es₂ : List (Bytes × PageId)} (leftBody : left.body = .internal child es₁)
    (rightBody : right.body = .internal r es₂)
    (asc : ((es₁ ++ (promoted, child) :: es₂).map Prod.fst).Pairwise (· < ·)) :
    (fun key => if key < promoted then left.findChild key else right.findChild key) =
      childFor (es₁ ++ (promoted, child) :: es₂) r ∧
    left.keys ++ promoted :: right.keys = (es₁ ++ (promoted, child) :: es₂).map Prod.fst ∧
    left.children ++ right.children = childrenOf (es₁ ++ (promoted, child) :: es₂) r := by
  have order := asc
  rw [List.map_append, List.map_cons, List.pairwise_append, List.pairwise_cons] at order
  refine ⟨funext fun key => ?_, ?_, ?_⟩
  · rw [findChild_childFor leftBody order.1, findChild_childFor rightBody order.2.1.2]
    exact childFor_split asc
  · simp [Page.keys, leftBody, rightBody]
  · simp [Page.children, childrenOf, Page.entries, Page.getRightmostChild, leftBody, rightBody]

theorem separator_reroutes (body : (st.view pid).body = .internal r es)
    (asc : (es.map Prod.fst).Pairwise (· < ·)) (targets : Targets (st.view pid) i c lo hi)
    (above : lo < s) (below : ∀ h ∈ hi, s < h) (new : PageId) :
    match (st.view pid).insertInternalAfterSplit s c new with
    | (true, p) => Reroutes (st.view pid).findChild p.findChild c new lo s hi ∧
        p.keys.Pairwise (· < ·) ∧ p.children.Perm (new :: (st.view pid).children)
    | (false, p) => p = st.view pid ∧ ∀ txid q promoted st₁ st₂,
        splitInternal pid txid st = .ok (q, promoted) st₁ → q ≠ pid →
        insertIntoHalf txid s promoted c new pid q st₁ = .ok () st₂ →
        Reroutes (st.view pid).findChild (fun key =>
          if key < promoted then (st₂.view pid).findChild key else (st₂.view q).findChild key)
          c new lo s hi ∧
        ((st₂.view pid).keys ++ promoted :: (st₂.view q).keys).Pairwise (· < ·) ∧
        ((st₂.view pid).children ++ (st₂.view q).children).Perm (new :: (st.view pid).children) := by
  obtain ⟨pre, post, rfl, first, range⟩ := targets.cut body asc
  obtain ⟨low, high⟩ := (range s).mpr ⟨above.le, below⟩
  have lowest : ∀ e ∈ pre, e.1 < s := by
    intro e mem
    have at_lo := (range lo).mpr ⟨le_rfl, fun h mem' => above.trans (below h mem')⟩
    exact (at_lo.1 e mem).trans_lt above
  have reroutes := @spliced_reroutes r c new lo s hi pre post asc high range
  have order := @spliced_asc pre post r c new s asc lowest high
  have children := @spliced_children pre post r c new s first
  have before : (st.view pid).findChild = childFor (pre ++ post) r := funext (findChild_childFor body asc)
  have kids : (st.view pid).children = childrenOf (pre ++ post) r := by
    simp [Page.children, Page.entries, Page.getRightmostChild, body]
  rw [before, kids]
  cases run : (st.view pid).insertInternalAfterSplit s c new with
  | mk flag p =>
    cases flag with
    | true =>
      have node := insertInternalAfterSplit_spliced body asc lowest high run
      have after : p.findChild = _ := funext (findChild_childFor node order)
      dsimp only
      refine ⟨by rw [after]; exact reroutes, by simpa [Page.keys, node] using order, ?_⟩
      simpa [Page.children, Page.entries, Page.getRightmostChild, node] using children
    | false =>
      refine ⟨insertInternalAfterSplit_false run, ?_⟩
      intro txid q promoted st₁ st₂ split apart insert
      obtain ⟨left, child, right, eq, leftBody, rightBody⟩ := splitInternal_halves apart body asc split
      have halves := asc
      rw [eq, List.map_append, List.map_cons, List.pairwise_append, List.pairwise_cons] at halves
      rcases append_eq_append_cons eq with ⟨mid, rfl, rfl⟩ | ⟨mid, rfl, rfl⟩
      · -- the promoted key bounds the split child from above
        have lt : s < promoted := high (promoted, child) (by simp)
        rcases insertIntoHalf_pages apart insert with ⟨-, p', half, here, other⟩ | ⟨ge, -⟩
        · have node := insertInternalAfterSplit_spliced leftBody halves.1 lowest
            (fun e mem => high e (by simp [mem])) half
          obtain ⟨whole, last⟩ := @spliced_left pre mid child r c new s promoted right
          rw [← whole, last] at reroutes children
          rw [← whole] at order
          obtain ⟨lookups, keys, kids'⟩ := halves_join (here.trans node) (other.trans rightBody) order
          rw [lookups, keys, kids']
          exact ⟨reroutes, order, children⟩
        · exact absurd lt (not_lt.mpr ge)
      · -- the split child lies behind the promoted key
        have lt : promoted < s := lowest (promoted, child) (by simp)
        rcases insertIntoHalf_pages apart insert with ⟨lt', -⟩ | ⟨-, p', half, here, other⟩
        · exact absurd (lt.trans lt') (lt_irrefl _)
        · have node := insertInternalAfterSplit_spliced rightBody halves.2.1.2
            (fun e mem => lowest e (by simp [mem])) high half
          have whole := @spliced_right mid post r c new s (left ++ [(promoted, child)])
          rw [List.append_assoc, List.singleton_append, List.append_assoc, List.singleton_append] at whole
          rw [whole] at reroutes children order
          obtain ⟨lookups, keys, kids'⟩ := halves_join (other.trans leftBody) (here.trans node) order
          rw [lookups, keys, kids']
          exact ⟨reroutes, order, children⟩

/-- A file whose page 7 is a node with these entries, and 14 behind them. -/
def oneNode (entries : List (Bytes × PageId)) : Store :=
  ⟨fun _ => none, fun p =>
    if p = 7 then some ⟨7, 0, kPageSize - (entries.map internalRecordBytes).sum, 0,
      .internal 14 entries⟩ else none, 15,
    { MetaPage.init with numPages := 15, rootPageId := 7 }, fun _ => none, none, ⟨81, by decide⟩, []⟩

@[irreducible] def wide (b : Byte) : Bytes := List.replicate 1000 b

/-- Four separators of 1000 bytes leave no room for a fifth one of 40. -/
def fullNode : Store := oneNode [(wide 1, 10), (wide 2, 11), (wide 3, 12), (wide 4, 13)]

theorem wide_ascends : wide 1 < wide 2 ∧ wide 2 < wide 3 ∧ wide 3 < wide 4 ∧ wide 1 < wide 3 ∧
    wide 1 < wide 4 ∧
    wide 2 < wide 4 := by decide +kernel

theorem fullNode_targets : Targets (fullNode.view 7) 1 11 (wide 1) (some (wide 2)) := by
  obtain ⟨a, b, c, d, e, f⟩ := wide_ascends
  have asc : (([(wide 1, 10)] ++ [(wide 2, 11), (wide 3, 12), (wide 4, 13)]).map Prod.fst).Pairwise
    (· < ·) := by
    simp [a, b, c, d, e, f]
  have body : (fullNode.view 7).body = .internal 14 ([(wide 1, 10)] ++
    [(wide 2, 11), (wide 3, 12), (wide 4, 13)]) := rfl
  refine targets_of_cut body asc rfl fun key => ?_
  simp only [List.forall_mem_cons, List.not_mem_nil, false_imp_iff, implies_true, and_true,
    Option.mem_some_iff,
    forall_eq']
  exact and_congr_right fun _ => ⟨And.left, fun lt => ⟨lt, lt.trans b, lt.trans f⟩⟩

/-- Child 11 is split, and the node with it. -/
theorem separator_reroutes_first :
    (fullNode.view 7).insertInternalAfterSplit (List.replicate 40 2) 11 20 = (false, fullNode.view 7) ∧
    ∃ promoted st₁ st₂, splitInternal 7 1 fullNode = .ok (15, promoted) st₁ ∧
      insertIntoHalf 1 (List.replicate 40 2) promoted 11 20 7 15 st₁ = .ok () st₂ ∧
      Reroutes (fullNode.view 7).findChild (fun key =>
        if key < promoted then (st₂.view 7).findChild key else (st₂.view 15).findChild key) 11 20
        (wide 1) (List.replicate 40 2) (some (wide 2)) := by
  obtain ⟨a, b, c, d, e, f⟩ := wide_ascends
  have asc : ([(wide 1, 10), (wide 2, 11), (wide 3, 12), (wide 4, 13)].map Prod.fst).Pairwise (· < ·) := by
    simp [a, b, c, d, e, f]
  have below : ∀ h ∈ some (wide 2), List.replicate 40 2 < h := by
    rintro h ⟨⟩
    decide +kernel
  have above : wide 1 < List.replicate 40 2 := by decide +kernel
  have body : (fullNode.view 7).body = .internal 14 [(wide 1, 10), (wide 2, 11), (wide 3, 12),
    (wide 4, 13)] := rfl
  have inserted := separator_reroutes body asc fullNode_targets above below 20
  have full : ((fullNode.view 7).insertInternalAfterSplit (List.replicate 40 2) 11 20).1 = false := by
    decide +kernel
  have runs : (do let out ← splitInternal 7 1
                  insertIntoHalf 1 (List.replicate 40 2) out.2 11 20 7 out.1
                  return out.1 : M PageId).run' fullNode = some 15 := by
    decide +kernel
  generalize insert : (fullNode.view 7).insertInternalAfterSplit (List.replicate 40 2) 11 20 = out
    at inserted full ⊢
  obtain ⟨flag, p⟩ := out
  cases flag with
  | true => cases full
  | false =>
    obtain ⟨rfl, split⟩ := inserted
    refine ⟨rfl, ?_⟩
    obtain ⟨st₂, ends⟩ := ok_of_result runs
    obtain ⟨⟨q, promoted⟩, st₁, halves, rest⟩ := bind_ok.mp ends
    obtain ⟨u, st, half, eq⟩ := bind_ok.mp rest
    cases eq
    exact ⟨promoted, st₁, st₂, halves, half, (split 1 15 promoted st₁ st₂ halves (by decide) half).1⟩

end Separator

end PagerDB

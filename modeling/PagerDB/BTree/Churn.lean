import Mathlib.Data.List.Sort
import PagerDB.BTree.LeafMap
import PagerDB.BTree.PutFits
import PagerDB.BTree.TidyLeaves

/-! Deletes and reinserts of a tree's own records. Each leaf holds some of the records it began with, so what
is put back fits where it was; no page is written but the leaves, and their links stay. -/
namespace PagerDB

open KeepsLib MachineLib SortedLib Store

variable {s s' t u : Store} {h : Nat} {key value : Bytes} {pre post : List Link} {x : Link}
  {prev next leaf : PageId} {recs recs' : List (Bytes × Bytes)} {txid : TxId} {wantBefore : Bool}

/- Records of one leaf. -/

theorem sublist_of_ascending (asc : (recs.map Prod.fst).Pairwise (· < ·))
    (asc' : (recs'.map Prod.fst).Pairwise (· < ·))
    (sub : recs' ⊆ recs) : recs'.Sublist recs := by
  have distinct : recs'.Nodup := List.Nodup.of_map Prod.fst (asc'.imp ne_of_lt)
  rw [List.pairwise_map] at asc asc'
  have : Std.Antisymm fun a b : Bytes × Bytes => a.1 < b.1 := ⟨fun a b lt gt => absurd gt lt.asymm⟩
  exact List.sublist_of_subperm_of_pairwise (List.subperm_of_subset distinct sub) asc' asc

theorem putRecord_subset (held : (key, value) ∈ recs) (sub : recs' ⊆ recs) :
    putRecord key value recs' ⊆ recs := by
  intro r mem
  rcases List.mem_append.mp mem with low | rest
  · exact sub (List.mem_of_mem_filter low)
  · rcases List.mem_cons.mp rest with rfl | high
    · exact held
    · exact sub (List.mem_of_mem_filter high)

theorem putRecord_of_cut {lo hi : List (Bytes × Bytes)}
    (cut : recs = lo ++ hi ∨ ∃ old, recs = lo ++ (key, old) :: hi)
    (below : ∀ r ∈ lo, r.1 < key) (above : ∀ r ∈ hi, key < r.1) :
    putRecord key value recs = lo ++ (key, value) :: hi := by
  rcases cut with rfl | ⟨old, rfl⟩
  · exact putRecord_absent below above
  · exact putRecord_present below above

theorem putAtLeaf_absorbs (body : s.bodies leaf = .leaf prev next recs)
    (asc : (recs.map Prod.fst).Pairwise (· < ·))
    (acc : (s.view leaf).Accounted) (fits : cost (putRecord key value recs) ≤ 4056) :
    putAtLeaf key value txid wantBefore leaf s ≠ .ok none s' := by
  intro run
  have body' : (s.view leaf).body = .leaf prev next recs := body
  unfold putAtLeaf at run
  rw [bind_of_ok (getPage_run leaf)] at run
  rcases Page.findKeyIndex_leaf_cases body' asc key with ⟨lo, old, hi, rfl, below, above, find⟩ |
    ⟨lo, hi, rfl, below, above, find⟩
  · have takes : ((s.view leaf).updateLeaf key value).1 = true :=
      (Page.updateLeaf_iff body' asc acc).mpr ⟨by simp, fits⟩
    simp only [find, if_true] at run
    obtain ⟨flag, v, put, run⟩ := bind_ok.mp run
    rw [withNode_run] at put
    cases put
    rw [takes, if_pos rfl] at run
    obtain ⟨_, _, -, run⟩ := bind_ok.mp run
    cases run
  · have absent : key ∉ (lo ++ hi).map Prod.fst := by
      intro mem
      obtain ⟨r, inside, rfl⟩ := List.mem_map.mp mem
      rcases List.mem_append.mp inside with low | high
      · exact lt_irrefl _ (below r low)
      · exact lt_irrefl _ (above r high)
    have room : cost (lo ++ hi) + cost [(key, value)] ≤ 4056 := by
      rw [putRecord_absent below above, cost_append, cost_cons] at fits
      rw [cost_append, cost_cons]
      simp only [cost, List.map_nil, List.sum_nil] at fits ⊢
      omega
    have takes : ((s.view leaf).insertLeaf key value).1 = true :=
      (Page.insertLeaf_iff body' asc acc).mpr ⟨absent, room⟩
    simp only [find, Bool.false_eq_true, if_false] at run
    obtain ⟨flag, v, put, run⟩ := bind_ok.mp run
    rw [withNode_run] at put
    cases put
    rw [takes, if_pos rfl] at run
    obtain ⟨_, _, -, run⟩ := bind_ok.mp run
    obtain ⟨_, _, -, run⟩ := bind_ok.mp run
    cases run

/- Stores that have lost records only. -/

inductive Thinned : Body → Body → Prop where
  | same (b : Body) : Thinned b b
  | leaf {prev next : PageId} {recs recs' : List (Bytes × Bytes)} (sub : recs'.Sublist recs) :
    Thinned (.leaf prev next recs) (.leaf prev next recs')

theorem Thinned.sublist {b : Body} (thinned : Thinned (.leaf prev next recs) b) :
    ∃ recs', b = .leaf prev next recs' ∧ recs'.Sublist recs := by
  cases thinned with
  | same => exact ⟨recs, rfl, List.Sublist.refl _⟩
  | leaf sub => exact ⟨_, rfl, sub⟩

structure Pruned (s t : Store) (h : Nat) : Prop where
  sound : Sound t
  tree : Tree t h
  row : t.leaves h = s.leaves h
  numPages : t.metaPage.numPages = s.metaPage.numPages
  root : t.metaPage.rootPageId = s.metaPage.rootPageId
  bodies : ∀ p, Thinned (s.bodies p) (t.bodies p)

namespace Pruned

theorem refl (sound : Sound s) (tree : Tree s h) : Pruned s s h :=
  ⟨sound, tree, rfl, rfl, rfl, fun _ => .same _⟩

theorem same (pruned : Pruned s t h) (same : Same t u) : Pruned s u h := by
  refine ⟨pruned.sound.same same, pruned.tree.same same, ?_, ?_, ?_, fun p => ?_⟩
  · rw [← pruned.row, Store.leaves, Store.leaves, Store.top, Store.top, same.bodies, same.metaPage]
  · rw [same.metaPage, pruned.numPages]
  · rw [same.metaPage, pruned.root]
  · rw [same.bodies]
    exact pruned.bodies p

theorem counted (pruned : Pruned s t h) (d : Int) : Pruned s (t.counted d) h := by
  obtain ⟨⟨free, first, limit, readable⟩, tree, row, numPages, root, bodies⟩ := pruned
  exact ⟨⟨free, first, limit, readable⟩, ⟨tree.inner, tree.nodup, tree.range, tree.row, tree.accounted⟩, row,
    numPages, root, bodies⟩

theorem wrote (pruned : Pruned s t h) (reached : Reached t h key pre x post prev next recs')
    (origin : s.bodies x.2 = .leaf prev next recs) {kept : List (Bytes × Bytes)} (sub : kept.Sublist recs)
    (asc : (recs.map Prod.fst).Pairwise (· < ·)) (lower : ∀ r ∈ recs, x.1 ≤ r.1)
    (upper : ∀ r ∈ recs, ∀ y ∈ post, r.1 < y.1) (wrote : Wrote x.2 (.leaf prev next kept) t u)
    (acc : (u.view x.2).Accounted) : Pruned s u h := by
  obtain ⟨tree, row, -⟩ := pruned.tree.rewrite reached.row reached.body wrote acc (asc.sublist (sub.map _))
    (fun r mem => lower r (sub.subset mem)) (fun r mem => upper r (sub.subset mem))
  refine ⟨pruned.sound.wrote wrote, tree, ?_, ?_, ?_, fun p => ?_⟩
  · rw [row, ← reached.row, pruned.row]
  · rw [wrote.metaPage, pruned.numPages]
  · rw [wrote.metaPage, pruned.root]
  · rw [wrote.bodies]
    by_cases here : p = x.2
    · rw [here, Function.update_self, origin]
      exact .leaf sub
    · rw [Function.update_of_ne here]
      exact pruned.bodies p

theorem reach (pruned : Pruned s t h) (origin : Tree s h) (io : t.io = []) (key : Bytes) :
    ∃ pre x post prev next recs recs' u, findLeaf key t = .ok x.2 u ∧ Same t u ∧
      Reached s h key pre x post prev next recs ∧ Reached u h key pre x post prev next recs' ∧
        recs'.Sublist recs := by
  obtain ⟨leaf, u, find⟩ : ∃ leaf u, findLeaf key t = .ok leaf u :=
    findLeaf_succeeds pruned.tree pruned.sound io
  obtain ⟨same, pre, x, post, loc, rfl⟩ := findLeaf_ok pruned.tree find
  obtain ⟨eq, le, lt⟩ := loc
  obtain ⟨prev, next, recs, before⟩ := origin.reached ⟨pruned.row.symm.trans eq, le, lt⟩
  obtain ⟨prev', next', recs', now⟩ := pruned.tree.reached ⟨eq, le, lt⟩
  obtain ⟨recs'', body, sub⟩ := (before.body ▸ pruned.bodies x.2).sublist
  obtain ⟨rfl, rfl, rfl⟩ := Body.leaf.inj (now.body.symm.trans body)
  exact ⟨pre, x, post, prev', next', recs, recs', u, find, same, before, now.same same, sub⟩

theorem put (pruned : Pruned s t h) (origin : Tree s h) (io : t.io = [])
    (held : (contents s.bodies (s.leaves h)).lookup key = some value) (txid : TxId) (wantBefore : Bool) :
    ∃ b u, treePut key value txid wantBefore t = .ok b u ∧ Pruned s u h := by
  obtain ⟨pre, x, post, prev, next, recs, recs', u, find, same, before, now, sub⟩ :=
    pruned.reach origin io key
  have member : (key, value) ∈ recs := by
    rw [before.lookup origin] at held
    exact (lookup_eq_some_iff_mem before.asc).mp held
  have whole : cost recs ≤ 4056 := Page.leafCost_le before.body before.accounted
  have size : ¬ kMaxLeafRecordBytes < 4 + key.length + value.length := by
    obtain ⟨lo, hi, rfl⟩ := List.append_of_mem member
    rw [cost_append, cost_cons] at whole
    simp only [leafRecordBytes, kSlotEntrySize] at whole
    simp only [kMaxLeafRecordBytes, kPageSize, kPageHeaderSize, kSlotEntrySize]
    omega
  have back : (putRecord key value recs').Sublist recs :=
    sublist_of_ascending before.asc (putRecord_ascending now.asc key value)
      (putRecord_subset member sub.subset)
  have fits : cost (putRecord key value recs') ≤ 4056 := (cost_sublist back).trans whole
  rcases putAtLeaf_local key value txid wantBefore now.body now.asc now.accounted with
    ⟨v, refused, -⟩ | ⟨v, ⟨lo, hi, w, cut, below, above, wrote, acc⟩, run⟩
  · exact absurd refused (putAtLeaf_absorbs now.body now.asc now.accounted fits)
  · have placed : Pruned s w h := by
      rw [putRecord_of_cut (cut.imp And.left And.left) below above] at back
      exact (pruned.same same).wrote now before.body back before.asc before.lower before.upper wrote acc
    have after : Pruned s v h := by
      rcases cut with ⟨-, rfl⟩ | ⟨-, rfl⟩
      · exact placed.counted 1
      · exact placed
    have optimistic : putOptimistic key value txid wantBefore t =
        .ok (some (if wantBefore then recs'.lookup key else none)) v := by
      unfold putOptimistic
      rw [bind_of_ok isEmpty_run]
      simp only [pruned.tree.root_ne pruned.sound, decide_false, Bool.false_eq_true, if_false]
      rwa [bind_of_ok find]
    refine ⟨if wantBefore then recs'.lookup key else none, v, ?_, after⟩
    unfold treePut
    rw [bind_of_ok (failIf_of_not size), bind_of_ok optimistic]
    rfl

theorem delete (pruned : Pruned s t h) (origin : Tree s h) (io : t.io = []) (key : Bytes) (txid : TxId)
    (wantBefore : Bool) :
    (∃ b u, treeDelete key txid wantBefore t = .ok b u ∧ Pruned s u h) ∨
      ∃ e u, treeDelete key txid wantBefore t = .error e u ∧ isNotFound e = true ∧ Pruned s u h := by
  obtain ⟨pre, x, post, prev, next, recs, recs', u, find, same, before, now, sub⟩ :=
    pruned.reach origin io key
  have here := deleteAtLeaf_local key txid wantBefore now.body now.asc now.accounted
  have run : treeDelete key txid wantBefore t = deleteAtLeaf key txid wantBefore x.2 u := by
    unfold treeDelete
    rw [bind_of_ok isEmpty_run,
      bind_of_ok (failIf_of_not (by simpa using pruned.tree.root_ne pruned.sound)), bind_of_ok find]
  rw [run]
  cases look : recs'.lookup key with
  | none =>
    rw [look] at here
    exact .inr ⟨_, u, here, rfl, pruned.same same⟩
  | some old =>
    rw [look] at here
    obtain ⟨lo, hi, w, rfl, -, -, wrote, acc, done⟩ := here
    have kept : (lo ++ hi).Sublist recs := (List.Sublist.append_left
      (List.sublist_cons_self _ _) lo).trans sub
    have after := (pruned.same same).wrote now before.body kept before.asc before.lower before.upper wrote acc
    exact .inl ⟨_, _, done, after.counted (-1)⟩

theorem facing (pruned : Pruned s t h) (io : List (Option Fault)) : Pruned s (t.facing io) h := by
  obtain ⟨sound, tree, row, numPages, root, bodies⟩ := pruned
  exact ⟨sound.facing io, ⟨tree.inner, tree.nodup, tree.range, tree.row, tree.accounted⟩, row,
    numPages, root, bodies⟩

end Pruned

/- Churn. -/

/-- Without faults a call deletes a key of the map or puts one back with its value; frames may be dropped. -/
def Event.ChurnOf (m : RefMap) : Event → Prop
  | .call (.put key value) _ _ io => m key = some value ∧ io = []
  | .call (.delete key) _ _ io => m key ≠ none ∧ io = []
  | .evict _ => True

instance (m : RefMap) : (ev : Event) → Decidable (ev.ChurnOf m)
  | .call (.put ..) .. => inferInstanceAs (Decidable (_ ∧ _))
  | .call (.delete _) .. => inferInstanceAs (Decidable (_ ∧ _))
  | .evict _ => isTrue trivial

def Event.mark (gone : Bytes → Bool) : Event → Bytes → Bool
  | .call (.put key _) .. => Function.update gone key false
  | .call (.delete key) .. => Function.update gone key true
  | .evict _ => gone

def leftDeleted (churn : List Event) : Bytes → Bool := churn.foldl Event.mark fun _ => false

def RefMap.without (m : RefMap) (gone : Bytes → Bool) : RefMap := fun key => if gone key then none else m key

structure Churned (s t : Store) (m : RefMap) (gone : Bytes → Bool) : Prop where
  holds : Agrees t (m.without gone)
  numPages : t.metaPage.numPages = s.metaPage.numPages
  root : t.metaPage.rootPageId = s.metaPage.rootPageId
  pages : ∀ p, Thinned (s.bodies p) (t.bodies p)
  putsBack : ∀ key value txid wantBefore, m key = some value →
    ∃ before u, treePut key value txid wantBefore (t.facing []) = .ok before u

variable {m : RefMap} {gone : Bytes → Bool}

inductive ChurnInv (s : Store) (m : RefMap) (t : Store) : Prop where
  | tree {h : Nat} (origin : Tree s h) (holds : ∀ key, (contents s.bodies (s.leaves h)).lookup key = m key)
    (pruned : Pruned s t h) : ChurnInv s m t
  | empty (none : ∀ key, m key = none) (same : Same s t) : ChurnInv s m t

theorem ChurnInv.start (models : Models s m) : ChurnInv s m s := by
  obtain ⟨entries, rep, agree⟩ := models
  rcases rep.tree with ⟨-, rfl⟩ | ⟨h, tree, rfl⟩
  · exact .empty (fun key => (agree key).symm) (.refl s)
  · exact .tree tree agree (.refl rep.sound tree)

theorem RefMap.without_put (held : m key = some value) :
    Function.update (m.without gone) key (some value) = m.without (Function.update gone key false) := by
  funext k
  simp only [RefMap.without, Function.update_apply]
  split
  · rename_i eq
    simp [eq, held]
  · rfl

theorem RefMap.without_delete :
    Function.update (m.without gone) key none = m.without (Function.update gone key true) := by
  funext k
  simp only [RefMap.without, Function.update_apply]
  split <;> simp

theorem ChurnInv.step {ev : Event} {y : Store × RefMap} (inv : ChurnInv s m t)
    (models : Models t (m.without gone))
    (churn : ev.ChurnOf m) (step : treeStep (t, m.without gone) ev = some y) :
    ChurnInv s m y.1 ∧ y.2 = m.without (ev.mark gone) := by
  cases ev with
  | evict pid =>
    obtain ⟨u, run, rfl⟩ := Option.map_eq_some_iff.mp step
    have same := evict_same run
    cases inv with
    | tree origin holds pruned => exact ⟨.tree origin holds (pruned.same same), rfl⟩
    | empty none same' => exact ⟨.empty none (same'.trans same), rfl⟩
  | call c txid wantBefore io =>
    cases c with
    | put key value =>
      obtain ⟨held, rfl⟩ := churn
      cases inv with
      | empty none => exact absurd held (by simp [none])
      | tree origin holds pruned =>
        obtain ⟨b, u, run, after⟩ := (pruned.facing []).put origin rfl
          ((holds key).trans held) txid wantBefore
        simp only [treeStep, Call.perform, run, Option.some.injEq] at step
        subst step
        exact ⟨.tree origin holds after, RefMap.without_put held⟩
    | delete key =>
      obtain ⟨held, rfl⟩ := churn
      cases inv with
      | empty none => exact absurd (none key) held
      | tree origin holds pruned =>
        rcases (pruned.facing []).delete origin rfl key txid wantBefore with
          ⟨b, u, run, after⟩ | ⟨e, u, run, absent, after⟩
        · simp only [treeStep, Call.perform, run, Option.some.injEq] at step
          subst step
          exact ⟨.tree origin holds after, RefMap.without_delete⟩
        · have answer := models.agrees.delete key txid wantBefore []
          rw [run] at answer
          simp only [treeStep, Call.perform, run, Call.mayEndWith, absent, if_true, Option.some.injEq] at step
          subst step
          refine ⟨.tree origin holds after, ?_⟩
          rw [Event.mark, ← RefMap.without_delete, Function.update_eq_self_iff.mpr]
          exact (answer.1 absent).1.symm

theorem ChurnInv.run {churn : List Event} {y : Store × RefMap} (inv : ChurnInv s m t)
    (models : Models t (m.without gone)) (each : ∀ ev ∈ churn, ev.ChurnOf m)
    (reach : run treeStep (t, m.without gone) churn = some y) :
    ChurnInv s m y.1 ∧ y.2 = m.without (churn.foldl Event.mark gone) ∧ Models y.1 y.2 := by
  induction churn generalizing t gone with
  | nil =>
    obtain rfl := Option.some.inj reach
    exact ⟨inv, rfl, models⟩
  | cons ev churn ih =>
    obtain ⟨⟨u, m'⟩, step, rest⟩ := Option.bind_eq_some_iff.mp reach
    obtain ⟨after, rfl⟩ := inv.step models (each ev (List.mem_cons_self ..)) step
    exact ih after (treeStep_models models step) (fun ev mem => each ev (List.mem_cons_of_mem _ mem)) rest

theorem ChurnInv.churned (inv : ChurnInv s m t) (models : Models t (m.without gone)) :
    Churned s t m gone := by
  cases inv with
  | tree origin holds pruned =>
    refine ⟨models.agrees, pruned.numPages, pruned.root, pruned.bodies,
      fun key value txid wantBefore held => ?_⟩
    obtain ⟨b, u, run, -⟩ := (pruned.facing []).put origin rfl ((holds key).trans held) txid wantBefore
    exact ⟨b, u, run⟩
  | empty none same =>
    refine ⟨models.agrees, by rw [same.metaPage], by rw [same.metaPage], fun p => ?_,
      fun key value _ _ held => ?_⟩
    · rw [same.bodies]
      exact .same _
    · exact absurd held (by simp [none])

/-- Churn never grows the file: from every state that Put and Delete calls lead to. -/
theorem churn_never_grows (vol : Volume) (wal : Option LogWriter) (events : List Event) :
    EveryState treeStep (fun x => ∀ churn y, (∀ ev ∈ churn, ev.ChurnOf x.2) → run treeStep x churn = some y →
      Churned x.1 y.1 x.2 (leftDeleted churn)) (create vol wal, fun _ => none) events := by
  have always : EveryState treeStep (fun x => Models x.1 x.2) (create vol wal, fun _ => none) events :=
    everyState_invariant (fun _ _ _ models step => treeStep_models models step)
      (create_models vol wal)
  refine always.imp fun x models churn y each reach => ?_
  have whole : Models x.1 (x.2.without fun _ => false) := models
  obtain ⟨inv, eq, after⟩ := (ChurnInv.start models).run whole each reach
  exact inv.churned (eq ▸ after)

def pairOfPuts : List Event := [.call (.put [1] [7]) 0 false [], .call (.put [2] [8]) 0 false []]

def churnOfPair : List Event :=
  [.call (.delete [1]) 0 false [], .evict kFirstDataPage, .call (.delete [1]) 0 true [],
    .call (.put [1] [7]) 0 true [],
    .call (.put [2] [8]) 0 false [], .call (.delete [2]) 0 false []]

theorem pair_churned : ∃ x y, run treeStep
    (create ⟨100, by decide⟩ (some (.open [] 1)), fun _ => none) pairOfPuts =
    some x ∧ run treeStep x churnOfPair = some y ∧ Churned x.1 y.1 x.2 (leftDeleted churnOfPair) := by
  have runs : (run treeStep (create ⟨100, by decide⟩ (some (.open [] 1)), fun _ =>
    none) pairOfPuts).map (fun x =>
      decide (∀ ev ∈ churnOfPair, ev.ChurnOf x.2) && (run treeStep x churnOfPair).isSome) = some true := by
    decide +kernel
  obtain ⟨x, reached, both⟩ := Option.map_eq_some_iff.mp runs
  rw [Bool.and_eq_true, Option.isSome_iff_exists, decide_eq_true_eq] at both
  obtain ⟨each, y, reach⟩ := both
  exact ⟨x, y, reached, reach, (churn_never_grows _ _ pairOfPuts).last reached churnOfPair y each reach⟩

end PagerDB

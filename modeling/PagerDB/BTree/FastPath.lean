import PagerDB.BTree.TidyLeaves

/-! The two paths of Put. Run alone on one store, the optimistic path either gives up with nothing
changed or does to the store what the pessimistic path would have done to it. -/
namespace PagerDB

open MachineLib SortedLib Store

variable {s s' t : Store} {key value : Bytes} {txid : TxId} {wantBefore : Bool}

/- Writing a held page twice. -/

namespace Store

theorem isDirty_setFrame (s : Store) (pid : PageId) (f : Frame) :
    (s.setFrame pid f).isDirty pid = f.dirty := by simp [isDirty, setFrame]

theorem setFrame_setFrame (s : Store) (pid : PageId) (f g : Frame) :
    (s.setFrame pid f).setFrame pid g = s.setFrame pid g := by
  simp only [setFrame, Store.mk.injEq, and_true]
  funext q
  split <;> rfl

@[simp] theorem putPage_putPage (s : Store) (pid : PageId) (p q : Page) :
    (s.putPage pid p).putPage pid q = s.putPage pid q := by
  rw [putPage, putPage, isDirty_setFrame, setFrame_setFrame, putPage]

theorem dirtied_putPage (s : Store) (pid : PageId) (p : Page) :
    (s.putPage pid p).dirtied pid = s.setFrame pid ⟨p, true⟩ := by
  rw [dirtied, view_putPage, if_pos rfl, putPage, setFrame_setFrame]

theorem setFrame_putPage (s : Store) (pid : PageId) (f : Frame) :
    (s.setFrame pid f).putPage pid f.page = s.setFrame pid f := by
  rw [putPage, isDirty_setFrame, setFrame_setFrame]

theorem view_putPage_same (s : Store) (pid : PageId) : (s.putPage pid (s.view pid)).view = s.view := by
  funext q
  by_cases e : q = pid
  · simp [e]
  · simp [e]

end Store

/- The descents. -/

theorem descendPath_of_descend (fuel : Nat) (pid : PageId) (s : Store) :
    match descend key fuel pid s with
    | .ok leaf s' => ∃ path, descendPath key fuel pid s = .ok (path ++ [leaf]) s'
    | .error e s' => descendPath key fuel pid s = .error e s' := by
  induction fuel generalizing pid s with
  | zero => rfl
  | succ fuel ih =>
    unfold descend descendPath
    cases fetch : fetchPage pid s with
    | error e t => rw [bind_of_error fetch, bind_of_error fetch]
    | ok u t =>
      rw [bind_of_ok fetch, bind_of_ok fetch, bind_of_ok (getPage_run _), bind_of_ok (getPage_run _)]
      by_cases leaf : (t.view pid).isLeaf = true
      · rw [if_pos leaf, if_pos leaf]
        exact ⟨[], rfl⟩
      · rw [if_neg leaf, if_neg leaf]
        by_cases invalid : (t.view pid).findChild key = kInvalidPageId
        · have stop : failIf ((t.view pid).findChild key = kInvalidPageId)
              (.status (.Internal "Invalid child pointer")) t = .error _ t := failIf_of invalid
          rw [bind_of_error stop, bind_of_error stop]
        · have go : failIf ((t.view pid).findChild key = kInvalidPageId)
              (.status (.Internal "Invalid child pointer")) t = .ok () t := failIf_of_not invalid
          rw [bind_of_ok go, bind_of_ok go]
          have rest := ih ((t.view pid).findChild key) t
          cases below : descend key fuel ((t.view pid).findChild key) t with
          | error e u =>
            rw [below] at rest
            exact bind_of_error rest
          | ok leaf u =>
            rw [below] at rest
            obtain ⟨path, run⟩ := rest
            exact ⟨pid :: path, bind_of_ok run⟩

/- The leaf. -/

theorem putHeld_of_putAtLeaf {leaf : PageId} {before : Option Bytes} (ancestors : List PageId)
    (run : putAtLeaf key value txid wantBefore leaf s = .ok (some before) s') :
    putHeld key value txid wantBefore leaf ancestors s = .ok before s' := by
  unfold putAtLeaf at run
  unfold putHeld
  rw [bind_of_ok (getPage_run leaf)] at run ⊢
  generalize found : (s.view leaf).findKeyIndex key = find at run ⊢
  obtain ⟨index, present⟩ := find
  cases present with
  | true =>
    simp only [if_true, Bool.and_true] at run ⊢
    rw [bind_of_ok (withNode_run _ _)] at run ⊢
    by_cases fits : ((s.view leaf).updateLeaf key value).1 = true
    · rw [if_pos fits] at run ⊢
      obtain ⟨u, t, log, ret⟩ := bind_ok.mp run
      obtain ⟨eq, rfl⟩ := pure_ok.mp ret
      cases eq
      rw [bind_of_ok log]
      rfl
    · rw [if_neg fits] at run
      cases run
  | false =>
    simp only [Bool.false_eq_true, if_false, Bool.and_false] at run ⊢
    rw [bind_of_ok (withNode_run _ _)] at run ⊢
    rw [if_neg (by simp)]
    simp only [onlyIf, Bool.false_eq_true, if_false]
    rw [bind_of_ok (pure_run _), bind_of_ok (withNode_run _ _)]
    simp only [view_putPage, if_true, putPage_putPage, Bool.not_false]
    by_cases fits : ((s.view leaf).insertLeaf key value).1 = true
    · rw [if_pos fits] at run ⊢
      obtain ⟨u, t, log, count⟩ := bind_ok.mp run
      rw [bind_of_ok (addToNumKeys_run _)] at count
      obtain ⟨eq, rfl⟩ := pure_ok.mp count
      cases eq
      rw [bind_of_ok log]
      rfl
    · rw [if_neg fits] at run
      cases run

theorem putAtLeaf_untouched {leaf : PageId} (tidy : s.Tidy)
    (run : putAtLeaf key value txid wantBefore leaf s = .ok none s') : Untouched s s' := by
  unfold putAtLeaf at run
  rw [bind_of_ok (getPage_run leaf)] at run
  generalize found : (s.view leaf).findKeyIndex key = find at run
  obtain ⟨index, present⟩ := find
  have back : ∀ p, p = s.view leaf → Untouched s (s.putPage leaf p) := by
    intro p same
    rw [same]
    exact ⟨view_putPage_same s leaf, rfl, rfl⟩
  cases present with
  | true =>
    simp only [if_true] at run
    rw [bind_of_ok (withNode_run _ _)] at run
    cases update : (s.view leaf).updateLeaf key value with
    | mk flag p =>
      cases flag with
      | true =>
        rw [update, if_pos rfl] at run
        obtain ⟨u, t, -, ret⟩ := bind_ok.mp run
        cases ret
      | false =>
        rw [update] at run
        cases run
        exact back p (Page.updateLeaf_false update)
  | false =>
    simp only [Bool.false_eq_true, if_false] at run
    rw [bind_of_ok (withNode_run _ _)] at run
    cases insert : (s.view leaf).insertLeaf key value with
    | mk flag p =>
      cases flag with
      | true =>
        rw [insert, if_pos rfl] at run
        obtain ⟨u, t, -, ret⟩ := bind_ok.mp run
        rw [bind_of_ok (addToNumKeys_run _)] at ret
        cases ret
      | false =>
        rw [insert] at run
        cases run
        apply back
        cases body : (s.view leaf).body with
        | leaf prev next recs =>
          obtain ⟨asc, acc⟩ := tidy.view leaf prev next recs body
          rcases Page.findKeyIndex_leaf_cases body asc key with
            ⟨lo, old, hi, cut, below, above, find⟩ | ⟨lo, hi, cut, below, above, find⟩
          · cases found.symm.trans find
          · have absent : ∀ r ∈ recs, r.1 ≠ key := by
              intro r mem
              rw [cut] at mem
              rcases List.mem_append.mp mem with left | right
              · exact (below r left).ne
              · exact (above r right).ne'
            exact (Page.insertLeaf_false body asc absent acc insert).1
        | _ =>
          simp only [Page.insertLeaf, Page.isLeaf, body, Bool.false_eq_true, if_false, Prod.mk.injEq,
            true_and] at insert
          exact insert.symm

theorem putAtLeaf_succeeds (leaf : PageId) (s : Store) :
    ∃ out s', putAtLeaf key value txid wantBefore leaf s = .ok out s' := by
  unfold putAtLeaf
  rw [bind_of_ok (getPage_run leaf)]
  generalize (s.view leaf).findKeyIndex key = find
  obtain ⟨index, present⟩ := find
  cases present with
  | true =>
    simp only [if_true]
    rw [bind_of_ok (withNode_run _ _)]
    split
    · obtain ⟨t, log⟩ := logKeyRecord_succeeds (s.putPage leaf ((s.view leaf).updateLeaf key value).2)
        (.put leaf key value _) txid leaf true wantBefore
      rw [bind_of_ok log]
      exact ⟨_, _, rfl⟩
    · exact ⟨_, _, rfl⟩
  | false =>
    simp only [Bool.false_eq_true, if_false]
    rw [bind_of_ok (withNode_run _ _)]
    split
    · obtain ⟨t, log⟩ := logKeyRecord_succeeds (s.putPage leaf ((s.view leaf).insertLeaf key value).2)
        (.put leaf key value _) txid leaf true wantBefore
      rw [bind_of_ok log]
      exact ⟨_, _, rfl⟩
    · exact ⟨_, _, rfl⟩

/- The whole paths. -/

theorem putOptimistic_cases (s : Store) :
    s.metaPage.rootPageId = kInvalidPageId ∧
      putOptimistic key value txid wantBefore s = .ok none s ∨
    s.metaPage.rootPageId ≠ kInvalidPageId ∧
      putOptimistic key value txid wantBefore s =
        (findLeaf key >>= putAtLeaf key value txid wantBefore) s := by
  unfold putOptimistic
  by_cases root : s.metaPage.rootPageId = kInvalidPageId
  · exact .inl ⟨root, by rw [bind_of_ok isEmpty_run, if_pos (decide_eq_true root)]; rfl⟩
  · exact .inr ⟨root, by rw [bind_of_ok isEmpty_run, if_neg (by simpa using root)]⟩

theorem putPessimistic_of_findLeaf (root : s.metaPage.rootPageId ≠ kInvalidPageId) :
    match findLeaf key s with
    | .ok leaf t => ∃ ancestors, putPessimistic key value txid wantBefore s =
        putHeld key value txid wantBefore leaf ancestors t
    | .error e t => putPessimistic key value txid wantBefore s = .error e t := by
  have path := @descendPath_of_descend key (s.metaPage.numPages + 1) s.metaPage.rootPageId s
  unfold putPessimistic findLeaf
  rw [bind_of_ok isEmpty_run, if_neg (by simpa using root), bind_of_ok get_run, bind_of_ok get_run]
  cases descent : descend key (s.metaPage.numPages + 1) s.metaPage.rootPageId s with
  | error e t =>
    rw [descent] at path
    exact bind_of_error path
  | ok leaf t =>
    rw [descent] at path
    obtain ⟨ancestors, run⟩ := path
    refine ⟨ancestors.reverse, (bind_of_ok run).trans ?_⟩
    simp

theorem optimistic_completes {before : Option Bytes}
    (run : putOptimistic key value txid wantBefore s = .ok (some before) s') :
    putPessimistic key value txid wantBefore s = .ok before s' := by
  rcases @putOptimistic_cases key value txid wantBefore s with
    ⟨-, empty⟩ | ⟨root, full⟩
  · cases empty.symm.trans run
  · rw [full] at run
    obtain ⟨leaf, t, find, write⟩ := bind_ok.mp run
    have held := @putPessimistic_of_findLeaf s key value txid wantBefore root
    rw [find] at held
    obtain ⟨ancestors, eq⟩ := held
    rw [eq]
    exact putHeld_of_putAtLeaf ancestors write

theorem optimistic_fails {e : Failure}
    (run : putOptimistic key value txid wantBefore s = .error e s') :
    putPessimistic key value txid wantBefore s = .error e s' := by
  rcases @putOptimistic_cases key value txid wantBefore s with
    ⟨-, empty⟩ | ⟨root, full⟩
  · cases empty.symm.trans run
  · rw [full] at run
    rcases bind_error.mp run with find | ⟨leaf, t, find, write⟩
    · have held := @putPessimistic_of_findLeaf s key value txid wantBefore root
      rw [find] at held
      exact held
    · obtain ⟨out, u, ok⟩ := @putAtLeaf_succeeds key value txid wantBefore leaf t
      cases ok.symm.trans write

theorem optimistic_gives_up (tidy : s.Tidy)
    (run : putOptimistic key value txid wantBefore s = .ok none s') : Untouched s s' := by
  rcases @putOptimistic_cases key value txid wantBefore s with
    ⟨-, empty⟩ | ⟨root, full⟩
  · cases empty.symm.trans run
    exact Untouched.refl s
  · rw [full] at run
    obtain ⟨leaf, t, find, write⟩ := bind_ok.mp run
    have loaded := @tidies_findLeaf key s tidy
    rw [find] at loaded
    exact (findLeaf_untouched find).trans (putAtLeaf_untouched loaded write)

/- Grown values. -/

theorem Page.Tidy.grown {p p' : Page} {index : Nat} (tidy : p.Tidy)
    (find : p.findKeyIndex key = (index, true)) (leaf : p.isLeaf = true)
    (refused : p.updateLeaf key value = (false, p')) :
    p' = p ∧ (p.deleteAt index).1 = true ∧
      (p.deleteAt index).2.insertLeaf key value = (false, (p.deleteAt index).2) := by
  obtain rfl := Page.updateLeaf_false refused
  cases body : p'.body with
  | leaf prev next recs =>
    obtain ⟨asc, acc⟩ := tidy prev next recs body
    rcases Page.findKeyIndex_leaf_cases body asc key with
      ⟨lo, old, hi, rfl, below, above, find'⟩ | ⟨lo, hi, rfl, below, above, find'⟩
    · cases find.symm.trans find'
      have tight : p'.freeSpace + p'.deadBytes + leafRecordBytes (key, old) <
          leafRecordBytes (key, value) := by
        have get : (lo ++ (key, old) :: hi).getD lo.length ([], []) = (key, old) := by simp
        simp only [Page.updateLeaf, body, find, if_true, get] at refused
        split at refused
        · cases refused
        · split at refused
          · split at refused
            · assumption
            · cases refused
          · cases refused
      have removed := Page.deleteAt_cut body
      rw [removed]
      refine ⟨rfl, rfl, ?_⟩
      have asc' : ((lo ++ hi).map Prod.fst).Pairwise (· < ·) := by
        refine asc.sublist (List.Sublist.map _ ?_)
        simp
      have acc' := Page.delete_accounted body acc
      generalize after : (({ p' with
        deadBytes := p'.deadBytes + leafRecordBytes (key, old)
        body := .leaf prev next (lo ++ hi) } : Page)) = q at acc' ⊢
      have body' : q.body = .leaf prev next (lo ++ hi) := by rw [← after]
      have absent : ∀ r ∈ lo ++ hi, r.1 ≠ key := by
        intro r mem
        rcases List.mem_append.mp mem with left | right
        · exact (below r left).ne
        · exact (above r right).ne'
      cases insert : q.insertLeaf key value with
      | mk flag q' =>
        cases flag with
        | false => rw [(Page.insertLeaf_false body' asc' absent acc' insert).1]
        | true =>
          -- the room that the old record leaves is what the update was refused for
          have fits := Page.insertLeaf_room body' asc' acc' insert
          have room := acc.room
          obtain ⟨total, le⟩ := acc'
          rw [Page.leaf_room body'] at fits
          rw [Page.leaf_room body] at room
          simp only [List.map_append, List.map_cons, List.sum_append, List.sum_cons, List.length_append,
            List.length_cons, leafRecordBytes, Page.freeSpaceStart, Page.leaf_numSlots body',
            Page.leaf_liveBytes body', kSlotEntrySize, kPageHeaderSize, kPageSize] at *
          omega
    · cases find.symm.trans find'
  | _ => simp [Page.isLeaf, body] at leaf

theorem putHeld_splits {leaf : PageId} {index : Nat} {p : Page} (ancestors : List PageId)
    (tidy : (s.view leaf).Tidy) (isLeaf : (s.view leaf).isLeaf = true)
    (find : (s.view leaf).findKeyIndex key = (index, true))
    (refused : (s.view leaf).updateLeaf key value = (false, p)) :
    putHeld key value txid wantBefore leaf ancestors s =
      (do
        let before := if wantBefore then some ((s.view leaf).getValueAt index) else none
        removeGrown leaf index
        putSplitting key value txid wantBefore before true leaf ancestors
        return before : M (Option Bytes)) s := by
  obtain ⟨rfl, removed, full⟩ := tidy.grown find isLeaf refused
  have cleared : ∀ u : Store, u.view leaf = s.view leaf → removeGrown leaf index u =
      .ok () (u.setFrame leaf ⟨((s.view leaf).deleteAt index).2, true⟩) := by
    intro u same
    unfold removeGrown
    rw [bind_of_ok (withNode_run _ _), same, bind_of_ok (failIf_of_not (by simp [removed])),
      markDirty_run, dirtied_putPage]
  unfold putHeld
  rw [bind_of_ok (getPage_run leaf)]
  simp only [find, if_true, Bool.and_true]
  rw [bind_of_ok (withNode_run _ _), refused, if_neg (by simp)]
  simp only [onlyIf, if_true]
  rw [bind_of_ok (cleared _ (by simp)), bind_of_ok (cleared s rfl), bind_of_ok (withNode_run _ _),
    view_setFrame, if_pos rfl, full, if_neg (by simp), setFrame_putPage, putPage, setFrame_setFrame]

/- Runs. -/

/-- The two paths on one store. `io` is what the calls meet; `t` is a store whose pages a descent
has only loaded. -/
structure PathsAgree (s : Store) : Prop where
  completes : ∀ key value txid wantBefore io before s',
    putOptimistic key value txid wantBefore (s.facing io) = .ok (some before) s' →
    putPessimistic key value txid wantBefore (s.facing io) = .ok before s'
  fails : ∀ key value txid wantBefore io e s',
    putOptimistic key value txid wantBefore (s.facing io) = .error e s' →
    putPessimistic key value txid wantBefore (s.facing io) = .error e s'
  givesUp : ∀ key value txid wantBefore io s',
    putOptimistic key value txid wantBefore (s.facing io) = .ok none s' → Untouched (s.facing io) s'
  grown : ∀ key value leaf index p, (s.view leaf).isLeaf = true →
    (s.view leaf).findKeyIndex key = (index, true) →
    (s.view leaf).updateLeaf key value = (false, p) →
    p = s.view leaf ∧ (p.deleteAt index).1 = true ∧
      ((p.deleteAt index).2.insertLeaf key value).1 = false ∧
      ∀ txid wantBefore ancestors, ∀ t : Store, t.view = s.view →
        putHeld key value txid wantBefore leaf ancestors t =
          (do
            let before := if wantBefore then some (p.getValueAt index) else none
            removeGrown leaf index
            putSplitting key value txid wantBefore before true leaf ancestors
            return before : M (Option Bytes)) t

theorem Store.Tidy.paths (tidy : s.Tidy) : PathsAgree s := by
  constructor
  · intro key value txid wantBefore io before s' run
    exact optimistic_completes run
  · intro key value txid wantBefore io e s' run
    exact optimistic_fails run
  · intro key value txid wantBefore io s' run
    exact optimistic_gives_up ⟨tidy.cache, tidy.disk⟩ run
  · intro key value leaf index p isLeaf find refused
    obtain ⟨rfl, removed, full⟩ := (tidy.view leaf).grown find isLeaf refused
    refine ⟨rfl, removed, by rw [full], ?_⟩
    intro txid wantBefore ancestors t loaded
    have same := congrFun loaded leaf
    rw [← same] at isLeaf find refused ⊢
    exact putHeld_splits ancestors (same ▸ tidy.view leaf) isLeaf find refused

/-- In every state that Put and Delete calls lead to, also those that fail. -/
theorem put_paths_agree (vol : Volume) (wal : Option LogWriter) (events : List Event) :
    EveryState callStep PathsAgree (create vol wal) events := by
  have tidy : EveryState callStep Store.Tidy (create vol wal) events :=
    everyState_invariant (fun _ _ _ tidy next => tidy.step next) (create_tidy vol wal)
  exact tidy.imp fun _ => Store.Tidy.paths

end PagerDB

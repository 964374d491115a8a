import Mathlib.Algebra.Order.BigOperators.Group.List
import Mathlib.Algebra.Order.Group.Nat
import PagerDB.BTree.Packed

/-! When a Put finds room. Leaves and inner nodes split by the number of their records, while
what a page holds is counted in bytes; a Put fails when the half it goes to is still too full. -/
namespace PagerDB

open KeepsLib SortedLib Store

def kPageCapacity : Nat := kPageSize - kPageHeaderSize

def leafCost (r : Bytes × Bytes) : Nat := kSlotEntrySize + leafRecordBytes r

def nodeCost (e : Bytes × PageId) : Nat := kSlotEntrySize + internalRecordBytes e

def LeafTakes (recs : List (Bytes × Bytes)) (key value : Bytes) : Prop :=
  (recs.map leafCost).sum + leafCost (key, value) ≤ kPageCapacity

def NodeTakes (es : List (Bytes × PageId)) (key : Bytes) : Prop :=
  (es.map nodeCost).sum + nodeCost (key, kInvalidPageId) ≤ kPageCapacity

def middleKey {α : Type} (xs : List (Bytes × α)) : Bytes := (xs.map Prod.fst).getD (xs.length / 2) []

def SplitTakes (recs : List (Bytes × Bytes)) (key value : Bytes) : Prop :=
  LeafTakes (if key < middleKey recs then recs.take (recs.length / 2)
    else recs.drop (recs.length / 2)) key value

def entriesOf : Body → List (Bytes × PageId)
  | .internal _ es => es
  | _ => []

def SepFits (bd : Bodies) : List PageId → Bytes → Prop
  | [], sep => NodeTakes [] sep
  | p :: rest, sep =>
    NodeTakes (entriesOf (bd p)) sep ∨ entriesOf (bd p) ≠ [] ∧
      NodeTakes (if sep < middleKey (entriesOf (bd p)) then
          (entriesOf (bd p)).take ((entriesOf (bd p)).length / 2)
        else (entriesOf (bd p)).drop ((entriesOf (bd p)).length / 2 + 1)) sep ∧
      SepFits bd rest (middleKey (entriesOf (bd p)))

def route (view : PageId → Page) (key : Bytes) : Nat → PageId → List PageId
  | 0, _ => []
  | fuel + 1, current =>
    if (view current).isLeaf then [current]
    else current :: route view key fuel ((view current).findChild key)

/-- The leaf of the key takes the record, or its split finds room on all levels. -/
def Store.PutFits (s : Store) (key value : Bytes) : Prop :=
  s.metaPage.rootPageId = kInvalidPageId ∨
    let path := route s.view key (s.metaPage.numPages + 1) s.metaPage.rootPageId
    let others := (s.view (path.getLastD kInvalidPageId)).recs.filter fun r => r.1 ≠ key
    LeafTakes others key value ∨
      SplitTakes others key value ∧ SepFits s.bodies path.dropLast.reverse (middleKey others)

instance (recs : List (Bytes × Bytes)) (key value : Bytes) : Decidable (LeafTakes recs key value) :=
  inferInstanceAs (Decidable (_ ≤ _))

instance (es : List (Bytes × PageId)) (key : Bytes) : Decidable (NodeTakes es key) :=
  inferInstanceAs (Decidable (_ ≤ _))

instance (recs : List (Bytes × Bytes)) (key value : Bytes) : Decidable (SplitTakes recs key value) :=
  inferInstanceAs (Decidable (LeafTakes _ key value))

instance decidableSepFits (bd : Bodies) : (ancestors : List PageId) → (sep : Bytes) →
    Decidable (SepFits bd ancestors sep)
  | [], sep => inferInstanceAs (Decidable (NodeTakes [] sep))
  | _ :: rest, _ =>
    have := decidableSepFits bd rest
    inferInstanceAs (Decidable (_ ∨ _ ∧ _ ∧ _))

instance (s : Store) (key value : Bytes) : Decidable (s.PutFits key value) :=
  inferInstanceAs (Decidable (_ ∨ _ ∨ _ ∧ _))

/- Pages. -/

namespace Page

variable {p : Page} {prev next r : PageId} {recs : List (Bytes × Bytes)}
  {es : List (Bytes × PageId)} {key value : Bytes}

theorem leafCost_sum (recs : List (Bytes × Bytes)) : (recs.map leafCost).sum =
    recs.length * kSlotEntrySize + (recs.map leafRecordBytes).sum := by
  induction recs with
  | nil => rfl
  | cons r recs ih =>
    simp only [List.map_cons, List.sum_cons, List.length_cons, ih, leafCost, Nat.succ_mul]
    omega

theorem leafCost_le (body : p.body = .leaf prev next recs) (acc : p.Accounted) :
    (recs.map leafCost).sum ≤ kPageCapacity := by
  obtain ⟨total, start⟩ := acc
  rw [leafCost_sum]
  simp only [freeSpaceStart, leaf_numSlots body, leaf_liveBytes body] at total start
  simp only [kPageCapacity, kPageSize, kPageHeaderSize] at *
  omega

theorem insertLeaf_takes (body : p.body = .leaf prev next recs)
    (asc : (recs.map Prod.fst).Pairwise (· < ·)) (absent : ∀ r ∈ recs, r.1 ≠ key)
    (acc : p.Accounted) (takes : LeafTakes recs key value) :
    (p.insertLeaf key value).1 = true := by
  generalize insert : p.insertLeaf key value = out
  obtain ⟨flag, p'⟩ := out
  cases flag with
  | true => rfl
  | false =>
    obtain ⟨-, full⟩ := insertLeaf_false body asc absent acc insert
    rw [leaf_room body] at full
    rw [LeafTakes, leafCost_sum] at takes
    simp only [leafCost, leafRecordBytes, kPageCapacity, kPageSize, kPageHeaderSize] at takes full
    omega

theorem internal_room (body : p.body = .internal r es) (packed : p.Packed) :
    p.freeSpace + (es.map nodeCost).sum = kPageCapacity :=
  internal_free body packed

theorem insertInternal_takes {c : PageId} (body : p.body = .internal r es) (packed : p.Packed)
    (takes : NodeTakes es key) : (p.insertInternal key c).1 = true := by
  have room := internal_room body packed
  have free : kSlotEntrySize + 6 + key.length ≤ p.freeSpace := by
    simp only [NodeTakes, nodeCost, internalRecordBytes] at takes
    omega
  have size : kSlotEntrySize + internalRecordBytes (key, c) ≤ p.freeSpace := by
    simp only [internalRecordBytes]
    omega
  have fits : p.canFit (internalRecordBytes (key, c)) = true := decide_eq_true size
  have fit : p.ensureFit (kSlotEntrySize + 6 + key.length) = (true, p) := if_pos free
  simp only [insertInternal, body, fit, if_true, fits]

theorem spliceEntries_cost (sep : Bytes) (left right : PageId) {i : Nat} (inside : i ≤ es.length) :
    ((spliceEntries sep left right i es).map fun e => kSlotEntrySize + 2 + e.1.length + 4).sum =
      (es.map nodeCost).sum + nodeCost (sep, kInvalidPageId) := by
  induction es generalizing i with
  | nil =>
    obtain rfl := Nat.le_zero.mp inside
    simp only [spliceEntries, List.map_cons, List.map_nil, List.sum_cons, List.sum_nil, nodeCost,
      internalRecordBytes]
    omega
  | cons e es ih =>
    cases i with
    | zero =>
      have same : (es.map fun e => kSlotEntrySize + 2 + e.1.length + 4).sum =
          (es.map nodeCost).sum := by
        congr 1
        refine List.map_congr_left fun e _ => ?_
        simp only [nodeCost, internalRecordBytes]
        omega
      simp only [spliceEntries, List.map_cons, List.sum_cons, same, nodeCost, internalRecordBytes]
      omega
    | succ i =>
      have rest := ih (Nat.le_of_succ_le_succ inside)
      simp only [spliceEntries, List.map_cons, List.sum_cons, rest]
      simp only [nodeCost, internalRecordBytes]
      omega

theorem insertInternalAfterSplit_takes {left right : PageId} (body : p.body = .internal r es)
    (packed : p.Packed) (takes : NodeTakes es key) :
    (p.insertInternalAfterSplit key left right).1 = true := by
  have room := internal_room body packed
  have free : kSlotEntrySize + 2 + key.length + 4 ≤ p.freeSpace := by
    simp only [NodeTakes, nodeCost, internalRecordBytes] at takes
    omega
  have index : p.lowerBound key ≤ es.length := by
    have bound := p.lowerBound_le key
    simpa [numSlots, body] using bound
  have needed : ¬ kPageSize - kPageHeaderSize < ((spliceEntries key left right (p.lowerBound key) es).map
      fun e => kSlotEntrySize + 2 + e.1.length + 4).sum := by
    rw [spliceEntries_cost key left right index]
    exact not_lt.mpr takes
  simp only [insertInternalAfterSplit, body, if_pos free, if_neg needed]

end Page

/- Structure changes, and the failures they can end with. -/

def fileFull : Failure := .status (.IoError "File too large")

/-- The failures that a call may end with: a file that cannot grow, a fault unless none is
pending, and a refused record or separator unless all of them fit. -/
structure Admits (E : Failure → Prop) (quiet fits : Prop) : Prop where
  full : E fileFull
  fault : ¬ quiet → ∀ f : Fault, E (.status f.status)
  refusal : ¬ fits → ∀ message, E (.status (.Internal message))
  length : ¬ fits → E .lengthError

section

variable {s s' t : Store} {pid : PageId} {txid : TxId} {E : Failure → Prop} {q ok : Prop}

theorem ioPoint_fails (adm : Admits E q ok) (neat : Neat q s) : FailsOnly E ioPoint s := by
  intro e s' run
  unfold ioPoint at run
  split at run
  · cases run
  · cases run
  · rename_i f rest io
    cases run
    refine adm.fault (fun quiet => ?_) f
    rw [neat.quiet quiet] at io
    cases io

theorem newPage_fails (adm : Admits E q ok) (neat : Neat q s)
    (free : s.metaPage.freeListHead = kInvalidPageId) : FailsOnly E newPage s := by
  refine (ioPoint_fails adm neat).bind fun _ t io => .bind ?_ fun pid t _ =>
    .bind (.of_ok (modify_run _)) fun _ t _ => .of_ok (pure_run _)
  refine .bind (.of_ok get_run) fun m t' got => ?_
  cases got
  have free' : t.metaPage.freeListHead = kInvalidPageId := (ioPoint_same io).1.metaPage ▸ free
  rw [if_neg (not_not.mpr free')]
  refine (ioPoint_fails adm (keeps_ioPoint _ _ _ io neat)).bind fun _ t _ => .bind ?_ fun _ t _ =>
    .bind (.of_ok (modify_run _)) fun _ t _ => .of_ok (pure_run _)
  intro e s' run
  exact (failIf_error.mp run).2.1 ▸ adm.full

theorem fetchPage_fails (adm : Admits E q ok) (neat : Neat q s) (lo : kFirstDataPage ≤ pid)
    (hi : pid < s.metaPage.numPages) (readable : (s.disk pid).isSome) :
    FailsOnly E (fetchPage pid) s := by
  refine .bind (.of_ok get_run) fun m t got => ?_
  cases got
  cases s.cache pid with
  | some f => exact .of_ok (pure_run _)
  | none =>
    refine (ioPoint_fails adm neat).bind fun _ t io => .bind ?_ fun page t _ => .of_ok (modify_run _)
    obtain ⟨same, disk⟩ := ioPoint_same io
    obtain ⟨page, found⟩ := Option.isSome_iff_exists.mp readable
    refine .bind (.of_ok get_run) fun m t' got => ?_
    cases got
    rw [same.metaPage, disk, found]
    refine .bind (.of_ok (failIf_of_not (not_lt.mpr lo))) fun _ t₁ skip => ?_
    obtain ⟨-, rfl⟩ := failIf_ok.mp skip
    refine .bind (.of_ok (failIf_of_not (not_le.mpr hi))) fun _ t₂ skip => ?_
    obtain ⟨-, rfl⟩ := failIf_ok.mp skip
    exact (ioPoint_fails adm (keeps_ioPoint _ _ _ io neat)).bind fun _ t _ => .of_ok (pure_run _)

theorem rebuildLeaf_runs {overflow : String} {prev next : PageId} {done rest : List (Bytes × Bytes)}
    (body : (s.view pid).body = .leaf prev next done) (acc : (s.view pid).Accounted)
    (asc : ((done ++ rest).map Prod.fst).Pairwise (· < ·))
    (cost : ((done ++ rest).map leafCost).sum ≤ kPageCapacity) :
    ∃ s', rebuildLeaf pid overflow rest s = .ok () s' := by
  induction rest generalizing s done with
  | nil => exact ⟨s, rfl⟩
  | cons r rest ih =>
    obtain ⟨k, v⟩ := r
    have order := asc
    rw [List.map_append, List.pairwise_append] at order
    have smaller : ∀ r ∈ done, r.1 < k := fun r mem =>
      order.2.2 r.1 (List.mem_map_of_mem mem) k (by simp)
    have takes : LeafTakes done k v := by
      simp only [List.map_append, List.map_cons, List.sum_append, List.sum_cons] at cost
      simp only [LeafTakes]
      omega
    have yes := Page.insertLeaf_takes body order.1 (fun r mem => (smaller r mem).ne) acc takes
    generalize insert : (s.view pid).insertLeaf k v = out at yes
    obtain ⟨flag, p⟩ := out
    obtain rfl : flag = true := yes
    obtain ⟨lo, hi, eq, below, above, pbody, -, -, pacc⟩ := Page.insertLeaf_true body order.1 insert
    have last : hi = [] := by
      cases hi with
      | nil => rfl
      | cons x hi =>
        exact absurd ((smaller x (by simp [eq])).trans (above x (by simp))) (lt_irrefl _)
    subst last
    rw [List.append_nil] at eq
    subst eq
    have body' : ((s.putPage pid p).view pid).body = .leaf prev next (done ++ [(k, v)]) := by
      simpa using pbody
    obtain ⟨s', run⟩ := ih body' (by simpa using pacc acc) (by simpa using asc) (by simpa using cost)
    refine ⟨s', ?_⟩
    rw [rebuildLeaf, bind_of_ok (withNode_run _ _), bind_of_ok (failIf_of_not (by simp [insert])),
      insert]
    exact run

theorem rebuildInternal_runs {overflow : String} {r : PageId} {done rest : List (Bytes × PageId)}
    (body : (s.view pid).body = .internal r done) (packed : (s.view pid).Packed)
    (asc : ((done ++ rest).map Prod.fst).Pairwise (· < ·))
    (cost : ((done ++ rest).map nodeCost).sum ≤ kPageCapacity) :
    ∃ s', rebuildInternal pid overflow rest s = .ok () s' := by
  induction rest generalizing s done with
  | nil => exact ⟨s, rfl⟩
  | cons e rest ih =>
    obtain ⟨k, c⟩ := e
    have order := asc
    rw [List.map_append, List.pairwise_append] at order
    have takes : NodeTakes done k := by
      simp only [List.map_append, List.map_cons, List.sum_append, List.sum_cons] at cost
      have same : nodeCost (k, c) = nodeCost (k, kInvalidPageId) := rfl
      simp only [NodeTakes]
      omega
    have yes := Page.insertInternal_takes (c := c) body packed takes
    have packed' : ((s.view pid).insertInternal k c).2.Packed := Page.insertInternal_packed packed
    generalize insert : (s.view pid).insertInternal k c = out at yes packed'
    obtain ⟨flag, p⟩ := out
    obtain rfl : flag = true := yes
    have pbody := insertInternal_last body order.1
      (fun e mem => order.2.2 e.1 (List.mem_map_of_mem mem) k (by simp)) insert
    have body' : ((s.putPage pid p).view pid).body = .internal r (done ++ [(k, c)]) := by
      simpa using pbody
    obtain ⟨s', run⟩ := ih body' (by simpa using packed') (by simpa using asc) (by simpa using cost)
    refine ⟨s', ?_⟩
    rw [rebuildInternal, bind_of_ok (withNode_run _ _),
      bind_of_ok (failIf_of_not (by simp [insert])), insert]
    exact run

theorem cost_sublist {α : Type} {cost : α → Nat} {xs ys : List α} (sub : xs.Sublist ys) :
    (xs.map cost).sum ≤ (ys.map cost).sum :=
  (sub.map cost).sum_le_sum fun _ _ => Nat.zero_le _

theorem logPageEvent_runs (s : Store) (body : LogBody) (txid : TxId) (opEnd : Bool) :
    ∃ s', logPageEvent body txid opEnd s = .ok () s' := by
  obtain ⟨lsn, t, run⟩ := appendRecord_succeeds s txid opEnd body
  exact ⟨t, bind_of_ok run⟩

theorem logPageEvent_fails (s : Store) (body : LogBody) (txid : TxId) (opEnd : Bool) :
    FailsOnly E (logPageEvent body txid opEnd) s := by
  obtain ⟨t, run⟩ := logPageEvent_runs s body txid opEnd
  exact .of_ok run

theorem logPageImage_fails (s : Store) (pid : PageId) (txid : TxId) (opEnd : Bool) :
    FailsOnly E (logPageImage pid txid opEnd) s := by
  obtain ⟨t, run⟩ := logPageImage_succeeds s pid txid opEnd
  exact .of_ok run

theorem logKeyRecord_fails (s : Store) (body : LogBody) (txid : TxId) (pid : PageId)
    (opEnd needsUndo : Bool) : FailsOnly E (logKeyRecord body txid pid opEnd needsUndo) s := by
  obtain ⟨t, run⟩ := logKeyRecord_succeeds s body txid pid opEnd needsUndo
  exact .of_ok run

theorem edit_fails {β : Type} {f : Page → Bool × Page} {message : String} {rest : M β}
    (adm : Admits E q ok) (takes : ok → (f (s.view pid)).1 = true) (next : ∀ t, FailsOnly E rest t) :
    FailsOnly E (do
      let done ← withNode pid f
      failIf (!done) (.status (.Internal message))
      rest) s := by
  refine .bind (.of_ok (withNode_run pid f)) fun done t run => ?_
  rw [withNode_run] at run
  cases run
  refine .bind ?_ fun _ t _ => next t
  intro e s' refused
  obtain ⟨no, rfl, -⟩ := failIf_error.mp refused
  exact adm.refusal (fun fits => by simp [takes fits] at no) message

theorem createNewRoot_fails {splitKey : Bytes} {left right : PageId} (adm : Admits E q ok)
    (neat : Neat q s) (free : s.metaPage.freeListHead = kInvalidPageId)
    (takes : ok → NodeTakes [] splitKey) :
    FailsOnly E (createNewRoot splitKey left right txid) s := by
  refine (newPage_fails adm neat free).bind fun root t _ => (logPageEvent_fails _ _ _ _).bind fun _ t _ => ?_
  refine .bind (.of_ok (setPage_run root _)) fun _ t' set => ?_
  cases set
  refine edit_fails adm (fun fits => ?_) fun t => ?_
  · rw [view_putPage, if_pos rfl]
    exact Page.insertInternal_takes rfl (Page.packed_init root) (takes fits)
  · refine .bind (.of_ok (getPage_run root)) fun _ t _ => .bind (.of_ok (setPage_run root _)) fun _ t _ => ?_
    exact (logPageImage_fails _ _ _ _).bind fun _ t _ => (logPageEvent_fails _ _ _ _).bind fun _ t _ =>
      .of_ok (setRootPageId_run root)

theorem splitInternal_fails {r : PageId} {es : List (Bytes × PageId)} (adm : Admits E q ok)
    (neat : Neat q s) (free : s.metaPage.freeListHead = kInvalidPageId)
    (body : s.bodies pid = .internal r es) (asc : (es.map Prod.fst).Pairwise (· < ·))
    (some : ok → es ≠ []) : FailsOnly E (splitInternal pid txid) s := by
  have body' : (s.view pid).body = .internal r es := body
  have cost : (es.map nodeCost).sum ≤ kPageCapacity := by
    have room := Page.internal_room body' (neat.packed pid)
    omega
  have slots : ∀ u, FailsOnly E (failIf ((s.view pid).numSlots = 0) .lengthError) u := by
    intro u e s' run
    obtain ⟨none, rfl, -⟩ := failIf_error.mp run
    refine adm.length fun fits => some fits ?_
    simpa [Page.numSlots, body'] using none
  have half : ∀ (t : Store) (q rightmost : PageId) (message : String) (part : List (Bytes × PageId)),
      part.Sublist es → FailsOnly E (rebuildInternal q message part)
        (t.putPage q (.init q (.internal rightmost []))) := by
    intro t q rightmost message part sub
    have runs : ∃ t', rebuildInternal q message part
        (t.putPage q (.init q (.internal rightmost []))) = .ok () t' :=
      rebuildInternal_runs (view_init t q _) (by simpa using Page.packed_init q)
        (asc.sublist (sub.map _)) ((cost_sublist sub).trans cost)
    obtain ⟨t', run⟩ := runs
    exact .of_ok run
  have entries : (s.view pid).entries = es := by simp [Page.entries, body']
  refine .bind (.of_ok (getPage_run pid)) fun node t got => ?_
  cases got
  refine (newPage_fails adm neat free).bind fun new t _ =>
    (logPageEvent_fails _ _ _ _).bind fun _ t _ => (slots t).bind fun _ t _ => ?_
  rw [entries]
  refine .bind (.of_ok (setPage_run pid _)) fun _ t set => ?_
  cases set
  refine (half _ pid _ _ _ (List.take_sublist _ _)).bind fun _ t _ =>
    (logPageImage_fails _ _ _ _).bind fun _ t _ => .bind (.of_ok (setPage_run new _)) fun _ t set => ?_
  cases set
  exact (half _ new _ _ _ (List.drop_sublist _ _)).bind fun _ t _ =>
    (logPageImage_fails _ _ _ _).bind fun _ t _ => .of_ok (pure_run _)

theorem insertIntoHalf_fails {key newKey : Bytes} {left right parent new r₁ r₂ : PageId}
    {es₁ es₂ : List (Bytes × PageId)} (adm : Admits E q ok) (neat : Neat q s)
    (leftBody : s.bodies parent = .internal r₁ es₁) (rightBody : s.bodies new = .internal r₂ es₂)
    (takes : ok → NodeTakes (if key < newKey then es₁ else es₂) key) :
    FailsOnly E (insertIntoHalf txid key newKey left right parent new) s := by
  unfold insertIntoHalf
  split
  · rename_i lt
    rw [if_pos lt] at takes
    exact edit_fails adm (fun fits =>
      Page.insertInternalAfterSplit_takes leftBody (neat.packed parent) (takes fits)) fun t =>
      logPageImage_fails t parent txid false
  · rename_i ge
    rw [if_neg ge] at takes
    exact edit_fails adm (fun fits =>
      Page.insertInternalAfterSplit_takes rightBody (neat.packed new) (takes fits)) fun t =>
      logPageImage_fails t new txid false

/- The climb. -/

theorem SepFits.congr {bd bd' : Bodies} {ancestors : List PageId} {sep : Bytes}
    (fits : SepFits bd ancestors sep) (same : ∀ a ∈ ancestors, bd' a = bd a) :
    SepFits bd' ancestors sep := by
  induction ancestors generalizing sep with
  | nil => exact fits
  | cons p rest ih =>
    rw [SepFits, same p (by simp)]
    refine fits.imp_right fun ⟨nonempty, half, up⟩ => ⟨nonempty, half, ?_⟩
    exact ih up fun a mem => same a (by simp [mem])

theorem propagate_fails {ancestors : List PageId} {pre post : List Link} {c : Link} {sep : Bytes}
    {new : PageId} (adm : Admits E q ok) (at_ : Pending s ancestors pre c post sep)
    (neat : Neat q s) (fits : ok → SepFits s.bodies ancestors sep) :
    FailsOnly E (propagate txid ancestors sep c.2 new) s := by
  induction ancestors generalizing s pre c post sep new with
  | nil => exact createNewRoot_fails adm neat at_.free fits
  | cons parent ancestors ih =>
    have climb := at_.climb
    generalize eq : s.metaPage.rootPageId = root at climb
    cases climb with
    | @down _ pre post spre spost x _ r es up node children =>
      subst eq
      simp only [SepFits, node] at fits
      rw [propagate]
      refine .bind (.of_ok (withNode_run x.2 _)) fun flag t put => ?_
      rw [withNode_run] at put
      generalize insert : (s.view x.2).insertInternalAfterSplit sep c.2 new = out at put
      obtain ⟨given, p⟩ := out
      cases put
      refine .ite (fun _ => logPageImage_fails _ _ _ _) fun refused => ?_
      obtain rfl : given = false := by simpa using refused
      obtain rfl := insertInternalAfterSplit_false insert
      -- a parent that refuses the separator has no room for it
      have fits' := fun here => (fits here).resolve_left fun takes => by
        have given : ((s.view x.2).insertInternalAfterSplit sep c.2 new).1 = true :=
          Page.insertInternalAfterSplit_takes node (neat.packed x.2) takes
        rw [insert] at given
        cases given
      have same := same_putPage s x.2 (s.view x.2) rfl id
      have neat₁ : Neat q (s.putPage x.2 (s.view x.2)) := neat.putPage (neat.packed x.2)
      generalize s.putPage x.2 (s.view x.2) = t at same neat₁
      have pending := at_.same same
      have bodies := same.bodies
      have page := same.metaPage
      rw [← bodies] at pending up node fits'
      rw [← page] at up
      have keysAsc := asc_seg_keys (pending.children_asc children)
      have oldX : x.2 < t.metaPage.numPages := pending.old x.2 (pending.climb.mem x.2 (by simp))
      refine (splitInternal_fails adm neat₁ pending.free node keysAsc fun here => (fits' here).1).bind
        fun out s₁ split => ?_
      obtain ⟨upper, newKey⟩ := out
      have neat₂ := keeps_splitInternal x.2 txid _ _ _ split neat₁
      obtain ⟨fresh, -, -, i, hi, rfl, rfl, bodies₁⟩ :=
        splitInternal_ok pending.free oldX node keysAsc split
      have apart : upper ≠ x.2 := fresh ▸ oldX.ne'
      have leftBody : s₁.bodies x.2 = .internal es[es.length / 2].2 (es.take (es.length / 2)) := by
        rw [bodies₁, Function.update_of_ne apart.symm, Function.update_self]
      have rightBody : s₁.bodies upper = .internal r (es.drop (es.length / 2 + 1)) := by
        rw [bodies₁, Function.update_self]
      have middle : middleKey es = es[es.length / 2].1 := by simp [middleKey, hi]
      simp only [entriesOf, middle] at fits'
      refine (insertIntoHalf_fails adm neat₂ leftBody rightBody fun here => (fits' here).2.1).bind
        fun u s₂ insert => ?_
      obtain ⟨next, -, -, -, frame, -⟩ := propagate_split pending up node children split insert
      refine ih next (keeps_insertIntoHalf txid _ _ _ _ _ _ _ _ _ insert neat₂) fun here =>
        (fits' here).2.2.congr fun a mem => ?_
      have inner := pending.climb.mem a (by simp [mem])
      have nodup := pending.nodup
      rw [List.length_cons, innerIds_succ, up.level, List.nodup_append] at nodup
      exact frame a (nodup.2.2 a (up.mem a mem) x.2 (by simp)) (fresh ▸ (pending.old a inner).ne)

/- Leaves. -/

theorem relinkSibling_fails {sib new : PageId} (adm : Admits E q ok) (neat : Neat q s)
    (lo : kFirstDataPage ≤ sib) (hi : sib < s.metaPage.numPages) (readable : (s.disk sib).isSome) :
    FailsOnly E (relinkSibling sib new txid) s :=
  (fetchPage_fails adm neat lo hi readable).bind fun _ _ _ =>
    .bind (.of_ok (getPage_run sib)) fun _ _ _ =>
    .bind (.of_ok (setPage_run sib _)) fun _ _ _ => logPageImage_fails _ _ _ _

theorem rebuildLeaf_extends {overflow : String} {recs : List (Bytes × Bytes)} {u : Unit}
    (run : rebuildLeaf pid overflow recs s = .ok u s') : Extends [pid] s s' := by
  induction recs generalizing s with
  | nil =>
    obtain ⟨-, rfl⟩ := pure_ok.mp run
    exact (wrote_self s pid).extends
  | cons r recs ih =>
    simp only [rebuildLeaf, bind_ok, withNode_run, failIf_ok] at run
    obtain ⟨_, t, put, _, _, ⟨-, rfl⟩, run⟩ := run
    cases put
    exact ((wrote_putPage s pid _).extends.trans (ih run)).mono (by simp)

theorem splitLeaf_fails {prev next : PageId} {recs : List (Bytes × Bytes)} (adm : Admits E q ok)
    (neat : Neat q s) (sound : Sound s) (body : s.bodies pid = .leaf prev next recs)
      (acc : (s.view pid).Accounted)
    (asc : (recs.map Prod.fst).Pairwise (· < ·))
    (sibling : next ≠ kInvalidPageId → kFirstDataPage ≤ next ∧ next < s.metaPage.numPages) :
    FailsOnly E (splitLeaf pid txid) s := by
  have body' : (s.view pid).body = .leaf prev next recs := body
  have cost := Page.leafCost_le body' acc
  have half : ∀ (t : Store) (q l n : PageId) (message : String) (part : List (Bytes × Bytes)),
      part.Sublist recs → FailsOnly E (rebuildLeaf q message part)
        (t.putPage q (.init q (.leaf l n []))) := by
    intro t q l n message part sub
    have runs : ∃ t', rebuildLeaf q message part (t.putPage q (.init q (.leaf l n []))) = .ok () t' :=
      rebuildLeaf_runs (view_init t q _) (by simpa using init_accounted q l n)
        (asc.sublist (sub.map _)) ((cost_sublist sub).trans cost)
    obtain ⟨t', run⟩ := runs
    exact .of_ok run
  have all : (s.view pid).recs = recs := by simp [Page.recs, body']
  have sib : (s.view pid).getNextLeaf = next := by simp [Page.getNextLeaf, body']
  refine .bind (.of_ok (getPage_run pid)) fun node t got => ?_
  cases got
  rw [all, sib]
  refine (newPage_fails adm neat sound.free).bind fun new s₁ alloc =>
    (logPageEvent_fails _ _ _ _).bind fun _ s₂ event => ?_
  refine .bind (.of_ok (setPage_run pid _)) fun _ s₃ set => ?_
  refine .bind (by cases set; exact half _ pid _ _ _ _ (List.take_sublist _ _)) fun _ s₄ left =>
    (logPageImage_fails _ _ _ _).bind fun _ s₅ image => ?_
  refine .bind (.of_ok (setPage_run new _)) fun _ s₆ set' => ?_
  refine .bind (by cases set'; exact half _ new _ _ _ _ (List.drop_sublist _ _)) fun _ s₇ right =>
    (logPageImage_fails _ _ _ _).bind fun _ s₈ image' => ?_
  refine .bind ?_ fun _ s₉ _ => .of_ok (pure_run _)
  refine .ite (fun some => ?_) fun _ => .of_ok (pure_run _)
  cases set
  cases set'
  have neat₈ : Neat q s₈ :=
    keeps_logPageImage new txid false _ _ _ image' (keeps_rebuildLeaf new _ _ _ _ _ right
      ((keeps_logPageImage pid txid false _ _ _ image (keeps_rebuildLeaf pid _ _ _ _ _ left
        ((keeps_logPageEvent _ txid false _ _ _ event (keeps_newPage _ _ _ alloc neat)).putPage
          (Page.packed_of_leaf rfl)))).putPage (Page.packed_of_leaf rfl)))
  have ext : Extends _ s s₈ := (newPage_grew sound.free alloc).extends.trans
    ((logPageEvent_same event).extends.trans ((wrote_putPage s₂ pid _).extends.trans
    ((rebuildLeaf_extends left).trans ((logPageImage_same image).extends.trans
    ((wrote_putPage s₅ new _).extends.trans
    ((rebuildLeaf_extends right).trans (logPageImage_same image').extends))))))
  obtain ⟨lo, hi⟩ := sibling (of_decide_eq_true some)
  have hi₈ := hi.trans_le ext.grows
  exact relinkSibling_fails adm neat₈ lo hi₈ ((sound.extends ext).readable next lo hi₈)

theorem splitLeaf_key {q : PageId} {sep : Bytes} {prev next : PageId} {recs : List (Bytes × Bytes)}
    (body : s.bodies pid = .leaf prev next recs) (run : splitLeaf pid txid s = .ok (q, sep) t) :
    sep = middleKey recs := by
  have body' : (s.view pid).body = .leaf prev next recs := body
  simp only [splitLeaf, bind_ok, getPage_run, setPage_run] at run
  obtain ⟨_, _, ⟨rfl, rfl⟩, new, s1, -, _, s2, -, _, s3, -, _, s4, -, _, s5, -, _, s6, -, _, s7, -,
    _, s8, -, _, s9, -, ret⟩ := run
  obtain ⟨eq, -⟩ := pure_ok.mp ret
  obtain ⟨-, rfl⟩ := Prod.mk.inj eq
  simp [Page.getKey, Page.keys, Page.numSlots, body', middleKey]

theorem insertSplit_fails {key value sep : Bytes} {wantBefore : Bool} {before : Option Bytes} {x : Link}
    {new prev next : PageId} {left right : List (Bytes × Bytes)} (adm : Admits E q ok)
    (halves : Halves s x new prev next sep left right)
    (asc : ((left ++ right).map Prod.fst).Pairwise (· < ·)) (absent : ∀ r ∈ left ++ right, r.1 ≠ key)
    (takes : ok → LeafTakes (if key < sep then left else right) key value) :
    FailsOnly E (insertSplit key value txid wantBefore before sep x.2 new) s := by
  rw [List.map_append, List.pairwise_append] at asc
  unfold insertSplit
  split
  · rename_i lt
    rw [if_pos lt] at takes
    exact edit_fails adm (fun fits => Page.insertLeaf_takes halves.leftBody asc.1
      (fun r mem => absent r (by simp [mem])) halves.leftAcc (takes fits)) fun t =>
      logKeyRecord_fails _ _ _ _ _ _
  · rename_i ge
    rw [if_neg ge] at takes
    exact edit_fails adm (fun fits => Page.insertLeaf_takes halves.rightBody asc.2.1
      (fun r mem => absent r (by simp [mem])) halves.rightAcc (takes fits)) fun t =>
      logKeyRecord_fails _ _ _ _ _ _

end

end PagerDB

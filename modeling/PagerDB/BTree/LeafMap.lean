import PagerDB.BTree.LeafRefines

/-! A leaf page is a sorted map bounded in bytes: over every sequence of mutator calls its slots
decode to an ascending list of records, and a call is refused only when the list, changed as the
call would change it, does not fit. -/
namespace PagerDB

open SortedLib

/-- Bytes that records and their slots take of a page. -/
def cost (recs : List (Bytes × Bytes)) : Nat :=
  (recs.map fun r => kSlotEntrySize + leafRecordBytes r).sum

def putRecord (key value : Bytes) (recs : List (Bytes × Bytes)) : List (Bytes × Bytes) :=
  recs.filter (·.1 < key) ++ (key, value) :: recs.filter (key < ·.1)

section Lists

variable {lo hi recs : List (Bytes × Bytes)} {key value old : Bytes}

theorem cost_append : cost (lo ++ hi) = cost lo + cost hi := by simp [cost]

theorem cost_cons {r : Bytes × Bytes} : cost (r :: recs) =
    kSlotEntrySize + leafRecordBytes r + cost recs := by
  simp [cost]

theorem cost_eq (recs : List (Bytes × Bytes)) :
    cost recs = recs.length * kSlotEntrySize + (recs.map leafRecordBytes).sum := by
  induction recs with
  | nil => rfl
  | cons r recs ih =>
    rw [cost_cons, ih, List.length_cons, List.map_cons, List.sum_cons]
    simp only [kSlotEntrySize]
    omega

theorem filter_cut (below : ∀ r ∈ lo, r.1 < key) (above : ∀ r ∈ hi, key < r.1) :
    (lo ++ hi).filter (·.1 < key) = lo ∧ (lo ++ hi).filter (key < ·.1) = hi := by
  have low : lo.filter (·.1 < key) = lo := List.filter_eq_self.mpr fun r mem => by simpa using below r mem
  have notLow : lo.filter (key < ·.1) = [] :=
    List.filter_eq_nil_iff.mpr fun r mem => by simpa using (below r mem).le
  have high : hi.filter (key < ·.1) = hi := List.filter_eq_self.mpr fun r mem => by simpa using above r mem
  have notHigh : hi.filter (·.1 < key) = [] :=
    List.filter_eq_nil_iff.mpr fun r mem => by simpa using (above r mem).le
  constructor
  · rw [List.filter_append, low, notHigh, List.append_nil]
  · rw [List.filter_append, notLow, high, List.nil_append]

theorem putRecord_absent (below : ∀ r ∈ lo, r.1 < key) (above : ∀ r ∈ hi, key < r.1) :
    putRecord key value (lo ++ hi) = lo ++ (key, value) :: hi := by
  obtain ⟨low, high⟩ := filter_cut below above
  rw [putRecord, low, high]

theorem putRecord_present (below : ∀ r ∈ lo, r.1 < key) (above : ∀ r ∈ hi, key < r.1) :
    putRecord key value (lo ++ (key, old) :: hi) = lo ++ (key, value) :: hi := by
  obtain ⟨low, high⟩ := filter_cut below above
  rw [List.filter_append] at low high
  simp [putRecord, -List.append_assoc, low, high]

theorem putRecord_ascending (asc : (recs.map Prod.fst).Pairwise (· < ·)) (key value : Bytes) :
    ((putRecord key value recs).map Prod.fst).Pairwise (· < ·) := by
  have low : ((recs.filter (·.1 < key)).map Prod.fst).Pairwise (· < ·) :=
    asc.sublist (List.Sublist.map _ List.filter_sublist)
  have high : ((recs.filter (key < ·.1)).map Prod.fst).Pairwise (· < ·) :=
    asc.sublist (List.Sublist.map _ List.filter_sublist)
  apply ascending_insert (r := (key, value))
  · rw [List.map_append, List.pairwise_append]
    refine ⟨low, high, ?_⟩
    simp only [List.mem_map, List.mem_filter, decide_eq_true_eq, forall_exists_index, and_imp]
    intro a r _ below rfl b r' _ above rfl
    exact below.trans above
  · intro r mem
    simpa using (List.mem_filter.mp mem).2
  · intro r mem
    simpa using (List.mem_filter.mp mem).2

theorem absent_cut (below : ∀ r ∈ lo, r.1 < key) (above : ∀ r ∈ hi, key < r.1) :
    key ∉ (lo ++ hi).map Prod.fst := by
  intro mem
  obtain ⟨r, mem', same⟩ := List.mem_map.mp mem
  rcases List.mem_append.mp mem' with left | right
  · exact (below r left).ne same
  · exact (above r right).ne' same

end Lists

namespace Page

variable {p p' : Page} {prev next : PageId} {recs : List (Bytes × Bytes)} {key value : Bytes}

theorem room_eq_cost (hb : p.body = .leaf prev next recs) : p.room = 4056 - cost recs := by
  rw [leaf_room hb, cost_eq]
  simp only [kPageSize, kPageHeaderSize]
  omega

theorem insertLeaf_iff (hb : p.body = .leaf prev next recs)
    (asc : (recs.map Prod.fst).Pairwise (· < ·)) (acc : p.Accounted) :
    (p.insertLeaf key value).1 = true ↔
      key ∉ recs.map Prod.fst ∧ cost recs + cost [(key, value)] ≤ 4056 := by
  have need : cost [(key, value)] = kSlotEntrySize + 4 + key.length + value.length := by
    rw [cost_cons]
    simp [cost, leafRecordBytes]
    omega
  have room := room_eq_cost hb
  rw [need]
  cases run : p.insertLeaf key value with
  | mk flag p' =>
    cases flag with
    | true =>
      have enough := insertLeaf_room hb asc acc run
      obtain ⟨lo, hi, rfl, below, above, -⟩ := insertLeaf_true hb asc run
      simp only [true_iff]
      constructor
      · exact absent_cut below above
      · simp only [kSlotEntrySize] at enough ⊢
        omega
    | false =>
      simp only [Bool.false_eq_true, false_iff, not_and, not_le]
      intro absent
      have tight := (insertLeaf_false hb asc
        (fun r mem same => absent (List.mem_map.mpr ⟨r, mem, same⟩)) acc run).2
      omega

theorem insertLeaf_recs (hb : p.body = .leaf prev next recs)
    (asc : (recs.map Prod.fst).Pairwise (· < ·)) : (p.insertLeaf key value).2.recs =
      if (p.insertLeaf key value).1 then putRecord key value recs else recs := by
  cases run : p.insertLeaf key value with
  | mk flag p' =>
    cases flag with
    | true =>
      obtain ⟨lo, hi, rfl, below, above, body, -⟩ := insertLeaf_true hb asc run
      simp only [if_true, Page.recs, body, putRecord_absent below above]
    | false =>
      have body := p.ensureFit_body (kSlotEntrySize + 4 + key.length + value.length)
      rw [← insertLeaf_refused hb run] at body
      simp [Page.recs, body, hb]

theorem updateLeaf_iff (hb : p.body = .leaf prev next recs)
    (asc : (recs.map Prod.fst).Pairwise (· < ·)) (acc : p.Accounted) :
    (p.updateLeaf key value).1 = true ↔
      key ∈ recs.map Prod.fst ∧ cost (putRecord key value recs) ≤ 4056 := by
  have room := room_eq_cost hb
  obtain ⟨total, le⟩ := acc
  have start : p.freeSpaceStart = kPageHeaderSize + recs.length * kSlotEntrySize := by
    rw [freeSpaceStart, leaf_numSlots hb]
  rw [leaf_liveBytes hb] at total
  have whole := cost_eq recs
  rcases findKeyIndex_leaf_cases hb asc key with
    ⟨lo, old, hi, rfl, below, above, find⟩ | ⟨lo, hi, rfl, below, above, find⟩
  · have get : (lo ++ (key, old) :: hi).getD lo.length ([], []) = (key, old) := by simp
    have here : key ∈ (lo ++ (key, old) :: hi).map Prod.fst := by simp
    have change : cost (putRecord key value (lo ++ (key, old) :: hi)) + leafRecordBytes (key, old) =
        cost (lo ++ (key, old) :: hi) + leafRecordBytes (key, value) := by
      rw [putRecord_present below above, cost_append, cost_append, cost_cons, cost_cons]
      omega
    simp only [updateLeaf, hb, find, if_true, get, here, true_and]
    unfold freeSpace
    simp only [kPageSize, kPageHeaderSize, kSlotEntrySize] at *
    split
    · simp only [true_iff]
      omega
    · split
      · split
        · simp only [Bool.false_eq_true, false_iff]
          omega
        · simp only [true_iff]
          omega
      · simp only [true_iff]
        omega
  · have absent := absent_cut below above
    simp only [updateLeaf, hb, find, absent, false_and, iff_false]
    exact Bool.false_ne_true

theorem updateLeaf_recs (hb : p.body = .leaf prev next recs)
    (asc : (recs.map Prod.fst).Pairwise (· < ·)) : (p.updateLeaf key value).2.recs =
      if (p.updateLeaf key value).1 then putRecord key value recs else recs := by
  cases run : p.updateLeaf key value with
  | mk flag p' =>
    cases flag with
    | true =>
      obtain ⟨lo, old, hi, rfl, below, above, body, -⟩ := updateLeaf_true hb asc run
      simp only [if_true, Page.recs, body, putRecord_present below above]
    | false =>
      rw [updateLeaf_false run]
      simp [Page.recs, hb]

theorem deleteAt_recs (hb : p.body = .leaf prev next recs) (i : Nat) :
    (p.deleteAt i).1 = decide (i < recs.length) ∧ (p.deleteAt i).2.recs = recs.eraseIdx i := by
  by_cases h : i < recs.length
  · have refuse : ¬ recs.length ≤ i := by omega
    simp [deleteAt, hb, refuse, Page.recs, h]
  · have refuse : recs.length ≤ i := by omega
    simp [deleteAt, hb, refuse, Page.recs, List.eraseIdx_of_length_le refuse]

end Page

namespace Slotted

open MachineLib MemoryLib LittleEndian

def decoded (m : Memory) : List (Bytes × Bytes) :=
  (List.range (numSlots m)).map fun i => (getKey m i, getValueAt m i)

/-- The page is this ascending list of records, for every way of reading it. -/
structure LeafMap (m : Memory) : Prop where
  sorted : ((decoded m).map Prod.fst).Pairwise (· < ·)
  bytes : ∀ i : Nat, getRecord m i = (decoded m)[i]?.map fun r => encodeLeafRecord r.1 r.2
  getKey : ∀ i, getKey m i = ((decoded m).map Prod.fst).getD i []
  findKeyIndex : ∀ key, findKeyIndex m key =
    (rank ((decoded m).map Prod.fst) key, decide (key ∈ (decoded m).map Prod.fst))
  getValue : ∀ key, getValue m key = (decoded m).lookup key

structure Outcome (m : Memory) (out : Bool × Memory) (accepts : Prop) (recs : List (Bytes × Bytes)) :
    Prop where
  accepted : out.1 = true ↔ accepts
  success : out.1 = true → decoded out.2 = recs
  failure : out.1 = false → decoded out.2 = decoded m
  map : LeafMap out.2

/-- The page as a map bounded by 4056 bytes of records and slots, and what each mutator does to it. -/
structure BoundedMap (m : Memory) : Prop extends LeafMap m where
  bounded : cost (decoded m) ≤ 4056
  insertLeaf : ∀ key value, Fits (key, value) → Outcome m (insertLeaf m key value)
    (key ∉ (decoded m).map Prod.fst ∧ cost (decoded m) + cost [(key, value)] ≤ 4056)
    (putRecord key value (decoded m))
  updateLeaf : ∀ key value, Fits (key, value) → Outcome m (updateLeaf m key value)
    (key ∈ (decoded m).map Prod.fst ∧ cost (putRecord key value (decoded m)) ≤ 4056)
    (putRecord key value (decoded m))
  updateKeeps : ∀ key value, Fits (key, value) →
    (Slotted.updateLeaf m key value).1 = false → (Slotted.updateLeaf m key value).2 = m
  deleteAt : ∀ i, Outcome m (deleteAt m i) (i < (decoded m).length) ((decoded m).eraseIdx i)

inductive LeafCall where
  | insertLeaf (key value : Bytes) (size : Fits (key, value))
  | updateLeaf (key value : Bytes) (size : Fits (key, value))
  | deleteAt (index : Nat)

def LeafCall.run (m : Memory) : LeafCall → Memory
  | insertLeaf key value _ => (Slotted.insertLeaf m key value).2
  | updateLeaf key value _ => (Slotted.updateLeaf m key value).2
  | deleteAt index => (Slotted.deleteAt m index).2

def leafStep (m : Memory) (call : LeafCall) : Option Memory := some (call.run m)

/-- The invariant: the page refines an ascending leaf of the node model. -/
def Ascending (m : Memory) (p : Page) : Prop :=
  Refines m p ∧ (p.recs.map Prod.fst).Pairwise (· < ·)

variable {m : Memory} {p : Page} {key value : Bytes}

theorem Refines.decoded (ref : Refines m p) : decoded m = p.recs := by
  apply List.ext_getElem
  · simp [Slotted.decoded, ref.holds.count]
  · intro i h h'
    simp only [Slotted.decoded, List.getElem_map, List.getElem_range]
    rw [ref.holds.getKey h', ref.holds.getValueAt h']

theorem Refines.accounted (ref : Refines m p) : p.Accounted := by
  rw [← ref.eq]
  exact ref.holds.accounted

theorem Ascending.leafMap (inv : Ascending m p) : LeafMap m := by
  obtain ⟨ref, asc⟩ := inv
  have holds := ref.holds
  have list := ref.decoded
  constructor
  · rw [list]
    exact asc
  · intro i
    rw [list]
    unfold getRecord
    by_cases h : i < p.recs.length
    · obtain ⟨valid, length, spells, -⟩ := holds.stored i h
      have lt : i < numSlots m := by rw [holds.count]; exact h
      rw [if_pos ⟨lt, valid⟩, length, spells, List.getElem?_eq_getElem h]
      rfl
    · rw [if_neg (by rw [holds.count]; exact fun both => h both.1), List.getElem?_eq_none (by omega)]
      rfl
  · intro i
    rw [list]
    by_cases h : i < p.recs.length
    · simp [holds.getKey h, h]
    · simp [Slotted.getKey, holds.count, h]
  · intro key
    rw [list, holds.findKeyIndex key]
    rcases Page.findKeyIndex_leaf_cases (p := page m p.recs) rfl asc key with
      ⟨lo, old, hi, eq, below, above, found⟩ | ⟨lo, hi, eq, below, above, found⟩
    · rw [found, eq, List.map_append, rank_append_left]
      · simp
      · simpa using fun k v mem => below (k, v) mem
      · simpa using fun k v mem => (above (k, v) mem).le
    · have absent := absent_cut below above
      rw [found, eq]
      simp only [absent, decide_false, Prod.mk.injEq, and_true]
      rw [List.map_append, rank_append_left]
      · simp
      · simpa using fun k v mem => below (k, v) mem
      · simpa using fun k v mem => (above (k, v) mem).le
  · intro key
    rw [list]
    exact holds.getValue asc key

theorem Ascending.outcome (inv : Ascending m p) {out : Bool × Memory} {out' : Bool × Page} {accepts : Prop}
    {recs : List (Bytes × Bytes)} (call : out.1 = out'.1 ∧ Refines out.2 out'.2)
    (iff : out'.1 = true ↔ accepts) (list : out'.2.recs = if out'.1 then recs else p.recs)
    (asc : (recs.map Prod.fst).Pairwise (· < ·)) : Ascending out.2 out'.2 ∧ Outcome m out accepts recs := by
  obtain ⟨flag, ref⟩ := call
  have after : Ascending out.2 out'.2 := by
    refine ⟨ref, ?_⟩
    rw [list]
    split
    · exact asc
    · exact inv.2
  refine ⟨after, ?_, ?_, ?_, after.leafMap⟩
  · rw [flag]
    exact iff
  · intro yes
    rw [flag] at yes
    rw [ref.decoded, list, if_pos yes]
  · intro no
    rw [flag] at no
    rw [ref.decoded, list, no, inv.1.decoded]
    rfl

theorem Ascending.insertLeaf (inv : Ascending m p) (fits : Fits (key, value)) :
    Ascending (insertLeaf m key value).2 (p.insertLeaf key value).2 ∧
      Outcome m (Slotted.insertLeaf m key value)
        (key ∉ (decoded m).map Prod.fst ∧ cost (decoded m) + cost [(key, value)] ≤ 4056)
        (putRecord key value (decoded m)) := by
  obtain ⟨ref, asc⟩ := inv
  rw [ref.decoded]
  exact Ascending.outcome ⟨ref, asc⟩ (insertLeaf_refines ref asc fits)
    (Page.insertLeaf_iff ref.body asc ref.accounted) (Page.insertLeaf_recs ref.body asc)
    (putRecord_ascending asc key value)

theorem Ascending.updateLeaf (inv : Ascending m p) (fits : Fits (key, value)) :
    Ascending (updateLeaf m key value).2 (p.updateLeaf key value).2 ∧
      Outcome m (Slotted.updateLeaf m key value)
        (key ∈ (decoded m).map Prod.fst ∧ cost (putRecord key value (decoded m)) ≤ 4056)
        (putRecord key value (decoded m)) := by
  obtain ⟨ref, asc⟩ := inv
  rw [ref.decoded]
  exact Ascending.outcome ⟨ref, asc⟩ (updateLeaf_refines ref asc fits)
    (Page.updateLeaf_iff ref.body asc ref.accounted) (Page.updateLeaf_recs ref.body asc)
    (putRecord_ascending asc key value)

theorem Ascending.deleteAt (inv : Ascending m p) (i : Nat) :
    Ascending (deleteAt m i).2 (p.deleteAt i).2 ∧
      Outcome m (Slotted.deleteAt m i) (i < (decoded m).length) ((decoded m).eraseIdx i) := by
  obtain ⟨ref, asc⟩ := inv
  rw [ref.decoded]
  obtain ⟨flag, list⟩ := Page.deleteAt_recs ref.body i
  refine Ascending.outcome ⟨ref, asc⟩ (deleteAt_refines ref i) ?_ ?_ ?_
  · rw [flag, decide_eq_true_eq]
  · rw [list, flag]
    split
    · rfl
    · rename_i out
      exact List.eraseIdx_of_length_le (by simpa using out)
  · exact asc.sublist (List.Sublist.map _ (List.eraseIdx_sublist _ _))

theorem updateLeaf_keeps (refused : (updateLeaf m key value).1 = false) :
    (updateLeaf m key value).2 = m := by
  unfold updateLeaf at refused ⊢
  split
  · rename_i leaf
    rw [if_pos leaf] at refused
    dsimp only at refused ⊢
    split
    · rename_i found
      rw [if_pos found] at refused
      split
      · rename_i shorter
        rw [if_pos shorter] at refused
        split at refused <;> contradiction
      · rename_i longer
        rw [if_neg longer] at refused
        split
        · rename_i tight
          rw [if_pos tight] at refused
          split
          · rfl
          · rename_i enough
            rw [if_neg enough] at refused
            contradiction
        · rename_i roomy
          rw [if_neg roomy] at refused
          contradiction
    · rfl
  · rfl

theorem Ascending.bounded (inv : Ascending m p) : cost (decoded m) ≤ 4056 := by
  obtain ⟨ref, -⟩ := inv
  obtain ⟨total, le⟩ := ref.accounted
  rw [Page.leaf_liveBytes ref.body] at total
  rw [Page.freeSpaceStart, Page.leaf_numSlots ref.body] at le
  rw [ref.decoded, cost_eq]
  simp only [kPageSize, kPageHeaderSize] at total le
  omega

theorem Ascending.boundedMap (inv : Ascending m p) : BoundedMap m := by
  constructor
  · exact inv.leafMap
  · exact inv.bounded
  · exact fun key value fits => (inv.insertLeaf fits).2
  · exact fun key value fits => (inv.updateLeaf fits).2
  · exact fun key value _ => updateLeaf_keeps
  · exact fun i => (inv.deleteAt i).2

theorem initLeaf_ascending (id : PageId) (type : PageType) :
    ∃ p, Ascending (initLeaf (init id type)) p := by
  have holds : Holds (initLeaf (init id type)) [] :=
    ⟨wf_of_empty rfl rfl rfl rfl, rfl, rfl, fun i h => absurd h (by simp)⟩
  exact ⟨page _ [], refines_page holds, List.Pairwise.nil⟩

/-- Over every sequence of mutator calls, whatever becomes of each of them. -/
theorem leaf_page_is_bounded_map (id : PageId) (type : PageType) (calls : List LeafCall) :
    EveryState leafStep BoundedMap (initLeaf (init id type)) calls := by
  have inv : EveryState leafStep (fun m => ∃ p, Ascending m p) (initLeaf (init id type)) calls := by
    refine everyState_invariant ?_ (initLeaf_ascending id type)
    rintro m call m' ⟨p, inv⟩ next
    obtain rfl := Option.some.inj next
    cases call with
    | insertLeaf key value fits => exact ⟨_, (inv.insertLeaf fits).1⟩
    | updateLeaf key value fits => exact ⟨_, (inv.updateLeaf fits).1⟩
    | deleteAt i => exact ⟨_, (inv.deleteAt i).1⟩
  exact inv.imp fun m ⟨_, inv⟩ => inv.boundedMap

end Slotted

end PagerDB

import PagerDB.BTree.Node
import PagerDB.Lib.Sorted

/-! What the node operations do to a page whose keys are strictly ascending, stated
on the list of records cut at the key. -/
namespace PagerDB

open SortedLib

/-- `lo` lies below the key, `hi` at or above it. -/
structure CutAt (keys lo hi : List Bytes) (key : Bytes) : Prop where
  eq : keys = lo ++ hi
  below : ∀ x ∈ lo, x < key
  above : ∀ x ∈ hi, key ≤ x

namespace CutAt

variable {keys lo hi : List Bytes} {key : Bytes}

theorem getElem_lt (cut : CutAt keys lo hi key) {i : Nat} (h : i < keys.length) :
    keys[i] < key ↔ i < lo.length := by
  have len := congrArg List.length cut.eq
  simp only [List.length_append] at len
  by_cases hi' : i < lo.length
  · have get : keys[i] = lo[i] := by simp only [cut.eq, List.getElem_append_left hi']
    simp only [get, hi', iff_true]
    exact cut.below _ (List.getElem_mem hi')
  · have hlen : i - lo.length < hi.length := by omega
    have get : keys[i] = hi[i - lo.length] := by
      simp only [cut.eq, List.getElem_append_right (not_lt.mp hi')]
    simp only [get, hi', iff_false, not_lt]
    exact cut.above _ (List.getElem_mem hlen)

theorem getElem_first (cut : CutAt keys lo hi key) (h : lo.length < keys.length) :
    keys[lo.length] = key ↔ hi.head? = some key := by
  cases hi with
  | nil => simp [cut.eq] at h
  | cons a hi => simp [cut.eq]

theorem getElem_eq (cut : CutAt keys lo hi key) (asc : keys.Pairwise (· < ·)) {i : Nat}
    (h : i < keys.length) : key = keys[i] ↔ i = lo.length ∧ hi.head? = some key := by
  constructor
  · intro e
    have notBelow : ¬ i < lo.length := fun hlt => by
      have := (cut.getElem_lt h).mpr hlt
      exact absurd (e ▸ this) (lt_irrefl _)
    have notAbove : ¬ lo.length < i := fun hlt => by
      have h' : lo.length < keys.length := by omega
      have lt := List.pairwise_iff_getElem.mp asc lo.length i h' h hlt
      have := (cut.getElem_lt h').mp (e ▸ lt)
      omega
    obtain rfl : i = lo.length := by omega
    exact ⟨rfl, (cut.getElem_first h).mp e.symm⟩
  · rintro ⟨rfl, e⟩
    exact ((cut.getElem_first h).mpr e).symm

end CutAt

theorem searchLoop_spec {keys lo hi : List Bytes} {key : Bytes} (cut : CutAt keys lo hi key)
    (asc : keys.Pairwise (· < ·)) (fuel left right : Nat) (enough : right - left ≤ fuel)
    (hl : left ≤ lo.length) (hr : lo.length ≤ right) (inside : right ≤ keys.length)
    (seen : hi.head? = some key → lo.length < right) :
    searchLoop keys key fuel left right = (lo.length, decide (hi.head? = some key)) := by
  have stop (left right : Nat) (h : ¬ left < right) (hl : left ≤ lo.length)
      (hr : lo.length ≤ right) (seen : hi.head? = some key → lo.length < right) :
      (left, false) = (lo.length, decide (hi.head? = some key)) := by
    have absent : hi.head? ≠ some key := fun h' => by have := seen h'; omega
    simp only [absent, decide_false, Prod.mk.injEq, and_true]
    omega
  induction fuel generalizing left right with
  | zero => exact stop left right (by omega) hl hr seen
  | succ fuel ih =>
    unfold searchLoop
    split
    · rename_i h
      have hmid : left + (right - left) / 2 < keys.length := by omega
      have get : keys.getD (left + (right - left) / 2) [] = keys[left + (right - left) / 2] := by
        simp [List.getD, hmid]
      have split := cut.getElem_lt hmid
      simp only [get, cut.getElem_eq asc hmid]
      split
      · rename_i e
        simp only [e.2, decide_true, ← e.1]
      · split
        · rename_i e lt
          have := mt split.mpr (lt_asymm lt)
          refine ih left _ (by omega) hl (by omega) (by omega) fun h' => ?_
          rcases Nat.lt_or_ge lo.length (left + (right - left) / 2) with g | g
          · exact g
          · exact absurd ⟨by omega, h'⟩ e
        · rename_i e lt
          have hlt : keys[left + (right - left) / 2] < key :=
            lt_of_le_of_ne (not_lt.mp lt) fun e' => e ((cut.getElem_eq asc hmid).mp e'.symm)
          have := split.mp hlt
          exact ih _ right (by omega) (by omega) hr inside seen
    · rename_i h
      exact stop left right h hl hr seen

namespace Page

@[simp] theorem keys_length (p : Page) : p.keys.length = p.numSlots := by
  cases h : p.body <;> simp [keys, numSlots, h]

theorem findKeyIndex_cut (p : Page) {lo hi : List Bytes} {key : Bytes}
    (cut : CutAt p.keys lo hi key) (asc : p.keys.Pairwise (· < ·)) :
    p.findKeyIndex key = (lo.length, decide (hi.head? = some key)) := by
  have len := p.keys_length
  have split := congrArg List.length cut.eq
  simp only [List.length_append] at split
  refine searchLoop_spec cut asc _ 0 _ (by omega) (by omega) (by omega) (by omega) fun h => ?_
  cases hi with
  | nil => cases h
  | cons a hi =>
    simp only [List.length_cons] at split
    omega

/- Leaves. -/

section Leaf

variable {p p' : Page} {prev next : PageId} {recs lo hi : List (Bytes × Bytes)} {key value : Bytes}

theorem findKeyIndex_leaf (hb : p.body = .leaf prev next (lo ++ hi))
    (asc : ((lo ++ hi).map Prod.fst).Pairwise (· < ·)) (below : ∀ r ∈ lo, r.1 < key)
    (above : ∀ r ∈ hi, key ≤ r.1) :
    p.findKeyIndex key = (lo.length, decide (hi.head?.map Prod.fst = some key)) := by
  have hk : p.keys = (lo ++ hi).map Prod.fst := by simp [keys, hb]
  have cut : CutAt p.keys (lo.map Prod.fst) (hi.map Prod.fst) key :=
    ⟨by rw [hk, List.map_append], by simpa using fun k v => below (k, v),
      by simpa using fun k v => above (k, v)⟩
  rw [p.findKeyIndex_cut cut (hk ▸ asc), List.length_map, List.head?_map]

theorem findKeyIndex_leaf_cases (hb : p.body = .leaf prev next recs)
    (asc : (recs.map Prod.fst).Pairwise (· < ·)) (key : Bytes) :
    (∃ lo old hi, recs = lo ++ (key, old) :: hi ∧ (∀ r ∈ lo, r.1 < key) ∧
      (∀ r ∈ hi, key < r.1) ∧ p.findKeyIndex key = (lo.length, true)) ∨
    (∃ lo hi, recs = lo ++ hi ∧ (∀ r ∈ lo, r.1 < key) ∧
      (∀ r ∈ hi, key < r.1) ∧ p.findKeyIndex key = (lo.length, false)) := by
  obtain ⟨lo, hi, rfl, below, above⟩ := ascending_cut asc key
  have find := findKeyIndex_leaf hb asc below above
  cases hi with
  | nil => exact .inr ⟨lo, [], rfl, below, by simp, by simpa using find⟩
  | cons r hi =>
    simp only [List.map_append, List.map_cons, List.pairwise_append, List.pairwise_cons] at asc
    have rest : ∀ x ∈ hi, r.1 < x.1 := fun x hx => asc.2.1.1 _ (List.mem_map_of_mem hx)
    obtain ⟨k, v⟩ := r
    by_cases h : k = key
    · subst h
      exact .inl ⟨lo, v, hi, rfl, below, rest, by simpa using find⟩
    · have lt : key < k := lt_of_le_of_ne (above (k, v) (by simp)) (Ne.symm h)
      refine .inr ⟨lo, (k, v) :: hi, rfl, below, ?_, by simpa [h] using find⟩
      intro x hx
      rcases List.mem_cons.mp hx with rfl | hx
      · exact lt
      · exact lt.trans (rest x hx)

theorem lookup_cut (below : ∀ r ∈ lo, r.1 < key) (k : Bytes) :
    (lo ++ (key, value) :: hi).lookup k = if k = key then some value else (lo ++ hi).lookup k := by
  induction lo with
  | nil =>
    by_cases h : k = key
    · simp [h]
    · simp [List.lookup_cons, h, beq_eq_false_iff_ne.mpr h]
  | cons r lo ih =>
    obtain ⟨a, v⟩ := r
    have lt : a < key := below (a, v) (by simp)
    have tail := ih fun r hr => below r (by simp [hr])
    by_cases h : k = a
    · subst h
      simp [lt.ne]
    · simp [List.lookup_cons, beq_eq_false_iff_ne.mpr h, tail]

theorem lookup_absent (below : ∀ r ∈ lo, r.1 < key) (above : ∀ r ∈ hi, key < r.1) :
    (lo ++ hi).lookup key = none := by
  rw [List.lookup_eq_none_iff]
  intro r hr
  rcases List.mem_append.mp hr with hr | hr
  · simpa using (below r hr).ne'
  · simpa using (above r hr).ne

theorem getValue_leaf (hb : p.body = .leaf prev next recs)
    (asc : (recs.map Prod.fst).Pairwise (· < ·)) : p.getValue key = recs.lookup key := by
  rcases findKeyIndex_leaf_cases hb asc key with
    ⟨lo, old, hi, rfl, below, above, find⟩ | ⟨lo, hi, rfl, below, above, find⟩
  · simp [getValue, isLeaf, hb, find, getValueAt, Page.recs, lookup_cut below]
  · simp [getValue, isLeaf, hb, find, lookup_absent below above]

end Leaf

/- Space. -/

/-- Free bytes once the dead ones are reclaimed. -/
def room (p : Page) : Nat := kPageSize - p.freeSpaceStart - p.liveBytes

theorem Accounted.room {p : Page} (acc : p.Accounted) : p.freeSpace + p.deadBytes = p.room := by
  obtain ⟨total, le⟩ := acc
  unfold freeSpace Page.room
  omega

theorem compact_accounted {p : Page} (acc : p.Accounted) : p.compact.Accounted := by
  obtain ⟨total, le⟩ := acc
  refine ⟨?_, ?_⟩
  · change kPageSize - p.liveBytes + 0 + p.liveBytes = kPageSize
    omega
  · change p.freeSpaceStart ≤ kPageSize - p.liveBytes
    omega

theorem ensureFit_page (p : Page) (needed : Nat) :
    (p.ensureFit needed).2 = p ∨ (p.ensureFit needed).2 = p.compact := by
  unfold ensureFit
  split
  · exact .inl rfl
  · split
    · exact .inr rfl
    · exact .inl rfl

theorem ensureFit_body (p : Page) (needed : Nat) : (p.ensureFit needed).2.body = p.body := by
  rcases p.ensureFit_page needed with h | h <;> rw [h]
  rfl

theorem ensureFit_header (p : Page) (needed : Nat) :
    (p.ensureFit needed).2.pageId = p.pageId ∧ (p.ensureFit needed).2.pageLsn = p.pageLsn := by
  rcases p.ensureFit_page needed with h | h <;> rw [h] <;> exact ⟨rfl, rfl⟩

theorem ensureFit_accounted {p : Page} (needed : Nat) (acc : p.Accounted) :
    (p.ensureFit needed).2.Accounted := by
  rcases p.ensureFit_page needed with h | h <;> rw [h]
  · exact acc
  · exact compact_accounted acc

theorem ensureFit_true {p : Page} {needed : Nat} (h : (p.ensureFit needed).1 = true) :
    needed ≤ (p.ensureFit needed).2.freeSpace := by
  unfold ensureFit at h ⊢
  split
  · assumption
  · rename_i h1
    rw [if_neg h1] at h
    split
    · rename_i h2
      simpa [if_pos h2] using h
    · rename_i h2
      simp [if_neg h2] at h

theorem ensureFit_false {p : Page} {needed : Nat} (acc : p.Accounted)
    (h : (p.ensureFit needed).1 = false) :
    (p.ensureFit needed).2 = p ∧ p.room < needed := by
  have hr := acc.room
  unfold ensureFit at h ⊢
  split
  · rename_i h1
    simp [if_pos h1] at h
  · rename_i h1
    rw [if_neg h1] at h
    split
    · rename_i h2
      rw [if_pos h2] at h
      have : p.compact.freeSpace = p.room := by
        change kPageSize - p.liveBytes - p.freeSpaceStart = kPageSize - p.freeSpaceStart - p.liveBytes
        omega
      simp only [this, decide_eq_false_iff_not] at h
      omega
    · exact ⟨rfl, by omega⟩

section Mutators

variable {p p' : Page} {prev next : PageId} {recs lo hi : List (Bytes × Bytes)}
  {key value old : Bytes}

theorem leaf_isLeaf (hb : p.body = .leaf prev next recs) : p.isLeaf = true := by
  simp [isLeaf, hb]

theorem leaf_numSlots (hb : p.body = .leaf prev next recs) : p.numSlots = recs.length := by
  simp [numSlots, hb]

theorem leaf_liveBytes (hb : p.body = .leaf prev next recs) :
    p.liveBytes = (recs.map leafRecordBytes).sum := by
  simp [liveBytes, hb]

theorem insertRecordAt_true {r : Bytes × Bytes} (hb : p.body = .leaf prev next (lo ++ hi))
    (h : p.insertRecordAt lo.length r = (true, p')) :
    p' = { p with
      freeSpaceEnd := p.freeSpaceEnd - leafRecordBytes r
      body := .leaf prev next (lo ++ r :: hi) } ∧
    kSlotEntrySize + leafRecordBytes r ≤ p.freeSpace := by
  simp only [insertRecordAt, hb, insertIdx_cut, List.length_append] at h
  rw [if_neg (by omega)] at h
  split at h
  · rename_i fits
    simp only [Prod.mk.injEq, true_and] at h
    exact ⟨h.symm, by simpa [canFit] using fits⟩
  · simp at h

theorem insert_accounted {q : Page} {r : Bytes × Bytes} (hb : q.body = .leaf prev next (lo ++ hi))
    (fits : kSlotEntrySize + leafRecordBytes r ≤ q.freeSpace) (acc : q.Accounted) :
    Accounted { q with
      freeSpaceEnd := q.freeSpaceEnd - leafRecordBytes r
      body := .leaf prev next (lo ++ r :: hi) } := by
  obtain ⟨total, le⟩ := acc
  simp only [freeSpace, freeSpaceStart, leaf_numSlots hb, leaf_liveBytes hb, List.map_append,
    List.sum_append, List.length_append] at fits total le
  simp only [Accounted, freeSpaceStart, numSlots, liveBytes, List.map_append, List.map_cons,
    List.sum_append, List.sum_cons, List.length_append, List.length_cons]
  simp only [kSlotEntrySize, kPageHeaderSize, kPageSize] at *
  omega

theorem insertLeaf_true (hb : p.body = .leaf prev next recs)
    (asc : (recs.map Prod.fst).Pairwise (· < ·)) (h : p.insertLeaf key value = (true, p')) :
    ∃ lo hi, recs = lo ++ hi ∧ (∀ r ∈ lo, r.1 < key) ∧ (∀ r ∈ hi, key < r.1) ∧
      p'.body = .leaf prev next (lo ++ (key, value) :: hi) ∧ p'.pageId = p.pageId ∧
      p'.pageLsn = p.pageLsn ∧ (p.Accounted → p'.Accounted) := by
  have header := p.ensureFit_header (kSlotEntrySize + 4 + key.length + value.length)
  have body := p.ensureFit_body (kSlotEntrySize + 4 + key.length + value.length)
  have account := @ensureFit_accounted p (kSlotEntrySize + 4 + key.length + value.length)
  simp only [insertLeaf, leaf_isLeaf hb, if_true] at h
  generalize p.ensureFit (kSlotEntrySize + 4 + key.length + value.length) = fit at *
  obtain ⟨fits, q⟩ := fit
  have qb : q.body = .leaf prev next recs := body.trans hb
  cases fits with
  | false => simp at h
  | true =>
    simp only [if_true] at h
    rcases findKeyIndex_leaf_cases qb asc key with
      ⟨lo, old, hi, rfl, below, above, find⟩ | ⟨lo, hi, rfl, below, above, find⟩
    · simp [find] at h
    · simp only [find, Bool.false_eq_true, if_false] at h
      obtain ⟨rfl, room⟩ := insertRecordAt_true qb h
      exact ⟨lo, hi, rfl, below, above, rfl, header.1, header.2,
        fun acc => insert_accounted qb room (account acc)⟩

theorem leaf_room (hb : p.body = .leaf prev next recs) : p.room =
    kPageSize - (kPageHeaderSize + recs.length * kSlotEntrySize) - (recs.map leafRecordBytes).sum := by
  rw [room, freeSpaceStart, leaf_numSlots hb, leaf_liveBytes hb]

theorem insertLeaf_room (hb : p.body = .leaf prev next recs)
    (asc : (recs.map Prod.fst).Pairwise (· < ·)) (acc : p.Accounted)
    (h : p.insertLeaf key value = (true, p')) :
    kSlotEntrySize + 4 + key.length + value.length ≤ p.room := by
  obtain ⟨lo, hi, rfl, -, -, body, -, -, account⟩ := insertLeaf_true hb asc h
  obtain ⟨total, le⟩ := account acc
  rw [leaf_room hb]
  simp only [freeSpaceStart, leaf_numSlots body, leaf_liveBytes body, List.map_append, List.map_cons,
    List.sum_append, List.sum_cons, List.length_append, List.length_cons, leafRecordBytes] at total le ⊢
  simp only [kSlotEntrySize, kPageHeaderSize, kPageSize] at *
  omega

theorem insertLeaf_refused (hb : p.body = .leaf prev next recs)
    (h : p.insertLeaf key value = (false, p')) :
    p' = (p.ensureFit (kSlotEntrySize + 4 + key.length + value.length)).2 := by
  simp only [insertLeaf, leaf_isLeaf hb, if_true] at h
  generalize p.ensureFit (kSlotEntrySize + 4 + key.length + value.length) = fit at *
  split at h
  · split at h
    · cases h
      rfl
    · unfold insertRecordAt at h
      split at h
      · split at h
        · cases h
          rfl
        · split at h
          · cases h
          · cases h
            rfl
      · cases h
        rfl
  · cases h
    rfl

theorem insertLeaf_false (hb : p.body = .leaf prev next recs)
    (asc : (recs.map Prod.fst).Pairwise (· < ·)) (absent : ∀ r ∈ recs, r.1 ≠ key)
    (acc : p.Accounted) (h : p.insertLeaf key value = (false, p')) :
    p' = p ∧ p.room < kSlotEntrySize + 4 + key.length + value.length := by
  have body := p.ensureFit_body (kSlotEntrySize + 4 + key.length + value.length)
  have yes := @ensureFit_true p (kSlotEntrySize + 4 + key.length + value.length)
  have no := @ensureFit_false p (kSlotEntrySize + 4 + key.length + value.length) acc
  simp only [insertLeaf, leaf_isLeaf hb, if_true] at h
  generalize p.ensureFit (kSlotEntrySize + 4 + key.length + value.length) = fit at *
  obtain ⟨fits, q⟩ := fit
  have qb : q.body = .leaf prev next recs := body.trans hb
  cases fits with
  | false =>
    obtain ⟨rfl, room⟩ := no rfl
    simp only [Bool.false_eq_true, if_false, Prod.mk.injEq, true_and] at h
    exact ⟨h.symm, room⟩
  | true =>
    simp only [if_true] at h
    rcases findKeyIndex_leaf_cases qb asc key with
      ⟨lo, old, hi, rfl, below, above, find⟩ | ⟨lo, hi, rfl, below, above, find⟩
    · exact absurd rfl (absent (key, old) (by simp))
    · have room : kSlotEntrySize + 4 + key.length + value.length ≤ q.freeSpace := yes rfl
      simp only [find, Bool.false_eq_true, if_false, insertRecordAt, qb, List.length_append] at h
      rw [if_neg (by omega), if_pos] at h
      · simp at h
      · exact decide_eq_true (by simp only [leafRecordBytes]; omega)

theorem updateLeaf_true (hb : p.body = .leaf prev next recs)
    (asc : (recs.map Prod.fst).Pairwise (· < ·)) (h : p.updateLeaf key value = (true, p')) :
    ∃ lo old hi, recs = lo ++ (key, old) :: hi ∧ (∀ r ∈ lo, r.1 < key) ∧ (∀ r ∈ hi, key < r.1) ∧
      p'.body = .leaf prev next (lo ++ (key, value) :: hi) ∧ p'.pageId = p.pageId ∧
      p'.pageLsn = p.pageLsn ∧ (p.Accounted → p'.Accounted) := by
  rcases findKeyIndex_leaf_cases hb asc key with
    ⟨lo, old, hi, rfl, below, above, find⟩ | ⟨lo, hi, rfl, below, above, find⟩
  · refine ⟨lo, old, hi, rfl, below, above, ?_⟩
    have get : (lo ++ (key, old) :: hi).getD lo.length ([], []) = (key, old) := by simp
    simp only [updateLeaf, hb, find, if_true, get, set_cut] at h
    have len : (lo ++ (key, value) :: hi).length = (lo ++ (key, old) :: hi).length := by simp
    -- all three placements keep every byte accounted for
    split at h
    · rename_i shrink
      simp only [Prod.mk.injEq, true_and] at h
      subst h
      refine ⟨rfl, rfl, rfl, fun acc => ?_⟩
      obtain ⟨total, le⟩ := acc
      simp only [freeSpaceStart, leaf_numSlots hb, leaf_liveBytes hb, List.map_append, List.map_cons,
        List.sum_append, List.sum_cons] at total le
      simp only [Accounted, freeSpaceStart, numSlots, liveBytes, len, List.map_append,
        List.map_cons, List.sum_append, List.sum_cons]
      exact ⟨by omega, le⟩
    · rename_i grow
      split at h
      · rename_i tight
        split at h
        · simp at h
        · rename_i fits
          simp only [Prod.mk.injEq, true_and] at h
          subst h
          refine ⟨rfl, rfl, rfl, fun acc => ?_⟩
          obtain ⟨total, le⟩ := acc
          simp only [freeSpace, freeSpaceStart, leaf_numSlots hb, leaf_liveBytes hb, List.map_append,
            List.map_cons, List.sum_append, List.sum_cons] at total le fits tight
          simp only [Accounted, freeSpaceStart, numSlots, liveBytes, len, hb, List.map_append,
            List.map_cons, List.sum_append, List.sum_cons]
          omega
      · rename_i room
        simp only [Prod.mk.injEq, true_and] at h
        subst h
        refine ⟨rfl, rfl, rfl, fun acc => ?_⟩
        obtain ⟨total, le⟩ := acc
        simp only [freeSpace, freeSpaceStart, leaf_numSlots hb, leaf_liveBytes hb, List.map_append,
          List.map_cons, List.sum_append, List.sum_cons] at total le room
        simp only [Accounted, freeSpaceStart, numSlots, liveBytes, len, List.map_append,
          List.map_cons, List.sum_append, List.sum_cons]
        omega
  · simp [updateLeaf, hb, find] at h

theorem updateLeaf_false (h : p.updateLeaf key value = (false, p')) : p' = p := by
  unfold updateLeaf at h
  split at h
  · split at h
    split at h
    · dsimp only at h
      split at h
      · simp at h
      · split at h
        · split at h
          · simpa using h.symm
          · simp at h
        · simp at h
    · simpa using h.symm
  · simpa using h.symm

theorem deleteAt_cut (hb : p.body = .leaf prev next (lo ++ (key, old) :: hi)) :
    p.deleteAt lo.length = (true, { p with
      deadBytes := p.deadBytes + leafRecordBytes (key, old)
      body := .leaf prev next (lo ++ hi) }) := by
  have get : (lo ++ (key, old) :: hi).getD lo.length ([], []) = (key, old) := by simp
  simp only [deleteAt, hb, get, eraseIdx_cut]
  rw [if_neg (by simp)]

theorem delete_accounted (hb : p.body = .leaf prev next (lo ++ (key, old) :: hi))
    (acc : p.Accounted) : Accounted { p with
      deadBytes := p.deadBytes + leafRecordBytes (key, old)
      body := .leaf prev next (lo ++ hi) } := by
  obtain ⟨total, le⟩ := acc
  simp only [freeSpaceStart, leaf_numSlots hb, leaf_liveBytes hb, List.map_append, List.map_cons,
    List.sum_append, List.sum_cons, List.length_append, List.length_cons] at total le
  simp only [Accounted, freeSpaceStart, numSlots, liveBytes, List.map_append, List.sum_append,
    List.length_append]
  simp only [kSlotEntrySize, kPageHeaderSize, kPageSize] at *
  omega

end Mutators

end Page

end PagerDB

import Mathlib.Order.Basic
import Mathlib.Data.List.Pairwise
import Mathlib.Data.List.Basic
import Mathlib.Tactic.Order

/-! Strictly ascending key lists and association lists over any linear order: where
a key falls, and what inserting, replacing and erasing there does to lookups. -/
namespace SortedLib

variable {κ ν : Type} [LinearOrder κ]

/-- How many keys lie below `k`; in an ascending list, where `k` belongs. -/
def rank (keys : List κ) (k : κ) : Nat := (keys.filter (· < k)).length

theorem rank_append_left {lo hi : List κ} {k : κ} (below : ∀ x ∈ lo, x < k)
    (above : ∀ x ∈ hi, k ≤ x) : rank (lo ++ hi) k = lo.length := by
  have hl : lo.filter (· < k) = lo := List.filter_eq_self.mpr fun x hx => by simpa using below x hx
  have hh : hi.filter (· < k) = [] :=
    List.filter_eq_nil_iff.mpr fun x hx => by simpa using above x hx
  simp only [rank, List.filter_append, hl, hh, List.append_nil]

/-- Cut an ascending list at `k`. -/
theorem ascending_cut {f : ν → κ} {l : List ν} (asc : (l.map f).Pairwise (· < ·)) (k : κ) :
    ∃ lo hi, l = lo ++ hi ∧ (∀ x ∈ lo, f x < k) ∧ (∀ x ∈ hi, k ≤ f x) := by
  induction l with
  | nil => exact ⟨[], [], rfl, by simp, by simp⟩
  | cons a l ih =>
    simp only [List.map_cons, List.pairwise_cons] at asc
    obtain ⟨lo, hi, eq, below, above⟩ := ih asc.2
    by_cases h : f a < k
    · refine ⟨a :: lo, hi, by rw [eq, List.cons_append], ?_, above⟩
      intro x hx
      rcases List.mem_cons.mp hx with rfl | hx
      · exact h
      · exact below x hx
    · refine ⟨[], a :: l, rfl, by simp, ?_⟩
      intro x hx
      rcases List.mem_cons.mp hx with rfl | hx
      · exact not_lt.mp h
      · exact (not_lt.mp h).trans (asc.1 _ (List.mem_map_of_mem hx)).le

theorem ascending_cut_after {f : ν → κ} {l : List ν} (asc : (l.map f).Pairwise (· < ·)) (k : κ) :
    ∃ lo hi, l = lo ++ hi ∧ (∀ x ∈ lo, f x ≤ k) ∧ ∀ x ∈ hi, k < f x := by
  induction l with
  | nil => exact ⟨[], [], rfl, by simp, by simp⟩
  | cons a l ih =>
    rw [List.map_cons, List.pairwise_cons] at asc
    by_cases le : f a ≤ k
    · obtain ⟨lo, hi, rfl, low, high⟩ := ih asc.2
      refine ⟨a :: lo, hi, rfl, ?_, high⟩
      intro x mem
      rcases List.mem_cons.mp mem with rfl | mem
      · exact le
      · exact low x mem
    · refine ⟨[], a :: l, rfl, by simp, ?_⟩
      intro x mem
      rcases List.mem_cons.mp mem with rfl | mem
      · exact not_le.mp le
      · exact (not_le.mp le).trans (asc.1 _ (List.mem_map_of_mem mem))

theorem cut_unique {f : ν → κ} {lo hi lo' hi' : List ν} {k : κ} (eq : lo ++ hi = lo' ++ hi')
    (below : ∀ x ∈ lo, f x < k) (above : ∀ x ∈ hi, k < f x) (below' : ∀ x ∈ lo', f x < k)
    (above' : ∀ x ∈ hi', k < f x) : lo = lo' ∧ hi = hi' := by
  have none : ∀ mid : List ν, (∀ x ∈ mid, f x < k) → (∀ x ∈ mid, k < f x) → mid = [] := by
    intro mid low high
    rw [List.eq_nil_iff_forall_not_mem]
    exact fun x hx => lt_asymm (low x hx) (high x hx)
  rcases List.append_eq_append_iff.mp eq with ⟨mid, rfl, rfl⟩ | ⟨mid, rfl, rfl⟩
  · obtain rfl := none mid (fun x hx => below' x (by simp [hx])) fun x hx => above x (by simp [hx])
    simp
  · obtain rfl := none mid (fun x hx => below x (by simp [hx])) fun x hx => above' x (by simp [hx])
    simp

theorem ascending_floor {f : ν → κ} {l : List ν} (asc : (l.map f).Pairwise (· < ·)) {a : ν}
    (head : l.head? = some a) {k : κ} (start : f a ≤ k) :
    ∃ pre x post, l = pre ++ x :: post ∧ f x ≤ k ∧ (∀ y ∈ post, k < f y) := by
  induction l generalizing a with
  | nil => cases head
  | cons c l ih =>
    obtain rfl : c = a := by simpa using head
    simp only [List.map_cons, List.pairwise_cons] at asc
    cases l with
    | nil => exact ⟨[], c, [], rfl, start, by simp⟩
    | cons d l =>
      by_cases h : f d ≤ k
      · obtain ⟨pre, x, post, eq, le, lt⟩ := ih asc.2 (a := d) rfl h
        exact ⟨c :: pre, x, post, by rw [eq, List.cons_append], le, lt⟩
      · refine ⟨[], c, d :: l, rfl, start, ?_⟩
        intro y hy
        rcases List.mem_cons.mp hy with rfl | hy
        · exact not_le.mp h
        · have := List.pairwise_cons.mp asc.2
          exact (not_le.mp h).trans (this.1 _ (List.mem_map_of_mem hy))

theorem ascending_insert {f : ν → κ} {lo hi : List ν} {r : ν}
    (asc : ((lo ++ hi).map f).Pairwise (· < ·)) (below : ∀ x ∈ lo, f x < f r)
    (above : ∀ x ∈ hi, f r < f x) : ((lo ++ r :: hi).map f).Pairwise (· < ·) := by
  rw [List.map_append, List.pairwise_append] at asc
  rw [List.map_append, List.map_cons, List.pairwise_append, List.pairwise_cons]
  refine ⟨asc.1, ⟨fun k mem => ?_, asc.2.1⟩, fun a ha b hb => ?_⟩
  · obtain ⟨x, hx, rfl⟩ := List.mem_map.mp mem
    exact above x hx
  · obtain ⟨x, hx, rfl⟩ := List.mem_map.mp ha
    rcases List.mem_cons.mp hb with rfl | hb
    · exact below x hx
    · exact asc.2.2 (f x) (List.mem_map_of_mem hx) b hb

theorem lookup_eq_some_iff_mem [BEq κ] [LawfulBEq κ] {l : List (κ × ν)}
    (asc : (l.map Prod.fst).Pairwise (· < ·)) {k : κ} {v : ν} : l.lookup k = some v ↔ (k, v) ∈ l := by
  induction l with
  | nil => simp
  | cons r l ih =>
    obtain ⟨a, b⟩ := r
    rw [List.map_cons, List.pairwise_cons] at asc
    by_cases h : k = a
    · subst h
      have once : (k, v) ∉ l := fun mem => absurd (asc.1 k (List.mem_map_of_mem mem)) (lt_irrefl k)
      simp [once, eq_comm]
    · simp [List.lookup_cons, beq_eq_false_iff_ne.mpr h, h, ih asc.2]

/- List surgery at the cut. -/

theorem insertIdx_cut {α : Type} (lo hi : List α) (r : α) :
    (lo ++ hi).insertIdx lo.length r = lo ++ r :: hi := by
  induction lo with
  | nil => simp
  | cons a lo ih => simpa using ih

theorem set_cut {α : Type} (lo hi : List α) (old r : α) :
    (lo ++ old :: hi).set lo.length r = lo ++ r :: hi := by
  simp

theorem eraseIdx_cut {α : Type} (lo hi : List α) (old : α) :
    (lo ++ old :: hi).eraseIdx lo.length = lo ++ hi := by
  induction lo with
  | nil => simp
  | cons a lo ih => simpa using ih

theorem perm_after {α : Type} (pre post : List α) (x y : α) :
    (pre ++ x :: y :: post).Perm (y :: (pre ++ x :: post)) := by
  have middle : ((pre ++ [x]) ++ y :: post).Perm (y :: ((pre ++ [x]) ++ post)) := List.perm_middle
  simpa using middle

theorem append_eq_append_cons {α : Type} {a b pre post : List α} {x : α}
    (h : a ++ b = pre ++ x :: post) :
    (∃ mid, pre = a ++ mid ∧ b = mid ++ x :: post) ∨
      ∃ mid, a = pre ++ x :: mid ∧ post = mid ++ b := by
  rcases List.append_eq_append_iff.mp h with ⟨mid, eq, tail⟩ | ⟨mid, eq, tail⟩
  · exact .inl ⟨mid, eq, tail⟩
  · cases mid with
    | nil => exact .inl ⟨[], by simpa using eq.symm, by simpa using tail.symm⟩
    | cons y mid =>
      obtain ⟨rfl, rfl⟩ := List.cons.inj tail
      exact .inr ⟨mid, eq, rfl⟩

end SortedLib

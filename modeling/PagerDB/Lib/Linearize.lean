import Mathlib.Data.List.Nodup

/-! Linearizability of a history of calls and returns. Every operation takes effect at
one point between its call and its return; the order of these points explains what the
operations answered. -/
namespace LinearizeLib

variable {ι ρ μ : Type}

inductive Event (ι ρ : Type) where
  | call (i : ι)
  | ret (i : ι) (r : ρ)

def final (apply : ι → μ → ρ × μ) (m : μ) (order : List ι) : μ :=
  order.foldl (fun m i => (apply i m).2) m

def answers (apply : ι → μ → ρ × μ) (m : μ) : List ι → List (ι × ρ)
  | [] => []
  | i :: is => (i, (apply i m).1) :: answers apply (apply i m).2 is

/-- The operations in one order that explains the history and respects real time: one
that returned before another was called comes first. -/
structure Linearization (apply : ι → μ → ρ × μ) (m : μ) (history : List (Event ι ρ))
    (order : List ι) : Prop where
  nodup : order.Nodup
  called : ∀ i ∈ order, .call i ∈ history
  returned : ∀ i r, .ret i r ∈ history → (i, r) ∈ answers apply m order
  realTime : ∀ i r j, [.ret i r, .call j].Sublist history → j ∈ order → [i, j].Sublist order

variable {apply : ι → μ → ρ × μ} {m : μ} {history : List (Event ι ρ)} {order : List ι} {i : ι} {r : ρ}

theorem final_append (i : ι) :
    final apply m (order ++ [i]) = (apply i (final apply m order)).2 := by
  simp [final]

theorem answers_append (i : ι) : answers apply m (order ++ [i]) =
    answers apply m order ++ [(i, (apply i (final apply m order)).1)] := by
  induction order generalizing m with
  | nil => rfl
  | cons j js ih =>
    simp only [List.cons_append, answers, final, List.foldl_cons]
    rw [ih]
    rfl

theorem mem_of_answers (h : (i, r) ∈ answers apply m order) : i ∈ order := by
  induction order generalizing m with
  | nil => cases h
  | cons j js ih =>
    rcases List.mem_cons.mp h with eq | mem
    · exact (Prod.mk.inj eq).1 ▸ List.mem_cons_self
    · exact List.mem_cons_of_mem j (ih mem)

theorem linearization_nil : Linearization apply m [] [] := by
  constructor
  · exact List.nodup_nil
  · intro i h
    cases h
  · intro i r h
    cases h
  · intro i r j _ h
    cases h

theorem pair_append {α : Type} {a b x : α} {l : List α} (h : [a, b].Sublist (l ++ [x])) :
    [a, b].Sublist l ∨ a ∈ l ∧ b = x := by
  obtain ⟨l₁, l₂, eq, h₁, h₂⟩ := List.sublist_append_iff.mp h
  match l₂ with
  | [] =>
    rw [List.append_nil] at eq
    exact .inl (eq ▸ h₁)
  | [y] =>
    have last : y = x := List.mem_singleton.mp (h₂.subset List.mem_cons_self)
    have cut : [a] ++ [b] = l₁ ++ [y] := eq
    obtain ⟨rfl, tail⟩ := List.append_inj' cut rfl
    exact .inr ⟨h₁.subset List.mem_cons_self, (List.cons.inj tail).1.trans last⟩
  | y :: z :: rest =>
    have := h₂.length_le
    simp at this

namespace Linearization

theorem call (lin : Linearization apply m history order) (fresh : i ∉ order) :
    Linearization apply m (history ++ [.call i]) order := by
  constructor
  · exact lin.nodup
  · intro j mem
    exact List.mem_append_left _ (lin.called j mem)
  · intro j r mem
    rcases List.mem_append.mp mem with mem | mem
    · exact lin.returned j r mem
    · cases List.mem_singleton.mp mem
  · intro a r j pair mem
    rcases pair_append pair with pair | ⟨-, eq⟩
    · exact lin.realTime a r j pair mem
    · cases eq
      exact absurd mem fresh

theorem point (lin : Linearization apply m history order) (fresh : i ∉ order)
    (called : .call i ∈ history) : Linearization apply m history (order ++ [i]) := by
  constructor
  · exact List.nodup_append.mpr ⟨lin.nodup, List.nodup_singleton i, fun a ha b hb eq =>
      fresh (List.mem_singleton.mp hb ▸ eq ▸ ha)⟩
  · intro j mem
    rcases List.mem_append.mp mem with mem | mem
    · exact lin.called j mem
    · exact List.mem_singleton.mp mem ▸ called
  · intro j r mem
    rw [answers_append]
    exact List.mem_append_left _ (lin.returned j r mem)
  · intro a r j pair mem
    rcases List.mem_append.mp mem with mem | mem
    · exact (lin.realTime a r j pair mem).trans (List.sublist_append_left _ _)
    · -- whatever has returned took effect before
      have before := mem_of_answers (lin.returned a r (pair.subset List.mem_cons_self))
      obtain rfl := List.mem_singleton.mp mem
      exact List.Sublist.append (List.singleton_sublist.mpr before) (List.Sublist.refl [j])

theorem respond (lin : Linearization apply m history order)
    (answer : (i, r) ∈ answers apply m order) :
    Linearization apply m (history ++ [.ret i r]) order := by
  constructor
  · exact lin.nodup
  · intro j mem
    exact List.mem_append_left _ (lin.called j mem)
  · intro j q mem
    rcases List.mem_append.mp mem with mem | mem
    · exact lin.returned j q mem
    · cases List.mem_singleton.mp mem
      exact answer
  · intro a q j pair mem
    rcases pair_append pair with pair | ⟨-, eq⟩
    · exact lin.realTime a q j pair mem
    · cases eq

end Linearization

end LinearizeLib

import Mathlib.Data.List.Nodup
import Mathlib.Data.List.Basic

/-! A recency order beside the log of uses it comes from. The log has the newest use first; the order
has the least recently used first, each once. -/
namespace RecencyLib

variable {α : Type} [DecidableEq α]

structure Recent (log order : List α) : Prop where
  sorted : order.Pairwise fun a b => log.idxOf b < log.idxOf a
  used : ∀ a ∈ order, a ∈ log

namespace Recent

variable {log order order' lo hi : List α} {a b : α}

theorem nil : Recent ([] : List α) [] := ⟨.nil, nofun⟩

theorem nodup (recent : Recent log order) : order.Nodup :=
  recent.sorted.imp fun {_ _} later same => absurd (same ▸ later) (Nat.lt_irrefl _)

theorem sublist (recent : Recent log order) (sub : order'.Sublist order) : Recent log order' :=
  ⟨recent.sorted.sublist sub, fun a mem => recent.used a (sub.subset mem)⟩

theorem use (recent : Recent log order) (a : α) : Recent (a :: log) (order.filter (· ≠ a) ++ [a]) := by
  have others : ∀ b ∈ order.filter (· ≠ a), b ≠ a := fun b mem => of_decide_eq_true (List.mem_filter.mp mem).2
  have first : ∀ b, b ≠ a → (a :: log).idxOf b = log.idxOf b + 1 := fun b other =>
    List.idxOf_cons_ne log (Ne.symm other)
  have kept : Recent log (order.filter (· ≠ a)) := recent.sublist List.filter_sublist
  constructor
  · refine List.pairwise_append.mpr ⟨?_, List.pairwise_singleton _ _, ?_⟩
    · refine kept.sorted.imp_of_mem fun {b c} mb mc later => ?_
      rw [first b (others b mb), first c (others c mc)]
      exact Nat.succ_lt_succ later
    · intro b mem c here
      obtain rfl := List.mem_singleton.mp here
      rw [first b (others b mem), List.idxOf_cons_self]
      exact Nat.succ_pos _
  · intro b mem
    rcases List.mem_append.mp mem with old | new
    · exact List.mem_cons_of_mem _ (kept.used b old)
    · exact List.mem_singleton.mp new ▸ List.mem_cons_self

theorem later (recent : Recent log (lo ++ a :: hi)) (mem : b ∈ hi) : log.idxOf b < log.idxOf a :=
  List.rel_of_pairwise_cons (List.pairwise_append.mp recent.sorted).2.1 mem

end Recent

end RecencyLib

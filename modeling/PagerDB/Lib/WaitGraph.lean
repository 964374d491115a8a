import Mathlib.Logic.Relation
import Mathlib.Order.Preorder.Finite

/-! Who waits for whom. Give every waiter the rank of what it waits for. If whoever is in its way
waits only for something higher, nobody waits in a circle, and every chain of waiters ends at someone
who can go on. -/
namespace WaitGraphLib

open Relation

variable {E R : Type*} [Preorder R] {waits : E → E → Prop} {rank : E → R} {a b c : E}

def Ascends (waits : E → E → Prop) (rank : E → R) : Prop :=
  ∀ a b c, waits a b → waits b c → rank a < rank b

namespace Ascends

theorem lt (up : Ascends waits rank) (path : TransGen waits a b) (next : waits b c) : rank a < rank b := by
  induction path generalizing c with
  | single first => exact up _ _ _ first next
  | tail path last ih => exact (ih last).trans (up _ _ _ last next)

theorem acyclic (up : Ascends waits rank) (a : E) : ¬ TransGen waits a a := by
  intro cycle
  obtain ⟨b, first, -⟩ := TransGen.head'_iff.mp cycle
  exact lt_irrefl _ (up.lt cycle first)

theorem ends (up : Ascends waits rank) (finite : {a | ∃ b, waits a b}.Finite) (a : E) :
    ∃ b, ReflTransGen waits a b ∧ ∀ c, ¬ waits b c := by
  by_cases waiting : ∃ b, waits a b
  · obtain ⟨b, ⟨⟨c, next⟩, path⟩, last⟩ := (finite.subset
      (Set.sep_subset _ (ReflTransGen waits a))).exists_maximalFor
      rank _ ⟨a, waiting, .refl⟩
    refine ⟨c, path.tail next, fun d further => ?_⟩
    have higher := up b c d next further
    exact not_le_of_gt higher (last ⟨⟨d, further⟩, path.tail next⟩ higher.le)
  · exact ⟨a, .refl, not_exists.mp waiting⟩

end Ascends

end WaitGraphLib

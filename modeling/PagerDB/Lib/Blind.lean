import Mathlib.Logic.Basic

/-! Computations that do not see a change of the state. They do from the changed state what they do
from the other
one, and leave the same change. -/
namespace BlindLib

variable {ε σ α β : Type} {f : σ → σ}

def changed (f : σ → σ) : EStateM.Result ε σ α → EStateM.Result ε σ α
  | .ok a s => .ok a (f s)
  | .error e s => .error e (f s)

def Blind (f : σ → σ) (x : EStateM ε σ α) : Prop := ∀ s, x (f s) = changed f (x s)

namespace Blind

theorem ok {x : EStateM ε σ α} {s s' : σ} {a : α} (blind : Blind f x) (run : x s = .ok a s') :
    x (f s) = .ok a (f s') := by
  rw [blind s, run]
  rfl

theorem error {x : EStateM ε σ α} {s s' : σ} {e : ε} (blind : Blind f x) (run : x s = .error e s') :
    x (f s) = .error e (f s') := by
  rw [blind s, run]
  rfl

theorem of_ok {x : EStateM ε σ α} {s t : σ} {a : α} (blind : Blind f x) (run : x (f s) = .ok a t) :
    ∃ s', x s = .ok a s' ∧ t = f s' := by
  rw [blind s] at run
  cases ends : x s with
  | ok b s' =>
    rw [ends] at run
    cases run
    exact ⟨s', rfl, rfl⟩
  | error e s' =>
    rw [ends] at run
    cases run

theorem pure (a : α) : Blind f (pure a : EStateM ε σ α) := fun _ => rfl

theorem throw (e : ε) : Blind f (throw e : EStateM ε σ α) := fun _ => rfl

theorem bind {x : EStateM ε σ α} {k : α → EStateM ε σ β} (first : Blind f x) (next : ∀ a, Blind f (k a)) :
    Blind f (x >>= k) := by
  intro s
  change EStateM.bind x k (f s) = changed f (EStateM.bind x k s)
  unfold EStateM.bind
  rw [first s]
  cases x s with
  | ok a t => exact next a t
  | error e t => rfl

theorem get {k : σ → EStateM ε σ β} (same : ∀ s, k (f s) = k s) (next : ∀ s, Blind f (k s)) :
    Blind f (get >>= k) := by
  intro s
  change k (f s) (f s) = changed f (k s s)
  rw [same s]
  exact next s s

theorem modify {g : σ → σ} (commutes : ∀ s, g (f s) = f (g s)) : Blind f (modify g : EStateM ε σ Unit) :=
  fun s => congrArg (EStateM.Result.ok ()) (commutes s)

theorem ite {c : Prop} [Decidable c] {x y : EStateM ε σ α} (yes : Blind f x) (no : Blind f y) :
    Blind f (if c then x else y) := by
  split
  · exact yes
  · exact no

end Blind

end BlindLib

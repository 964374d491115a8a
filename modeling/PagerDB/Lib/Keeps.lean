import Mathlib.Logic.Basic

/-! Rules for computations with a state and failures: an invariant that a successful run keeps,
one that a failed run keeps as well, and the failures that a run from one state can end with. -/
namespace KeepsLib

variable {ε σ α β : Type}

def Keeps (I : σ → Prop) (x : EStateM ε σ α) : Prop :=
  ∀ s a s', x s = .ok a s' → I s → I s'

/-- The invariant is kept however the run ends. -/
def KeepsAlways (I : σ → Prop) (x : EStateM ε σ α) : Prop :=
  ∀ s, I s → match x s with
    | .ok _ s' => I s'
    | .error _ s' => I s'

/-- From `s`, the computation ends well or with one of these failures. -/
def FailsOnly (E : ε → Prop) (x : EStateM ε σ α) (s : σ) : Prop :=
  ∀ e s', x s = .error e s' → E e

section Keeps

variable {I : σ → Prop}

theorem Keeps.pure (a : α) : Keeps I (pure a : EStateM ε σ α) := by
  intro s b s' run inv
  cases run
  exact inv

theorem Keeps.get : Keeps I (get : EStateM ε σ σ) := by
  intro s b s' run inv
  cases run
  exact inv

theorem Keeps.throw (e : ε) : Keeps I (throw e : EStateM ε σ α) := by
  intro s b s' run inv
  cases run

theorem Keeps.modify {f : σ → σ} (keep : ∀ s, I s → I (f s)) :
    Keeps I (modify f : EStateM ε σ Unit) := by
  intro s b s' run inv
  cases run
  exact keep s inv

theorem Keeps.bind_of {x : EStateM ε σ α} {f : α → EStateM ε σ β} (first : Keeps I x)
    (next : ∀ a s, (∃ t, x t = .ok a s) → I s → ∀ b s', f a s = .ok b s' → I s') :
    Keeps I (x >>= f) := by
  intro s b s' run inv
  change EStateM.bind x f s = _ at run
  unfold EStateM.bind at run
  cases left : x s with
  | ok a t =>
    rw [left] at run
    exact next a t ⟨s, left⟩ (first s a t left inv) b s' run
  | error e t =>
    rw [left] at run
    cases run

theorem Keeps.bind {x : EStateM ε σ α} {f : α → EStateM ε σ β} (first : Keeps I x)
    (next : ∀ a, Keeps I (f a)) : Keeps I (x >>= f) :=
  first.bind_of fun a s _ inv b s' run => next a s b s' run inv

theorem Keeps.ite {c : Prop} [Decidable c] {x y : EStateM ε σ α} (yes : Keeps I x)
    (no : Keeps I y) : Keeps I (if c then x else y) := by
  split
  · exact yes
  · exact no

end Keeps

section KeepsAlways

variable {I : σ → Prop}

theorem KeepsAlways.pure (a : α) : KeepsAlways I (pure a : EStateM ε σ α) := fun _ inv => inv

theorem KeepsAlways.get : KeepsAlways I (get : EStateM ε σ σ) := fun _ inv => inv

theorem KeepsAlways.throw (e : ε) : KeepsAlways I (throw e : EStateM ε σ α) := fun _ inv => inv

theorem KeepsAlways.modify {f : σ → σ} (keep : ∀ s, I s → I (f s)) :
    KeepsAlways I (modify f : EStateM ε σ Unit) := keep

/-- The rest of a computation may use the run of the first part and the state it has ended in. -/
theorem KeepsAlways.bind_at {x : EStateM ε σ α} {f : α → EStateM ε σ β} (first : KeepsAlways I x)
    (next : ∀ s a t, I s → x s = .ok a t → I t → match f a t with
      | .ok _ s' => I s'
      | .error _ s' => I s') : KeepsAlways I (x >>= f) := by
  intro s inv
  have left := first s inv
  change match EStateM.bind x f s with
    | .ok _ s' => I s'
    | .error _ s' => I s'
  unfold EStateM.bind
  cases run : x s with
  | ok a t =>
    rw [run] at left
    exact next s a t inv run left
  | error e t =>
    rw [run] at left
    exact left

theorem KeepsAlways.bind_of {x : EStateM ε σ α} {f : α → EStateM ε σ β} {R : α → Prop}
    (first : KeepsAlways I x) (returns : ∀ s a s', I s → x s = .ok a s' → R a)
    (next : ∀ a, R a → KeepsAlways I (f a)) : KeepsAlways I (x >>= f) :=
  first.bind_at fun s a t inv run left => next a (returns s a t inv run) t left

theorem KeepsAlways.bind {x : EStateM ε σ α} {f : α → EStateM ε σ β} (first : KeepsAlways I x)
    (next : ∀ a, KeepsAlways I (f a)) : KeepsAlways I (x >>= f) :=
  first.bind_of (fun _ _ _ _ _ => trivial) fun a _ => next a

theorem KeepsAlways.weaken {J : σ → Prop} {x : EStateM ε σ α} (keeps : KeepsAlways J x)
    (weaker : ∀ s, J s → I s) (s : σ) (start : J s) : match x s with
      | .ok _ s' => I s'
      | .error _ s' => I s' := by
  have after := keeps s start
  cases run : x s with
  | ok a t =>
    rw [run] at after
    exact weaker t after
  | error e t =>
    rw [run] at after
    exact weaker t after

theorem KeepsAlways.ite {c : Prop} [Decidable c] {x y : EStateM ε σ α} (yes : KeepsAlways I x)
    (no : KeepsAlways I y) : KeepsAlways I (if c then x else y) := by
  split
  · exact yes
  · exact no

end KeepsAlways

section FailsOnly

variable {E : ε → Prop} {s : σ}

theorem FailsOnly.of_ok {x : EStateM ε σ α} {a : α} {s' : σ} (run : x s = .ok a s') :
    FailsOnly E x s := by
  intro e t fails
  cases run.symm.trans fails

theorem FailsOnly.bind {x : EStateM ε σ α} {f : α → EStateM ε σ β} (first : FailsOnly E x s)
    (next : ∀ a t, x s = .ok a t → FailsOnly E (f a) t) : FailsOnly E (x >>= f) s := by
  intro e s' fails
  change EStateM.bind x f s = _ at fails
  unfold EStateM.bind at fails
  cases left : x s with
  | ok a t =>
    rw [left] at fails
    exact next a t left e s' fails
  | error e t =>
    rw [left] at fails
    cases fails
    exact first _ _ left

theorem FailsOnly.ite {c : Prop} [Decidable c] {x y : EStateM ε σ α} (yes : c → FailsOnly E x s)
    (no : ¬ c → FailsOnly E y s) : FailsOnly E (if c then x else y) s := by
  split
  · exact yes ‹_›
  · exact no ‹_›

end FailsOnly

end KeepsLib

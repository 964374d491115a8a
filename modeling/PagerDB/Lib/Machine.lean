import Mathlib.Logic.Relation

/-! Runs of a machine given by a partial step function: what every step keeps holds
in every state a run visits, and conditions on single steps lift to runs. -/
namespace MachineLib

variable {σ ι : Type} (step : σ → ι → Option σ)

def run (s : σ) : List ι → Option σ
  | [] => some s
  | i :: is => (step s i).bind fun t => run t is

/-- Every state the run visits, the first and the last included. -/
def EveryState (P : σ → Prop) : σ → List ι → Prop
  | s, [] => P s
  | s, i :: is => P s ∧ ∀ t, step s i = some t → EveryState P t is

/-- Every step the run takes, judged in the state before it. -/
def EveryStep (C : σ → ι → Prop) : σ → List ι → Prop
  | _, [] => True
  | s, i :: is => ∀ t, step s i = some t → C s i ∧ EveryStep C t is

variable {step}

theorem run_append (s : σ) (is js : List ι) :
    run step s (is ++ js) = (run step s is).bind fun t => run step t js := by
  induction is generalizing s with
  | nil => rfl
  | cons i is ih =>
    rw [List.cons_append, run, run, Option.bind_assoc]
    exact congrArg _ (funext ih)

theorem EveryState.head {P : σ → Prop} {s : σ} {is : List ι} (h : EveryState step P s is) : P s := by
  cases is with
  | nil => exact h
  | cons i is => exact h.1

theorem EveryState.last {P : σ → Prop} {s t : σ} {is : List ι} (h : EveryState step P s is)
    (end_ : run step s is = some t) : P t := by
  induction is generalizing s with
  | nil =>
    obtain rfl := Option.some.inj end_
    exact h
  | cons i is ih =>
    obtain ⟨u, hu, rest⟩ := Option.bind_eq_some_iff.mp end_
    exact ih (h.2 u hu) rest

theorem EveryStep.last {C : σ → ι → Prop} {s t u : σ} {is : List ι} {i : ι}
    (h : EveryStep step C s (is ++ [i])) (reach : run step s is = some t) (next : step t i = some u) :
    C t i := by
  induction is generalizing s with
  | nil =>
    obtain rfl := Option.some.inj reach
    exact (h u next).1
  | cons j is ih =>
    obtain ⟨v, hv, rest⟩ := Option.bind_eq_some_iff.mp reach
    exact ih (h v hv).2 rest

theorem EveryStep.split {C : σ → ι → Prop} {s : σ} {is js : List ι} (h : EveryStep step C s (is ++ js)) :
    EveryStep step C s is ∧ ∀ t, run step s is = some t → EveryStep step C t js := by
  induction is generalizing s with
  | nil =>
    refine ⟨trivial, fun t reach => ?_⟩
    obtain rfl := Option.some.inj reach
    exact h
  | cons i is ih =>
    refine ⟨fun t next => ⟨(h t next).1, (ih (h t next).2).1⟩, fun t reach => ?_⟩
    obtain ⟨u, next, rest⟩ := Option.bind_eq_some_iff.mp reach
    exact (ih (h u next).2).2 t rest

theorem EveryStep.imp {C D : σ → ι → Prop} {s : σ} {is : List ι} (h : EveryStep step C s is)
    (imp : ∀ s i, C s i → D s i) : EveryStep step D s is := by
  induction is generalizing s with
  | nil => trivial
  | cons i is ih => exact fun t next => ⟨imp s i (h t next).1, ih (h t next).2⟩

instance decidableEveryStep {C : σ → ι → Prop} [∀ s i, Decidable (C s i)] :
    (s : σ) → (is : List ι) → Decidable (EveryStep step C s is)
  | _, [] => isTrue trivial
  | s, i :: is =>
    match next : step s i with
    | none => isTrue fun _ ht => nomatch next.symm.trans ht
    | some t =>
      have := decidableEveryStep (C := C) t is
      decidable_of_iff (C s i ∧ EveryStep step C t is)
        ⟨fun both _ ht => Option.some.inj (next.symm.trans ht) ▸ both, fun h => h t next⟩

theorem EveryState.imp {P Q : σ → Prop} {s : σ} {is : List ι} (h : EveryState step P s is)
    (imp : ∀ t, P t → Q t) : EveryState step Q s is := by
  induction is generalizing s with
  | nil => exact imp s h
  | cons i is ih => exact ⟨imp s h.1, fun t ht => ih (h.2 t ht)⟩

theorem everyState_of_step {I : σ → Prop} {C : σ → ι → Prop}
    (keep : ∀ s i t, I s → C s i → step s i = some t → I t) {s : σ} {is : List ι} (start : I s)
    (cond : EveryStep step C s is) : EveryState step I s is := by
  induction is generalizing s with
  | nil => exact start
  | cons i is ih =>
    refine ⟨start, fun t ht => ?_⟩
    obtain ⟨here, rest⟩ := cond t ht
    exact ih (keep s i t start here ht) rest

/-- An invariant whose steps rely on what holds in every state anyway. -/
theorem EveryState.along {I P : σ → Prop} {s : σ} {is : List ι} (h : EveryState step P s is)
    (keep : ∀ s i t, I s → P s → step s i = some t → I t) (start : I s) :
    EveryState step (fun s => I s ∧ P s) s is := by
  induction is generalizing s with
  | nil => exact ⟨start, h⟩
  | cons i is ih => exact ⟨⟨start, h.1⟩, fun t ht => ih (h.2 t ht) (keep s i t start h.1 ht)⟩

/-- The invariant rule. -/
theorem everyState_invariant {I : σ → Prop} (keep : ∀ s i t, I s → step s i = some t → I t) {s : σ}
    {is : List ι} (start : I s) : EveryState step I s is := by
  induction is generalizing s with
  | nil => exact start
  | cons i is ih => exact ⟨start, fun t ht => ih (keep s i t start ht)⟩

/-- The other way: a step that breaks the condition leads to a bad state. -/
theorem everyStep_of_state {I P : σ → Prop} {C : σ → ι → Prop}
    (keep : ∀ s i t, I s → step s i = some t → I t)
    (needed : ∀ s i t, I s → step s i = some t → P t → C s i) {s : σ} {is : List ι} (start : I s)
    (good : EveryState step P s is) : EveryStep step C s is := by
  induction is generalizing s with
  | nil => trivial
  | cons i is ih =>
    intro t ht
    have rest := good.2 t ht
    exact ⟨needed s i t start ht rest.head, ih (keep s i t start ht) rest⟩

theorem run_invariant {I : σ → Prop} (keep : ∀ s i t, I s → step s i = some t → I t) {s t : σ}
    {is : List ι} (start : I s) (h : run step s is = some t) : I t := by
  induction is generalizing s with
  | nil =>
    obtain rfl := Option.some.inj h
    exact start
  | cons i is ih =>
    obtain ⟨u, hu, rest⟩ := Option.bind_eq_some_iff.mp h
    exact ih (keep s i u start hu) rest

end MachineLib

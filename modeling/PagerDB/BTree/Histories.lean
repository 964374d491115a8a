import PagerDB.BTree.Moves

/-! The history of calls and returns, and the order in which the calls took effect. A
call takes effect in the step that fixes its answer. -/
namespace PagerDB.Crab

open LinearizeLib

variable {σ : State} {op : Op} {s s' : Store} {pc pc' : Pc} {point : Bool} {i : Nat}

abbrev applied : Instance → RefMap → Outcome × RefMap := fun i => i.2.apply

def Answer.outcome (answer : Answer) : Outcome := answer.mapError Status.code

def Pc.answered : Pc → Option Answer
  | unwind _ _ _ answer => some answer
  | done answer => some answer
  | _ => none

structure Recorded (σ : State) : Prop where
  lin : Linearization applied σ.initial σ.history σ.order
  called : ∀ i < σ.next, (σ.task i).op.isCursor = false → .call (i, (σ.task i).op) ∈ σ.history
  point : ∀ x ∈ σ.order, x.1 < σ.next ∧ (σ.task x.1).pc.answered ≠ none
  given : ∀ i answer, (σ.task i).pc.answered = some answer →
    ((i, (σ.task i).op), answer.outcome) ∈ answers applied σ.initial σ.order

theorem Moves.answered (m : Moves op s pc pc' point s') :
    if point then op.isCursor = false ∧ pc.answered = none ∧ pc'.answered ≠ none
    else pc'.answered = pc.answered := by
  cases m with
  | absent _ _ cursor => exact ⟨cursor, rfl, nofun⟩
  | get | delete | write | seed | absorb | root | graft => exact ⟨rfl, rfl, nofun⟩
  | _ => rfl

theorem State.map_moved : (σ.moved i s pc point).map =
    if point then ((σ.task i).op.apply σ.map).2 else σ.map := by
  cases point with
  | true => exact final_append (i, (σ.task i).op)
  | false => rfl

namespace Recorded

theorem init (s : Store) (m : RefMap) : Recorded (State.init s m) := by
  constructor
  · exact linearization_nil
  · exact fun _ lt => absurd lt (Nat.not_lt_zero _)
  · exact fun _ mem => absurd mem List.not_mem_nil
  · intro i answer at_
    cases at_

theorem invoked (rec : Recorded σ) (op : Op) : Recorded (σ.invoked op) := by
  obtain ⟨lin, called, point, given⟩ := rec
  have fresh : (σ.next, op) ∉ σ.order := fun mem => absurd (point _ mem).1 (lt_irrefl _)
  have history : (σ.invoked op).history =
      if op.isCursor then σ.history else σ.history ++ [.call (σ.next, op)] := rfl
  constructor
  · rw [history]
    split
    · exact lin
    · exact lin.call fresh
  · refine State.each_invoked (P := fun j t => j < σ.next + 1 → t.op.isCursor = false →
      .call (j, t.op) ∈ (σ.invoked op).history) ?_ ?_
    · intro _ map
      rw [history, if_neg (by simp [map])]
      simp
    · intro j ne lt map
      have mem := called j (lt_of_le_of_ne (Nat.le_of_lt_succ lt) ne) map
      rw [history]
      split
      · exact mem
      · exact List.mem_append_left _ mem
  · intro x mem
    obtain ⟨lt, some⟩ := point x mem
    rw [State.invoked_other lt.ne]
    exact ⟨Nat.lt_succ_of_lt lt, some⟩
  · exact State.each_invoked (P := fun j t => ∀ answer, t.pc.answered = some answer →
      ((j, t.op), answer.outcome) ∈ answers applied σ.initial σ.order) nofun fun j _ => given j

theorem moved (rec : Recorded σ) (lt : i < σ.next)
    (m : Moves (σ.task i).op σ.store (σ.task i).pc pc point s)
    (right : point = true → ∀ answer, pc.answered = some answer →
      answer.outcome = ((σ.task i).op.apply σ.map).1) : Recorded (σ.moved i s pc point) := by
  obtain ⟨lin, called, points, given⟩ := rec
  have shape := m.answered
  -- the order first
  have lin' : Linearization applied σ.initial σ.history (σ.moved i s pc point).order := by
    cases point with
    | false => exact lin
    | true =>
      obtain ⟨map, before, -⟩ := shape
      exact lin.point (fun mem => (points _ mem).2 before) (called i lt map)
  have given' : ∀ j answer, ((σ.moved i s pc point).task j).pc.answered = some answer →
      ((j, ((σ.moved i s pc point).task j).op), answer.outcome) ∈
        answers applied σ.initial (σ.moved i s pc point).order := by
    refine State.each_moved (P := fun j t => ∀ answer, t.pc.answered = some answer →
      ((j, t.op), answer.outcome) ∈ answers applied σ.initial (σ.moved i s pc point).order) ?_ ?_
    · intro answer at_
      cases point with
      | false => exact given i answer (shape ▸ at_)
      | true =>
        change _ ∈ answers applied σ.initial (σ.order ++ [(i, (σ.task i).op)])
        rw [answers_append, right rfl answer at_]
        exact List.mem_append_right _ List.mem_cons_self
    · intro j _ answer at_
      cases point with
      | false => exact given j answer at_
      | true =>
        change _ ∈ answers applied σ.initial (σ.order ++ [(i, (σ.task i).op)])
        rw [answers_append]
        exact List.mem_append_left _ (given j answer at_)
  have history : (σ.moved i s pc point).history = σ.history ∨ ∃ answer, pc.answered = some answer ∧
      (σ.moved i s pc point).history = σ.history ++ [.ret (i, (σ.task i).op) answer.outcome] := by
    cases pc with
    | done answer => exact .inr ⟨answer, rfl, rfl⟩
    | _ => exact .inl rfl
  constructor
  · rcases history with eq | ⟨answer, at_, eq⟩
    · rw [eq]
      exact lin'
    · rw [eq]
      have mem := given' i answer (by rw [State.moved_self]; exact at_)
      rw [State.moved_self] at mem
      exact lin'.respond mem
  · have old : ∀ j, j < σ.next → ((σ.moved i s pc point).task j).op.isCursor = false →
        .call (j, ((σ.moved i s pc point).task j).op) ∈ σ.history := by
      refine State.each_moved (P := fun j t => j < σ.next → t.op.isCursor = false →
        .call (j, t.op) ∈ σ.history) ?_ fun j _ => called j
      exact called i
    intro j lt map
    rcases history with eq | ⟨answer, -, eq⟩
    · rw [eq]
      exact old j lt map
    · rw [eq]
      exact List.mem_append_left _ (old j lt map)
  · intro x mem
    by_cases e : x.1 = i
    · refine ⟨e ▸ lt, ?_⟩
      rw [e, State.moved_self]
      cases point with
      | false =>
        rw [shape, ← e]
        exact (points x mem).2
      | true => exact shape.2.2
    · have before : x ∈ σ.order := by
        cases point with
        | false => exact mem
        | true =>
          rcases List.mem_append.mp mem with mem | mem
          · exact mem
          · exact absurd (congrArg Prod.fst (List.mem_singleton.mp mem)) e
      rw [State.moved_other e]
      exact points x before
  · exact given'

end Recorded

end PagerDB.Crab

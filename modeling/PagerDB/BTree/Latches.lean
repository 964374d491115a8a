import PagerDB.BTree.Moves

/-! Latches: what a step takes it finds free, so no two calls ever hold a latch in modes
that do not go together. -/
namespace PagerDB.Crab

variable {σ : State} {op : Op} {s s' : Store} {pc pc' : Pc} {point : Bool} {i j : Nat} {p : PageId}

theorem clash_comm (a b : Option LatchMode) : clash a b = clash b a := by
  rcases a with _ | _ | _ <;> rcases b with _ | _ | _ <;> rfl

@[simp] theorem clash_none_left (a : Option LatchMode) : clash none a = false := rfl

@[simp] theorem clash_none_right (a : Option LatchMode) : clash a none = false := by
  rcases a with _ | _ | _ <;> rfl

/-- The page a step has just allocated. -/
def Pc.fresh : Pc → Option PageId
  | right _ cut => some cut.new
  | innerRight _ _ _ _ _ _ cut => some cut.new
  | _ => none

structure Latches (σ : State) : Prop where
  idle : ∀ i, σ.next ≤ i → (σ.task i).pc = .idle
  /-- The optimistic Put descends under `root_latch`. -/
  under : ∀ i root node, (σ.task i).pc = .crab root node → (σ.task i).op.isPut = true → root = true
  root : ∀ i j, i ≠ j → clash (σ.task i).pc.rootMode (σ.task j).pc.rootMode = false
  page : ∀ i j p, i ≠ j → clash ((σ.task i).pageMode p) ((σ.task j).pageMode p) = false
  range : ∀ i p, (σ.task i).pageMode p ≠ none → p < σ.store.metaPage.numPages

/- One step. -/

theorem Moves.rootLatch (m : Moves op s pc pc' point s')
    (under : ∀ root node, pc = .crab root node → op.isPut = true → root = true) :
    pc'.rootMode = none ∨ pc'.rootMode = pc.rootMode ∨
      ∃ mode, need op s pc = .root mode ∧ pc'.rootMode = some mode := by
  cases m with
  | start => exact .inr (.inr ⟨_, rfl, rfl⟩)
  | bar => exact .inr (.inr ⟨_, rfl, rfl⟩)
  | swap isLeaf put =>
    obtain rfl := under _ _ rfl put
    exact .inr (.inl rfl)
  | @child _ _ _ root => cases root <;> exact .inr (.inl rfl)
  | @drop _ _ _ _ _ root => cases root <;> exact .inr (.inl rfl)
  | enter | own | descend | down | arrive | absorb | split | right | last | relink | place
  | root | graft | tear | innerRight | innerPlace | seed => exact .inr (.inl rfl)
  | absent | plant | barren | release | get | delete | found | first | shed | write | retreat | unbar
  | dropLeaf | leave | bound | copy | yield | exhaust | hop => exact .inl rfl

def Pc.coupled : Pc → Bool
  | crab .. => true
  | _ => false

theorem pageMode_plain (plain : pc.coupled = false) :
    (Task.mk op pc).pageMode p = if p ∈ pc.exclusives then some .exclusive else none := by
  cases pc with
  | crab => cases plain
  | _ => rfl

theorem pageMode_sub (plain : pc.coupled = false) (plain' : pc'.coupled = false)
    (sub : p ∈ pc'.exclusives → p ∈ pc.exclusives) :
    (Task.mk op pc').pageMode p = none ∨ (Task.mk op pc').pageMode p = (Task.mk op pc).pageMode p := by
  rw [pageMode_plain plain, pageMode_plain plain']
  by_cases mem : p ∈ pc'.exclusives
  · right
    rw [if_pos mem, if_pos (sub mem)]
  · left
    exact if_neg mem

theorem pageMode_cons {q : PageId} (plain : pc.coupled = false) (plain' : pc'.coupled = false)
    (taken : need op s pc = .page q .exclusive ∨ pc'.fresh = some q)
    (sub : p ∈ pc'.exclusives → p = q ∨ p ∈ pc.exclusives) :
    (Task.mk op pc').pageMode p = none ∨ (Task.mk op pc').pageMode p = (Task.mk op pc).pageMode p ∨
      (∃ mode, need op s pc = .page p mode ∧ (Task.mk op pc').pageMode p = some mode) ∨
      pc'.fresh = some p := by
  by_cases mem : p ∈ pc'.exclusives
  · rcases sub mem with rfl | old
    · rw [pageMode_plain plain', if_pos mem]
      exact .inr (.inr (taken.imp (fun h => ⟨_, h, rfl⟩) id))
    · exact (pageMode_sub plain plain' fun _ => old).imp id .inl
  · left
    rw [pageMode_plain plain', if_neg mem]

theorem Moves.pageLatch (m : Moves op s pc pc' point s') (p : PageId) :
    (Task.mk op pc').pageMode p = none ∨ (Task.mk op pc').pageMode p = (Task.mk op pc).pageMode p ∨
      (∃ mode, need op s pc = .page p mode ∧ (Task.mk op pc').pageMode p = some mode) ∨
      pc'.fresh = some p := by
  cases m with
  | start | absent | plant | barren | get | delete | swap | found | first | write | retreat | bar | seed
  | descend | leave | bound | copy | yield | exhaust | hop =>
    left
    exact (pageMode_plain rfl).trans (if_neg List.not_mem_nil)
  | release | shed | unbar => exact .inr (.inl rfl)
  | enter some =>
    by_cases e : p = s.metaPage.rootPageId
    · exact .inr (.inr (.inl ⟨op.mode, by simp [need, some, e], by simp [Task.pageMode, e]⟩))
    · exact .inl (by simp [Task.pageMode, e])
  | @child _ _ _ root node under inner =>
    by_cases e : p = op.child (s.view node)
    · refine .inr (.inr (.inl ⟨op.mode, ?_, by simp [Task.pageMode, e]⟩))
      simp only [need, inner, Bool.false_eq_true, or_false]
      rw [if_neg (by simpa using under), e]
    · exact .inl (by simp [Task.pageMode, e])
  | own | down | arrive =>
    refine pageMode_cons rfl rfl (.inl rfl) ?_
    simp [Pc.exclusives]
  | relink some =>
    refine pageMode_cons rfl rfl (.inl (if_neg some)) ?_
    simp only [Pc.exclusives, Pc.guards, List.mem_cons, List.mem_append]
    tauto
  | split | tear =>
    refine pageMode_cons rfl rfl (.inr rfl) ?_
    simp only [Pc.exclusives, Pc.guards, List.mem_cons, List.mem_append, List.mem_reverse]
    tauto
  | absorb | right | last | place | root | graft | innerRight | innerPlace | drop | dropLeaf =>
    refine (pageMode_sub rfl rfl ?_).imp id .inl
    simp only [Pc.exclusives, Pc.guards, List.mem_cons, List.mem_append, List.mem_reverse]
    tauto

/- Runs. -/

namespace Latches

theorem init (s : Store) (m : RefMap) : Latches (State.init s m) := by
  constructor
  · exact fun _ _ => rfl
  · intro i root node at_
    cases at_
  · exact fun _ _ _ => rfl
  · exact fun _ _ _ _ => rfl
  · exact fun _ _ some => absurd rfl some

theorem same (latches : Latches σ) (pages : s.metaPage.numPages = σ.store.metaPage.numPages) :
    Latches { σ with store := s } := by
  obtain ⟨idle, under, root, page, range⟩ := latches
  exact ⟨idle, under, root, page, fun i p some => (range i p some).trans_eq pages.symm⟩

theorem rootFree {mode : LatchMode} (latches : Latches σ) (free : σ.available i (.root mode) = true)
    (ne : j ≠ i) : clash (σ.task j).pc.rootMode (some mode) = false := by
  by_cases lt : j < σ.next
  · simp only [State.available, decide_eq_true_eq] at free
    exact free j lt ne
  · rw [latches.idle j (not_lt.mp lt)]
    rfl

theorem pageFree {mode : LatchMode} (latches : Latches σ) (free : σ.available i (.page p mode) = true)
    (ne : j ≠ i) : clash ((σ.task j).pageMode p) (some mode) = false := by
  by_cases lt : j < σ.next
  · simp only [State.available, decide_eq_true_eq] at free
    exact free j lt ne
  · rw [Task.pageMode, latches.idle j (not_lt.mp lt)]
    rfl

theorem invoked (latches : Latches σ) (op : Op) : Latches (σ.invoked op) := by
  obtain ⟨idle, under, root, page, range⟩ := latches
  constructor
  · intro j le
    rw [State.invoked_other (Nat.ne_of_gt le)]
    exact idle j (Nat.le_of_succ_le le)
  · exact State.each_invoked (P := fun _ t => ∀ r node, t.pc = .crab r node → t.op.isPut = true → r = true)
      nofun fun j _ => under j
  · intro a
    refine State.each_invoked (P := fun b t => a ≠ b → clash ((σ.invoked op).task a).pc.rootMode
      t.pc.rootMode = false) (fun _ => clash_none_right _) fun b _ => ?_
    exact State.each_invoked (P := fun a t => a ≠ b → clash t.pc.rootMode (σ.task b).pc.rootMode = false)
      (fun _ => rfl) (fun a _ => root a b) a
  · intro a b q
    refine State.each_invoked (P := fun b t => a ≠ b → clash (((σ.invoked op).task a).pageMode q)
      (t.pageMode q) = false) (fun _ => clash_none_right _) (fun b _ => ?_) b
    exact State.each_invoked (P := fun a t => a ≠ b → clash (t.pageMode q) ((σ.task b).pageMode q) = false)
      (fun _ => rfl) (fun a _ => page a b q) a
  · exact State.each_invoked (P := fun _ t => ∀ p, t.pageMode p ≠ none → p < σ.store.metaPage.numPages)
      (fun _ some => absurd rfl some) fun j _ => range j

theorem moved {s : Store} {pc : Pc} (latches : Latches σ) (lt : i < σ.next)
    (ready : σ.available i (need (σ.task i).op σ.store (σ.task i).pc) = true)
    (m : Moves (σ.task i).op σ.store (σ.task i).pc pc point s)
    (acquired : ∀ p mode, need (σ.task i).op σ.store (σ.task i).pc = .page p mode →
      p < σ.store.metaPage.numPages)
    (fresh : ∀ p, pc.fresh = some p → σ.store.metaPage.numPages ≤ p ∧ p < s.metaPage.numPages)
    (grows : σ.store.metaPage.numPages ≤ s.metaPage.numPages) : Latches (σ.moved i s pc point) := by
  have outside : ∀ j p, σ.store.metaPage.numPages ≤ p → (σ.task j).pageMode p = none := fun j p le => by
    by_contra some
    exact absurd (latches.range j p some) (not_lt.mpr le)
  have rootOk : ∀ j, j ≠ i → clash pc.rootMode (σ.task j).pc.rootMode = false := by
    intro j ne
    rcases m.rootLatch (latches.under i) with h | h | ⟨mode, needs, h⟩
    · rw [h]
      rfl
    · rw [h]
      exact latches.root i j ne.symm
    · rw [h, clash_comm]
      rw [needs] at ready
      exact latches.rootFree ready ne
  have pageOk : ∀ j p, j ≠ i →
      clash ((Task.mk (σ.task i).op pc).pageMode p) ((σ.task j).pageMode p) = false := by
    intro j p ne
    rcases m.pageLatch p with h | h | ⟨mode, needs, h⟩ | h
    · rw [h]
      rfl
    · rw [h]
      exact latches.page i j p ne.symm
    · rw [h, clash_comm]
      rw [needs] at ready
      exact latches.pageFree ready ne
    · rw [outside j p (fresh p h).1]
      exact clash_none_right _
  constructor
  · intro j le
    have ne : j ≠ i := fun e => absurd le (not_le.mpr (e ▸ lt))
    rw [State.moved_other ne]
    exact latches.idle j le
  · refine State.each_moved (P := fun _ t => ∀ r node, t.pc = .crab r node → t.op.isPut = true → r = true)
      ?_ fun j _ => latches.under j
    intro r node at_ put
    obtain rfl : pc = .crab r node := at_
    have under := latches.under i
    generalize (σ.task i).op = op at m put under
    generalize (σ.task i).pc = before at m under
    cases m with
    | enter => rfl
    | child => exact under r _ rfl put
    | release no =>
      rw [no] at put
      cases put
  · intro a b ne
    by_cases ha : a = i
    · subst ha
      rw [State.moved_self, State.moved_other ne.symm]
      exact rootOk b ne.symm
    · rw [State.moved_other ha]
      exact State.each_moved (P := fun b t => a ≠ b → clash (σ.task a).pc.rootMode t.pc.rootMode = false)
        (fun ne => (clash_comm _ _).trans (rootOk a ne)) (fun b _ => latches.root a b) b ne
  · intro a b p ne
    by_cases ha : a = i
    · subst ha
      rw [State.moved_self, State.moved_other ne.symm]
      exact pageOk b p ne.symm
    · rw [State.moved_other ha]
      exact State.each_moved (P := fun b t => a ≠ b → clash ((σ.task a).pageMode p) (t.pageMode p) = false)
        (fun ne => (clash_comm _ _).trans (pageOk a p ne)) (fun b _ => latches.page a b p) b ne
  · refine State.each_moved (P := fun _ t => ∀ p, t.pageMode p ≠ none → p < s.metaPage.numPages) ?_
      fun j _ p some => (latches.range j p some).trans_le grows
    intro p some
    rcases m.pageLatch p with h | h | ⟨mode, needs, h⟩ | h
    · exact absurd h some
    · rw [h] at some
      exact (latches.range i p some).trans_le grows
    · exact (acquired p mode needs).trans_le grows
    · exact (fresh p h).2

theorem not_exclusive {mode : LatchMode} (latches : Latches σ) (held : (σ.task i).pageMode p = some mode)
    (ne : j ≠ i) : p ∉ (σ.task j).pc.exclusives := by
  intro mem
  have plain : (σ.task j).pc.coupled = false := by
    cases at_ : (σ.task j).pc with
    | crab =>
      rw [at_] at mem
      cases mem
    | _ => rfl
  have both := latches.page i j p ne.symm
  rw [held, show σ.task j = ⟨(σ.task j).op, (σ.task j).pc⟩ from rfl, pageMode_plain plain,
    if_pos mem] at both
  cases mode <;> cases both

theorem alone (latches : Latches σ) (held : (σ.task i).pageMode p = some .exclusive) (ne : j ≠ i) :
    (σ.task j).pageMode p = none := by
  have both := latches.page i j p ne.symm
  rw [held] at both
  cases mode : (σ.task j).pageMode p with
  | none => rfl
  | some mode =>
    simp [mode, clash] at both

theorem rootAlone (latches : Latches σ) (held : (σ.task i).pc.rootMode = some .exclusive) (ne : j ≠ i) :
    (σ.task j).pc.rootMode = none := by
  have both := latches.root i j ne.symm
  rw [held] at both
  cases mode : (σ.task j).pc.rootMode with
  | none => rfl
  | some mode =>
    simp [mode, clash] at both

end Latches

end PagerDB.Crab

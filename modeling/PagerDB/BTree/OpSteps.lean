import Mathlib.Data.List.Nodup
import PagerDB.Storage.OpGroups

/-! The guards and records of `BPlusTree`'s operations, in the order the code takes and
appends them. What depends on the pages' contents (the path, the fresh pages, whether a
node splits, whether the log wants an image) is a choice of the operation. The root
latch is left out: it only forbids interleavings. -/
namespace PagerDB

open MachineLib

def imageSteps (p : PageId) (opEnd : Bool) : List Step := [.markDirty p, .logImage p opEnd]

def deltaSteps (p : PageId) (opEnd : Bool) : List Step := [.logDelta p opEnd, .stamp p]

/-- What `LogKeyRecord` finds: `NeedsImage` of the page, and a transaction's write. -/
structure KeyLog where
  needsImage : Bool
  needsUndo : Bool
  deriving DecidableEq, Repr

def KeyLog.steps (l : KeyLog) (p : PageId) (opEnd : Bool) : List Step :=
  .markDirty p ::
    if l.needsImage then
      imageSteps p (opEnd && !l.needsUndo) ++ if l.needsUndo then deltaSteps p opEnd else []
    else deltaSteps p opEnd

def crab (mode : LatchMode) : PageId → List PageId → List Step
  | _, [] => []
  | p, q :: below => .latch q mode :: .drop p :: crab mode q below

def leafOf (root : PageId) (below : List PageId) : PageId := below.getLastD root

def descendSteps (mode : LatchMode) (root : PageId) (below : List PageId) : List Step :=
  .latch root mode :: crab mode root below

def latchAll (path : List PageId) : List Step := path.map fun p => .latch p .exclusive

def dropAll (guards : List PageId) : List Step := guards.map .drop

def halveSteps (p new : PageId) : List Step :=
  [.newPage new, .logEvent new false, .init p] ++ imageSteps p false ++
    (.init new :: imageSteps new false)

def splitLeafSteps (leaf new : PageId) (sibling : Option PageId) : List Step :=
  halveSteps leaf new ++ (sibling.elim [] fun q => .latch q .exclusive :: imageSteps q false)

def createNewRootSteps (root : PageId) : List Step :=
  [.newPage root, .logEvent root false, .init root] ++ imageSteps root false ++
    [.logEvent root true]

/-- The separator climbs through the ancestors, nearest first. Each split has its fresh
page and says whether the separator stays left. -/
def propagateSteps : List PageId → List (PageId × Bool) → PageId → List Step
  | [], _, root => createNewRootSteps root
  | parent :: _, [], _ => imageSteps parent true
  | parent :: rest, (new, left) :: splits, root =>
    halveSteps parent new ++ imageSteps (if left then parent else new) false ++
      propagateSteps rest splits root

def propagateGuards : List PageId → List (PageId × Bool) → PageId → List PageId
  | [], _, root => [root]
  | _ :: _, [], _ => []
  | _ :: rest, (new, _) :: splits, root => new :: propagateGuards rest splits root

structure SplitChoice where
  new : PageId
  sibling : Option PageId
  left : Bool
  log : KeyLog
  splits : List (PageId × Bool)
  root : PageId
  deriving DecidableEq, Repr

inductive SlowPut where
  | first (root : PageId)
  /-- The leaf absorbs the record, possibly in place of a grown one. -/
  | fits (root : PageId) (below : List PageId) (replacing : Bool) (log : KeyLog)
  | splits (root : PageId) (below : List PageId) (replacing : Bool) (choice : SplitChoice)
  deriving DecidableEq, Repr

namespace SlowPut

def grownSteps (leaf : PageId) (replacing : Bool) : List Step :=
  if replacing then [.markDirty leaf] else []

def steps : SlowPut → List Step
  | first root =>
    [.newPage root, .init root, .logEvent root false] ++ imageSteps root false ++
      [.logEvent root true, .drop root]
  | fits root below replacing log =>
    let path := root :: below
    let leaf := leafOf root below
    latchAll path ++ grownSteps leaf replacing ++ dropAll path.dropLast ++ log.steps leaf true ++
      [.drop leaf]
  | splits root below replacing c =>
    let path := root :: below
    let leaf := leafOf root below
    latchAll path ++ grownSteps leaf replacing ++ splitLeafSteps leaf c.new c.sibling ++
      c.log.steps (if c.left then leaf else c.new) false ++
      propagateSteps path.dropLast.reverse c.splits c.root ++
      dropAll (propagateGuards path.dropLast.reverse c.splits c.root ++ c.sibling.toList ++
        [c.new] ++ path)

end SlowPut

inductive TreeOp where
  | get (root : PageId) (below : List PageId)
  /-- Without a log choice the key is not there. -/
  | delete (root : PageId) (below : List PageId) (log : Option KeyLog)
  | putFast (root : PageId) (below : List PageId) (log : KeyLog)
  /-- The optimistic descent, unless the tree was empty, and then the pessimistic one. -/
  | putSlow (tried : Option (PageId × List PageId)) (slow : SlowPut)
  deriving DecidableEq, Repr

namespace TreeOp

/-- The shared latch of the leaf is swapped for the exclusive one. -/
def fastSteps (root : PageId) (below : List PageId) : List Step :=
  descendSteps .shared root below ++
    [.drop (leafOf root below), .latch (leafOf root below) .exclusive]

def steps : TreeOp → List Step
  | get root below => descendSteps .shared root below ++ [.drop (leafOf root below)]
  | delete root below log =>
    descendSteps .exclusive root below ++
      log.elim [] (fun l => l.steps (leafOf root below) true) ++ [.drop (leafOf root below)]
  | putFast root below log =>
    fastSteps root below ++ log.steps (leafOf root below) true ++ [.drop (leafOf root below)]
  | putSlow tried slow =>
    tried.elim [] (fun (root, below) => fastSteps root below ++ [.drop (leafOf root below)]) ++
      slow.steps

end TreeOp

/- The operations are in order. -/

section Plays

variable {c : Ctx} {p q new : PageId} {e : Bool} {post : Ctx → Prop}

theorem plays_image (held : c.held p ≠ none)
    (next : ∀ c', c'.held = Function.update c.held p (some .sealed) →
      (e = true → c'.opened = []) → post c') : Plays (imageSteps p e) post c := by
  intro _
  refine ⟨⟨held, fun _ => trivial⟩, fun _ => ⟨⟨.inl ?_, fun _ => trivial⟩, ?_⟩⟩
  · simp [Ctx.after, Step.page, Step.holdAfter]
  · refine next _ ?_ ?_
    · simp [Ctx.after, Step.page, Step.holdAfter]
    · rintro rfl
      rfl

theorem plays_delta (held : c.held p = some .pending ∨ c.held p = some .sealed)
    (next : ∀ c', c'.held = Function.update c.held p (some .sealed) →
      (e = true → c'.opened = []) → post c') : Plays (deltaSteps p e) post c := by
  intro _
  refine ⟨⟨?_, fun _ => trivial⟩, fun _ => ⟨⟨?_, fun _ => trivial⟩, ?_⟩⟩
  · rcases held with h | h <;> simp [Step.allowed, Step.page, h]
  · simpa [Ctx.after, Step.page, Step.holdAfter, Step.allowed] using held
  · refine next _ ?_ ?_
    · simp [Ctx.after, Step.page, Step.holdAfter]
    · rintro rfl
      rfl

theorem plays_keyLog (l : KeyLog) (held : c.held p ≠ none)
    (next : ∀ c', c'.held = Function.update c.held p (some .sealed) →
      (e = true → c'.opened = []) → post c') : Plays (l.steps p e) post c := by
  intro _
  refine ⟨⟨held, fun _ => trivial⟩, ?_⟩
  have marked : (c.after (.markDirty p)).held = Function.update c.held p (some .pending) := rfl
  cases image : l.needsImage with
  | false =>
    simp only [Bool.false_eq_true, if_false]
    refine plays_delta (.inl (by simp [marked])) fun c' held ends => next c' ?_ ends
    rw [held, marked, Function.update_idem]
  | true =>
    simp only [if_true, plays_append]
    refine plays_image (by simp [marked]) fun c₁ held₁ ends₁ => ?_
    rw [marked, Function.update_idem] at held₁
    cases undo : l.needsUndo with
    | false => exact next c₁ held₁ fun end_ => ends₁ (by simp [end_, undo])
    | true =>
      simp only [if_true]
      refine plays_delta (.inr (by simp [held₁])) fun c' held ends => next c' ?_ ends
      rw [held, held₁, Function.update_idem]

theorem plays_halve (held : c.held p ≠ none)
    (next : ∀ c', c.held new = none →
      c'.held = Function.update (Function.update c.held p (some .sealed)) new (some .sealed) →
      post c') : Plays (halveSteps p new) post c := by
  rw [halveSteps, plays_append, plays_append]
  intro fresh
  have free : c.held new = none := fresh
  have ne : p ≠ new := by
    rintro rfl
    exact held free
  refine ⟨⟨trivial, fun _ => trivial⟩, fun _ => ⟨⟨?_, fun _ => trivial⟩, fun _ =>
    ⟨⟨?_, fun _ => trivial⟩, ?_⟩⟩⟩
  · simp [Ctx.after, Step.page, Step.holdAfter, Step.allowed]
  · simpa [Ctx.after, Step.page, Step.holdAfter, Step.allowed, ne] using held
  · refine plays_image (by simp [Ctx.after, Step.page, Step.holdAfter]) fun c₁ held₁ _ => ?_
    have raw : c₁.held = Function.update (Function.update c.held new (some .raw)) p (some .sealed) := by
      rw [held₁]
      simp [Ctx.after, Step.page, Step.holdAfter]
    intro _
    refine ⟨⟨?_, fun _ => trivial⟩, plays_image ?_ fun c' held' _ => next c' free ?_⟩
    · simp [Step.allowed, Step.page, raw, ne.symm]
    · simp [Ctx.after, Step.page, Step.holdAfter]
    · rw [held']
      simp only [Ctx.after, Step.page, Step.holdAfter, Function.update_idem, raw]
      rw [Function.update_comm ne, Function.update_idem]
      exact Function.update_comm ne.symm _ _ _

/-- All guards are in order and nothing else is held. -/
structure Tidy (guards : List PageId) (c : Ctx) : Prop where
  holds : ∀ p ∈ guards, c.held p = some .taken ∨ c.held p = some .sealed
  only : ∀ p, c.held p ≠ none → p ∈ guards

variable {guards : List PageId}

theorem Tidy.held (tidy : Tidy guards c) (h : p ∈ guards) : c.held p ≠ none := by
  rcases tidy.holds p h with h | h <;> simp [h]

theorem Tidy.sealed {c' : Ctx} (tidy : Tidy guards c) (h : p ∈ guards)
    (held : c'.held = Function.update c.held p (some .sealed)) : Tidy guards c' := by
  refine ⟨fun q hq => ?_, fun q hq => ?_⟩
  · rw [held]
    by_cases eq : q = p
    · simp [eq]
    · simpa [eq] using tidy.holds q hq
  · by_cases eq : q = p
    · exact eq ▸ h
    · exact tidy.only q (by simpa [held, eq] using hq)

theorem Tidy.with {c' : Ctx} {h : Hold} (tidy : Tidy guards c) (done : h = .taken ∨ h = .sealed)
    (held : c'.held = Function.update c.held p (some h)) : Tidy (p :: guards) c' := by
  refine ⟨fun q hq => ?_, fun q hq => ?_⟩
  · rw [held]
    by_cases eq : q = p
    · simpa [eq] using done
    · simpa [eq] using tidy.holds q ((List.mem_cons.mp hq).resolve_left eq)
  · by_cases eq : q = p
    · simp [eq]
    · exact List.mem_cons_of_mem _ (tidy.only q (by simpa [held, eq] using hq))

theorem plays_dropAll (clean : ∀ p ∈ guards, Step.allowed (.drop p) (c.held p))
    (closed : c.opened = [])
    (next : ∀ c', c'.opened = [] → (∀ p, c'.held p = if p ∈ guards then none else c.held p) →
      post c') : Plays (dropAll guards) post c := by
  induction guards generalizing c with
  | nil => exact next c closed (by simp)
  | cons p guards ih =>
    have dropped : (c.after (.drop p)).held = Function.update c.held p none := rfl
    refine fun _ => ⟨⟨clean p (by simp), fun _ => by simp [Step.mayRelease, closed]⟩,
      ih (fun q h => ?_) closed fun c' closed' rest => next c' closed' fun q => ?_⟩
    · by_cases eq : q = p
      · simp [dropped, eq, Step.allowed]
      · simpa [dropped, eq] using clean q (List.mem_cons_of_mem _ h)
    · rw [rest q]
      by_cases eq : q = p
      · simp [dropped, eq]
      · simp [dropped, eq]

theorem Ctx.eq_idle (closed : c.opened = []) (none : ∀ p, c.held p = none) : c = Ctx.idle := by
  cases c
  simp only [Ctx.idle, Ctx.mk.injEq]
  exact ⟨funext none, closed⟩

theorem Tidy.plays_drop {guards' : List PageId} (tidy : Tidy guards c) (closed : c.opened = [])
    (same : ∀ p, p ∈ guards' ↔ p ∈ guards) : Plays (dropAll guards') (· = Ctx.idle) c := by
  refine plays_dropAll (fun p h => .inr (tidy.holds p ((same p).mp h))) closed fun c' closed' held =>
    Ctx.eq_idle closed' fun p => ?_
  rw [held]
  split
  · rfl
  · rename_i out
    by_contra held
    exact out ((same p).mpr (tidy.only p held))

theorem plays_latchAll (path : List PageId) (tidy : Tidy guards c) (distinct : guards.Nodup)
    (closed : c.opened = [])
    (next : ∀ c', c'.opened = [] → Tidy (path.reverse ++ guards) c' →
      (path.reverse ++ guards).Nodup → post c') : Plays (latchAll path) post c := by
  induction path generalizing c guards with
  | nil => exact next c closed tidy distinct
  | cons p path ih =>
    intro free
    have new : p ∉ guards := fun h => tidy.held h free
    refine ⟨⟨trivial, fun _ => trivial⟩, ?_⟩
    refine ih (tidy.with (p := p) (.inl rfl) rfl) (List.nodup_cons.mpr ⟨new, distinct⟩) closed
      fun c' closed' tidy' distinct' => ?_
    rw [List.reverse_cons, List.append_assoc] at next
    exact next c' closed' tidy' distinct'

end Plays

/- Descents. -/

section Descend

variable {root p : PageId} {below : List PageId} {rest : List Step} {post : Ctx → Prop}

theorem plays_latch_shared (next : Plays rest post Ctx.idle) :
    Plays (.latch p .shared :: rest) post Ctx.idle := by
  refine fun _ => ⟨⟨trivial, fun _ => trivial⟩, ?_⟩
  have same : Ctx.idle.after (.latch p .shared) = Ctx.idle := by
    simp [Ctx.after, Ctx.idle, Step.page, Step.holdAfter, Step.openedAfter]
  rwa [same]

theorem plays_drop_shared (next : Plays rest post Ctx.idle) :
    Plays (.drop p :: rest) post Ctx.idle := by
  refine fun _ => ⟨⟨.inl rfl, fun h => absurd rfl h⟩, ?_⟩
  have same : Ctx.idle.after (.drop p) = Ctx.idle := by
    simp [Ctx.after, Ctx.idle, Step.page, Step.holdAfter, Step.openedAfter]
  rwa [same]

theorem plays_descend_shared (next : Plays rest post Ctx.idle) :
    Plays (descendSteps .shared root below ++ rest) post Ctx.idle := by
  refine plays_latch_shared ?_
  induction below generalizing root with
  | nil => exact next
  | cons q below ih => exact plays_latch_shared (plays_drop_shared ih)

def Ctx.one (p : PageId) : Ctx := ⟨Function.update (fun _ => none) p (some .taken), []⟩

theorem plays_latch_one (next : Plays rest post (Ctx.one p)) :
    Plays (.latch p .exclusive :: rest) post Ctx.idle :=
  fun _ => ⟨⟨trivial, fun _ => trivial⟩, next⟩

theorem plays_drop_one (next : Plays rest post Ctx.idle) :
    Plays (.drop p :: rest) post (Ctx.one p) := by
  refine fun _ => ⟨⟨.inr (.inl ?_), fun _ => List.not_mem_nil⟩, ?_⟩
  · simp [Ctx.one, Step.page]
  · have same : (Ctx.one p).after (.drop p) = Ctx.idle := by
      simp [Ctx.after, Ctx.one, Ctx.idle, Step.page, Step.holdAfter, Step.openedAfter]
    rwa [same]

theorem plays_crab_exclusive (next : Plays rest post (Ctx.one (leafOf root below))) :
    Plays (crab .exclusive root below ++ rest) post (Ctx.one root) := by
  induction below generalizing root with
  | nil => exact next
  | cons q below ih =>
    intro free
    have ne : q ≠ root := by
      rintro rfl
      simp [Step.possible, Ctx.one, Step.page] at free
    refine ⟨⟨trivial, fun _ => trivial⟩, fun _ => ⟨⟨.inr (.inl ?_), fun _ => List.not_mem_nil⟩, ?_⟩⟩
    · simp [Ctx.after, Ctx.one, Step.page, ne.symm]
    · have moved : ((Ctx.one root).after (.latch q .exclusive)).after (.drop root) = Ctx.one q := by
        simp only [Ctx.after, Ctx.one, Step.page, Step.holdAfter, Step.openedAfter]
        rw [Function.update_comm ne, Function.update_idem]
        congr 2
        exact Function.update_eq_self _ _
      rw [moved]
      refine ih ?_
      rwa [leafOf, List.getLastD_cons] at next

theorem plays_descend_exclusive (next : Plays rest post (Ctx.one (leafOf root below))) :
    Plays (descendSteps .exclusive root below ++ rest) post Ctx.idle :=
  plays_latch_one (plays_crab_exclusive next)

theorem plays_fast (next : Plays rest post (Ctx.one (leafOf root below))) :
    Plays (TreeOp.fastSteps root below ++ rest) post Ctx.idle := by
  rw [TreeOp.fastSteps, List.append_assoc]
  exact plays_descend_shared (plays_drop_shared (plays_latch_one next))

theorem plays_leaf (l : KeyLog) :
    Plays (l.steps p true ++ [.drop p]) (· = Ctx.idle) (Ctx.one p) := by
  rw [plays_append]
  refine plays_keyLog l (by simp [Ctx.one]) fun c held ends => ?_
  have one : ∀ q, c.held q = if q = p then some .sealed else none := by
    intro q
    by_cases eq : q = p <;> simp [held, Ctx.one, eq]
  change Plays (dropAll [p]) _ _
  refine plays_dropAll (fun q h => ?_) (ends rfl) fun c' closed rest =>
    Ctx.eq_idle closed fun q => ?_
  · simp [one, List.mem_singleton.mp h, Step.allowed]
  · rw [rest, one]
    split <;> simp_all

end Descend

/- The pessimistic path. -/

section Slow

variable {c : Ctx} {guards : List PageId} {p leaf : PageId} {post : Ctx → Prop}

theorem Tidy.of_mem {guards' : List PageId} (tidy : Tidy guards c)
    (same : ∀ p, p ∈ guards' ↔ p ∈ guards) : Tidy guards' c :=
  ⟨fun p h => tidy.holds p ((same p).mp h), fun p h => (same p).mpr (tidy.only p h)⟩

theorem plays_newRoot (fresh : c.held p ≠ none)
    (next : ∀ c', c'.held = Function.update c.held p (some .sealed) → c'.opened = [] → post c') :
    Plays (imageSteps p false ++ [.logEvent p true]) post c := by
  rw [plays_append]
  refine plays_image fresh fun c₁ held _ _ => ⟨⟨?_, fun _ => trivial⟩, next _ ?_ rfl⟩
  · simp [Step.allowed, Step.page, held]
  · simp [Ctx.after, Step.page, Step.holdAfter, held]

theorem plays_createNewRoot (tidy : Tidy guards c)
    (next : ∀ c', c'.opened = [] → Tidy (p :: guards) c' → post c') :
    Plays (createNewRootSteps p) post c := by
  rw [createNewRootSteps, List.append_assoc, plays_append]
  refine fun _ => ⟨⟨trivial, fun _ => trivial⟩, fun _ => ⟨⟨?_, fun _ => trivial⟩, fun _ =>
    ⟨⟨?_, fun _ => trivial⟩, ?_⟩⟩⟩
  · simp [Ctx.after, Step.page, Step.holdAfter, Step.allowed]
  · simp [Ctx.after, Step.page, Step.holdAfter, Step.allowed]
  · refine plays_newRoot ?_ fun c' held closed => next c' closed (tidy.with (.inr rfl) ?_)
    · simp [Ctx.after, Step.page, Step.holdAfter]
    · rw [held]
      simp [Ctx.after, Step.page, Step.holdAfter]

theorem plays_propagate {ancestors : List PageId} {splits : List (PageId × Bool)} {root : PageId}
    (tidy : Tidy guards c) (sub : ∀ p ∈ ancestors, p ∈ guards)
    (next : ∀ c', c'.opened = [] → Tidy (propagateGuards ancestors splits root ++ guards) c' →
      post c') : Plays (propagateSteps ancestors splits root) post c := by
  induction ancestors generalizing c guards splits with
  | nil => exact plays_createNewRoot tidy next
  | cons parent rest ih =>
    cases splits with
    | nil =>
      refine plays_image (tidy.held (sub parent (by simp))) fun c' held ends => ?_
      exact next c' (ends rfl) (tidy.sealed (sub parent (by simp)) held)
    | cons split splits =>
      obtain ⟨new, left⟩ := split
      have here := sub parent (by simp)
      simp only [propagateSteps, List.append_assoc, plays_append]
      refine plays_halve (tidy.held here) fun c₁ fresh held₁ => ?_
      have tidy₁ : Tidy (new :: guards) c₁ :=
        Tidy.with (c := ⟨Function.update c.held parent (some .sealed), []⟩) (tidy.sealed here rfl)
          (.inr rfl) held₁
      have half : (if left then parent else new) ∈ new :: guards := by
        cases left <;> simp [here]
      refine plays_image (tidy₁.held half) fun c₂ held₂ _ => ?_
      refine ih (tidy₁.sealed half held₂) (fun p h => ?_) fun c' closed tidy' => next c' closed ?_
      · exact List.mem_cons_of_mem _ (sub p (by simp [h]))
      · refine tidy'.of_mem fun p => ?_
        simp only [propagateGuards, List.cons_append, List.mem_cons, List.mem_append]
        tauto

theorem plays_splitLeaf {new : PageId} {sibling : Option PageId} (held : c.held leaf ≠ none)
    (tidy : Tidy guards ⟨Function.update c.held leaf (some .sealed), []⟩)
    (next : ∀ c', Tidy (sibling.toList ++ new :: guards) c' → post c') :
    Plays (splitLeafSteps leaf new sibling) post c := by
  rw [splitLeafSteps, plays_append]
  refine plays_halve held fun c₁ _ held₁ => ?_
  have tidy₁ : Tidy (new :: guards) c₁ := tidy.with (.inr rfl) held₁
  cases sibling with
  | none => exact next c₁ tidy₁
  | some q =>
    refine fun _ => ⟨⟨trivial, fun _ => trivial⟩, ?_⟩
    refine plays_image (by simp [Ctx.after, Step.page, Step.holdAfter]) fun c' held' _ => next c' ?_
    refine tidy₁.with (.inr rfl) ?_
    rw [held']
    simp [Ctx.after, Step.page, Step.holdAfter]

theorem plays_grown {replacing : Bool} (held : c.held leaf ≠ none)
    (next : ∀ c', (∀ q ≠ leaf, c'.held q = c.held q) → c'.held leaf ≠ none →
      c'.opened = c.opened → post c') : Plays (SlowPut.grownSteps leaf replacing) post c := by
  cases replacing with
  | false => exact next c (fun _ _ => rfl) held rfl
  | true =>
    refine fun _ => ⟨⟨held, fun _ => trivial⟩, next _ (fun q ne => ?_) ?_ rfl⟩
    · simp [Ctx.after, Step.page, ne]
    · simp [Ctx.after, Step.page, Step.holdAfter]

theorem path_eq (root : PageId) (below : List PageId) :
    (root :: below).dropLast ++ [leafOf root below] = root :: below := by
  rw [leafOf, ← List.getLast_eq_getLastD (List.cons_ne_nil root below)]
  exact List.dropLast_append_getLast _

theorem Tidy.idle : Tidy [] Ctx.idle := ⟨fun _ h => absurd h List.not_mem_nil, fun _ h => absurd rfl h⟩

theorem orderly_first (root : PageId) :
    Plays (SlowPut.first root).steps (· = Ctx.idle) Ctx.idle := by
  have split : (SlowPut.first root).steps = [.newPage root, .init root, .logEvent root false] ++
      ((imageSteps root false ++ [.logEvent root true]) ++ dropAll [root]) := rfl
  rw [split, plays_append]
  refine fun _ => ⟨⟨trivial, fun _ => trivial⟩, fun _ => ⟨⟨?_, fun _ => trivial⟩, fun _ =>
    ⟨⟨?_, fun _ => trivial⟩, ?_⟩⟩⟩
  · simp [Ctx.after, Step.page, Step.holdAfter, Step.allowed]
  · simp [Ctx.after, Step.page, Step.holdAfter, Step.allowed]
  · refine plays_append.mpr (plays_newRoot ?_ fun c held closed => ?_)
    · simp [Ctx.after, Step.page, Step.holdAfter]
    · refine Tidy.plays_drop (Tidy.idle.with (p := root) (.inr rfl) ?_) closed fun _ => Iff.rfl
      rw [held]
      simp [Ctx.after, Step.page, Step.holdAfter]

theorem plays_path {root : PageId} {below : List PageId} {replacing : Bool}
    (next : ∀ c, c.opened = [] → leafOf root below ∉ (root :: below).dropLast →
      c.held (leafOf root below) ≠ none →
      Tidy (root :: below) ⟨Function.update c.held (leafOf root below) (some .sealed), []⟩ → post c) :
    Plays (latchAll (root :: below) ++ SlowPut.grownSteps (leafOf root below) replacing) post
      Ctx.idle := by
  rw [plays_append]
  refine plays_latchAll _ Tidy.idle List.nodup_nil rfl fun c₁ closed tidy distinct => ?_
  have tidy : Tidy (root :: below) c₁ := tidy.of_mem fun p => by simp [or_comm]
  have here : leafOf root below ∈ root :: below := List.getLastD_mem_cons
  refine plays_grown (tidy.held here) fun c₂ same held closed₂ =>
    next c₂ (closed₂.trans closed) (fun again => ?_) held ?_
  · have nodup : (root :: below).Nodup := by
      rwa [List.append_nil, List.nodup_reverse] at distinct
    rw [← path_eq root below] at nodup
    exact (List.nodup_append.mp nodup).2.2 _ again _ (by simp) rfl
  · refine tidy.sealed here (funext fun q => ?_)
    by_cases eq : q = leafOf root below
    · simp [eq]
    · simp [eq, same q eq]

theorem orderly_fits (root : PageId) (below : List PageId) (replacing : Bool) (l : KeyLog) :
    Plays (SlowPut.fits root below replacing l).steps (· = Ctx.idle) Ctx.idle := by
  simp only [SlowPut.steps, List.append_assoc]
  rw [← List.append_assoc, plays_append]
  refine plays_path fun c closed apart held tidy => ?_
  have clean : ∀ q ∈ (root :: below).dropLast, Step.allowed (.drop q) (c.held q) := by
    intro q h
    have ne : q ≠ leafOf root below := fun eq => apart (eq ▸ h)
    have := tidy.holds q (List.dropLast_subset _ h)
    simpa [ne, Step.allowed] using Or.inr this
  refine plays_append.mpr (plays_dropAll clean closed fun c₁ closed₁ held₁ => ?_)
  refine plays_append.mpr (plays_keyLog l (by simpa [held₁, apart] using held) fun c₂ held₂ ends => ?_)
  suffices tidy₂ : Tidy [leafOf root below] c₂ from tidy₂.plays_drop (ends rfl) fun _ => Iff.rfl
  refine ⟨fun q h => ?_, fun q h => ?_⟩
  · simp [held₂, List.mem_singleton.mp h]
  · -- the ancestors were let go, and the path was all there was
    by_contra other
    have ne : q ≠ leafOf root below := by simpa using other
    rw [held₂, Function.update_of_ne ne, held₁] at h
    split at h
    · exact h rfl
    · rename_i below_
      have inPath := tidy.only q (by simpa [ne] using h)
      rw [← path_eq root below, List.mem_append] at inPath
      exact inPath.elim below_ other

theorem orderly_splits (root : PageId) (below : List PageId) (replacing : Bool) (ch : SplitChoice) :
    Plays (SlowPut.splits root below replacing ch).steps (· = Ctx.idle) Ctx.idle := by
  simp only [SlowPut.steps, List.append_assoc]
  rw [← List.append_assoc, plays_append]
  refine plays_path fun c _ apart held tidy => ?_
  rw [plays_append]
  refine plays_splitLeaf held tidy fun c₁ tidy₁ => ?_
  have here : leafOf root below ∈ root :: below := List.getLastD_mem_cons
  have half : (if ch.left then leafOf root below else ch.new) ∈
      ch.sibling.toList ++ ch.new :: root :: below := by
    split
    · exact List.mem_append_right _ (List.mem_cons_of_mem _ here)
    · simp
  refine plays_append.mpr (plays_keyLog ch.log (tidy₁.held half) fun c₂ held₂ _ => ?_)
  refine plays_append.mpr (plays_propagate (tidy₁.sealed half held₂) (fun p h => ?_)
    fun c' closed tidy' => tidy'.plays_drop closed fun p => ?_)
  · have inPath := List.dropLast_subset _ (List.mem_reverse.mp h)
    exact List.mem_append_right _ (List.mem_cons_of_mem _ inPath)
  · simp

theorem SlowPut.orderly (s : SlowPut) : Plays s.steps (· = Ctx.idle) Ctx.idle := by
  cases s with
  | first root => exact orderly_first root
  | fits root below replacing log => exact orderly_fits root below replacing log
  | splits root below replacing choice => exact orderly_splits root below replacing choice

theorem TreeOp.orderly (o : TreeOp) : Plays o.steps (· = Ctx.idle) Ctx.idle := by
  cases o with
  | get root below => exact plays_descend_shared (plays_drop_shared rfl)
  | delete root below log =>
    rw [TreeOp.steps, List.append_assoc]
    refine plays_descend_exclusive ?_
    cases log with
    | none => exact plays_drop_one rfl
    | some l => exact plays_leaf l
  | putFast root below log =>
    rw [TreeOp.steps, List.append_assoc]
    exact plays_fast (plays_leaf log)
  | putSlow tried slow =>
    cases tried with
    | none => exact slow.orderly
    | some path =>
      obtain ⟨root, below⟩ := path
      simp only [TreeOp.steps, Option.elim_some, List.append_assoc]
      exact plays_fast (plays_drop_one slow.orderly)

end Slow

/-- A page reaches `data.db` only when the log on disk has all its records and the
op-end records of their groups, and groups do not mix on a page. -/
theorem op_groups_precede_pages (disk : PageId → Bool) (numPages : PageId)
    (events : List (PoolEvent TreeOp)) :
    EveryStep (PoolState.next TreeOp.steps)
        (fun s e => ∀ p, e = .writePage p → Covered s p) (.ofDisk disk numPages) events ∧
      EveryState (PoolState.next TreeOp.steps) (fun s => Unshared s.log) (.ofDisk disk numPages)
        events := by
  have inv : EveryState (PoolState.next TreeOp.steps) PoolState.Inv (.ofDisk disk numPages) events :=
    everyState_invariant (fun s e s' inv run => PoolState.next_inv TreeOp.orderly inv run)
      (PoolState.ofDisk_inv disk numPages)
  refine ⟨?_, inv.imp fun s inv => inv.unshared⟩
  refine everyStep_of_state (I := PoolState.Inv) (P := PoolState.Inv)
    (fun s e s' inv run => PoolState.next_inv TreeOp.orderly inv run) ?_
    (PoolState.ofDisk_inv disk numPages) inv
  rintro s _ s' inv run - p rfl
  simp only [PoolState.next, Option.ite_none_right_eq_some] at run
  exact inv.covered p run.1

/-- The first insert, then an eviction of the leaf it made. -/
example : (run (PoolState.next TreeOp.steps) (.ofDisk (fun _ => false) 2)
    (.start 1 (.putSlow none (.first 2)) :: List.replicate 8 (.step 1) ++
      [.look 2, .grab 2, .enforceWalRule 2, .writePage 2, .evict 2])).isSome := by
  decide

end PagerDB

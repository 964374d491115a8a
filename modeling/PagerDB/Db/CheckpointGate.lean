import Mathlib.Data.Prod.Lex
import PagerDB.BTree.LatchOrder
import PagerDB.Db.StatusOutcome
import PagerDB.Lib.WaitGraph

/-! Calls on the tree and checkpoints, all at once. A write takes the checkpoint latch shared before it
goes to the tree, a checkpoint takes it exclusively and then writes the pages back one by one; while a
checkpoint is pending, new writers sleep at the gate. -/
namespace PagerDB.Gate

open Crab MachineLib

/-- How far a call is in `AcquireWriterLatch`. -/
inductive Door where
  /-- Get and the cursor take no checkpoint latch. -/
  | reader
  | arriving
  /-- Asleep on `gate_cv_`. -/
  | parked
  | latching
  /-- Holds `checkpoint_mu_` shared. -/
  | inside
  | left
  deriving DecidableEq

namespace Door

def outside : Door → Bool
  | arriving | parked | latching => true
  | _ => false

def working : Door → Bool
  | reader | inside => true
  | _ => false

/-- `notify_all`: a sleeper looks at the gate again. -/
def woken : Door → Door
  | parked => arriving
  | door => door

end Door

/-- A checkpoint, from `AcquireCheckpointLatch` to the end of `CheckpointLocked`. -/
inductive Checkpoint where
  | idle
  /-- `pending_ckpts_` is raised and the latch not yet taken. -/
  | draining
  | lowering
  /-- `pending_ckpts_` is lowered and the sleepers are not yet notified. -/
  | notifying
  | alone
  /-- The frames that `FlushAll` has pinned and not yet seen to. -/
  | flushing (rest : List PageId)
  /-- A dirty frame is latched. -/
  | writing (p : PageId) (rest : List PageId)
  | done
  deriving DecidableEq

namespace Checkpoint

def pending : Checkpoint → Bool
  | draining | lowering => true
  | _ => false

def closes : Checkpoint → Bool
  | draining | lowering | notifying => true
  | _ => false

def excludes : Checkpoint → Bool
  | lowering | notifying | alone | flushing _ | writing .. => true
  | _ => false

def running : Checkpoint → Bool
  | alone | flushing _ | writing .. => true
  | _ => false

def pins : Checkpoint → List PageId
  | flushing rest => rest
  | writing p rest => p :: rest
  | _ => []

end Checkpoint

inductive Exec where
  | call (i : Nat)
  | checkpoint (k : Nat)
  deriving DecidableEq

inductive Await where
  | nothing
  | gate
  | latch (mode : LatchMode)
  | root (mode : LatchMode)
  | page (p : PageId) (mode : LatchMode)

def Await.ofNeed : Need → Await
  | .nothing => nothing
  | .root mode => root mode
  | .page p mode => page p mode

structure State where
  tree : Crab.State
  door : Nat → Door
  next : Nat
  checkpoint : Nat → Checkpoint

inductive Event where
  | call (op : Op)
  | look (i : Nat)
  | enter (i : Nat)
  | step (i : Nat)
  /-- A rollback goes on to its next write. -/
  | again (i : Nat) (op : Op)
  | leave (i : Nat)
  | evict (pid : PageId)
  | checkpoint
  | acquire (k : Nat)
  | lower (k : Nat)
  | notify (k : Nat)
  | flushAll (k : Nat) (order : List PageId)
  | grab (k : Nat)
  | write (k : Nat)
  | finish (k : Nat) (begun : Bool)
  /-- A step has failed, or the log has become small. -/
  | giveUp (k : Nat)

def writes : Op → Bool
  | .put .. | .delete .. => true
  | _ => false

def enforceWalRule (p : PageId) (s : Store) : Store :=
  if (s.view p).pageLsn = kInvalidLsn then s else s.onLog LogWriter.flush

def settle (begun : Bool) (s : Store) : Store :=
  if begun then s
  else
    let s := s.marked.persistMeta
    s.onLog (·.truncate s.metaPage.checkpointLsn)

namespace State

def init (s : Store) (m : RefMap) : State := ⟨.init s m, fun _ => .reader, 0, fun _ => .idle⟩

def pending (γ : State) : Bool := ∃ k < γ.next, (γ.checkpoint k).pending = true

/- Who waits for what, and who is in the way. -/

def awaits (γ : State) : Exec → Await
  | .call i =>
    match γ.door i with
    | .parked => .gate
    | .latching => .latch .shared
    | .reader | .inside => .ofNeed (need (γ.tree.task i).op γ.tree.store (γ.tree.task i).pc)
    | .arriving | .left => .nothing
  | .checkpoint k =>
    match γ.checkpoint k with
    | .draining => .latch .exclusive
    | .flushing (p :: _) => if γ.tree.store.isDirty p then .page p .shared else .nothing
    | _ => .nothing

def latchMode (γ : State) : Exec → Option LatchMode
  | .call i => if γ.door i = .inside then some .shared else none
  | .checkpoint k => if (γ.checkpoint k).excludes then some .exclusive else none

def rootMode (γ : State) : Exec → Option LatchMode
  | .call i => (γ.tree.task i).pc.rootMode
  | .checkpoint _ => none

def pageMode (γ : State) (p : PageId) : Exec → Option LatchMode
  | .call i => (γ.tree.task i).pageMode p
  | .checkpoint k =>
    match γ.checkpoint k with
    | .writing q _ => if p = q then some .shared else none
    | _ => none

def closes (γ : State) : Exec → Bool
  | .call _ => false
  | .checkpoint k => (γ.checkpoint k).closes

def bars (γ : State) (b : Exec) : Await → Bool
  | .nothing => false
  | .gate => γ.closes b
  | .latch mode => clash (γ.latchMode b) (some mode)
  | .root mode => clash (γ.rootMode b) (some mode)
  | .page p mode => clash (γ.pageMode p b) (some mode)

/-- The first is blocked on something that the second holds or keeps closed. -/
def Waits (γ : State) (a b : Exec) : Prop := γ.bars b (γ.awaits a) = true

def free (γ : State) (a : Exec) : Bool :=
  (∀ i < γ.tree.next, .call i ≠ a → γ.bars (.call i) (γ.awaits a) = false) ∧
    ∀ k < γ.next, .checkpoint k ≠ a → γ.bars (.checkpoint k) (γ.awaits a) = false

/- Events. -/

def setDoor (γ : State) (i : Nat) (door : Door) : State := { γ with door := Function.update γ.door i door }

def setCheckpoint (γ : State) (k : Nat) (c : Checkpoint) : State :=
  { γ with checkpoint := Function.update γ.checkpoint k c }

def onStore (γ : State) (f : Store → Store) : State :=
  { γ with tree := { γ.tree with store := f γ.tree.store } }

def called (γ : State) (op : Op) (door : Door) : State :=
  { γ.setDoor γ.tree.next door with tree := γ.tree.invoked op }

/-- The tree has answered; it turns away a record that is too large. -/
def returned (γ : State) (i : Nat) : Bool :=
  match (γ.tree.task i).pc, (γ.tree.task i).op with
  | .done _, _ => true
  | .begin, .put key value .. => kMaxLeafRecordBytes < 4 + key.length + value.length
  | _, _ => false

def snapshot (γ : State) (order : List PageId) : Bool :=
  (∀ p ∈ order, (γ.tree.store.cache p).isSome) ∧
    ∀ p < γ.tree.store.metaPage.numPages, (γ.tree.store.cache p).isSome → p ∈ order

def step (γ : State) : Event → Option State
  | .call op => some (γ.called op (if writes op then .arriving else .reader))
  | .look i =>
    if γ.door i = .arriving then some (γ.setDoor i (if γ.pending then .parked else .latching)) else none
  | .enter i => if γ.door i = .latching ∧ γ.free (.call i) then some (γ.setDoor i .inside) else none
  | .step i =>
    if (γ.door i).working ∧ γ.free (.call i) then (γ.tree.step (.step i)).map fun σ => { γ with tree := σ }
    else none
  | .again i op =>
    if γ.door i = .inside ∧ γ.returned i ∧ writes op then some
      ((γ.setDoor i .left).called op .inside) else none
  | .leave i => if γ.door i = .inside ∧ γ.returned i then some (γ.setDoor i .left) else none
  | .evict pid =>
    if ∀ k < γ.next, pid ∉ (γ.checkpoint k).pins then
      (γ.tree.step (.evict pid)).map fun σ => { γ with tree := σ }
    else none
  | .checkpoint => some { γ.setCheckpoint γ.next .draining with next := γ.next + 1 }
  | .acquire k =>
    if γ.checkpoint k = .draining ∧ γ.free (.checkpoint k) then some (γ.setCheckpoint k .lowering) else none
  | .lower k => if γ.checkpoint k = .lowering then some (γ.setCheckpoint k .notifying) else none
  | .notify k =>
    if γ.checkpoint k = .notifying then
      some { γ.setCheckpoint k .alone with door := fun i => (γ.door i).woken }
    else none
  | .flushAll k order =>
    if γ.checkpoint k = .alone ∧ γ.snapshot order then
      some ((γ.onStore (·.onLog LogWriter.flush)).setCheckpoint k (.flushing order))
    else none
  | .grab k =>
    match γ.checkpoint k with
    | .flushing (p :: rest) =>
      if γ.free (.checkpoint k) then
        some (γ.setCheckpoint k (if γ.tree.store.isDirty p then .writing p rest else .flushing rest))
      else none
    | _ => none
  | .write k =>
    match γ.checkpoint k with
    | .writing p rest =>
      some ((γ.onStore fun s => (enforceWalRule p s).writePages fun q => decide (q = p)).setCheckpoint k
        (.flushing rest))
    | _ => none
  | .finish k begun =>
    if γ.checkpoint k = .flushing [] then some ((γ.onStore (settle begun)).setCheckpoint k .done) else none
  | .giveUp k => if (γ.checkpoint k).running then some (γ.setCheckpoint k .done) else none

end State

/- The invariant. -/

open Store WaitGraphLib

variable {γ γ' : State} {g : Ghost} {i k : Nat} {p : PageId} {a b c : Exec}

/-- The tree's own; a call that has yet to be let in has not begun; whoever sleeps at the gate will be
woken by a checkpoint. -/
structure Gated (γ : State) (g : Ghost) : Prop where
  inv : Inv γ.tree g
  waiting : ∀ i, (γ.door i).outside = true → (γ.tree.task i).pc = .begin
  asleep : ∀ i, γ.door i = .parked → ∃ k, (γ.checkpoint k).closes = true
  idle : ∀ k, γ.next ≤ k → γ.checkpoint k = .idle

theorem enforceWalRule_unmoved (p : PageId) (s : Store) : Unmoved s (enforceWalRule p s) := by
  unfold enforceWalRule
  split
  · exact .refl s
  · exact .onLog s _

theorem settle_unmoved (begun : Bool) (s : Store) : Unmoved s (settle begun s) := by
  unfold settle
  split
  · exact .refl s
  · exact (Unmoved.marked s).trans ((Unmoved.persistMeta _).trans (Unmoved.onLog _ _))

namespace Gated

theorem init {s : Store} {m : RefMap} (models : Models s m) : ∃ g, Gated (.init s m) g := by
  obtain ⟨g, inv⟩ := Inv.init models
  exact ⟨g, inv, nofun, nofun, fun _ _ => rfl⟩

theorem setDoor (gated : Gated γ g) {d : Door} (begun : d.outside = true → (γ.tree.task i).pc = .begin)
    (asleep : d = .parked → ∃ k, (γ.checkpoint k).closes = true) : Gated (γ.setDoor i d) g := by
  refine ⟨gated.inv, fun j outside => ?_, fun j parked => ?_, gated.idle⟩
  · simp only [State.setDoor, Function.update_apply] at outside
    split at outside
    · rename_i same
      rw [same]
      exact begun outside
    · exact gated.waiting j outside
  · simp only [State.setDoor, Function.update_apply] at parked
    split at parked
    · exact asleep parked
    · exact gated.asleep j parked

theorem setCheckpoint (gated : Gated γ g) {c : Checkpoint} (old : γ.checkpoint k ≠ .idle)
    (closes : (γ.checkpoint k).closes = true → c.closes = true) : Gated (γ.setCheckpoint k c) g := by
  refine ⟨gated.inv, gated.waiting, fun i parked => ?_, fun j le => ?_⟩
  · obtain ⟨j, closed⟩ := gated.asleep i parked
    refine ⟨j, ?_⟩
    simp only [State.setCheckpoint, Function.update_apply]
    split
    · rename_i same
      subst same
      exact closes closed
    · exact closed
  · have ne : j ≠ k := by
      rintro rfl
      exact old (gated.idle j le)
    exact (Function.update_of_ne ne ..).trans (gated.idle j le)

theorem onStore (gated : Gated γ g) {f : Store → Store} (kept : Unmoved γ.tree.store (f γ.tree.store)) :
    Gated (γ.onStore f) g :=
  ⟨gated.inv.alike kept.alike, gated.waiting, gated.asleep, gated.idle⟩

theorem called (gated : Gated γ g) (op : Op) {d : Door} (awake : d ≠ .parked) :
    ∃ g', Gated (γ.called op d) g' := by
  obtain ⟨g', inv, -⟩ := gated.inv.step (e := .invoke op) rfl
  refine ⟨g', inv, fun j outside => ?_, fun j parked => ?_, gated.idle⟩
  · simp only [State.called, State.setDoor, Function.update_apply] at outside
    split at outside
    · rename_i same
      exact congrArg Task.pc ((congrArg _ same).trans State.invoked_self)
    · rename_i ne
      exact (congrArg Task.pc (State.invoked_other ne)).trans (gated.waiting j outside)
  · simp only [State.called, State.setDoor, Function.update_apply] at parked
    split at parked
    · exact absurd parked awake
    · exact gated.asleep j parked

theorem stepped (gated : Gated γ g) {e : Crab.Event} {σ : Crab.State} (next : γ.tree.step e = some σ)
    (inside : ∀ i, e = .step i → (γ.door i).working = true) (old : ∀ op, e ≠ .invoke op) :
    ∃ g', Gated { γ with tree := σ } g' := by
  obtain ⟨g', inv, -⟩ := gated.inv.step next
  refine ⟨g', inv, fun j outside => ?_, gated.asleep, gated.idle⟩
  have begun := gated.waiting j outside
  rcases State.step_cases next with ⟨op, call, -⟩ | ⟨i, s, pc, point, step, -, -, -, rfl⟩ |
    ⟨pid, s, -, -, rfl⟩
  · exact absurd call (old op)
  · have ne : j ≠ i := by
      rintro rfl
      have working := inside j step
      cases door : γ.door j with
      | reader | inside | left =>
        rw [door] at outside
        cases outside
      | arriving | parked | latching =>
        rw [door] at working
        cases working
    rw [State.moved_other ne]
    exact begun
  · exact begun

theorem looked (gated : Gated γ g) (arriving : γ.door i = .arriving) :
    Gated (γ.setDoor i (if γ.pending then .parked else .latching)) g := by
  refine gated.setDoor (fun _ => gated.waiting i (by rw [arriving]; rfl)) fun parked => ?_
  split at parked
  · rename_i pending
    obtain ⟨k, -, raised⟩ := of_decide_eq_true pending
    refine ⟨k, ?_⟩
    cases phase : γ.checkpoint k with
    | draining | lowering => rfl
    | _ =>
      rw [phase] at raised
      cases raised
  · cases parked

theorem raised (gated : Gated γ g) : Gated { γ.setCheckpoint γ.next .draining
    with next := γ.next + 1 } g := by
  refine ⟨gated.inv, gated.waiting, fun i _ => ⟨γ.next, ?_⟩, fun k le => ?_⟩
  · simp only [State.setCheckpoint, Function.update_self]
    rfl
  · exact (Function.update_of_ne (Nat.ne_of_gt le) ..).trans (gated.idle k (Nat.le_of_succ_le le))

theorem notified (gated : Gated γ g) (notifying : γ.checkpoint k = .notifying) :
    Gated { γ.setCheckpoint k .alone with door := fun i => (γ.door i).woken } g := by
  refine ⟨gated.inv, fun i outside => gated.waiting i ?_, fun i parked => ?_, fun j le => ?_⟩
  · cases door : γ.door i with
    | arriving | parked | latching => rfl
    | reader | inside | left =>
      simp only [door] at outside
      cases outside
  · dsimp only at parked
    cases door : γ.door i <;> rw [door] at parked <;> cases parked
  · have ne : j ≠ k := by
      rintro rfl
      cases notifying.symm.trans (gated.idle j le)
    exact (Function.update_of_ne ne ..).trans (gated.idle j le)

/-- A checkpoint that has opened the gate writes to the file. -/
theorem wrote (gated : Gated γ g) {f : Store → Store} {old new : Checkpoint} (at_ : γ.checkpoint k = old)
    (running : old ≠ .idle) (opened : old.closes = false) (kept : Unmoved γ.tree.store (f γ.tree.store)) :
    Gated ((γ.onStore f).setCheckpoint k new) g := by
  refine (gated.onStore kept).setCheckpoint ?_ fun closes => ?_
  · rw [State.onStore, at_]
    exact running
  · rw [State.onStore, at_, opened] at closes
    cases closes

theorem gaveUp (gated : Gated γ g) (running : (γ.checkpoint k).running = true) :
    Gated (γ.setCheckpoint k .done) g := by
  refine gated.setCheckpoint (fun idle => ?_) fun closes => ?_
  · rw [idle] at running
    cases running
  · cases phase : γ.checkpoint k with
    | alone | flushing | writing =>
      rw [phase] at closes
      cases closes
    | _ =>
      rw [phase] at running
      cases running

theorem next {e : Event} (gated : Gated γ g) (next : γ.step e = some γ') : ∃ g', Gated γ' g' := by
  cases e with
  | call op =>
    cases next
    exact gated.called op (by split <;> exact nofun)
  | look i =>
    obtain ⟨arriving, eq⟩ := Option.ite_none_right_eq_some.mp next
    cases eq
    exact ⟨g, gated.looked arriving⟩
  | enter i | leave i =>
    obtain ⟨-, eq⟩ := Option.ite_none_right_eq_some.mp next
    cases eq
    exact ⟨g, gated.setDoor nofun nofun⟩
  | step i =>
    obtain ⟨⟨working, -⟩, run⟩ := Option.ite_none_right_eq_some.mp next
    obtain ⟨σ, moved, rfl⟩ := Option.map_eq_some_iff.mp run
    refine gated.stepped moved (fun j same => ?_) nofun
    cases same
    exact working
  | again i op =>
    obtain ⟨-, eq⟩ := Option.ite_none_right_eq_some.mp next
    cases eq
    have left : Gated (γ.setDoor i .left) g := gated.setDoor nofun nofun
    exact left.called op nofun
  | evict pid =>
    obtain ⟨-, run⟩ := Option.ite_none_right_eq_some.mp next
    obtain ⟨σ, moved, rfl⟩ := Option.map_eq_some_iff.mp run
    exact gated.stepped moved nofun nofun
  | checkpoint =>
    cases next
    exact ⟨g, gated.raised⟩
  | acquire k =>
    obtain ⟨⟨draining, -⟩, eq⟩ := Option.ite_none_right_eq_some.mp next
    cases eq
    exact ⟨g, gated.setCheckpoint (by rw [draining]; exact nofun) fun _ => rfl⟩
  | lower k =>
    obtain ⟨lowering, eq⟩ := Option.ite_none_right_eq_some.mp next
    cases eq
    exact ⟨g, gated.setCheckpoint (by rw [lowering]; exact nofun) fun _ => rfl⟩
  | notify k =>
    obtain ⟨notifying, eq⟩ := Option.ite_none_right_eq_some.mp next
    cases eq
    exact ⟨g, gated.notified notifying⟩
  | flushAll k order =>
    obtain ⟨⟨alone, -⟩, eq⟩ := Option.ite_none_right_eq_some.mp next
    cases eq
    exact ⟨g, gated.wrote alone nofun rfl (Unmoved.onLog _ _)⟩
  | grab k =>
    simp only [State.step] at next
    split at next
    · rename_i p rest flushing
      obtain ⟨-, eq⟩ := Option.ite_none_right_eq_some.mp next
      cases eq
      exact ⟨g, gated.setCheckpoint (by rw [flushing]; exact nofun) (by rw [flushing]; exact nofun)⟩
    · cases next
  | write k =>
    simp only [State.step] at next
    split at next
    · rename_i p rest writing
      cases next
      exact ⟨g, gated.wrote writing nofun rfl ((enforceWalRule_unmoved p _).trans (Unmoved.writePages _ _))⟩
    · cases next
  | finish k begun =>
    obtain ⟨flushed, eq⟩ := Option.ite_none_right_eq_some.mp next
    cases eq
    exact ⟨g, gated.wrote flushed nofun rfl (settle_unmoved begun _)⟩
  | giveUp k =>
    obtain ⟨running, eq⟩ := Option.ite_none_right_eq_some.mp next
    cases eq
    exact ⟨g, gated.gaveUp running⟩

theorem always {s : Store} {m : RefMap} (models : Models s m) (events : List Event) :
    EveryState State.step (fun γ => ∃ g, Gated γ g) (.init s m) events := by
  refine everyState_invariant ?_ (init models)
  rintro γ e γ' ⟨g, gated⟩ next
  exact gated.next next

end Gated

/- The order of what is waited for. -/

def State.relinks (γ : State) : Exec → Bool
  | .call i => (γ.tree.task i).pc.relinking
  | .checkpoint _ => false

/-- The gate, the checkpoint latch, the root, then pages from the top down, and last a sibling. -/
noncomputable def rank (γ : State) (g : Ghost) (a : Exec) : Nat ×ₗ Nat :=
  match γ.awaits a with
  | .nothing | .gate => toLex (0, 0)
  | .latch _ => toLex (1, 0)
  | .root _ => toLex (2, 0)
  | .page p _ => if γ.relinks a then toLex (4, 0) else toLex (3, g.levelOf p)

theorem need_root {op : Op} {s : Store} {pc : Pc} {mode : LatchMode} (needs : need op s pc = .root mode) :
    pc.rootMode = none ∧ ∀ p, (Task.mk op pc).pageMode p = none := by
  cases pc with
  | begin | slow => exact ⟨rfl, fun p => (pageMode_plain rfl).trans (if_neg List.not_mem_nil)⟩
  | rooted | crab | relink | walk =>
    simp only [need] at needs
    split at needs <;> cases needs
  | _ => cases needs

theorem Gated.awaits (gated : Gated γ g)
    (held : (γ.tree.task i).pc.rootMode ≠ none ∨ ∃ p, (γ.tree.task i).pageMode p ≠ none)
    (waits : γ.awaits (.call i) ≠ .nothing) :
    ∃ q mode, need (γ.tree.task i).op γ.tree.store (γ.tree.task i).pc = .page q mode ∧
      γ.awaits (.call i) = .page q mode := by
  have begun : (γ.tree.task i).pc ≠ .begin := by
    intro begin_
    rw [begin_] at held
    rcases held with root | ⟨p, page⟩
    · exact root rfl
    · refine page ?_
      rw [Task.pageMode, begin_]
      exact if_neg List.not_mem_nil
  have inside : γ.awaits (.call i) = .ofNeed (need (γ.tree.task i).op γ.tree.store (γ.tree.task i).pc) := by
    simp only [State.awaits] at waits ⊢
    cases door : γ.door i with
    | reader | inside => rfl
    | parked | latching => exact absurd (gated.waiting i (by rw [door]; rfl)) begun
    | arriving | left =>
      rw [door] at waits
      exact absurd rfl waits
  cases needs : need (γ.tree.task i).op γ.tree.store (γ.tree.task i).pc with
  | nothing =>
    rw [inside, needs] at waits
    exact absurd rfl waits
  | root mode =>
    obtain ⟨root, pages⟩ := need_root needs
    rcases held with held | ⟨p, held⟩
    · exact absurd root held
    · exact absurd (pages p) held
  | page q mode =>
    rw [needs] at inside
    exact ⟨q, mode, rfl, inside⟩

theorem clash_some {m : Option LatchMode} {mode : LatchMode} (bars : clash m (some mode) = true) :
    m ≠ none := by
  rintro rfl
  cases bars

theorem awaits_excluding (excludes : (γ.checkpoint k).excludes = true)
    (waits : γ.awaits (.checkpoint k) ≠ .nothing) : ∃ q, γ.awaits (.checkpoint k) = .page q .shared := by
  simp only [State.awaits] at waits ⊢
  cases at_ : γ.checkpoint k with
  | flushing rest =>
    cases rest with
    | nil =>
      rw [at_] at waits
      exact absurd rfl waits
    | cons q rest =>
      rw [at_] at waits
      dsimp only at waits ⊢
      split at waits
      · rename_i dirty
        exact ⟨q, if_pos dirty⟩
      · exact absurd rfl waits
  | draining | idle | done =>
    rw [at_] at excludes
    cases excludes
  | lowering | notifying | alone | writing =>
    rw [at_] at waits
    exact absurd rfl waits

theorem lex_lt {m n x y : Nat} (lt : m < n) : toLex (m, x) < toLex (n, y) :=
  Prod.Lex.toLex_lt_toLex.mpr (.inl lt)

theorem rank_page {q : PageId} {mode : LatchMode} (at_ : γ.awaits b = .page q mode) (g : Ghost)
    {n : Nat} (le : n ≤ 2) :
    toLex (n, 0) < rank γ g b := by
  rw [rank, at_]
  dsimp only
  split
  · exact lex_lt (by omega)
  · exact lex_lt (by omega)

/- Who waits for a waiter waits for what comes earlier. -/

namespace Gated

theorem below_gate (closes : γ.closes b = true) (waits : γ.awaits b ≠ .nothing) :
    toLex (0, 0) < rank γ g b := by
  cases b with
  | call j => cases closes
  | checkpoint k =>
    have closes : (γ.checkpoint k).closes = true := closes
    cases phase : γ.checkpoint k with
    | draining =>
      have latch : γ.awaits (.checkpoint k) = .latch .exclusive := by rw [State.awaits, phase]
      rw [rank, latch]
      exact lex_lt Nat.one_pos
    | lowering | notifying =>
      rw [State.awaits, phase] at waits
      exact absurd rfl waits
    | _ =>
      rw [phase] at closes
      cases closes

theorem below_latch (held : γ.latchMode b ≠ none) (waits : γ.awaits b ≠ .nothing) :
    toLex (1, 0) < rank γ g b := by
  cases b with
  | call j =>
    have inside : γ.door j = .inside := by
      by_contra out
      exact held (if_neg out)
    have eq : γ.awaits (.call j) = .ofNeed (need (γ.tree.task j).op γ.tree.store (γ.tree.task j).pc) := by
      rw [State.awaits, inside]
    cases needs : need (γ.tree.task j).op γ.tree.store (γ.tree.task j).pc with
    | nothing =>
      rw [eq, needs] at waits
      exact absurd rfl waits
    | root mode =>
      rw [needs] at eq
      rw [rank, eq]
      exact lex_lt (Nat.lt_succ_self 1)
    | page q mode =>
      rw [needs] at eq
      exact rank_page eq g (Nat.le_succ 1)
  | checkpoint k =>
    have excludes : (γ.checkpoint k).excludes = true := by
      by_contra out
      exact held (if_neg out)
    obtain ⟨q, page⟩ := awaits_excluding excludes waits
    exact rank_page page g (Nat.le_succ 1)

theorem below_root (gated : Gated γ g) (held : γ.rootMode b ≠ none) (waits : γ.awaits b ≠ .nothing) :
    toLex (2, 0) < rank γ g b := by
  cases b with
  | call j =>
    obtain ⟨q, mode, -, page⟩ := gated.awaits (.inl held) waits
    exact rank_page page g le_rfl
  | checkpoint k => exact absurd rfl held

/-- Who holds the page that a split relinks waits for nothing. -/
theorem relinked_waits (gated : Gated γ g) {mode : LatchMode} {j : Nat} (relinks : γ.relinks a = true)
    (at_ : γ.awaits a = .page p mode) (held : γ.pageMode p (.call j) ≠ none) :
    ∀ q mode', need (γ.tree.task j).op γ.tree.store (γ.tree.task j).pc ≠ .page q mode' := by
  intro q mode' needs
  cases a with
  | call i =>
    obtain ⟨sp, cut, pc⟩ := Pc.relinking_cases relinks
    have root : (γ.tree.task i).pc.rootMode ≠ none := by
      rw [pc]
      exact nofun
    obtain ⟨p', mode'', needs', page'⟩ := gated.awaits (.inl root) (by rw [at_]; exact nofun)
    cases at_.symm.trans page'
    cases needs.symm.trans (gated.inv.sibling relinks needs' held)
  | checkpoint k => cases relinks

theorem below_page (gated : Gated γ g) {mode : LatchMode} (at_ : γ.awaits a = .page p mode)
    (held : γ.pageMode p b ≠ none) (waits : γ.awaits b ≠ .nothing) : rank γ g a < rank γ g b := by
  rw [rank, at_]
  dsimp only
  cases b with
  | checkpoint k =>
    -- It writes the page and waits for nothing.
    simp only [State.pageMode] at held
    split at held
    · rename_i q rest writing
      rw [State.awaits, writing] at waits
      exact absurd rfl waits
    · exact absurd rfl held
  | call j =>
    obtain ⟨q, mode', needs, page⟩ := gated.awaits (.inr ⟨p, held⟩) waits
    by_cases relinks : γ.relinks a = true
    · exact absurd needs (gated.relinked_waits relinks at_ held q mode')
    · rw [if_neg relinks, rank, page]
      dsimp only
      by_cases last : γ.relinks (.call j) = true
      · rw [if_pos last]
        exact lex_lt (Nat.lt_succ_self 3)
      · rw [if_neg last]
        exact Prod.Lex.toLex_lt_toLex.mpr (.inr ⟨rfl, (gated.inv.below needs held).resolve_right last⟩)

end Gated

theorem Gated.ascends (gated : Gated γ g) : Ascends γ.Waits (rank γ g) := by
  intro a b c first second
  have waits : γ.awaits b ≠ .nothing := by
    intro none
    rw [State.Waits, none] at second
    cases second
  rw [State.Waits] at first
  cases at_ : γ.awaits a with
  | nothing =>
    rw [at_] at first
    cases first
  | gate =>
    rw [at_] at first
    rw [rank, at_]
    exact below_gate first waits
  | latch mode =>
    rw [at_] at first
    rw [rank, at_]
    exact below_latch (clash_some first) waits
  | root mode =>
    rw [at_] at first
    rw [rank, at_]
    exact gated.below_root (clash_some first) waits
  | page p mode =>
    rw [at_] at first
    exact gated.below_page at_ (clash_some first) waits

/- Whole runs. -/

theorem Gated.finite (gated : Gated γ g) : {a | ∃ b, γ.Waits a b}.Finite := by
  have calls := (Set.finite_lt_nat γ.tree.next).image Exec.call
  have checkpoints := (Set.finite_lt_nat γ.next).image Exec.checkpoint
  refine (calls.union checkpoints).subset ?_
  rintro a ⟨b, waits⟩
  have some : γ.awaits a ≠ .nothing := by
    intro none
    rw [State.Waits, none] at waits
    cases waits
  cases a with
  | call i =>
    refine .inl ⟨i, ?_, rfl⟩
    by_contra le
    have idle := gated.inv.latches.idle i (not_lt.mp le)
    refine some ?_
    cases door : γ.door i with
    | parked | latching => cases idle.symm.trans (gated.waiting i (by rw [door]; rfl))
    | reader | inside =>
      rw [State.awaits, door]
      dsimp only
      rw [idle]
      rfl
    | arriving | left => rw [State.awaits, door]
  | checkpoint k =>
    refine .inr ⟨k, ?_, rfl⟩
    by_contra le
    refine some ?_
    rw [State.awaits, gated.idle k (not_lt.mp le)]

theorem Gated.goes (gated : Gated γ g) (alone : ∀ b, ¬ γ.Waits a b) :
    γ.free a = true ∧ γ.awaits a ≠ .gate := by
  have open_ : ∀ b, γ.bars b (γ.awaits a) = false := fun b => by simpa [State.Waits] using alone b
  refine ⟨?_, fun gate => ?_⟩
  · simp only [State.free, decide_eq_true_eq]
    exact ⟨fun i _ _ => open_ _, fun k _ _ => open_ _⟩
  · cases a with
    | call i =>
      have parked : γ.door i = .parked := by
        simp only [State.awaits] at gate
        cases door : γ.door i with
        | parked => rfl
        | reader | inside =>
          rw [door] at gate
          cases needs : need (γ.tree.task i).op γ.tree.store (γ.tree.task i).pc <;> rw [needs]
            at gate <;> cases gate
        | arriving | latching | left =>
          rw [door] at gate
          cases gate
      obtain ⟨k, closes⟩ := gated.asleep i parked
      have shut := open_ (.checkpoint k)
      rw [gate] at shut
      cases closes.symm.trans shut
    | checkpoint k =>
      simp only [State.awaits] at gate
      split at gate
      · cases gate
      · split at gate <;> cases gate
      · cases gate

/-- Every chain of waiters ends at an execution that can go on. -/
theorem chains_end {s : Store} {m : RefMap} (models : Models s m) (events : List Event) :
    EveryState State.step (fun γ => ∀ a, ∃ b, Relation.ReflTransGen γ.Waits a b ∧ γ.free b = true ∧
      γ.awaits b ≠ .gate) (.init s m) events := by
  refine (Gated.always models events).imp ?_
  rintro γ ⟨g, gated⟩ a
  obtain ⟨b, chain, alone⟩ := gated.ascends.ends gated.finite a
  exact ⟨b, chain, gated.goes alone⟩

theorem no_latch_deadlock {s : Store} {m : RefMap} (models : Models s m) (events : List Event) :
    EveryState State.step (fun γ => ∀ a, ¬ Relation.TransGen γ.Waits a a) (.init s m) events := by
  refine (Gated.always models events).imp ?_
  rintro γ ⟨g, gated⟩
  exact gated.ascends.acyclic

/-- A checkpoint drains the first Put while the second one sleeps at the gate. -/
def drained : List Event :=
  [.call (.put [0] [7] 1 true), .look 0, .enter 0, .checkpoint, .call (.put [1] [8] 2 true), .look 1] ++
    List.replicate 6 (.step 0) ++
    [.leave 0, .acquire 0, .lower 0, .notify 0, .look 1, .flushAll 0 [kFirstDataPage], .grab 0,
      .write 0, .finish 0 false,
      .enter 1]

theorem drained_no_deadlock :
    (run State.step (.init (create ⟨16, by decide⟩ none) fun _ => none) (drained.take 6)).map
        (fun γ => (γ.door 0, γ.door 1, γ.checkpoint 0)) = some (.inside, .parked, .draining) ∧
      (run State.step (.init (create ⟨16, by decide⟩ none) fun _ => none) drained).map
        (fun γ => (γ.door 0, γ.door 1, γ.checkpoint 0)) = some (.left, .inside, .done) ∧
      EveryState State.step (fun γ => ∀ a, ¬ Relation.TransGen γ.Waits a a)
        (.init (create ⟨16, by decide⟩ none) fun _ => none) drained :=
  ⟨by rfl, by rfl, no_latch_deadlock (create_models _ _) drained⟩

theorem drained_goes_on :
    EveryState State.step (fun γ => ∀ a, ∃ b, Relation.ReflTransGen γ.Waits a b ∧ γ.free b = true ∧
      γ.awaits b ≠ .gate) (.init (create ⟨16, by decide⟩ none) fun _ => none) drained :=
  chains_end (create_models _ _) drained

/- A pending checkpoint is overtaken by those only who were past the gate before it. -/

def Event.admits : Event → Option Nat
  | .enter i => some i
  | _ => none

theorem State.pending_of_draining (draining : γ.checkpoint k = .draining) (lt : k < γ.next) :
    γ.pending = true :=
  decide_eq_true ⟨k, lt, by rw [draining]; rfl⟩

theorem State.setDoor_latching {d : Door} {j : Nat} (ne : d ≠ .latching)
    (latching : (γ.setDoor i d).door j = .latching) : γ.door j = .latching ∧ j ≠ i := by
  simp only [State.setDoor, Function.update_apply] at latching
  split at latching
  · exact absurd latching ne
  · rename_i other
    exact ⟨latching, other⟩

theorem Door.woken_latching {d : Door} (latching : d.woken = .latching) : d = .latching := by
  cases d with
  | latching => rfl
  | _ => cases latching

theorem State.step_latching {e : Event} {j : Nat} (pending : γ.pending = true) (next : γ.step e = some γ')
    (latching : γ'.door j = .latching) : γ.door j = .latching ∧ e.admits ≠ some j := by
  have none_ : none ≠ some j := (Option.some_ne_none j).symm
  cases e with
  | call op =>
    cases next
    have turned : (if writes op = true then Door.arriving else .reader) ≠ .latching := by
      split <;> decide
    exact ⟨(State.setDoor_latching (γ := γ) turned latching).1, none_⟩
  | look i =>
    obtain ⟨-, eq⟩ := Option.ite_none_right_eq_some.mp next
    cases eq
    rw [if_pos pending] at latching
    exact ⟨(State.setDoor_latching (by decide) latching).1, none_⟩
  | enter i =>
    obtain ⟨-, eq⟩ := Option.ite_none_right_eq_some.mp next
    cases eq
    obtain ⟨before, other⟩ := State.setDoor_latching (by decide) latching
    exact ⟨before, fun same => other (Option.some.inj same).symm⟩
  | leave i =>
    obtain ⟨-, eq⟩ := Option.ite_none_right_eq_some.mp next
    cases eq
    exact ⟨(State.setDoor_latching (by decide) latching).1, none_⟩
  | again i op =>
    obtain ⟨-, eq⟩ := Option.ite_none_right_eq_some.mp next
    cases eq
    have left : (γ.setDoor i .left).door j = .latching :=
      (State.setDoor_latching (γ := γ.setDoor i .left) (by decide) latching).1
    exact ⟨(State.setDoor_latching (by decide) left).1, none_⟩
  | notify k =>
    obtain ⟨-, eq⟩ := Option.ite_none_right_eq_some.mp next
    cases eq
    exact ⟨Door.woken_latching latching, none_⟩
  | step i | evict pid =>
    obtain ⟨-, run⟩ := Option.ite_none_right_eq_some.mp next
    obtain ⟨σ, -, rfl⟩ := Option.map_eq_some_iff.mp run
    exact ⟨latching, none_⟩
  | checkpoint =>
    cases next
    exact ⟨latching, none_⟩
  | grab k =>
    simp only [State.step] at next
    split at next
    · obtain ⟨-, eq⟩ := Option.ite_none_right_eq_some.mp next
      cases eq
      exact ⟨latching, none_⟩
    · cases next
  | write k =>
    simp only [State.step] at next
    split at next
    · cases next
      exact ⟨latching, none_⟩
    · cases next
  | acquire k | lower k | flushAll k order | finish k begun | giveUp k =>
    obtain ⟨-, eq⟩ := Option.ite_none_right_eq_some.mp next
    cases eq
    exact ⟨latching, none_⟩

theorem State.step_admits {e : Event} {j : Nat} (next : γ.step e = some γ') (admits : e.admits = some j) :
    γ.door j = .latching := by
  cases e with
  | enter i =>
    obtain ⟨⟨latching, -⟩, -⟩ := Option.ite_none_right_eq_some.mp next
    rw [← Option.some.inj admits]
    exact latching
  | _ => cases admits

theorem State.setCheckpoint_draining {c : Checkpoint} {j : Nat} (ne : c ≠ .draining)
    (draining : (γ.setCheckpoint k c).checkpoint j = .draining) : γ.checkpoint j = .draining := by
  simp only [State.setCheckpoint, Function.update_apply] at draining
  split at draining
  · exact absurd draining ne
  · exact draining

theorem State.step_draining {e : Event} {j : Nat} (lt : j < γ.next) (next : γ.step e = some γ') :
    j < γ'.next ∧ (γ'.checkpoint j = .draining → γ.checkpoint j = .draining) := by
  cases e with
  | checkpoint =>
    cases next
    refine ⟨Nat.lt_succ_of_lt lt, fun draining => ?_⟩
    exact (Function.update_of_ne (Nat.ne_of_lt lt) ..).symm.trans draining
  | call op =>
    cases next
    exact ⟨lt, id⟩
  | look i | enter i | leave i | again i op =>
    obtain ⟨-, eq⟩ := Option.ite_none_right_eq_some.mp next
    cases eq
    exact ⟨lt, id⟩
  | step i | evict pid =>
    obtain ⟨-, run⟩ := Option.ite_none_right_eq_some.mp next
    obtain ⟨σ, -, rfl⟩ := Option.map_eq_some_iff.mp run
    exact ⟨lt, id⟩
  | notify k | acquire k | lower k | flushAll k order | finish k begun | giveUp k =>
    obtain ⟨-, eq⟩ := Option.ite_none_right_eq_some.mp next
    cases eq
    exact ⟨lt, fun draining => State.setCheckpoint_draining (by simp) draining⟩
  | grab k =>
    simp only [State.step] at next
    split at next
    · obtain ⟨-, eq⟩ := Option.ite_none_right_eq_some.mp next
      cases eq
      refine ⟨lt, fun draining => State.setCheckpoint_draining ?_ draining⟩
      split <;> simp
    · cases next
  | write k =>
    simp only [State.step] at next
    split at next
    · cases next
      exact ⟨lt, fun draining => State.setCheckpoint_draining (by simp) draining⟩
    · cases next

theorem State.run_draining {events : List Event} {j : Nat} (lt : j < γ.next)
    (reach : run State.step γ events = some γ')
    (draining : γ'.checkpoint j = .draining) : γ.checkpoint j = .draining := by
  induction events generalizing γ with
  | nil =>
    obtain rfl := Option.some.inj reach
    exact draining
  | cons e events ih =>
    obtain ⟨γ₁, next, rest⟩ := Option.bind_eq_some_iff.mp reach
    obtain ⟨lt', back⟩ := State.step_draining lt next
    exact back (ih lt' rest)

/-- Whoever is let in while a checkpoint drains was past the gate when the checkpoint closed it,
and each is let in once. -/
theorem gate_bounds_overtaking {s : Store} {m : RefMap} (models : Models s m) (before later : List Event)
    (reach : run State.step (.init s m) before = some γ) (draining : γ.checkpoint k = .draining)
    (rest : run State.step γ later = some γ') (still : γ'.checkpoint k = .draining) :
    (later.filterMap Event.admits).Nodup ∧ ∀ i ∈ later.filterMap Event.admits, γ.door i = .latching := by
  obtain ⟨g, gated⟩ := (Gated.always models before).last reach
  have lt : k < γ.next := by
    by_contra ge
    cases draining.symm.trans (gated.idle k (not_lt.mp ge))
  clear gated reach
  induction later generalizing γ with
  | nil => exact ⟨List.nodup_nil, List.forall_mem_nil _⟩
  | cons e later ih =>
    obtain ⟨γ₁, next, after⟩ := Option.bind_eq_some_iff.mp rest
    obtain ⟨lt₁, -⟩ := State.step_draining lt next
    have kept : ∀ j, γ₁.door j = .latching → γ.door j = .latching ∧ e.admits ≠ some j := fun j =>
      State.step_latching (State.pending_of_draining draining lt) next
    obtain ⟨once, all⟩ := ih (State.run_draining lt₁ after still) after lt₁
    rw [List.filterMap_cons]
    cases admits : e.admits with
    | none => exact ⟨once, fun i mem => (kept i (all i mem)).1⟩
    | some j =>
      refine ⟨List.nodup_cons.mpr ⟨fun mem => (kept j (all j mem)).2 admits, once⟩, fun i mem => ?_⟩
      rcases List.mem_cons.mp mem with rfl | mem
      · exact State.step_admits next admits
      · exact (kept i (all i mem)).1

theorem late_put_waits : ∃ γ γ' : State,
    run State.step (.init (create ⟨80, by decide⟩ none) fun _ => none)
        [.call (.put [0] [7] 1 true), .look 0, .checkpoint] = some γ ∧
      run State.step γ [.call (.put [1] [8] 2 true), .look 1, .enter 0] = some γ' ∧ γ.door 0 = .latching ∧
      γ'.door 1 = .parked := by
  obtain ⟨γ, reach, draining⟩ : ∃ γ, run State.step (.init (create ⟨80, by decide⟩ none) fun _ => none)
      [.call (.put [0] [7] 1 true), .look 0, .checkpoint] = some γ ∧ γ.checkpoint 0 = .draining :=
        ⟨_, rfl, rfl⟩
  obtain ⟨γ', rest, still, parked⟩ : ∃ γ', run State.step γ [.call (.put [1] [8] 2 true), .look 1,
    .enter 0] = some γ' ∧
      γ'.checkpoint 0 = .draining ∧ γ'.door 1 = .parked := by
    obtain rfl := Option.some.inj reach
    exact ⟨_, rfl, rfl, rfl⟩
  obtain ⟨-, past⟩ := gate_bounds_overtaking (create_models _ _) _ _ reach draining rest still
  exact ⟨γ, γ', reach, rest, past 0 (by decide), parked⟩

end PagerDB.Gate

import Mathlib.Data.List.Induction
import PagerDB.Basic
import PagerDB.Lib.Machine

/-! Pins, latches and the log while many operations run. Contents are left out: an
operation is the list of the guards it takes, the records it appends and the guards
it drops, in its own order; the pool writes pages back and evicts in between. A guard
pins its page and latches it. -/
namespace PagerDB

open MachineLib

inductive LatchMode where
  | shared
  | exclusive
  deriving DecidableEq, Repr

inductive Step where
  | latch (p : PageId) (mode : LatchMode)
  | newPage (p : PageId)
  | init (p : PageId)
  /-- A record that names the page and does not stamp it. -/
  | logEvent (p : PageId) (opEnd : Bool)
  | logDelta (p : PageId) (opEnd : Bool)
  | stamp (p : PageId)
  /-- The image and its stamp are one step under the writer's lock. -/
  | logImage (p : PageId) (opEnd : Bool)
  | markDirty (p : PageId)
  | drop (p : PageId)
  deriving DecidableEq, Repr

/-- What a record says about groups; a transaction marker names no page. -/
structure Entry where
  txid : TxId
  page : Option PageId
  opEnd : Bool
  deriving DecidableEq, Repr

namespace Step

def page : Step → PageId
  | latch p _ | newPage p | init p | logEvent p _ | logDelta p _ | stamp p | logImage p _
  | markDirty p | drop p => p

def entries (t : TxId) : Step → List Entry
  | logEvent p e | logDelta p e | logImage p e => [⟨t, some p, e⟩]
  | _ => []

end Step

/-- A write to `data.db` on its way: the frame was seen dirty, then its latch is held,
then the log is flushed. -/
inductive WriteBack where
  | seen
  | latched
  | enforced
  deriving DecidableEq, Repr

structure Slot where
  stamped : Bool
  dirty : Bool
  deriving DecidableEq, Repr

/-- A page: its frame if it is resident, whether its version on disk has an LSN, and
who holds it. -/
structure Cell where
  frame : Option Slot
  disk : Bool
  exclusive : Option TxId
  shared : List TxId
  writeBacks : List WriteBack
  deriving DecidableEq, Repr

namespace Cell

def ofDisk (stamped : Bool) : Cell := ⟨none, stamped, none, [], []⟩

def latchFree (c : Cell) : Bool :=
  c.exclusive = none ∧ c.shared = [] ∧ .latched ∉ c.writeBacks ∧ .enforced ∉ c.writeBacks

def pinned (c : Cell) : Bool := ¬ (c.exclusive = none ∧ c.shared = [] ∧ c.writeBacks = [])

def slot (c : Cell) : Slot := c.frame.getD ⟨c.disk, false⟩

def setStamped (c : Cell) (b : Bool) : Cell := { c with frame := some ⟨b, c.slot.dirty⟩ }

def setDirty (c : Cell) (b : Bool) : Cell := { c with frame := some ⟨c.slot.stamped, b⟩ }

def advance (c : Cell) (t : TxId) : Step → Option Cell
  | .latch _ .shared =>
    if c.exclusive = none then some { c with frame := some c.slot, shared := t :: c.shared }
    else none
  | .latch _ .exclusive =>
    if c.latchFree then some { c with frame := some c.slot, exclusive := some t } else none
  | .newPage _ =>
    if c.latchFree then
      some { c with frame := some ⟨false, false⟩, disk := false, exclusive := some t }
    else none
  | .init _ => some (c.setStamped false)
  | .logEvent .. => some c
  | .logDelta .. => some c
  | .stamp _ => some (c.setStamped true)
  | .logImage .. => some (c.setStamped true)
  | .markDirty _ => some (c.setDirty true)
  | .drop _ =>
    some (if c.exclusive = some t then { c with exclusive := none }
      else { c with shared := c.shared.erase t })

def move (c : Cell) (a b : WriteBack) : Cell :=
  { c with writeBacks := b :: c.writeBacks.erase a }

def writeOut (c : Cell) : Cell :=
  { c.setDirty false with disk := c.slot.stamped, writeBacks := c.writeBacks.erase .enforced }

end Cell

structure PoolState where
  pages : PageId → Cell
  ops : TxId → Option (List Step)
  running : List TxId
  numPages : PageId
  log : List Entry
  /-- How many records are on disk. -/
  durable : Nat

inductive PoolEvent (ω : Type) where
  | start (t : TxId) (o : ω)
  | step (t : TxId)
  /-- `kBegin`, `kCommit` and `kAbort`; `kCheckpoint` with transaction id 0. -/
  | marker (t : TxId)
  /-- An eviction or `FlushAll` finds a dirty frame and pins it. -/
  | look (p : PageId)
  | grab (p : PageId)
  | enforceWalRule (p : PageId)
  | writePage (p : PageId)
  | evict (p : PageId)
  | flush
  | truncate

namespace PoolState

/-- An opened database: the log is empty after the checkpoint that ends recovery. -/
def ofDisk (disk : PageId → Bool) (numPages : PageId) : PoolState :=
  ⟨fun p => .ofDisk (disk p), fun _ => none, [], numPages, [], 0⟩

def setCell (s : PoolState) (p : PageId) (c : Cell) : PoolState :=
  { s with pages := Function.update s.pages p c }

def setOp (s : PoolState) (t : TxId) (prog : Option (List Step)) : PoolState :=
  { s with ops := Function.update s.ops t prog }

def atEnd (s : PoolState) : Step → Bool
  | .newPage p => p = s.numPages
  | _ => true

def grown (s : PoolState) : Step → PageId
  | .newPage p => p + 1
  | _ => s.numPages

def advance (s : PoolState) (t : TxId) (x : Step) : Option PoolState :=
  if s.atEnd x then
    ((s.pages x.page).advance t x).map fun c =>
      { s.setCell x.page c with numPages := s.grown x, log := s.log ++ x.entries t }
  else none

/-- A page without an LSN was never logged and needs no flush. -/
def enforce (s : PoolState) (p : PageId) : PoolState :=
  { s.setCell p ((s.pages p).move .latched .enforced) with
    durable := if (s.pages p).slot.stamped then s.log.length else s.durable }

/-- A transaction's calls follow one another. Truncation runs with no writer inside. -/
def next {ω : Type} (steps : ω → List Step) (s : PoolState) : PoolEvent ω → Option PoolState
  | .start t o =>
    if s.ops t = none then some { s.setOp t (some (steps o)) with running := t :: s.running }
    else none
  | .step t =>
    match s.ops t with
    | none => none
    | some [] => some { s.setOp t none with running := s.running.filter fun u => decide (u ≠ t) }
    | some (x :: rest) => (s.advance t x).map fun s' => s'.setOp t (some rest)
  | .marker t =>
    if s.ops t = none then some { s with log := s.log ++ [⟨t, none, true⟩] } else none
  | .look p =>
    if (s.pages p).slot.dirty then
      some (s.setCell p { s.pages p with writeBacks := .seen :: (s.pages p).writeBacks })
    else none
  | .grab p =>
    if .seen ∈ (s.pages p).writeBacks ∧ (s.pages p).exclusive = none then
      some (s.setCell p ((s.pages p).move .seen .latched))
    else none
  | .enforceWalRule p =>
    if .latched ∈ (s.pages p).writeBacks then some (s.enforce p) else none
  | .writePage p =>
    if .enforced ∈ (s.pages p).writeBacks then some (s.setCell p (s.pages p).writeOut) else none
  | .evict p =>
    if (s.pages p).slot.dirty ∨ (s.pages p).pinned then none
    else some (s.setCell p { s.pages p with frame := none })
  | .flush => some { s with durable := s.log.length }
  | .truncate => if s.running = [] then some { s with log := [], durable := 0 } else none

end PoolState

/- Groups in the log. -/

def openPages (t : TxId) (log : List Entry) : List PageId :=
  log.foldl (fun acc e => if e.txid = t then (if e.opEnd then [] else e.page.toList ++ acc) else acc) []

theorem openPages_append (t : TxId) (log : List Entry) (e : Entry) : openPages t (log ++ [e]) =
    if e.txid = t then (if e.opEnd then [] else e.page.toList ++ openPages t log)
    else openPages t log := by
  simp [openPages]

/-- Every record of the page is on disk, and so is the op-end record of its group. -/
def Covered (s : PoolState) (p : PageId) : Prop :=
  ∀ (i : Nat) (e : Entry), s.log[i]? = some e → e.page = some p → i < s.durable ∧
    ∃ (j : Nat) (f : Entry), i ≤ j ∧ j < s.durable ∧ s.log[j]? = some f ∧ f.txid = e.txid ∧
      f.opEnd = true

/-- From a group's record on a page to its op-end record, the page is named by that
transaction alone. -/
def Unshared (log : List Entry) : Prop :=
  ∀ (i k : Nat) (a b : Entry) (p : PageId), i < k → log[i]? = some a → log[k]? = some b →
    a.page = some p → b.page = some p →
    (∀ (j : Nat) (f : Entry), i ≤ j → j < k → log[j]? = some f → f.txid = a.txid →
      f.opEnd = false) → b.txid = a.txid

theorem getElem?_snoc {α : Type} {l : List α} {x a : α} {i : Nat} (h : (l ++ [x])[i]? = some a) :
    l[i]? = some a ∨ i = l.length ∧ a = x := by
  rcases Nat.lt_trichotomy i l.length with lt | eq | gt
  · rw [List.getElem?_append_left lt] at h
    exact .inl h
  · subst eq
    simp at h
    exact .inr ⟨rfl, h.symm⟩
  · rw [List.getElem?_eq_none (by simp; omega)] at h
    cases h

theorem getElem?_of_snoc {α : Type} {l : List α} {a : α} {i : Nat} (x : α) (h : l[i]? = some a) :
    (l ++ [x])[i]? = some a := by
  rw [List.getElem?_append_left (List.getElem?_eq_some_iff.mp h).1, h]

theorem mem_openPages {log : List Entry} {i : Nat} {a : Entry} {p : PageId}
    (at_ : log[i]? = some a) (page : a.page = some p)
    (none : ∀ (j : Nat) (f : Entry), i ≤ j → log[j]? = some f → f.txid = a.txid →
      f.opEnd = false) : p ∈ openPages a.txid log := by
  induction log using List.reverseRecOn with
  | nil => cases at_
  | append_singleton log e ih =>
    have last : (log ++ [e])[log.length]? = some e := by simp
    rw [openPages_append]
    rcases getElem?_snoc at_ with old | ⟨rfl, rfl⟩
    · have lt : i ≤ log.length := ((List.getElem?_eq_some_iff.mp old).1).le
      have rest := ih old fun j f le here => none j f le (getElem?_of_snoc e here)
      split
      · rename_i same
        rw [none log.length e lt last same]
        simp [rest]
      · exact rest
    · rw [if_pos rfl, none log.length a le_rfl last rfl]
      simp [page]

theorem ended_of_closed {log : List Entry} {i : Nat} {a : Entry} {p : PageId}
    (at_ : log[i]? = some a) (page : a.page = some p) (closed : p ∉ openPages a.txid log) :
    ∃ (j : Nat) (f : Entry), i ≤ j ∧ log[j]? = some f ∧ f.txid = a.txid ∧ f.opEnd = true := by
  by_contra none
  refine closed (mem_openPages at_ page fun j f le here same => ?_)
  by_contra ends
  exact none ⟨j, f, le, here, same, by simpa using ends⟩

theorem Unshared.append {log : List Entry} {e : Entry} (un : Unshared log)
    (alone : ∀ p t, e.page = some p → p ∈ openPages t log → e.txid = t) :
    Unshared (log ++ [e]) := by
  intro i k a b p lt ha hb pa pb none
  have old : log[i]? = some a := by
    rcases getElem?_snoc ha with ha | ⟨rfl, -⟩
    · exact ha
    · have := (List.getElem?_eq_some_iff.mp hb).1
      simp at this
      omega
  rcases getElem?_snoc hb with hb | ⟨rfl, rfl⟩
  · exact un i k a b p lt old hb pa pb fun j f le lt' here =>
      none j f le lt' (getElem?_of_snoc e here)
  · refine alone p a.txid pb (mem_openPages old pa fun j f le here => ?_)
    exact none j f le (List.getElem?_eq_some_iff.mp here).1 (getElem?_of_snoc b here)

end PagerDB

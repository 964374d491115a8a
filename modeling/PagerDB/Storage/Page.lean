import PagerDB.Basic

/-! A slotted page with its space bookkeeping. The slot directory is the list of
decoded records; what is kept of the record area is the offset where it begins
and how many of its bytes are dead. Offsets of single records are not modelled,
and neither is the checksum: a page that fails it is an unreadable page. -/
namespace PagerDB

/-- What the type byte and the record encodings say a page holds. -/
inductive Body where
  | blank
  | free (next : PageId)
  | leaf (prev next : PageId) (recs : List (Bytes × Bytes))
  | internal (rightmost : PageId) (entries : List (Bytes × PageId))
  deriving DecidableEq

structure Page where
  pageId : PageId
  pageLsn : Lsn
  freeSpaceEnd : Nat
  deadBytes : Nat
  body : Body
  deriving DecidableEq

def leafRecordBytes (r : Bytes × Bytes) : Nat := 4 + r.1.length + r.2.length

def internalRecordBytes (e : Bytes × PageId) : Nat := 6 + e.1.length

namespace Page

/-- A page as the file holds it before its first write. -/
def zeroed : Page := ⟨0, kInvalidLsn, 0, 0, .blank⟩

def init (id : PageId) (body : Body) : Page := ⟨id, kInvalidLsn, kPageSize, 0, body⟩

def stamp (p : Page) (lsn : Lsn) : Page := { p with pageLsn := lsn }

@[simp] theorem stamp_body (p : Page) (lsn : Lsn) : (p.stamp lsn).body = p.body := rfl

def numSlots (p : Page) : Nat :=
  match p.body with
  | .leaf _ _ recs => recs.length
  | .internal _ entries => entries.length
  | _ => 0

def liveBytes (p : Page) : Nat :=
  match p.body with
  | .leaf _ _ recs => (recs.map leafRecordBytes).sum
  | .internal _ entries => (entries.map internalRecordBytes).sum
  | _ => 0

def freeSpaceStart (p : Page) : Nat := kPageHeaderSize + p.numSlots * kSlotEntrySize

def freeSpace (p : Page) : Nat := p.freeSpaceEnd - p.freeSpaceStart

def canFit (p : Page) (length : Nat) : Bool := kSlotEntrySize + length ≤ p.freeSpace

/-- Live records are packed against the end of the page; nothing is dead. -/
def compact (p : Page) : Page :=
  { p with freeSpaceEnd := kPageSize - p.liveBytes, deadBytes := 0 }

/-- Every byte of the record area is live, dead or free, and the slot directory
does not run into it. -/
def Accounted (p : Page) : Prop :=
  p.freeSpaceEnd + p.deadBytes + p.liveBytes = kPageSize ∧ p.freeSpaceStart ≤ p.freeSpaceEnd

instance (p : Page) : Decidable p.Accounted := inferInstanceAs (Decidable (_ ∧ _))

@[simp] theorem stamp_accounted (p : Page) (lsn : Lsn) : (p.stamp lsn).Accounted ↔ p.Accounted :=
  Iff.rfl

end Page

/-- What a crash, or a write that fails, leaves of a page: all of the new one, the old one, or a
mixture that fails its checksum. -/
inductive Fate where
  | kept | lost | torn
  deriving DecidableEq

def Fate.apply {α : Type} [DecidableEq α] (fate : Fate) (new old : Option α) : Option α :=
  match fate with
  | kept => new
  | lost => old
  | torn => if new = old then old else none

theorem Fate.apply_some {α : Type} [DecidableEq α] {fate : Fate} {new old : Option α} {a : α}
    (left : fate.apply new old = some a) : (fate = .kept ∧ new = some a) ∨ old = some a := by
  cases fate with
  | kept => exact .inl ⟨rfl, left⟩
  | lost => exact .inr left
  | torn =>
    obtain ⟨-, left⟩ := Option.ite_none_right_eq_some.mp left
    exact .inr left

end PagerDB

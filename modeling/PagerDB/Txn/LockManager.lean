import PagerDB.Basic

/-! `LockManager`: shared and exclusive locks on keys under wait-die. `Acquire` is
cut at its waits: every pass of its loop scans the holders of the key and then
grants the lock, makes the caller die or blocks it. -/
namespace PagerDB

inductive LockMode where
  | shared
  | exclusive
  deriving DecidableEq, Repr

structure Holder where
  mode : LockMode
  priority : TxId
  deriving DecidableEq, Repr

/-- A pending call of `Acquire`. A smaller priority is an older transaction. -/
structure Request where
  txid : TxId
  priority : TxId
  key : Bytes
  mode : LockMode
  deriving DecidableEq

structure LockManager where
  table : Bytes → Option (List (TxId × Holder))
  held : TxId → Option (List Bytes)

inductive Verdict where
  | grant
  | die
  | wait
  deriving DecidableEq, Repr

/-- Two shared locks are the only compatible pair of different transactions. -/
def conflicts (requester : TxId) (want : LockMode) (holder : TxId) (held : LockMode) : Bool :=
  if holder = requester then false
  else decide (want = .exclusive) || decide (held = .exclusive)

/-- The scan of the holders: is there a conflict, and with an older holder? -/
def scanHolders (r : Request) : List (TxId × Holder) → Bool × Bool
  | [] => (false, false)
  | (holder, held) :: rest =>
    if conflicts r.txid r.mode holder held.mode then
      if held.priority < r.priority then (true, true)
      else (true, (scanHolders r rest).2)
    else scanHolders r rest

namespace LockManager

def empty : LockManager := ⟨fun _ => none, fun _ => none⟩

def holders (lm : LockManager) (key : Bytes) : List (TxId × Holder) := (lm.table key).getD []

def check (lm : LockManager) (r : Request) : Verdict :=
  let (conflict, olderConflict) := scanHolders r (lm.holders r.key)
  if !conflict then .grant else if olderConflict then .die else .wait

/-- The grant: a new holder, or the upgrade of a shared lock already held. -/
def grant (lm : LockManager) (r : Request) : LockManager :=
  let entry := lm.holders r.key
  if (entry.lookup r.txid).isSome then
    let upgraded :=
      if r.mode = .exclusive then
        entry.map fun h => if h.1 = r.txid then (h.1, { h.2 with mode := .exclusive }) else h
      else entry
    { lm with table := fun k => if k = r.key then some upgraded else lm.table k }
  else
    { table := fun k =>
        if k = r.key then some (entry ++ [(r.txid, ⟨r.mode, r.priority⟩)]) else lm.table k
      held := fun t =>
        if t = r.txid then some ((lm.held t).getD [] ++ [r.key]) else lm.held t }

def dropHolder (txid : TxId) (lm : LockManager) (key : Bytes) : LockManager :=
  match lm.table key with
  | none => lm
  | some entry =>
    let rest := entry.filter fun h => decide (h.1 ≠ txid)
    { lm with table := fun k =>
        if k = key then (if rest.isEmpty then none else some rest) else lm.table k }

def releaseAll (lm : LockManager) (txid : TxId) : LockManager :=
  match lm.held txid with
  | none => lm
  | some keys =>
    let lm := keys.foldl (dropHolder txid) lm
    { lm with held := fun t => if t = txid then none else lm.held t }

end LockManager

/- What one pass decides. -/

theorem scanHolders_conflict (r : Request) (entry : List (TxId × Holder)) :
    (scanHolders r entry).1 = true ↔ ∃ h ∈ entry, conflicts r.txid r.mode h.1 h.2.mode = true := by
  induction entry with
  | nil => simp [scanHolders]
  | cons h rest ih =>
    by_cases c : conflicts r.txid r.mode h.1 h.2.mode = true
    · have found : (scanHolders r (h :: rest)).1 = true := by
        simp only [scanHolders, c, if_true]
        split <;> rfl
      exact ⟨fun _ => ⟨h, by simp, c⟩, fun _ => found⟩
    · simp [scanHolders, c, ih]

theorem scanHolders_older (r : Request) (entry : List (TxId × Holder)) :
    (scanHolders r entry).2 = true ↔
      ∃ h ∈ entry, conflicts r.txid r.mode h.1 h.2.mode = true ∧ h.2.priority < r.priority := by
  induction entry with
  | nil => simp [scanHolders]
  | cons h rest ih =>
    by_cases c : conflicts r.txid r.mode h.1 h.2.mode = true
    · by_cases older : h.2.priority < r.priority
      · simp [scanHolders, c, older]
      · simp [scanHolders, c, older, ih]
    · simp [scanHolders, c, ih]

namespace LockManager

variable {lm : LockManager} {r : Request}

theorem check_grant : lm.check r = .grant ↔
    ∀ h ∈ lm.holders r.key, conflicts r.txid r.mode h.1 h.2.mode = false := by
  have scan := scanHolders_conflict r (lm.holders r.key)
  simp only [check]
  cases c : (scanHolders r (lm.holders r.key)).1 with
  | false =>
    simp only [c, Bool.false_eq_true, false_iff, not_exists, not_and, Bool.not_eq_true] at scan
    simpa using fun t m => scan (t, m)
  | true =>
    obtain ⟨h, mem, conflict⟩ := scan.mp c
    constructor
    · intro granted
      simp only [Bool.not_true, Bool.false_eq_true, if_false] at granted
      split at granted <;> cases granted
    · intro free
      rw [free h mem] at conflict
      cases conflict

theorem check_wait (h : lm.check r = .wait) : ∀ h ∈ lm.holders r.key,
    conflicts r.txid r.mode h.1 h.2.mode = true → r.priority ≤ h.2.priority := by
  intro x mem conflict
  by_contra older
  have seen := (scanHolders_older r (lm.holders r.key)).mpr ⟨x, mem, conflict, not_le.mp older⟩
  simp only [check, seen] at h
  split at h <;> cases h

end LockManager

end PagerDB

import PagerDB.Wal.LogSpec

/-! Which records of a log `DbImpl::Recover` applies, and which of them it takes back: those of
transactions that have begun and not ended. -/
namespace PagerDB

/-- The operations still open, by transaction, and the places of the records of complete ones. -/
structure Grouping where
  openGroup : TxId → List Nat
  applicable : List Nat

def Grouping.add (checkpoint : Lsn) (g : Grouping) (record : LogRecord × Nat) : Grouping :=
  if record.1.lsn < checkpoint then g
  else
    let grp := g.openGroup record.1.txid ++ [record.2]
    if record.1.opEnd then ⟨Function.update g.openGroup record.1.txid [], g.applicable ++ grp⟩
    else { g with openGroup := Function.update g.openGroup record.1.txid grp }

def grouping (checkpoint : Lsn) (records : List LogRecord) : Grouping :=
  records.zipIdx.foldl (Grouping.add checkpoint) ⟨fun _ => [], []⟩

def isLoser (checkpoint : Lsn) (records : List LogRecord) (t : TxId) : Bool :=
  (records.any fun r => checkpoint ≤ r.lsn ∧ r.txid = t ∧ r.body = .begin) &&
    !records.any fun r => checkpoint ≤ r.lsn ∧ r.txid = t ∧ (r.body = .commit ∨ r.body = .abort)

/-- The records that the undo loop does not skip, in log order. -/
def lost (checkpoint : Lsn) (records : List LogRecord) : List LogRecord :=
  (records.zipIdx.filter fun r => r.2 ∈ (grouping checkpoint records).applicable ∧ checkpoint ≤ r.1.lsn ∧
    isLoser checkpoint records r.1.txid).map Prod.fst

/-- Whether the undo of a loser's record counts as applied. -/
def LogBody.undoes : LogBody → Bool
  | .put .. => true
  | .delete _ _ before => before.isSome
  | _ => false

theorem lost_isLoser {checkpoint : Lsn} {records : List LogRecord} {r : LogRecord}
    (mem : r ∈ lost checkpoint records) : isLoser checkpoint records r.txid = true := by
  obtain ⟨x, inside, rfl⟩ := List.mem_map.mp mem
  exact (of_decide_eq_true (List.mem_filter.mp inside).2).2.2

end PagerDB

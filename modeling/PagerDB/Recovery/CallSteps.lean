import PagerDB.Recovery.KeyLocks

/-! Every call of a handle is a run of the steps on log, transactions and locks, as long as a write that gets
through is on a key of which no other transaction has a pending write in the log. -/
namespace PagerDB

open KeepsLib Store Relation

namespace DbCall

def author (h : Handle) : DbCall → TxId
  | put .. | delete .. | begin .. => h.nextTxid
  | txnGet t .. | txnPut t .. | txnDelete t .. | commit t .. | abort t .. => t
  | sync .. | checkpoint .. => kInvalidTxId

/-- A write that gets through is on a key of which the log holds no write of another transaction
that has begun
and not ended. -/
def apart (h : Handle) (late : Bool) : DbCall → Bool
  | put key .. | delete key .. => late || decide (KeyFree h.store.records h.nextTxid key)
  | txnPut t key .. | txnDelete t key .. => (h.txns t).all fun x =>
      !(x.active && decide (h.locks.check ⟨t, x.priority, key, .exclusive⟩ = .grant)) ||
        decide (KeyFree h.store.records t key)
  | _ => true

end DbCall

namespace Handle

variable {h h' : Handle} {r : Report} {a t : TxId} {key : Bytes} {x : TxnImpl}

theorem Settles.step (settles : Settles (Trims h.store) h h') : Micro a h h' := by
  obtain ⟨log, same⟩ := settles
  rw [same]
  exact .settled log rfl rfl rfl

end Handle

end PagerDB

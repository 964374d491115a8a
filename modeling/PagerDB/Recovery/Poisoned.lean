import PagerDB.Recovery.CallSteps
import PagerDB.Recovery.Aftermath

/-! What recovery takes back after a handle was poisoned. The log of a failed transaction has
writes and no end,
and its keys are no longer locked; writes are safe from its undo as long as they leave these keys alone. -/
namespace PagerDB

open KeepsLib MachineLib Store

namespace DbCall

/-- The transaction that has still to commit what is acknowledged. -/
def pending : DbCall → Option TxId
  | txnPut t .. | txnDelete t .. => some t
  | _ => none

end DbCall

/-- What a crash may leave in the log that does not lose what was there when `h` had answered. -/
def Handle.CrashLog (h u : Handle) (records : List LogRecord) : Prop :=
  records <+: u.store.records ∧ ∀ r ∈ h.store.records, r ∈ u.store.records → r ∈ records

/-- Recovery does not overwrite the key as `h` has acknowledged it: what it takes back is newer, or of the
transaction that has still to commit. -/
structure Handle.Survives (h : Handle) (pending : Option TxId) (key : Bytes) (u : Handle) : Prop where
  newer : ∀ records, h.CrashLog u records → ∀ checkpoint, ∀ r ∈ lost checkpoint records, r.onKey key = true →
    r ∉ h.store.records ∨ pending = some r.txid
  recovers : ∀ records, h.CrashLog u records → ∀ undoTxid z z₁ z' applied m,
    redoLoop z.metaPage.checkpointLsn records z = .ok applied z₁ → z₁.Maps m →
    recover undoTxid records z = .ok () z' → ∃ m', z'.Maps m' ∧ (m' key = m key ∨
      ∃ r ∈ lost z.metaPage.checkpointLsn records, (r ∉ h.store.records ∨ pending = some r.txid) ∧
        ∃ w, r.body.write = some w ∧ w.key = key ∧ m' key = w.before)

namespace Handle

variable {h h' u : Handle} {r : Report} {t w : TxId} {key : Bytes}

/- Acknowledged writes. -/

/-- It stays so: a record that recovery takes back was of a transaction without an end when the key
was free. -/
theorem Later.spares (guarded : h.Guarded) (later : Later h u) (free : KeyFree h.store.records w key)
    {records : List LogRecord} (crash : h.CrashLog u records) {checkpoint : Lsn} {r : LogRecord}
    (mem : r ∈ lost checkpoint records) (on : r.onKey key = true) (old : r ∈ h.store.records) :
    r.txid = w ∧ unended h.store.records w = true := by
  obtain ⟨⟨b, begun, within, same, begins⟩, live⟩ := isLoser_iff.mp (lost_isLoser mem)
  obtain ⟨kept, new, eq, early, opens⟩ := later.log
  -- the id has a record in the log already, so it can begin no more
  have stale : ¬h.Fresh r.txid := by
    rintro (le | ⟨x, found, unbegun⟩)
    · exact absurd (guarded.ids r old) (not_lt.mpr le)
    · exact guarded.silent _ x found unbegun r old rfl
  have there : b ∈ u.store.records := crash.1.subset begun
  rw [eq] at there
  have there : b ∈ kept := (List.mem_append.mp there).resolve_right fun late =>
    stale (same ▸ opens b late begins)
  have whole : kept = h.store.records := early.resolve_right fun empty => by
    rw [empty] at there
    cases there
  subst whole
  have open_ : unended h.store.records r.txid = true := by
    refine unended_iff.mpr ⟨⟨b, there, same, begins⟩, fun e here owner => ?_⟩
    have kept : e ∈ records := crash.2 e here (by rw [eq]; exact List.mem_append_left _ here)
    exact live e kept (within.trans (guarded.first b there begins e here (owner.trans same.symm))) owner
  have mine : r.txid = w := by
    by_contra other
    cases (free r old on other).symm.trans open_
  exact ⟨mine, mine ▸ open_⟩

end Handle

/- Recovery. -/

section

variable {m : RefMap} {s : Store} {key : Bytes}

theorem Store.Maps.recount (m : RefMap) : KeepsAlways (·.Maps m) recount := by
  refine reads_recount (fun pid s maps => ?_) fun n s maps => ?_
  · cases run : fetchPage pid s with
    | ok _ s' => exact maps.alike (fetchPage_same run).alike
    | error e s' =>
      obtain ⟨io, rfl⟩ := fetchPage_faulted run
      exact maps.alike (Unmoved.facing s io).alike
  · obtain ⟨d, models⟩ := maps
    refine ⟨s.metaPage.numKeys + d - n, ?_⟩
    have same : Store.miscounted { s with metaPage := { s.metaPage with numKeys := n } }
        (s.metaPage.numKeys + d - n) = s.miscounted d := by
      simp only [Store.miscounted, Store.mk.injEq, MetaPage.mk.injEq, true_and, and_true]
      omega
    exact same ▸ models

/-- Recovery takes back what is lost, and nothing else. -/
theorem recover_maps {undoTxid : TxId} {records : List LogRecord} {z z₁ z' : Store} {applied : Bool}
    (redo : redoLoop z.metaPage.checkpointLsn records z = .ok applied z₁) (maps : z₁.Maps m)
    (run : recover undoTxid records z = .ok () z') :
    z'.Maps (undoWrites (writesOf (lost z.metaPage.checkpointLsn records)) m) := by
  simp only [recover, bind_ok, get_run] at run
  obtain ⟨_, _, ⟨rfl, rfl⟩, applied', _, redo', _, z₂, undo, count⟩ := run
  cases redo.symm.trans redo'
  obtain ⟨d, models⟩ := maps
  have undone := undoLoop_writes models ((Blindly.undoLoop undoTxid _).ok undo)
  rw [List.reverse_reverse] at undone
  rcases onlyIf_ok.mp count with ⟨-, count⟩ | ⟨-, rfl⟩
  · have kept := Store.Maps.recount _ z₂ ⟨d, undone⟩
    rwa [count] at kept
  · exact ⟨d, undone⟩

theorem undoWrites_key (ws : List Write) (m : RefMap) (key : Bytes) :
    undoWrites ws m key = m key ∨ ∃ w ∈ ws, w.key = key ∧ undoWrites ws m key = w.before := by
  induction ws with
  | nil => exact .inl rfl
  | cons w rest ih =>
    have older : undoWrites rest m key = m key ∨ ∃ v ∈ w :: rest, v.key = key ∧
      undoWrites rest m key = v.before :=
      ih.imp_right fun ⟨v, mem, same, back⟩ => ⟨v, List.mem_cons_of_mem _ mem, same, back⟩
    change w.undo (undoWrites rest m) key = m key ∨ ∃ v ∈ w :: rest, v.key = key ∧
      w.undo (undoWrites rest m) key = v.before
    by_cases same : w.key = key
    · unfold Write.undo
      split
      · exact older
      · exact .inr ⟨w, List.mem_cons_self, same, by rw [← same, Function.update_self]⟩
    · rw [Write.undo_other (Ne.symm same)]
      exact older

end

theorem Handle.Later.survives {h u : Handle} {w : TxId} {key : Bytes} {pending : Option TxId}
    (guarded : h.Guarded)
    (later : Handle.Later h u) (free : KeyFree h.store.records w key)
    (ended : unended h.store.records w = false ∨ pending = some w) : h.Survives pending key u := by
  have newer : ∀ records, h.CrashLog u records →
    ∀ checkpoint, ∀ r ∈ lost checkpoint records, r.onKey key = true →
      r ∉ h.store.records ∨ pending = some r.txid := by
    intro records crash checkpoint r mem on
    by_cases old : r ∈ h.store.records
    · obtain ⟨rfl, open_⟩ := later.spares guarded free crash mem on old
      refine .inr (ended.resolve_left fun closed => ?_)
      cases open_.symm.trans closed
    · exact .inl old
  refine ⟨newer, fun records crash undoTxid z z₁ z' applied m redo maps run => ?_⟩
  refine ⟨_, recover_maps redo maps run, (undoWrites_key _ m key).imp_right ?_⟩
  rintro ⟨w, mem, same, back⟩
  obtain ⟨r, inside, write⟩ := mem_writesOf.mp mem
  exact ⟨r, inside, newer records crash _ r inside (LogRecord.onKey_iff.mpr ⟨w, write, same⟩), w,
    write, same, back⟩

namespace Traffic

variable {s s' : Traffic}

end Traffic

def DbCall.alone (c : DbCall) : List TrafficEvent := [.enter 0 c, .finish 0]

end PagerDB

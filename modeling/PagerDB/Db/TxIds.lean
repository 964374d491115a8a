import PagerDB.Db.Life

/-! Transaction ids in the log. The counter restarts with each run, and only the truncation at
the end of recovery keeps two runs from sharing an id; the undo pass comes before it, and its id
is always 1. -/
namespace PagerDB

open MachineLib

namespace Journal

def OneWriterFrom (j : Journal) (ck : Lsn) : Prop :=
  ∀ r ∈ recordsOf j.wal.chunks, ∀ r' ∈ recordsOf j.wal.chunks, ck ≤ r.lsn → ck ≤ r'.lsn →
    r.txid = r'.txid → r.txid ≠ kInvalidTxId → j.owner r.lsn = j.owner r'.lsn

/-- What `Recover` groups by id was written by one operation, transaction or undo pass. -/
def OneWriter (j : Journal) : Prop :=
  ∀ c, pickMeta j.synced = some c → j.OneWriterFrom c.checkpointLsn

def Mine (j : Journal) (ck : Lsn) (txid : TxId) : Prop :=
  ∀ r ∈ recordsOf j.wal.chunks, ck ≤ r.lsn → r.txid = txid → j.owner r.lsn = j.holder txid

/-- In a run that has no log to recover from, every record is of the run. -/
structure Attributed (j : Journal) (last : MetaCopy) : Prop where
  settled : j.Settled last
  one : j.OneWriterFrom last.checkpointLsn
  running : j.proc = .running → ∀ r ∈ recordsOf j.wal.chunks, r.txid ≠ kInvalidTxId →
    r.txid < j.nextTxid ∧ j.owner r.lsn = j.holder r.txid

variable {j j' : Journal} {last : MetaCopy}

theorem Settled.owner_append (settled : j.Settled last) (txid : TxId) (opEnd : Bool)
    (body : LogBody) {r : LogRecord} (mem : r ∈ recordsOf j.wal.chunks) :
    (j.append txid opEnd body).owner r.lsn = j.owner r.lsn :=
  Function.update_of_ne (Nat.ne_of_lt (settled.below_end mem)) _ _

theorem owner_self (j : Journal) (txid : TxId) (opEnd : Bool) (body : LogBody) :
    (j.append txid opEnd body).owner j.wal.endLsn = j.holder txid :=
  Function.update_self _ _ _

namespace Attributed

theorem create : Journal.create.Attributed ⟨0, kInvalidLsn⟩ := ⟨.create, nofun, nofun⟩

theorem oneWriter (attributed : j.Attributed last) : j.OneWriter := by
  intro c picked
  rw [attributed.settled.newest] at picked
  obtain rfl := Option.some.inj picked
  exact attributed.one

theorem mine (attributed : j.Attributed last) (up : j.proc = .running) {txid : TxId}
    (valid : txid ≠ kInvalidTxId) : j.Mine last.checkpointLsn txid := by
  rintro r mem - rfl
  exact (attributed.running up r mem valid).2

theorem append (attributed : j.Attributed last) (up : j.proc ≠ .down) (idle : j.ckpt = .idle)
    {txid : TxId} (opEnd : Bool) (body : LogBody) (id : txid = kInvalidTxId ∨ txid < j.nextTxid)
    (mine : txid ≠ kInvalidTxId → j.Mine last.checkpointLsn txid) :
    (j.append txid opEnd body).Attributed last := by
  have settled := attributed.settled
  have old := fun r mem => settled.owner_append txid opEnd body (r := r) mem
  have new := j.owner_self txid opEnd body
  refine ⟨settled.append up idle txid opEnd body, ?_, fun up' r mem valid => ?_⟩
  · intro r mem r' mem' past past' same valid
    rw [records_append] at mem mem'
    rcases List.mem_append.mp mem with here | here
    · rcases List.mem_append.mp mem' with here' | here'
      · rw [old r here, old r' here']
        exact attributed.one r here r' here' past past' same valid
      · obtain rfl := List.mem_singleton.mp here'
        rw [old r here]
        exact (mine (fun zero => valid (same.trans zero)) r here past same).trans new.symm
    · obtain rfl := List.mem_singleton.mp here
      rcases List.mem_append.mp mem' with here' | here'
      · rw [old r' here']
        exact new.trans (mine valid r' here' past' same.symm).symm
      · obtain rfl := List.mem_singleton.mp here'
        rfl
  · rw [records_append] at mem
    rcases List.mem_append.mp mem with here | here
    · rw [old r here]
      exact attributed.running up' r here valid
    · obtain rfl := List.mem_singleton.mp here
      exact ⟨id.resolve_left valid, new⟩

theorem same (attributed : j.Attributed last) (settled : j'.Settled last)
    (records : recordsOf j'.wal.chunks = recordsOf j.wal.chunks) (owner : j'.owner = j.owner)
    (holder : j'.holder = j.holder) (next : j'.nextTxid = j.nextTxid)
    (up : j'.proc = j.proc) : j'.Attributed last := by
  refine ⟨settled, ?_, ?_⟩
  · unfold OneWriterFrom
    rw [records, owner]
    exact attributed.one
  · rw [records, owner, holder, next, up]
    exact attributed.running

theorem draw (attributed : j.Attributed last) : j.draw.Attributed last := by
  refine ⟨attributed.settled.draw, attributed.one, fun up r mem valid => ?_⟩
  obtain ⟨known, owner⟩ := attributed.running up r mem valid
  refine ⟨Nat.lt_succ_of_lt known, owner.trans ?_⟩
  exact (Function.update_of_ne (Nat.ne_of_lt known) _ _).symm

theorem flush (attributed : j.Attributed last) (up : j.proc ≠ .down) : j.flush.Attributed last :=
  attributed.same (attributed.settled.flush up) j.records_flush rfl rfl rfl rfl

theorem mark (attributed : j.Attributed last) (up : j.proc ≠ .down) (idle : j.ckpt = .idle) :
    j.mark.Attributed last := by
  have marker := attributed.append up idle true .checkpoint (.inl rfl) fun valid => absurd rfl valid
  exact (marker.flush up).same (attributed.settled.mark up idle) rfl rfl rfl rfl rfl

theorem writeMeta (attributed : j.Attributed last) (marked : j.ckpt = .marked) :
    j.writeMeta.Attributed last :=
  attributed.same (attributed.settled.writeMeta marked) rfl rfl rfl rfl rfl

theorem past_end (settled : j.Settled last) (busy : j.ckpt ≠ .idle) :
    j.OneWriterFrom j.metaPage.checkpointLsn :=
  fun _ mem _ _ past => absurd (settled.below_next busy mem) (not_lt.mpr past)

theorem syncMeta (attributed : j.Attributed last) (metaWritten : j.ckpt = .metaWritten) :
    j.syncMeta.Attributed j.metaPage := by
  have one := past_end attributed.settled (by rw [metaWritten]; nofun)
  exact ⟨attributed.settled.syncMeta metaWritten, one, attributed.running⟩

theorem truncate (attributed : j.Attributed last) (metaSynced : j.ckpt = .metaSynced) :
    j.truncate.Attributed last :=
  ⟨attributed.settled.truncate metaSynced, nofun, nofun⟩

theorem crash (attributed : j.Attributed last) (bytes : Nat) (metas : Bool → Fate) :
    ∃ last', (j.crash bytes metas).Attributed last' := by
  obtain ⟨last', which, settled, -⟩ := attributed.settled.crash bytes metas
  have kept := (j.records_crash bytes metas).subset
  have one : j.OneWriterFrom last'.checkpointLsn := by
    rcases which with rfl | ⟨metaWritten, rfl⟩
    · exact attributed.one
    · exact past_end attributed.settled (by rw [metaWritten]; nofun)
  exact ⟨last', settled, fun r mem r' mem' => one r (kept mem) r' (kept mem'), nofun⟩

theorem reopen (attributed : j.Attributed last) (down : j.proc = .down) {c : MetaCopy}
    (picked : pickMeta j.written = some c) : (j.reopen c).Attributed last := by
  obtain ⟨rfl, settled, -⟩ := attributed.settled.reopen down picked
  obtain ⟨wal, -⟩ := j.reopen_shape c
  have records := attributed.settled.records_reopen down c
  have owner : (j.reopen c).owner = j.owner := by
    unfold Journal.reopen
    split <;> rfl
  refine ⟨settled, ?_, fun up r mem => ?_⟩
  · unfold OneWriterFrom
    rw [records, owner]
    exact attributed.one
  · -- nothing to recover from: the log has no bytes
    unfold Journal.reopen at up
    split at up
    · rename_i empty
      rw [wal, LogWriter.open_chunks] at mem
      rw [recordsOf_of_no_bytes empty] at mem
      cases mem
    · cases up

end Attributed

/-- Ids are of draws, and a recovery has drawn one only: what carries it was in the log before, from an
older draw, or is the undo pass's own. -/
structure Tracked (j : Journal) : Prop where
  holders : ∀ t, 0 < t → t < j.nextTxid → j.holder t < j.draws
  drawn : ∀ r ∈ recordsOf j.wal.chunks, r.txid ≠ kInvalidTxId → j.owner r.lsn < j.draws
  undoPass : j.proc = .recovering → j.nextTxid = 2
  older : j.proc = .recovering → ∀ r ∈ j.left,
    r ∈ recordsOf j.wal.chunks ∧ (r.txid = 1 → j.owner r.lsn < j.holder 1)
  own : j.proc = .recovering → ∀ r ∈ recordsOf j.wal.chunks, r.txid = 1 →
    r ∈ j.left ∨ j.owner r.lsn = j.holder 1

namespace Tracked

theorem create : Journal.create.Tracked :=
  ⟨fun _ pos below => absurd pos (not_lt.mpr (Nat.lt_succ_iff.mp below)), nofun, nofun, nofun, nofun⟩

theorem same (tracked : j.Tracked) (records : recordsOf j'.wal.chunks = recordsOf j.wal.chunks)
    (owner : j'.owner = j.owner) (holder : j'.holder = j.holder) (draws : j'.draws = j.draws)
    (next : j'.nextTxid = j.nextTxid) (left : j'.left = j.left)
    (up : j'.proc = .recovering → j.proc = .recovering) : j'.Tracked where
  holders := by rw [holder, draws, next]; exact tracked.holders
  drawn := by rw [records, owner, draws]; exact tracked.drawn
  undoPass := fun late => by rw [next]; exact tracked.undoPass (up late)
  older := fun late => by rw [left, records, owner, holder]; exact tracked.older (up late)
  own := fun late => by rw [records, left, owner, holder]; exact tracked.own (up late)

theorem draw (tracked : j.Tracked) (up : j.proc = .running) : j.draw.Tracked where
  holders t pos below := by
    change Function.update j.holder j.nextTxid j.draws t < j.draws + 1
    by_cases new : t = j.nextTxid
    · rw [new, Function.update_self]
      exact Nat.lt_succ_self _
    · rw [Function.update_of_ne new]
      exact Nat.lt_succ_of_lt (tracked.holders t pos (lt_of_le_of_ne (Nat.lt_succ_iff.mp below) new))
  drawn r mem valid := Nat.lt_succ_of_lt (tracked.drawn r mem valid)
  undoPass late := nomatch up.symm.trans late
  older late := nomatch up.symm.trans late
  own late := nomatch up.symm.trans late

theorem append (tracked : j.Tracked) (settled : j.Settled last) {txid : TxId} (opEnd : Bool)
    (body : LogBody) (id : txid = kInvalidTxId ∨ txid < j.nextTxid) :
    (j.append txid opEnd body).Tracked := by
  have old := fun r mem => settled.owner_append txid opEnd body (r := r) mem
  have new := j.owner_self txid opEnd body
  refine ⟨tracked.holders, fun r mem valid => ?_, tracked.undoPass, fun late r mem => ?_,
    fun late r mem one => ?_⟩
  · rw [records_append] at mem
    rcases List.mem_append.mp mem with here | here
    · rw [old r here]
      exact tracked.drawn r here valid
    · obtain rfl := List.mem_singleton.mp here
      exact new.trans_lt (tracked.holders txid (Nat.pos_of_ne_zero valid) (id.resolve_left valid))
  · obtain ⟨here, less⟩ := tracked.older late r mem
    rw [records_append, old r here]
    exact ⟨List.mem_append_left _ here, less⟩
  · rw [records_append] at mem
    rcases List.mem_append.mp mem with here | here
    · rw [old r here]
      exact tracked.own late r here one
    · obtain rfl := List.mem_singleton.mp here
      obtain rfl : txid = 1 := one
      exact .inr new

theorem reopen (tracked : j.Tracked) (settled : j.Settled last) (down : j.proc = .down) (c : MetaCopy) :
    (j.reopen c).Tracked := by
  have records := settled.records_reopen down c
  have none : ∀ t, 0 < t → ¬ t < 1 := fun t pos below => absurd pos (not_lt.mpr (Nat.lt_succ_iff.mp below))
  unfold Journal.reopen at records ⊢
  split at records
  · rename_i empty
    rw [if_pos empty]
    exact ⟨fun t pos below => absurd below (none t pos), fun r mem =>
      tracked.drawn r (records ▸ mem), nofun, nofun,
      nofun⟩
  · rename_i some_
    rw [if_neg some_]
    have one : Function.update j.holder 1 j.draws 1 = j.draws := Function.update_self _ _ _
    refine ⟨fun t pos below => ?_, fun r mem valid =>
      Nat.lt_succ_of_lt (tracked.drawn r (records ▸ mem) valid),
      fun _ => rfl, fun _ r mem => ⟨records.symm ▸ mem, fun id => ?_⟩, fun _ r mem _ => .inl (records ▸ mem)⟩
    · obtain rfl : t = 1 := le_antisymm (Nat.lt_succ_iff.mp below) pos
      exact one.trans_lt (Nat.lt_succ_self _)
    · exact (tracked.drawn r mem (by rw [id]; exact Nat.one_ne_zero)).trans_eq one.symm

theorem move (move : j.Move j') (tracked : j.Tracked) (settled : j.Settled last) : j'.Tracked := by
  cases move with
  | draw up => exact tracked.draw up
  | append txid opEnd body up idle id => exact tracked.append settled opEnd body id
  | flush up => exact tracked.same j.records_flush rfl rfl rfl rfl rfl id
  | mark up idle =>
    exact (tracked.append settled true .checkpoint (.inl rfl)).same
      j.appendMarker.records_flush rfl rfl rfl rfl rfl id
  | writeMeta marked => exact tracked.same rfl rfl rfl rfl rfl rfl id
  | failMeta fate fails marked => exact tracked.same rfl rfl rfl rfl rfl rfl id
  | syncMeta metaWritten => exact tracked.same rfl rfl rfl rfl rfl rfl id
  | truncate metaSynced => exact ⟨tracked.holders, nofun, nofun, nofun, nofun⟩
  | crash bytes metas up =>
    have kept := (j.records_crash bytes metas).subset
    exact ⟨tracked.holders, fun r mem => tracked.drawn r (kept mem), nofun, nofun, nofun⟩
  | reopen c down picked => exact tracked.reopen settled down c

end Tracked

end Journal

namespace Life

variable {s s' : Life}

/-- The crashed log that is being recovered from has a loser's write to take back and, at or after the
durable checkpoint, a record of id 1. -/
def sharesUndoId (s : Life) : Prop :=
  s.undoes = true ∧ ∃ c, pickMeta s.synced = some c ∧ ∃ r ∈ s.left, c.checkpointLsn ≤ r.lsn ∧ r.txid = 1

def undoAlone (s : Life) : LifeEvent → Prop
  | .log .. => s.proc = .recovering → ¬ s.sharesUndoId
  | _ => True

theorem next_settled {e : LifeEvent} (settled : ∃ last, s.toJournal.Settled last)
    (run : s.next e = some s') : ∃ last, s'.toJournal.Settled last := by
  obtain ⟨last, settled⟩ := settled
  rcases next_move run with same | move
  · exact ⟨last, same ▸ settled⟩
  · exact (move.settled settled).imp fun _ kept => kept.1

theorem next_tracked {e : LifeEvent} (tracked : s.toJournal.Tracked)
    (settled : ∃ last, s.toJournal.Settled last) (run : s.next e = some s') : s'.toJournal.Tracked := by
  obtain ⟨last, settled⟩ := settled
  rcases next_move run with same | move
  · exact same ▸ tracked
  · exact .move move tracked settled

theorem mine_of_alone {last : MetaCopy} {txid : TxId} (tracked : s.toJournal.Tracked)
    (settled : s.toJournal.Settled last) (recovering : s.proc = .recovering) (positive : 0 < txid)
    (id : txid < s.nextTxid) (undoes : s.undoes = true) (alone : ¬ s.sharesUndoId) :
    s.toJournal.Mine last.checkpointLsn txid := by
  obtain rfl : txid = 1 :=
    le_antisymm (Nat.lt_succ_iff.mp (id.trans_eq (tracked.undoPass recovering))) positive
  intro r mem past same
  rcases tracked.own recovering r mem same with left | own
  · exact absurd ⟨undoes, last, settled.newest, r, left, past, same⟩ alone
  · exact own

theorem next_attributed {e : LifeEvent} (attributed : ∃ last, s.toJournal.Attributed last)
    (tracked : s.toJournal.Tracked) (alone : s.undoAlone e) (run : s.next e = some s') :
    ∃ last, s'.toJournal.Attributed last := by
  obtain ⟨last, attributed⟩ := attributed
  cases e with
  | draw =>
    obtain ⟨-, eq⟩ := Option.ite_none_right_eq_some.mp run
    obtain rfl := Option.some.inj eq
    exact ⟨last, attributed.draw⟩
  | log txid opEnd body =>
    obtain ⟨⟨admits, -, -, -, -, undoes⟩, eq⟩ := Option.ite_none_right_eq_some.mp run
    obtain rfl := Option.some.inj eq
    obtain ⟨up, idle, positive, id⟩ := admitsWriter_spec admits
    refine ⟨last, ?_⟩
    rw [log_toJournal]
    refine attributed.append up idle opEnd body (.inr id) fun valid => ?_
    cases proc : s.proc with
    | down => exact absurd proc up
    | recovering =>
      exact mine_of_alone tracked attributed.settled proc positive id (undoes proc) (alone proc)
    | running => exact attributed.mine proc valid
  | ensureBegun txid =>
    obtain ⟨⟨admits, running, -⟩, eq⟩ := Option.ite_none_right_eq_some.mp run
    obtain rfl := Option.some.inj eq
    obtain ⟨up, idle, -, id⟩ := admitsWriter_spec admits
    exact ⟨last, attributed.append up idle true .begin (.inr id) (attributed.mine running)⟩
  | finish txid commit =>
    obtain ⟨⟨admits, running, -⟩, eq⟩ := Option.ite_none_right_eq_some.mp run
    obtain rfl := Option.some.inj eq
    obtain ⟨up, idle, -, id⟩ := admitsWriter_spec admits
    exact ⟨last, attributed.append up idle true _ (.inr id) (attributed.mine running)⟩
  | flush =>
    obtain ⟨up, eq⟩ := Option.ite_none_left_eq_some.mp run
    obtain rfl := Option.some.inj eq
    exact ⟨last, attributed.flush up⟩
  | newPage p =>
    obtain ⟨-, eq⟩ := Option.ite_none_left_eq_some.mp run
    obtain rfl := Option.some.inj eq
    exact ⟨last, attributed⟩
  | fetch p =>
    obtain ⟨-, eq⟩ := Option.ite_none_left_eq_some.mp run
    obtain ⟨lsn, -, rfl⟩ := Option.map_eq_some_iff.mp eq
    exact ⟨last, attributed⟩
  | init p =>
    obtain ⟨-, eq⟩ := Option.ite_none_right_eq_some.mp run
    obtain rfl := Option.some.inj eq
    exact ⟨last, attributed⟩
  | evict p =>
    obtain ⟨-, eq⟩ := Option.ite_none_right_eq_some.mp run
    obtain rfl := Option.some.inj eq
    exact ⟨last, attributed⟩
  | writeBack p =>
    obtain ⟨up, eq⟩ := Option.ite_none_left_eq_some.mp run
    obtain ⟨lsn, -, rfl⟩ := Option.map_eq_some_iff.mp eq
    by_cases zero : lsn = kInvalidLsn
    · have same : (s.writeBack p lsn).toJournal = s.toJournal := if_pos zero
      exact ⟨last, same ▸ attributed⟩
    · have flushes : (s.writeBack p lsn).toJournal = s.flush := if_neg zero
      exact ⟨last, flushes ▸ attributed.flush up⟩
  | mark =>
    obtain ⟨may, eq⟩ := Option.ite_none_right_eq_some.mp run
    obtain rfl := Option.some.inj eq
    obtain ⟨up, idle, -⟩ := mayTruncate_spec may
    exact ⟨last, attributed.mark up idle⟩
  | writeMeta =>
    obtain ⟨marked, eq⟩ := Option.ite_none_right_eq_some.mp run
    obtain rfl := Option.some.inj eq
    exact ⟨last, attributed.writeMeta marked⟩
  | syncMeta =>
    obtain ⟨metaWritten, eq⟩ := Option.ite_none_right_eq_some.mp run
    obtain rfl := Option.some.inj eq
    exact ⟨_, attributed.syncMeta metaWritten⟩
  | truncate =>
    obtain ⟨metaSynced, eq⟩ := Option.ite_none_right_eq_some.mp run
    obtain rfl := Option.some.inj eq
    exact ⟨last, attributed.truncate metaSynced⟩
  | crash bytes metas pages =>
    obtain ⟨-, eq⟩ := Option.ite_none_left_eq_some.mp run
    obtain rfl := Option.some.inj eq
    exact attributed.crash bytes metas
  | reopen =>
    obtain ⟨down, eq⟩ := Option.ite_none_right_eq_some.mp run
    obtain ⟨c, picked, rfl⟩ := Option.map_eq_some_iff.mp eq
    exact ⟨last, attributed.reopen down picked⟩
  | redo r =>
    obtain ⟨-, eq⟩ := Option.ite_none_right_eq_some.mp run
    exact ⟨last, redo_toJournal eq ▸ attributed⟩

theorem undoAlone_of_oneWriter {e : LifeEvent} (settled : ∃ last, s.toJournal.Settled last)
    (tracked : s.toJournal.Tracked) (run : s.next e = some s') (one : s'.toJournal.OneWriter) :
    s.undoAlone e := by
  obtain ⟨last, settled⟩ := settled
  cases e with
  | log txid opEnd body =>
    obtain ⟨⟨admits, -⟩, eq⟩ := Option.ite_none_right_eq_some.mp run
    obtain rfl := Option.some.inj eq
    obtain ⟨up, idle, positive, id⟩ := admitsWriter_spec admits
    rintro recovering ⟨-, c, picked, r, left, past, same⟩
    rw [log_toJournal] at one
    obtain rfl := Option.some.inj (settled.newest.symm.trans picked)
    obtain rfl : txid = 1 :=
      le_antisymm (Nat.lt_succ_iff.mp (id.trans_eq (tracked.undoPass recovering))) positive
    obtain ⟨mem, older⟩ := tracked.older recovering r left
    have records := s.records_append 1 opEnd body
    have old := List.mem_append_left [s.wal.recordOf 1 opEnd body] mem
    have new : s.wal.recordOf 1 opEnd body ∈ recordsOf s.wal.chunks ++ [s.wal.recordOf 1 opEnd body] :=
      List.mem_append_right _ (List.mem_singleton_self _)
    rw [← records] at old new
    have valid : r.txid ≠ kInvalidTxId := by rw [same]; exact Nat.one_ne_zero
    have joined := one last picked r old _ new past settled.ck_le_end same valid
    have owner := (settled.owner_append 1 opEnd body mem).symm.trans
      (joined.trans (s.owner_self 1 opEnd body))
    exact absurd owner (Nat.ne_of_lt (older same))
  | _ => trivial

end Life

/-- One writer for each id, in every log that a history of runs, crashes and recoveries leaves,
exactly when no undo pass appends to a log that a crash has left with a record of its id. -/
theorem ids_identify_writers_iff_undo_alone (events : List LifeEvent) :
    EveryState Life.next (fun s => s.toJournal.OneWriter) Life.create events ↔
      EveryStep Life.next Life.undoAlone Life.create events := by
  constructor
  · intro one
    exact everyStep_of_state
      (I := fun s : Life => (∃ last, s.toJournal.Settled last) ∧ s.toJournal.Tracked)
      (fun _ _ _ kept run => ⟨Life.next_settled kept.1 run, Life.next_tracked kept.2 kept.1 run⟩)
      (fun _ _ _ kept run one => Life.undoAlone_of_oneWriter kept.1 kept.2 run one)
      ⟨⟨_, Journal.Settled.create⟩, Journal.Tracked.create⟩ one
  · intro alone
    have kept := everyState_of_step
      (I := fun s : Life => (∃ last, s.toJournal.Attributed last) ∧ s.toJournal.Tracked)
      (fun _ _ _ kept alone run => ⟨Life.next_attributed kept.1 kept.2 alone run,
        Life.next_tracked kept.2 (kept.1.imp fun _ attributed => attributed.settled) run⟩)
      ⟨⟨_, Journal.Attributed.create⟩, Journal.Tracked.create⟩ alone
    exact kept.imp fun s ⟨⟨last, attributed⟩, _⟩ => attributed.oneWriter

/-- Transaction 1 puts two keys into a new database and is in flight at a crash. The undo pass of the
next run takes id 1 again and logs the inverse of its second Put behind its records. -/
theorem undo_pass_shares_id :
    ¬ ∀ events, EveryState Life.next (fun s => s.toJournal.OneWriter) Life.create events := by
  intro every
  have last := (every [.draw, .ensureBegun 1, .newPage 2, .init 2, .log 1 false (.allocPage 2),
    .log 1 false (.pageImage 2 firstLeaf), .log 1 true (.rootChange 2),
      .log 1 true (.put 2 [2] [2] none), .flush,
    .crash 0 (fun _ => .kept) (fun _ => some 0), .reopen, .fetch 2,
    .redo ⟨63, 1, false, .pageImage 2 (firstLeaf.stamp 63)⟩, .redo ⟨4221, 1, true, .put 2 [2] [2] none⟩,
    .log 1 true (.pageImage 2 firstLeaf)]).last rfl
  have joined := last ⟨0, kInvalidLsn⟩ rfl ⟨1, 1, true, .begin⟩ (by decide)
    ⟨4254, 1, true, .pageImage 2 (firstLeaf.stamp 4254)⟩ (by decide) (by decide) (by decide) rfl
    (by decide)
  exact absurd joined (by decide)

end PagerDB

import PagerDB.Db.Life

/-! LSNs stay fresh. Every version of a page that ever reached the disk is below what is
durable of the log, and a reopened log begins no earlier than that: so what a process appends
is newer than every page, every record it found and the checkpoint it started from. -/
namespace PagerDB

open MachineLib

namespace Life

/-- What `DB::Open` relies on: the next LSN is past the pages on disk, the checkpoint and the
records found. -/
structure LsnsFresh (s : Life) : Prop where
  pages : ∀ p lsn, s.disk p = some lsn → lsn < s.wal.endLsn
  checkpoint : s.metaPage.checkpointLsn ≤ s.wal.endLsn
  records : ∀ r ∈ s.found, r.lsn < s.wal.endLsn

structure Durable (s : Life) : Prop where
  settled : ∃ last, s.toJournal.Settled last
  wrote : ∀ p, ∀ lsn ∈ s.wrote p, lsn < s.wal.flushedLsn
  disk : ∀ p lsn, s.disk p = some lsn → lsn ∈ s.wrote p
  frames : ∀ p lsn, s.frames p = some lsn → s.proc ≠ .down ∧ lsn < s.wal.endLsn
  found : ∀ r ∈ s.found, r.lsn < s.wal.flushedLsn
  stamped : ∀ r ∈ s.found, ∀ p page, r.body = .pageImage p page → page.pageLsn = r.lsn

variable {s s' : Life}

theorem create_durable : create.Durable :=
  ⟨⟨_, .create⟩, nofun, nofun, nofun, nofun, nofun⟩

namespace Durable

theorem flushed_pos (durable : s.Durable) : 0 < s.wal.flushedLsn := by
  obtain ⟨last, settled⟩ := durable.settled
  exact last.logStart_pos.trans_le settled.start_le

theorem flushed_le_end (durable : s.Durable) : s.wal.flushedLsn ≤ s.wal.endLsn := by
  obtain ⟨last, settled⟩ := durable.settled
  exact settled.log.flushed_le_end

theorem up_of_busy (durable : s.Durable) (busy : s.ckpt ≠ .idle) : s.proc ≠ .down := by
  obtain ⟨last, settled⟩ := durable.settled
  exact fun down => busy (settled.down down).1

theorem of_journal (durable : s.Durable) {j : Journal}
    (move : j = s.toJournal ∨ s.toJournal.Move j) (up : s.proc ≠ .down) (up' : j.proc ≠ .down) :
    Life.Durable { s with toJournal := j } := by
  obtain ⟨last, settled⟩ := durable.settled
  rcases move with rfl | move
  · exact durable
  · obtain ⟨last', settled', grows⟩ := move.settled settled
    exact {
      settled := ⟨last', settled'⟩
      wrote := fun p lsn mem => (durable.wrote p lsn mem).trans_le grows
      disk := durable.disk
      frames := fun p lsn eq =>
        ⟨up', (durable.frames p lsn eq).2.trans_le (move.endLsn_le settled up up')⟩
      found := fun r mem => (durable.found r mem).trans_le grows
      stamped := durable.stamped }

theorem stamp (durable : s.Durable) (up : s.proc ≠ .down) (p : PageId) {lsn : Lsn}
    (assigned : lsn < s.wal.endLsn) : (s.stamp p lsn).Durable := by
  refine { durable with frames := fun q l eq => ?_ }
  by_cases same : q = p
  · subst same
    have new := (Function.update_self _ _ _).symm.trans eq
    obtain rfl := Option.some.inj new
    exact ⟨up, assigned⟩
  · exact durable.frames q l ((Function.update_of_ne same _ _).symm.trans eq)

theorem writeDisk (durable : s.Durable) (p : PageId) {lsn : Lsn}
    (covered : lsn < s.wal.flushedLsn) : (s.writeDisk p lsn).Durable := by
  refine { durable with wrote := fun q l mem => ?_, disk := fun q l eq => ?_ }
  · by_cases same : q = p
    · subst same
      have mem' : l ∈ lsn :: s.wrote q := by simpa [Life.writeDisk] using mem
      rcases List.mem_cons.mp mem' with rfl | old
      · exact covered
      · exact durable.wrote q l old
    · exact durable.wrote q l (by simpa [Life.writeDisk, same] using mem)
  · by_cases same : q = p
    · subst same
      have new : lsn = l := by simpa [Life.writeDisk] using eq
      simp [Life.writeDisk, new]
    · have old := durable.disk q l (by simpa [Life.writeDisk, same] using eq)
      simpa [Life.writeDisk, same] using old

theorem log (durable : s.Durable) {txid : TxId} {body : LogBody} (opEnd : Bool)
    (admits : s.admitsWriter txid = true) (allowed : s.mayLog body = true) :
    (s.log txid opEnd body).Durable := by
  obtain ⟨up, idle, -, id⟩ := admitsWriter_spec admits
  have logged := durable.of_journal
    (.inr (.append s.toJournal txid opEnd body up idle (.inr id) allowed)) up up
  have assigned : s.wal.endLsn < (s.wal.logged txid opEnd body).endLsn := by
    rw [LogWriter.logged_endLsn]
    exact Nat.lt_add_of_pos_right (LogRecord.serializedSize_pos _)
  unfold Life.log
  cases body.target with
  | none => exact logged
  | some p => exact logged.stamp up p assigned

theorem writeBack (durable : s.Durable) (up : s.proc ≠ .down) {p : PageId} {lsn : Lsn}
    (frame : s.frames p = some lsn) : (s.writeBack p lsn).Durable := by
  unfold Life.writeBack
  split
  · rename_i zero
    exact durable.writeDisk p (zero ▸ durable.flushed_pos)
  · have flushed := durable.of_journal (.inr (.flush s.toJournal up)) up up
    exact flushed.writeDisk p (durable.frames p lsn frame).2

theorem redo (durable : s.Durable) (up : s.proc ≠ .down) {r : LogRecord} (mem : r ∈ s.found)
    (run : s.redo r = some s') : s'.Durable := by
  have covered := durable.found r mem
  have assigned := covered.trans_le durable.flushed_le_end
  have delta : ∀ p lsn, some (if lsn < r.lsn then s.stamp p r.lsn else s) = some s' → s'.Durable := by
    intro p lsn run
    obtain rfl := Option.some.inj run
    split
    · exact durable.stamp up p assigned
    · exact durable
  unfold Life.redo at run
  split at run
  · rename_i p image body
    have same := durable.stamped r mem p image body
    rw [same] at run
    split at run
    · obtain rfl := Option.some.inj run
      split
      · exact durable.stamp up p assigned
      · exact durable
    · split at run
      · obtain rfl := Option.some.inj run
        exact durable.writeDisk p covered
      · cases run
  · split at run
    · exact delta _ _ run
    · cases run
  · split at run
    · exact delta _ _ run
    · cases run
  · obtain rfl := Option.some.inj run
    exact durable

theorem crashWith (durable : s.Durable) (bytes : Nat) (metas : Bool → Fate)
    (pages : PageId → Option Nat) : (s.crashWith bytes metas pages).Durable := by
  obtain ⟨last, settled⟩ := durable.settled
  obtain ⟨last', -, settled', grows⟩ := settled.crash bytes metas
  exact {
    settled := ⟨last', settled'⟩
    wrote := fun p lsn mem => (durable.wrote p lsn mem).trans_le grows
    disk := fun p lsn eq => by
      obtain ⟨i, -, at_⟩ := Option.bind_eq_some_iff.mp eq
      exact List.mem_of_getElem? at_
    frames := nofun
    found := fun r mem => (durable.found r mem).trans_le grows
    stamped := durable.stamped }

theorem reopen (durable : s.Durable) (down : s.proc = .down) {c : MetaCopy}
    (picked : pickMeta s.written = some c) :
    Life.Durable { s with toJournal := s.reopen c, found := readAll s.wal.file } := by
  obtain ⟨last, settled⟩ := durable.settled
  obtain ⟨-, settled', grows⟩ := settled.reopen down picked
  have opened := (settled.down down).2.2
  have chunks : s.wal.chunks = s.wal.file := by
    rw [opened, LogWriter.open_chunks]
    rfl
  have ends : s.wal.endLsn = s.wal.flushedLsn := by
    rw [settled.log.ends, settled.log.flushed, chunks]
  have inLog : ∀ r ∈ readAll s.wal.file, r ∈ recordsOf s.wal.chunks := by
    intro r mem
    rw [chunks]
    exact mem_of_readAll mem
  exact {
    settled := ⟨last, settled'⟩
    wrote := fun p lsn mem => (durable.wrote p lsn mem).trans_le grows
    disk := durable.disk
    frames := fun p lsn eq => absurd down (durable.frames p lsn eq).1
    found := fun r mem => by
      have below := settled.log.below (inLog r mem)
      refine lt_of_lt_of_le ?_ grows
      rw [← ends]
      exact (Nat.lt_add_of_pos_right (LogRecord.serializedSize_pos r)).trans_le below
    stamped := fun r mem => settled.log.stamped r (inLog r mem) }

end Durable

theorem next_durable {e : LifeEvent} (durable : s.Durable) (run : s.next e = some s') :
    s'.Durable := by
  have move := next_move run
  cases e with
  | draw =>
    obtain ⟨running, eq⟩ := Option.ite_none_right_eq_some.mp run
    obtain rfl := Option.some.inj eq
    have up : s.proc ≠ .down := by rw [running]; nofun
    exact durable.of_journal move up up
  | log txid opEnd body =>
    obtain ⟨⟨admits, -, allowed, -⟩, eq⟩ := Option.ite_none_right_eq_some.mp run
    obtain rfl := Option.some.inj eq
    exact durable.log opEnd admits allowed
  | ensureBegun txid =>
    obtain ⟨⟨admits, -⟩, eq⟩ := Option.ite_none_right_eq_some.mp run
    obtain rfl := Option.some.inj eq
    have up := (admitsWriter_spec admits).1
    exact { durable.of_journal move up up with }
  | finish txid commit =>
    obtain ⟨⟨admits, -⟩, eq⟩ := Option.ite_none_right_eq_some.mp run
    obtain rfl := Option.some.inj eq
    have up := (admitsWriter_spec admits).1
    exact { durable.of_journal move up up with }
  | flush =>
    obtain ⟨up, eq⟩ := Option.ite_none_left_eq_some.mp run
    obtain rfl := Option.some.inj eq
    exact durable.of_journal move up up
  | newPage p =>
    obtain ⟨free, eq⟩ := Option.ite_none_left_eq_some.mp run
    obtain rfl := Option.some.inj eq
    have up : s.proc ≠ .down := fun down => free (.inl down)
    have zero := durable.flushed_pos
    exact (durable.writeDisk p zero).stamp up p (zero.trans_le durable.flushed_le_end)
  | fetch p =>
    obtain ⟨absent, eq⟩ := Option.ite_none_left_eq_some.mp run
    obtain ⟨lsn, onDisk, rfl⟩ := Option.map_eq_some_iff.mp eq
    have up : s.proc ≠ .down := fun down => absent (.inl down)
    have covered := durable.wrote p lsn (durable.disk p lsn onDisk)
    exact durable.stamp up p (covered.trans_le durable.flushed_le_end)
  | init p =>
    obtain ⟨⟨up, -⟩, eq⟩ := Option.ite_none_right_eq_some.mp run
    obtain rfl := Option.some.inj eq
    exact durable.stamp up p (durable.flushed_pos.trans_le durable.flushed_le_end)
  | evict p =>
    obtain ⟨-, eq⟩ := Option.ite_none_right_eq_some.mp run
    obtain rfl := Option.some.inj eq
    refine { durable with frames := fun q lsn eq => ?_ }
    by_cases same : q = p
    · subst same
      cases (Function.update_self _ _ _).symm.trans eq
    · exact durable.frames q lsn ((Function.update_of_ne same _ _).symm.trans eq)
  | writeBack p =>
    obtain ⟨up, eq⟩ := Option.ite_none_left_eq_some.mp run
    obtain ⟨lsn, frame, rfl⟩ := Option.map_eq_some_iff.mp eq
    exact durable.writeBack up frame
  | mark =>
    obtain ⟨may, eq⟩ := Option.ite_none_right_eq_some.mp run
    obtain rfl := Option.some.inj eq
    have up := (mayTruncate_spec may).1
    exact durable.of_journal move up up
  | writeMeta =>
    obtain ⟨marked, eq⟩ := Option.ite_none_right_eq_some.mp run
    obtain rfl := Option.some.inj eq
    have up := durable.up_of_busy (by rw [marked]; nofun)
    exact durable.of_journal move up up
  | syncMeta =>
    obtain ⟨metaWritten, eq⟩ := Option.ite_none_right_eq_some.mp run
    obtain rfl := Option.some.inj eq
    have up := durable.up_of_busy (by rw [metaWritten]; nofun)
    exact durable.of_journal move up up
  | truncate =>
    obtain ⟨metaSynced, eq⟩ := Option.ite_none_right_eq_some.mp run
    obtain rfl := Option.some.inj eq
    exact durable.of_journal move (durable.up_of_busy (by rw [metaSynced]; nofun)) nofun
  | crash bytes metas pages =>
    obtain ⟨-, eq⟩ := Option.ite_none_left_eq_some.mp run
    obtain rfl := Option.some.inj eq
    exact durable.crashWith bytes metas pages
  | reopen =>
    obtain ⟨down, eq⟩ := Option.ite_none_right_eq_some.mp run
    obtain ⟨c, picked, rfl⟩ := Option.map_eq_some_iff.mp eq
    exact durable.reopen down picked
  | redo r =>
    obtain ⟨⟨recovering, -, mem⟩, eq⟩ := Option.ite_none_right_eq_some.mp run
    exact durable.redo (by rw [recovering]; nofun) mem eq

theorem Durable.fresh (durable : s.Durable) (up : s.proc ≠ .down) : s.LsnsFresh := by
  obtain ⟨last, settled⟩ := durable.settled
  refine ⟨fun p lsn onDisk => ?_, ?_, fun r mem => ?_⟩
  · have covered := durable.wrote p lsn (durable.disk p lsn onDisk)
    exact covered.trans_le settled.log.flushed_le_end
  · by_cases idle : s.ckpt = .idle
    · exact (settled.idle up idle).2
    · exact (settled.covered idle).1.le
  · exact (durable.found r mem).trans_le settled.log.flushed_le_end

end Life

/-- In every history of runs, checkpoints and crashes: while a process lives, the next LSN is
past everything on disk, and no step of the process takes it back. -/
theorem lsns_stay_fresh (events : List LifeEvent) :
    EveryState Life.next (fun s => s.proc ≠ .down → s.LsnsFresh ∧
      ∀ e t, s.next e = some t → t.proc ≠ .down → s.wal.endLsn ≤ t.wal.endLsn)
      Life.create events := by
  have durable : EveryState Life.next Life.Durable Life.create events :=
    everyState_invariant (fun _ _ _ durable run => Life.next_durable durable run)
      Life.create_durable
  refine durable.imp fun s durable up => ⟨durable.fresh up, fun e t run up' => ?_⟩
  obtain ⟨last, settled⟩ := durable.settled
  rcases Life.next_move run with same | move
  · rw [same]
  · exact move.endLsn_le settled up up'

end PagerDB

import PagerDB.Wal.LogSpec

/-! The log and the two meta copies over the life of a database directory: runs of one
process after another, each ended by a crash. `wal.file` is what an fsync has made durable of
the log and `wal.buffer` what it has not; a crash keeps any number of bytes of the buffer, so
it may fall into a flush. -/
namespace PagerDB

open LogWriter (fileBytes)

/- Meta copies. -/

structure MetaCopy where
  generation : Nat
  checkpointLsn : Lsn
  deriving DecidableEq

namespace MetaCopy

def slot (c : MetaCopy) : Bool := c.generation % 2 = 1

def logStart (c : MetaCopy) : Lsn :=
  if c.checkpointLsn = kInvalidLsn then kFirstLsn else c.checkpointLsn

end MetaCopy

/-- The valid copy with the higher generation, as `Pager::Open` picks it. -/
def pickMeta (slots : Bool → Option MetaCopy) : Option MetaCopy :=
  match slots false, slots true with
  | some a, some b => some (if a.generation < b.generation then b else a)
  | some a, none => some a
  | none, b => b

/- The journal. -/

inductive Proc where
  | down
  /-- Inside `DB::Open`, with a log to recover from. -/
  | recovering
  | running
  deriving DecidableEq

/-- How far the checkpoint under way has come. Writers are shut out from the marker on. -/
inductive Ckpt where
  | idle | marked | metaWritten | metaSynced
  deriving DecidableEq

structure Journal where
  proc : Proc
  ckpt : Ckpt
  wal : LogWriter
  metaPage : MetaCopy
  /-- The two meta copies in the file, and what an fsync has made durable of them. -/
  written : Bool → Option MetaCopy
  synced : Bool → Option MetaCopy
  nextTxid : TxId
  /-- How many ids were drawn so far in all runs, and which draw gave an id in this run. -/
  draws : Nat
  holder : TxId → Nat
  /-- The draw under whose id a record was appended. -/
  owner : Lsn → Nat
  /-- The whole records that the log held when it was opened, behind torn bytes too. -/
  left : List LogRecord

namespace Journal

def create : Journal where
  proc := .running
  ckpt := .idle
  wal := .open [] kFirstLsn
  metaPage := ⟨0, kInvalidLsn⟩
  written := fun _ => some ⟨0, kInvalidLsn⟩
  synced := fun _ => some ⟨0, kInvalidLsn⟩
  nextTxid := 1
  draws := 0
  holder := fun _ => 0
  owner := fun _ => 0
  left := []

def draw (j : Journal) : Journal :=
  { j with
    nextTxid := j.nextTxid + 1
    draws := j.draws + 1
    holder := Function.update j.holder j.nextTxid j.draws }

def append (j : Journal) (txid : TxId) (opEnd : Bool) (body : LogBody) : Journal :=
  { j with
    wal := j.wal.logged txid opEnd body
    owner := Function.update j.owner j.wal.endLsn (j.holder txid) }

def flush (j : Journal) : Journal := { j with wal := j.wal.flush }

/- `CheckpointLocked` from its marker on, one durable step at a time. -/

def appendMarker (j : Journal) : Journal := j.append kInvalidTxId true .checkpoint

def mark (j : Journal) : Journal :=
  { j.appendMarker.flush with
    ckpt := .marked
    metaPage := { j.metaPage with checkpointLsn := j.appendMarker.wal.endLsn } }

def nextCopy (j : Journal) : MetaCopy :=
  { j.metaPage with generation := j.metaPage.generation + 1 }

def writeMeta (j : Journal) : Journal :=
  { j with
    ckpt := .metaWritten
    metaPage := j.nextCopy
    written := Function.update j.written j.nextCopy.slot (some j.nextCopy) }

/-- A `PersistMeta` that fails takes its generation back, though its bytes may all have landed. -/
def failMeta (j : Journal) (fate : Fate) : Journal :=
  let slot := j.nextCopy.slot
  { j with
    ckpt := .idle
    written := Function.update j.written slot (fate.apply (some j.nextCopy) (j.written slot)) }

def syncMeta (j : Journal) : Journal := { j with ckpt := .metaSynced, synced := j.written }

def truncate (j : Journal) : Journal :=
  { j with
    proc := .running
    ckpt := .idle
    wal := j.wal.truncate j.metaPage.checkpointLsn }

/- A crash, and `DB::Open` after it. -/

def crash (j : Journal) (bytes : Nat) (metas : Bool → Fate) : Journal :=
  let slots := fun b => (metas b).apply (j.written b) (j.synced b)
  { j with
    proc := .down
    ckpt := .idle
    wal := .open (j.wal.crashed bytes) j.wal.baseLsn
    written := slots
    synced := slots }

def baseLsn (records : List LogRecord) (c : MetaCopy) : Lsn :=
  match records with
  | r :: _ => r.lsn
  | [] => c.logStart

/-- Recovery draws the id of its undo pass before anyone else. -/
def reopen (j : Journal) (c : MetaCopy) : Journal :=
  let opened := { j with
    wal := .open j.wal.file (baseLsn (readAll j.wal.file) c)
    metaPage := c
    nextTxid := 1
    left := recordsOf j.wal.chunks }
  if fileBytes j.wal.file = 0 then { opened with proc := .running }
  else { opened.draw with proc := .recovering }

/-- The records a writer may append next: a delta only to a page that has its image in the log
since the last truncation. -/
def mayLog (j : Journal) : LogBody → Bool
  | .put p .. | .delete p .. => !j.wal.needsImage p
  | _ => true

/-- What the steps of a process do to the journal, but for the failures of a checkpoint that
come once its meta copy is in the file. -/
inductive Move : Journal → Journal → Prop
  | draw (j : Journal) (up : j.proc = .running) : Move j j.draw
  | append (j : Journal) (txid : TxId) (opEnd : Bool) (body : LogBody) (up : j.proc ≠ .down)
      (idle : j.ckpt = .idle) (id : txid = kInvalidTxId ∨
        txid < j.nextTxid) (allowed : j.mayLog body = true) :
      Move j (j.append txid opEnd body)
  | flush (j : Journal) (up : j.proc ≠ .down) : Move j j.flush
  | mark (j : Journal) (up : j.proc ≠ .down) (idle : j.ckpt = .idle) : Move j j.mark
  | writeMeta (j : Journal) (marked : j.ckpt = .marked) : Move j j.writeMeta
  | failMeta (j : Journal) (fate : Fate) (fails : fate ≠ .kept) (marked : j.ckpt = .marked) :
      Move j (j.failMeta fate)
  | syncMeta (j : Journal) (metaWritten : j.ckpt = .metaWritten) : Move j j.syncMeta
  | truncate (j : Journal) (metaSynced : j.ckpt = .metaSynced) : Move j j.truncate
  | crash (j : Journal) (bytes : Nat) (metas : Bool → Fate) (up : j.proc ≠ .down) :
      Move j (j.crash bytes metas)
  | reopen (j : Journal) (c : MetaCopy) (down : j.proc = .down)
      (picked : pickMeta j.written = some c) : Move j (j.reopen c)

end Journal

theorem Journal.reopen_shape (j : Journal) (c : MetaCopy) :
    (j.reopen c).wal = .open j.wal.file (Journal.baseLsn (readAll j.wal.file) c) ∧
    (j.reopen c).ckpt = j.ckpt ∧ (j.reopen c).proc ≠ .down ∧ (j.reopen c).metaPage = c ∧
    (j.reopen c).written = j.written ∧ (j.reopen c).synced = j.synced := by
  unfold Journal.reopen
  split
  · exact ⟨rfl, rfl, nofun, rfl, rfl, rfl⟩
  · exact ⟨rfl, rfl, nofun, rfl, rfl, rfl⟩

theorem Journal.failMeta_written {j : Journal} {fate : Fate} {b : Bool} {c : MetaCopy}
    (here : (j.failMeta fate).written b = some c) :
    j.written b = some c ∨ (fate = .kept ∧ b = j.nextCopy.slot ∧ c = j.nextCopy) := by
  by_cases mine : b = j.nextCopy.slot
  · subst mine
    have left := (Function.update_self _ _ _).symm.trans here
    rcases Fate.apply_some left with ⟨kept, new⟩ | old
    · exact .inr ⟨kept, rfl, (Option.some.inj new).symm⟩
    · exact .inl old
  · exact .inl ((Function.update_of_ne mine _ _).symm.trans here)

theorem Journal.records_append (j : Journal) (txid : TxId) (opEnd : Bool) (body : LogBody) :
    recordsOf (j.append txid opEnd body).wal.chunks =
      recordsOf j.wal.chunks ++ [j.wal.recordOf txid opEnd body] := by
  change recordsOf (j.wal.logged txid opEnd body).chunks = _
  rw [LogWriter.logged_chunks, recordsOf_append, recordsOf_singleton]

theorem Journal.records_flush (j : Journal) :
    recordsOf j.flush.wal.chunks = recordsOf j.wal.chunks :=
  congrArg recordsOf j.wal.flush_chunks

theorem Journal.records_crash (j : Journal) (bytes : Nat) (metas : Bool → Fate) :
    recordsOf (j.crash bytes metas).wal.chunks <+: recordsOf j.wal.chunks := by
  change recordsOf (LogWriter.open (j.wal.crashed bytes) j.wal.baseLsn).chunks <+: _
  rw [LogWriter.open_chunks]
  exact recordsOf_cut_prefix _ _

/- The newest durable copy. -/

theorem pickMeta_newest {slots : Bool → Option MetaCopy} {last : MetaCopy} {b : Bool}
    (here : slots b = some last)
    (older : ∀ b c, slots b = some c → c = last ∨ c.generation < last.generation) :
    pickMeta slots = some last := by
  have falseOlder := older false
  have trueOlder := older true
  unfold pickMeta
  cases b with
  | false =>
    rw [here]
    cases other : slots true with
    | none => rfl
    | some c =>
      rcases trueOlder c other with rfl | less
      · simp
      · simp [not_lt.mpr less.le]
  | true =>
    rw [here]
    cases other : slots false with
    | none => rfl
    | some c =>
      rcases falseOlder c other with rfl | less
      · simp
      · simp [less]

theorem pickMeta_max {slots : Bool → Option MetaCopy} {c : MetaCopy}
    (picked : pickMeta slots = some c) :
    (∃ b, slots b = some c) ∧ ∀ b c', slots b = some c' → c'.generation ≤ c.generation := by
  unfold pickMeta at picked
  cases first : slots false with
  | none =>
    rw [first] at picked
    have here : slots true = some c := picked
    refine ⟨⟨true, here⟩, fun b c' eq => ?_⟩
    cases b with
    | false => rw [first] at eq; cases eq
    | true =>
      rw [here] at eq
      obtain rfl := Option.some.inj eq
      exact le_rfl
  | some x =>
    cases second : slots true with
    | none =>
      rw [first, second] at picked
      obtain rfl := Option.some.inj picked
      refine ⟨⟨false, first⟩, fun b c' eq => ?_⟩
      cases b with
      | false =>
        rw [first] at eq
        obtain rfl := Option.some.inj eq
        exact le_rfl
      | true => rw [second] at eq; cases eq
    | some y =>
      rw [first, second] at picked
      obtain rfl := Option.some.inj picked
      refine ⟨?_, fun b c' eq => ?_⟩
      · split
        · exact ⟨true, second⟩
        · exact ⟨false, first⟩
      · cases b with
        | false =>
          rw [first] at eq
          obtain rfl := Option.some.inj eq
          split <;> omega
        | true =>
          rw [second] at eq
          obtain rfl := Option.some.inj eq
          split <;> omega

theorem MetaCopy.slot_succ {a b : MetaCopy} (next : a.generation = b.generation + 1) :
    a.slot ≠ b.slot := by
  unfold MetaCopy.slot
  intro same
  have parity := decide_eq_decide.mp same
  omega

theorem MetaCopy.logStart_of_pos {c : MetaCopy} (pos : 0 < c.checkpointLsn) :
    c.logStart = c.checkpointLsn :=
  if_neg (Nat.pos_iff_ne_zero.mp pos)

theorem MetaCopy.le_logStart (c : MetaCopy) : c.checkpointLsn ≤ c.logStart := by
  unfold MetaCopy.logStart
  split
  · rename_i zero
    rw [zero]
    exact Nat.zero_le _
  · exact le_rfl

theorem MetaCopy.logStart_pos (c : MetaCopy) : 0 < c.logStart := by
  unfold MetaCopy.logStart
  split
  · exact Nat.one_pos
  · rename_i nonzero
    exact Nat.pos_of_ne_zero nonzero

/-- `last` is the newest copy that is durable. The log begins at or before it and is durable up
to it; a checkpoint under way is about to replace it by a copy that names the log's end. -/
structure Journal.Settled (j : Journal) (last : MetaCopy) : Prop where
  log : j.wal.Sound
  first : 0 < j.wal.baseLsn
  here : j.synced last.slot = some last ∧ j.written last.slot = some last
  syncedOld : ∀ b c, j.synced b = some c → c = last ∨ c.generation < last.generation
  writtenOld : ∀ b c, j.written b = some c →
    c = last ∨ c.generation < last.generation ∨ (j.ckpt = .metaWritten ∧ c = j.metaPage)
  down : j.proc = .down → j.ckpt = .idle ∧ j.written = j.synced ∧
    j.wal = .open j.wal.file j.wal.baseLsn
  base_le : j.wal.baseLsn ≤ last.logStart
  start_le : last.logStart ≤ j.wal.flushedLsn
  idle : j.proc ≠ .down → j.ckpt = .idle → j.metaPage.generation = last.generation ∧
    j.metaPage.checkpointLsn ≤ j.wal.endLsn
  marked : j.ckpt = .marked → j.metaPage.generation = last.generation
  pending : j.ckpt = .metaWritten → j.metaPage.generation = last.generation + 1 ∧
    j.written j.metaPage.slot = some j.metaPage
  metaSynced : j.ckpt = .metaSynced → j.metaPage = last
  covered : j.ckpt ≠ .idle → j.metaPage.checkpointLsn = j.wal.endLsn ∧
    j.wal.flushedLsn = j.wal.endLsn

namespace Journal.Settled

variable {j : Journal} {last : MetaCopy}

theorem create : Journal.create.Settled ⟨0, kInvalidLsn⟩ where
  log := LogWriter.Sound.truncate (.open [] kFirstLsn) kFirstLsn
  first := Nat.one_pos
  here := ⟨rfl, rfl⟩
  syncedOld := fun _ _ eq => .inl (Option.some.inj eq).symm
  writtenOld := fun _ _ eq => .inl (Option.some.inj eq).symm
  down := nofun
  base_le := le_rfl
  start_le := le_rfl
  idle := fun _ _ => ⟨rfl, Nat.zero_le _⟩
  marked := nofun
  pending := nofun
  metaSynced := nofun
  covered := fun busy => absurd rfl busy

theorem end_pos (settled : j.Settled last) : 0 < j.wal.endLsn :=
  lt_of_lt_of_le settled.first (settled.log.ends.ge.trans' (Nat.le_add_right _ _))

theorem newest (settled : j.Settled last) : pickMeta j.synced = some last :=
  pickMeta_newest settled.here.1 settled.syncedOld

theorem below_end (settled : j.Settled last) {r : LogRecord} (mem : r ∈ recordsOf j.wal.chunks) :
    r.lsn < j.wal.endLsn :=
  (Nat.lt_add_of_pos_right r.serializedSize_pos).trans_le (settled.log.below mem)

theorem below_next (settled : j.Settled last) (busy : j.ckpt ≠ .idle) {r : LogRecord}
    (mem : r ∈ recordsOf j.wal.chunks) : r.lsn < j.metaPage.checkpointLsn := by
  rw [(settled.covered busy).1]
  exact settled.below_end mem

theorem ck_le_end (settled : j.Settled last) : last.checkpointLsn ≤ j.wal.endLsn :=
  last.le_logStart.trans (settled.start_le.trans settled.log.flushed_le_end)

theorem records_reopen (settled : j.Settled last) (down : j.proc = .down) (c : MetaCopy) :
    recordsOf (j.reopen c).wal.chunks = recordsOf j.wal.chunks := by
  obtain ⟨-, -, opened⟩ := settled.down down
  obtain ⟨wal, -⟩ := j.reopen_shape c
  rw [wal, opened, LogWriter.open_chunks, LogWriter.open_chunks]
  rfl

theorem draw (settled : j.Settled last) : j.draw.Settled last :=
  { settled with }

theorem append (settled : j.Settled last) (up : j.proc ≠ .down) (idle : j.ckpt = .idle)
    (txid : TxId) (opEnd : Bool) (body : LogBody) :
    (j.append txid opEnd body).Settled last := by
  obtain ⟨base, flushed, -⟩ := j.wal.logged_same txid opEnd body
  have grows : j.wal.endLsn ≤ (j.wal.logged txid opEnd body).endLsn := by
    rw [LogWriter.logged_endLsn]
    exact Nat.le_add_right _ _
  refine { settled with
    log := settled.log.logged txid opEnd body
    first := base ▸ settled.first
    down := fun down => absurd down up
    base_le := ?_
    start_le := ?_
    idle := fun up idle => ?_
    covered := fun busy => absurd idle busy }
  · change (j.wal.logged txid opEnd body).baseLsn ≤ _
    rw [base]
    exact settled.base_le
  · change _ ≤ (j.wal.logged txid opEnd body).flushedLsn
    rw [flushed]
    exact settled.start_le
  · exact ⟨(settled.idle up idle).1, (settled.idle up idle).2.trans grows⟩

theorem flush (settled : j.Settled last) (up : j.proc ≠ .down) : j.flush.Settled last :=
  { settled with
    log := settled.log.flush
    down := fun down => absurd down up
    start_le := settled.start_le.trans settled.log.flushed_le_end
    covered := fun busy => ⟨(settled.covered busy).1, rfl⟩ }

theorem mark (settled : j.Settled last) (up : j.proc ≠ .down) (idle : j.ckpt = .idle) :
    j.mark.Settled last := by
  have appended := (settled.append up idle kInvalidTxId true .checkpoint).flush up
  refine { appended with
    writtenOld := fun b c eq => ?_
    down := fun down => absurd down up
    idle := fun _ busy => nomatch busy
    marked := fun _ => (settled.idle up idle).1
    pending := fun busy => nomatch busy
    metaSynced := fun busy => nomatch busy
    covered := fun _ => ⟨rfl, rfl⟩ }
  rcases settled.writtenOld b c eq with same | less | ⟨busy, -⟩
  · exact .inl same
  · exact .inr (.inl less)
  · rw [idle] at busy
    cases busy

theorem nextCopy_slot (settled : j.Settled last) (marked : j.ckpt = .marked) :
    j.nextCopy.slot ≠ last.slot :=
  MetaCopy.slot_succ (by
    change j.metaPage.generation + 1 = _
    rw [settled.marked marked])

theorem writeMeta (settled : j.Settled last) (marked : j.ckpt = .marked) :
    j.writeMeta.Settled last := by
  have other := settled.nextCopy_slot marked
  refine { settled with
    here := ⟨settled.here.1, ?_⟩
    writtenOld := fun b c eq => ?_
    down := fun down => ?_
    idle := fun _ busy => nomatch busy
    marked := fun busy => nomatch busy
    pending := fun _ => ⟨?_, ?_⟩
    metaSynced := fun busy => nomatch busy
    covered := fun _ => settled.covered (by rw [marked]; nofun) }
  · exact (Function.update_of_ne other.symm _ _).trans settled.here.2
  · by_cases mine : b = j.nextCopy.slot
    · subst mine
      have new := (Function.update_self _ _ _).symm.trans eq
      exact .inr (.inr ⟨rfl, (Option.some.inj new).symm⟩)
    · have old := (Function.update_of_ne mine _ _).symm.trans eq
      rcases settled.writtenOld b c old with same | less | ⟨busy, -⟩
      · exact .inl same
      · exact .inr (.inl less)
      · rw [marked] at busy
        cases busy
  · have idle := (settled.down down).1
    rw [marked] at idle
    cases idle
  · change j.metaPage.generation + 1 = _
    rw [settled.marked marked]
  · exact Function.update_self _ _ _

theorem failMeta (settled : j.Settled last) (marked : j.ckpt = .marked) {fate : Fate}
    (fails : fate ≠ .kept) : (j.failMeta fate).Settled last := by
  have other := settled.nextCopy_slot marked
  have kept : ∀ b c, (j.failMeta fate).written b = some c → j.written b = some c := fun b c eq =>
    (failMeta_written eq).resolve_right fun new => fails new.1
  have covered := settled.covered (by rw [marked]; nofun)
  refine { settled with
    here := ⟨settled.here.1, ?_⟩
    writtenOld := fun b c eq => ?_
    down := fun down => ?_
    idle := fun _ _ => ⟨settled.marked marked, covered.1.le⟩
    marked := fun busy => nomatch busy
    pending := fun busy => nomatch busy
    metaSynced := fun busy => nomatch busy
    covered := fun busy => absurd rfl busy }
  · exact (Function.update_of_ne other.symm _ _).trans settled.here.2
  · rcases settled.writtenOld b c (kept b c eq) with same | less | ⟨busy, -⟩
    · exact .inl same
    · exact .inr (.inl less)
    · rw [marked] at busy
      cases busy
  · have idle := (settled.down down).1
    rw [marked] at idle
    cases idle

theorem syncMeta (settled : j.Settled last) (metaWritten : j.ckpt = .metaWritten) :
    j.syncMeta.Settled j.metaPage := by
  obtain ⟨generation, slot⟩ := settled.pending metaWritten
  obtain ⟨names, flushed⟩ := settled.covered (by rw [metaWritten]; nofun)
  have start : j.metaPage.logStart = j.wal.endLsn := by
    rw [MetaCopy.logStart_of_pos (names ▸ settled.end_pos), names]
  have old : ∀ b c, j.written b = some c →
      c = j.metaPage ∨ c.generation < j.metaPage.generation := by
    intro b c eq
    rcases settled.writtenOld b c eq with rfl | less | ⟨-, same⟩
    · exact .inr (by omega)
    · exact .inr (by omega)
    · exact .inl same
  refine { settled with
    here := ⟨slot, slot⟩
    syncedOld := old
    writtenOld := fun b c eq => (old b c eq).elim .inl fun less => .inr (.inl less)
    down := fun down => ?_
    base_le := ?_
    start_le := ?_
    idle := fun _ busy => nomatch busy
    marked := fun busy => nomatch busy
    pending := fun busy => nomatch busy
    metaSynced := fun _ => rfl
    covered := fun _ => ⟨names, flushed⟩ }
  · have idle := (settled.down down).1
    rw [metaWritten] at idle
    cases idle
  · rw [start, settled.log.ends]
    exact Nat.le_add_right _ _
  · rw [start]
    exact flushed.ge

theorem truncate (settled : j.Settled last) (metaSynced : j.ckpt = .metaSynced) :
    j.truncate.Settled last := by
  obtain ⟨names, -⟩ := settled.covered (by rw [metaSynced]; nofun)
  have same := settled.metaSynced metaSynced
  have positive : 0 < j.metaPage.checkpointLsn := names ▸ settled.end_pos
  have start : last.logStart = j.metaPage.checkpointLsn := by
    rw [← same, MetaCopy.logStart_of_pos positive]
  refine { settled with
    log := LogWriter.Sound.truncate j.wal _
    first := positive
    writtenOld := fun b c eq => ?_
    down := nofun
    base_le := start.ge
    start_le := start.le
    idle := fun _ _ => ⟨by rw [← same]; rfl, le_rfl⟩
    marked := fun busy => nomatch busy
    pending := fun busy => nomatch busy
    metaSynced := fun busy => nomatch busy
    covered := fun busy => absurd rfl busy }
  rcases settled.writtenOld b c eq with same | less | ⟨busy, -⟩
  · exact .inl same
  · exact .inr (.inl less)
  · rw [metaSynced] at busy
    cases busy

theorem slots_after_crash (settled : j.Settled last) (metas : Bool → Fate) :
    ∃ last', (last' = last ∨ (j.ckpt = .metaWritten ∧ last' = j.metaPage)) ∧
      (fun b => (metas b).apply (j.written b) (j.synced b)) last'.slot = some last' ∧
      ∀ b c, (metas b).apply (j.written b) (j.synced b) = some c →
        c = last' ∨ c.generation < last'.generation := by
  have sources : ∀ b c, (metas b).apply (j.written b) (j.synced b) = some c →
      j.written b = some c ∨ j.synced b = some c := by
    intro b c eq
    exact (Fate.apply_some eq).imp And.right id
  have survives : (metas last.slot).apply (j.written last.slot) (j.synced last.slot) =
      some last := by
    rw [settled.here.1, settled.here.2]
    cases metas last.slot <;> simp [Fate.apply]
  by_cases newer : j.ckpt = .metaWritten ∧
      (metas j.metaPage.slot).apply (j.written j.metaPage.slot) (j.synced j.metaPage.slot) =
        some j.metaPage
  · obtain ⟨metaWritten, here⟩ := newer
    obtain ⟨generation, -⟩ := settled.pending metaWritten
    refine ⟨j.metaPage, .inr ⟨metaWritten, rfl⟩, here, fun b c eq => ?_⟩
    have old : c = last ∨ c.generation < last.generation ∨ c = j.metaPage := by
      rcases sources b c eq with written | synced
      · rcases settled.writtenOld b c written with same | less | ⟨-, same⟩
        · exact .inl same
        · exact .inr (.inl less)
        · exact .inr (.inr same)
      · exact (settled.syncedOld b c synced).imp id .inl
    rcases old with rfl | less | same
    · exact .inr (by omega)
    · exact .inr (by omega)
    · exact .inl same
  · refine ⟨last, .inl rfl, survives, fun b c eq => ?_⟩
    rcases sources b c eq with written | synced
    · rcases settled.writtenOld b c written with same | less | ⟨metaWritten, rfl⟩
      · exact .inl same
      · exact .inr less
      · -- the copy being written is in no other slot than its own
        refine absurd ⟨metaWritten, ?_⟩ newer
        obtain ⟨generation, -⟩ := settled.pending metaWritten
        have other := MetaCopy.slot_succ generation
        by_cases mine : b = j.metaPage.slot
        · exact mine ▸ eq
        · have isLast : b = last.slot := by
            cases b <;> cases last.slot <;> cases j.metaPage.slot <;> simp_all
          rw [isLast, settled.here.2] at written
          have same := Option.some.inj written
          rw [same] at generation
          omega
    · exact settled.syncedOld b c synced

theorem crash (settled : j.Settled last) (bytes : Nat) (metas : Bool → Fate) :
    ∃ last', (last' = last ∨ (j.ckpt = .metaWritten ∧ last' = j.metaPage)) ∧
      (j.crash bytes metas).Settled last' ∧
      j.wal.flushedLsn ≤ (j.crash bytes metas).wal.flushedLsn := by
  obtain ⟨last', which, here, old⟩ := settled.slots_after_crash metas
  have keeps := settled.log.flushed_le_crashed bytes
  have base_le : j.wal.baseLsn ≤ last'.logStart ∧ last'.logStart ≤ j.wal.flushedLsn := by
    rcases which with rfl | ⟨metaWritten, rfl⟩
    · exact ⟨settled.base_le, settled.start_le⟩
    · exact ⟨(settled.syncMeta metaWritten).base_le, (settled.syncMeta metaWritten).start_le⟩
  refine ⟨last', which, ?_, keeps⟩
  exact {
    log := settled.log.crashed bytes
    first := settled.first
    here := ⟨here, here⟩
    syncedOld := old
    writtenOld := fun b c eq => (old b c eq).imp id .inl
    down := fun _ => ⟨rfl, rfl, rfl⟩
    base_le := base_le.1
    start_le := base_le.2.trans keeps
    idle := fun up => absurd rfl up
    marked := nofun
    pending := nofun
    metaSynced := nofun
    covered := fun busy => absurd rfl busy }

theorem reopened_base (settled : j.Settled last) (down : j.proc = .down) :
    j.wal.baseLsn ≤ baseLsn (readAll j.wal.file) last ∧
    baseLsn (readAll j.wal.file) last ≤ last.logStart ∧
    (LogWriter.open j.wal.file (baseLsn (readAll j.wal.file) last)).Sound ∧
    last.logStart ≤ baseLsn (readAll j.wal.file) last + fileBytes j.wal.file := by
  obtain ⟨-, -, opened⟩ := settled.down down
  have log := settled.log
  rw [opened] at log
  have placed := log.placed
  rw [LogWriter.open_chunks] at placed
  cases found : readAll j.wal.file with
  | nil =>
    refine ⟨settled.base_le, le_rfl, ?_, Nat.le_add_right _ _⟩
    exact log.of_open settled.base_le (placed_of_readAll_nil found _)
  | cons r rs =>
    have same : r.lsn = j.wal.baseLsn := placed.readAll_cons found
    change j.wal.baseLsn ≤ r.lsn ∧ r.lsn ≤ _ ∧ (LogWriter.open j.wal.file r.lsn).Sound ∧
      _ ≤ r.lsn + _
    rw [same]
    refine ⟨le_rfl, settled.base_le, log, ?_⟩
    rw [← settled.log.flushed]
    exact settled.start_le

theorem reopen (settled : j.Settled last) (down : j.proc = .down) {c : MetaCopy}
    (picked : pickMeta j.written = some c) :
    c = last ∧ (j.reopen c).Settled last ∧ j.wal.flushedLsn ≤ (j.reopen c).wal.flushedLsn := by
  obtain ⟨idle, same, opened⟩ := settled.down down
  rw [same, settled.newest] at picked
  obtain rfl := Option.some.inj picked
  obtain ⟨base_le, le_start, log, start_le⟩ := settled.reopened_base down
  obtain ⟨wal, idle', up, copy, written, synced⟩ := j.reopen_shape last
  rw [idle] at idle'
  have ends : (j.reopen last).wal.endLsn = (j.reopen last).wal.flushedLsn := by rw [wal]; rfl
  have flushed : (j.reopen last).wal.flushedLsn =
      baseLsn (readAll j.wal.file) last + fileBytes j.wal.file := by
    rw [wal]
    rfl
  refine ⟨rfl, ?_, ?_⟩
  · exact {
      log := by rw [wal]; exact log
      first := by rw [wal]; exact settled.first.trans_le base_le
      here := by rw [written, synced]; exact settled.here
      syncedOld := by rw [synced]; exact settled.syncedOld
      writtenOld := by
        rw [written, same]
        exact fun b c eq => (settled.syncedOld b c eq).imp id .inl
      down := fun down => absurd down up
      base_le := by rw [wal]; exact le_start
      start_le := by rw [flushed]; exact start_le
      idle := fun _ _ => by
        rw [copy, ends, flushed]
        exact ⟨rfl, last.le_logStart.trans start_le⟩
      marked := fun busy => by rw [idle'] at busy; cases busy
      pending := fun busy => by rw [idle'] at busy; cases busy
      metaSynced := fun busy => by rw [idle'] at busy; cases busy
      covered := fun busy => absurd idle' busy }
  · rw [flushed, settled.log.flushed]
    exact Nat.add_le_add_right base_le _

end Journal.Settled

theorem Journal.Move.settled {j j' : Journal} {last : MetaCopy} (move : j.Move j')
    (settled : j.Settled last) :
    ∃ last', j'.Settled last' ∧ j.wal.flushedLsn ≤ j'.wal.flushedLsn := by
  cases move with
  | draw => exact ⟨last, settled.draw, le_rfl⟩
  | append txid opEnd body up idle id allowed =>
    exact ⟨last, settled.append up idle txid opEnd body, (j.wal.logged_same txid opEnd body).2.1.ge⟩
  | flush up => exact ⟨last, settled.flush up, settled.log.flushed_le_end⟩
  | mark up idle =>
    refine ⟨last, settled.mark up idle, settled.log.flushed_le_end.trans ?_⟩
    exact (Nat.le_add_right _ _).trans (LogWriter.logged_endLsn j.wal _ true .checkpoint).ge
  | writeMeta marked => exact ⟨last, settled.writeMeta marked, le_rfl⟩
  | failMeta fate fails marked => exact ⟨last, settled.failMeta marked fails, le_rfl⟩
  | syncMeta metaWritten => exact ⟨j.metaPage, settled.syncMeta metaWritten, le_rfl⟩
  | truncate metaSynced =>
    obtain ⟨names, flushed⟩ := settled.covered (by rw [metaSynced]; nofun)
    exact ⟨last, settled.truncate metaSynced, (flushed.trans names.symm).le⟩
  | crash bytes metas up =>
    obtain ⟨last', -, settled', keeps⟩ := settled.crash bytes metas
    exact ⟨last', settled', keeps⟩
  | reopen c down picked =>
    obtain ⟨-, settled', keeps⟩ := settled.reopen down picked
    exact ⟨last, settled', keeps⟩

theorem Journal.Move.endLsn_le {j j' : Journal} {last : MetaCopy} (move : j.Move j')
    (settled : j.Settled last) (up : j.proc ≠ .down) (up' : j'.proc ≠ .down) :
    j.wal.endLsn ≤ j'.wal.endLsn := by
  cases move with
  | append txid opEnd body =>
    exact (Nat.le_add_right _ _).trans (LogWriter.logged_endLsn j.wal txid opEnd body).ge
  | mark =>
    exact (Nat.le_add_right _ _).trans (LogWriter.logged_endLsn j.wal _ true .checkpoint).ge
  | truncate metaSynced =>
    exact (settled.covered (by rw [metaSynced]; nofun)).1.ge
  | crash => exact absurd rfl up'
  | reopen c down => exact absurd down up
  | _ => exact le_rfl

end PagerDB

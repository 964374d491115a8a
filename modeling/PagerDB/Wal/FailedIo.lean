import Mathlib.Data.List.Infix
import PagerDB.Lib.Machine
import PagerDB.Wal.TornTail

/-! A writer that goes on after failed I/O. A failed write may leave a torn prefix of the buffer
behind the written bytes, and the next flush overwrites it; a failed fsync leaves the bytes where
they are. The one step that loses the position is an ftruncate that takes effect when the fsync
after it fails: the file is empty, and `file_bytes_` still says how long it was. -/
namespace PagerDB.Wire

open MachineLib

/-- One call on the writer; `Truncate` is called with any new base. -/
inductive WriterCall where
  | append (r : LogRecord)
  | appendPageImage (pageId : UInt32) (page : RawPage) (txid : UInt64) (opEnd : Bool)
  | flush
  | flushTo (lsn : UInt64)
  | truncate (newBase : UInt64)

/-- The writer with the records appended since the last ftruncate that took effect. -/
structure Appended where
  writer : LogWriter
  since : List LogRecord

namespace Appended

def reopened (base : UInt64) (old : List LogRecord) : Appended :=
  ⟨.open (serializeAll old) base, old⟩

/-- A call with what the file system answers during it. The writer is used on whatever the
call returned. -/
def step (s : Appended) : WriterCall × FileIo → Option Appended
  | (.append r, _) => some ⟨s.writer.append r, s.since ++ [s.writer.assigned r]⟩
  | (.appendPageImage pageId page txid opEnd, _) =>
    some ⟨s.writer.appendPageImage pageId page txid opEnd,
      s.since ++ [s.writer.imageRecord pageId page txid opEnd]⟩
  | (.flush, io) => some { s with writer := (s.writer.flush io).2 }
  | (.flushTo lsn, io) => some { s with writer := (s.writer.flushTo io lsn).2 }
  | (.truncate newBase, io) =>
    some ⟨(s.writer.truncate io newBase).2, if io.truncate then [] else s.since⟩

/-- `base_lsn_`, the written bytes and the buffered ones describe the records: what `file_bytes_`
counts is in the file, it and the buffer are whole records chained from `base_lsn_` on, and the
records since the last effective truncation are the last of them. -/
structure Described (s : Appended) : Prop where
  inside : s.writer.fileBytes ≤ s.writer.file.length
  records : ∃ older, Linked s.writer.baseLsn (older ++ s.since) ∧
    s.writer.file.take s.writer.fileBytes ++ s.writer.buffer = serializeAll (older ++ s.since)
  ends : s.writer.endLsn =
    s.writer.baseLsn + UInt64.ofNat (s.writer.fileBytes + s.writer.buffer.length)

/-- The offsets are right, and the next Flush that returns Ok makes every record readable. -/
structure Survives (s : Appended) : Prop where
  described : s.Described
  reads : ∀ io, (s.writer.flush io).1 = true → s.since <:+ readAll (s.writer.flush io).2.file

/-- The step does not empty a file that has been written to without syncing it. -/
def SyncsTruncate (s : Appended) : WriterCall × FileIo → Prop
  | (.truncate _, io) => io.truncate = true → io.sync = false → s.writer.fileBytes = 0
  | _ => True

instance (s : Appended) : (call : WriterCall × FileIo) → Decidable (s.SyncsTruncate call)
  | (.truncate _, io) => inferInstanceAs (Decidable (io.truncate = true → io.sync = false →
      s.writer.fileBytes = 0))
  | (.append _, _) | (.appendPageImage .., _) | (.flush, _) | (.flushTo _, _) => isTrue trivial

structure Sound (s : Appended) : Prop extends s.Described where
  torn : s.writer.file.drop s.writer.fileBytes <+: s.writer.buffer

end Appended

/- Writes into the file. -/

section WriteAt

variable {file data : Bytes} {offset : Nat}

theorem writeAt_take (inside : offset ≤ file.length) :
    (writeAt file offset data).take offset = file.take offset := by
  have hole : offset - file.length = 0 := by omega
  have front : (file.take offset).length = offset := by simp [inside]
  rw [writeAt, List.take_left' front]

theorem writeAt_drop (inside : offset ≤ file.length) :
    (writeAt file offset data).drop offset = data ++ file.drop (offset + data.length) := by
  have hole : offset - file.length = 0 := by omega
  have front : (file.take offset).length = offset := by simp [inside]
  rw [writeAt, List.drop_left' front, hole, List.replicate_zero, List.nil_append]

theorem length_writeAt (inside : offset ≤ file.length) :
    offset ≤ (writeAt file offset data).length := by
  rw [writeAt, List.length_append, List.length_take]
  omega

theorem writeAt_over (inside : offset ≤ file.length) (torn : file.drop offset <+: data) :
    writeAt file offset data = file.take offset ++ data := by
  have short : file.length - offset ≤ data.length := by
    have := torn.length_le
    rwa [List.length_drop] at this
  have behind : file.drop (offset + data.length) = [] := List.drop_eq_nil_of_le (by omega)
  have hole : offset - file.length = 0 := by omega
  rw [writeAt, behind, hole, List.replicate_zero, List.nil_append, List.append_nil]

theorem torn_over {old : Bytes} (torn : old <+: data) (n : Nat) :
    data.take n ++ old.drop (data.take n).length <+: data := by
  have rest : data.drop n = data.drop (data.take n).length := by
    rw [List.length_take]
    rcases Nat.le_total n data.length with le | le
    · rw [Nat.min_eq_left le]
    · rw [Nat.min_eq_right le, List.drop_eq_nil_of_le le, List.drop_length]
  have behind : old.drop (data.take n).length <+: data.drop n := by
    rw [rest]
    exact List.IsPrefix.drop torn _
  have whole := (List.prefix_append_right_inj (data.take n)).mpr behind
  rwa [List.take_append_drop] at whole

end WriteAt

namespace Appended

variable {s : Appended}

theorem Sound.opened (base : UInt64) {old : List LogRecord} (linked : Linked base old) :
    (reopened base old).Sound := by
  constructor
  · constructor
    · exact le_rfl
    · refine ⟨[], linked, ?_⟩
      change (serializeAll old).take (serializeAll old).length ++ [] = serializeAll old
      simp
    · change base + _ = base + _
      rfl
  · change (serializeAll old).drop (serializeAll old).length <+: []
    simp

theorem Sound.buffered (sound : s.Sound) {r : LogRecord} (here : r.lsn = s.writer.endLsn)
    (imaged : List UInt32) :
    Sound ⟨{ s.writer.bufferRecord r with imaged := imaged }, s.since ++ [r]⟩ := by
  obtain ⟨older, linked, bytes⟩ := sound.records
  have length := congrArg List.length bytes
  rw [List.length_append, List.length_take_of_le sound.inside] at length
  constructor
  · constructor
    · exact sound.inside
    · refine ⟨older, ?_, ?_⟩
      · rw [← List.append_assoc]
        apply Linked.append.mpr
        constructor
        · exact linked
        · constructor
          · rw [here, sound.ends, length]
            rfl
          · trivial
      · change s.writer.file.take s.writer.fileBytes ++ (s.writer.buffer ++ r.serialize) = _
        rw [← List.append_assoc, bytes, ← List.append_assoc, serializeAll_append (older ++ s.since)]
        simp
    · change s.writer.endLsn + UInt64.ofNat r.serializedSize = s.writer.baseLsn + UInt64.ofNat _
      simp only [LogWriter.bufferRecord, List.length_append, LogRecord.length_serialize]
      rw [sound.ends, UInt64.add_assoc, ← UInt64.ofNat_add, Nat.add_assoc]
  · exact sound.torn.trans (List.prefix_append _ _)

theorem flush_cases (w : LogWriter) (io : FileIo) :
    (w.flush io).2 = w ∧ ((w.flush io).1 = true → w.buffer = []) ∨
    (w.flush io).1 = false ∧
      (∃ n, (w.flush io).2 = { w with file := writeAt w.file w.fileBytes (w.buffer.take n) }) ∨
    ∃ lsn, (w.flush io).2 = { w with
      file := writeAt w.file w.fileBytes w.buffer
      fileBytes := w.fileBytes + w.buffer.length
      buffer := []
      flushedLsn := lsn } ∨
      w.buffer = [] ∧ (w.flush io).2 = { w with flushedLsn := lsn } := by
  unfold LogWriter.flush
  split
  · rename_i idle
    exact .inl ⟨rfl, fun _ => idle.1⟩
  · split
    · rename_i empty
      refine .inr (.inr ?_)
      unfold LogWriter.synced
      split
      · exact ⟨w.endLsn, .inr ⟨empty, rfl⟩⟩
      · exact ⟨w.flushedLsn, .inr ⟨empty, rfl⟩⟩
    · split
      · rename_i n failed
        exact .inr (.inl ⟨rfl, n, rfl⟩)
      · refine .inr (.inr ?_)
        unfold LogWriter.synced
        split
        · exact ⟨w.endLsn, .inl rfl⟩
        · exact ⟨w.flushedLsn, .inl rfl⟩

theorem Sound.flush (sound : s.Sound) (io : FileIo) :
    Sound { s with writer := (s.writer.flush io).2 } := by
  obtain ⟨⟨inside, ⟨older, linked, bytes⟩, ends⟩, torn⟩ := sound
  rcases flush_cases s.writer io with
    ⟨same, -⟩ | ⟨-, n, wrote⟩ | ⟨lsn, wrote | ⟨-, synced⟩⟩
  · rw [same]
    exact ⟨⟨inside, ⟨older, linked, bytes⟩, ends⟩, torn⟩
  · -- a torn write: the written bytes are as they were
    rw [wrote]
    constructor
    · constructor
      · exact length_writeAt inside
      · refine ⟨older, linked, ?_⟩
        change (writeAt _ _ _).take _ ++ _ = _
        rw [writeAt_take inside]
        exact bytes
      · exact ends
    · change (writeAt _ _ _).drop _ <+: _
      rw [writeAt_drop inside]
      rw [← List.drop_drop]
      exact torn_over torn n
  · -- the whole buffer is in the file
    rw [wrote]
    have file := writeAt_over inside torn
    have length : (s.writer.file.take s.writer.fileBytes ++ s.writer.buffer).length =
        s.writer.fileBytes + s.writer.buffer.length := by
      rw [List.length_append, List.length_take_of_le inside]
    constructor
    · constructor
      · change _ ≤ (writeAt _ _ _).length
        rw [file, length]
      · refine ⟨older, linked, ?_⟩
        change (writeAt _ _ _).take (s.writer.fileBytes + s.writer.buffer.length) ++ [] = _
        rw [file, ← length, List.take_length, List.append_nil]
        exact bytes
      · exact ends
    · change (writeAt _ _ _).drop (s.writer.fileBytes + s.writer.buffer.length) <+: []
      simp [file, ← length]
  · rw [synced]
    exact ⟨⟨inside, ⟨older, linked, bytes⟩, ends⟩, torn⟩

theorem Sound.flushed (sound : s.Sound) {io : FileIo} (ok : (s.writer.flush io).1 = true) :
    ∃ older, Linked s.writer.baseLsn (older ++ s.since) ∧
      (s.writer.flush io).2.file = serializeAll (older ++ s.since) := by
  obtain ⟨⟨inside, ⟨older, linked, bytes⟩, -⟩, torn⟩ := sound
  have empty (none : s.writer.buffer = []) : s.writer.file = serializeAll (older ++ s.since) := by
    rw [none, List.append_nil] at bytes
    rw [none, List.prefix_nil] at torn
    rw [← bytes, List.take_of_length_le (List.drop_eq_nil_iff.mp torn)]
  refine ⟨older, linked, ?_⟩
  rcases flush_cases s.writer io with
    ⟨same, idle⟩ | ⟨failed, -⟩ | ⟨lsn, wrote | ⟨none, synced⟩⟩
  · rw [same]
    exact empty (idle ok)
  · rw [failed] at ok
    contradiction
  · rw [wrote]
    exact (writeAt_over inside torn).trans bytes
  · rw [synced]
    exact empty none

theorem readAll_serializeAll {base : UInt64} {records : List LogRecord}
    (linked : Linked base records) : readAll (serializeAll records) = records := by
  obtain ⟨fuel, expected, -, reads, -⟩ :=
    readFrom_records linked [] (Or.inl (rfl : (0 : UInt64) = 0)) le_rfl
  have stops : readFrom fuel expected [] = [] := readFrom_of_parse_none rfl fuel expected
  rw [List.append_nil, stops, List.append_nil] at reads
  exact reads

theorem Sound.survives (sound : s.Sound) : s.Survives := by
  constructor
  · exact sound.toDescribed
  · intro io ok
    obtain ⟨older, linked, file⟩ := sound.flushed ok
    rw [file, readAll_serializeAll linked]
    exact List.suffix_append older s.since

theorem Sound.truncate (sound : s.Sound) {io : FileIo} {newBase : UInt64}
    (synced : s.SyncsTruncate (.truncate newBase, io)) :
    Sound ⟨(s.writer.truncate io newBase).2, if io.truncate then [] else s.since⟩ := by
  obtain ⟨⟨inside, ⟨older, linked, bytes⟩, ends⟩, torn⟩ := sound
  unfold LogWriter.truncate
  cases cut : io.truncate with
  | false => exact ⟨⟨inside, ⟨older, linked, bytes⟩, ends⟩, torn⟩
  | true =>
    cases sync : io.sync with
    | true =>
      constructor
      · constructor
        · exact le_rfl
        · exact ⟨[], trivial, rfl⟩
        · change newBase = newBase + UInt64.ofNat 0
          simp
      · exact List.nil_prefix
    | false =>
      -- nothing had been written, so the emptied file is what the writer says it is
      have zero : s.writer.fileBytes = 0 := synced cut sync
      rw [zero, List.take_zero, List.nil_append] at bytes
      constructor
      · constructor
        · change s.writer.fileBytes ≤ 0
          omega
        · refine ⟨older ++ s.since, ?_, ?_⟩
          · rw [if_pos rfl, List.append_nil]
            exact linked
          · change List.take _ [] ++ s.writer.buffer = _
            rw [if_pos rfl, List.append_nil, List.take_nil, List.nil_append]
            exact bytes
        · exact ends
      · change List.drop _ [] <+: _
        rw [List.drop_nil]
        exact List.nil_prefix

theorem Sound.step {t : Appended} {call : WriterCall × FileIo} (sound : s.Sound)
    (synced : s.SyncsTruncate call) (next : s.step call = some t) : t.Sound := by
  obtain ⟨call, io⟩ := call
  cases call with
  | append r =>
    cases next
    exact sound.buffered rfl s.writer.imaged
  | appendPageImage pageId page txid opEnd =>
    cases next
    exact sound.buffered rfl _
  | flush =>
    cases next
    exact sound.flush io
  | flushTo lsn =>
    cases next
    unfold LogWriter.flushTo
    split
    · exact sound
    · split
      · exact sound
      · exact sound.flush io
  | truncate newBase =>
    cases next
    exact sound.truncate synced

theorem syncs_of_described {t : Appended} {call : WriterCall × FileIo}
    (next : s.step call = some t) (described : t.Described) : s.SyncsTruncate call := by
  obtain ⟨call, io⟩ := call
  cases call with
  | truncate newBase =>
    intro cut sync
    cases next
    have inside := described.inside
    simp only [LogWriter.truncate, cut, sync] at inside
    exact Nat.le_zero.mp inside
  | _ => trivial

end Appended

/-- Over every sequence of calls with any failed writes, fsyncs and ftruncates. -/
theorem writer_survives_iff_truncations_sync (base : UInt64) (old : List LogRecord)
    (linked : Linked base old) (calls : List (WriterCall × FileIo)) :
    EveryState Appended.step Appended.Survives (.reopened base old) calls ↔
      EveryStep Appended.step Appended.SyncsTruncate (.reopened base old) calls := by
  constructor
  · intro survives
    refine everyStep_of_state (I := fun _ => True) (fun _ _ _ _ _ => trivial) ?_ trivial survives
    intro s call t _ next after
    exact Appended.syncs_of_described next after.described
  · intro syncs
    have sound : EveryState Appended.step Appended.Sound (.reopened base old) calls :=
      everyState_of_step (fun _ _ _ sound synced next => sound.step synced next)
        (Appended.Sound.opened base linked) syncs
    exact sound.imp fun _ => Appended.Sound.survives

/-- A marker flushed in the normal way, a checkpoint whose last fsync fails, and a commit. -/
def unsyncedTruncate : List (WriterCall × FileIo) :=
  [(.append (txnMarker 1 .begin), .good), (.flush, .good),
    (.truncate 32, { FileIo.good with sync := false }), (.append (txnMarker 2 .commit), .good)]

/-- A write that fails and is made again, a checkpoint that fails to truncate and one that does,
and a failed fsync. -/
def failedFlushes : List (WriterCall × FileIo) :=
  [(.append (txnMarker 1 .begin), .good), (.flush, { FileIo.good with write := some 7 }), (.flush, .good),
    (.truncate 32, { FileIo.good with truncate := false }), (.truncate 32, .good),
    (.append (txnMarker 2 .commit), .good), (.flush, { FileIo.good with sync := false })]

theorem failed_flushes_survive : (run Appended.step (.reopened 1 []) failedFlushes).isSome = true ∧
    EveryState Appended.step Appended.Survives (.reopened 1 []) failedFlushes :=
  ⟨rfl, (writer_survives_iff_truncations_sync 1 [] trivial _).mpr (by decide +kernel)⟩

/-- The flush that follows returns Ok, and the reader finds no record at all. -/
theorem unsynced_truncate_hides_commit :
    ∃ s, run Appended.step (.reopened 1 []) unsyncedTruncate = some s ∧
      (s.writer.flush .good).1 = true ∧ s.since.length = 1 ∧
      readAll (s.writer.flush .good).2.file = [] ∧ ¬ s.Survives := by
  obtain ⟨s, reached⟩ : ∃ s, run Appended.step (.reopened 1 []) unsyncedTruncate = some s :=
    ⟨_, rfl⟩
  have flushed : (s.writer.flush .good).1 = true ∧ s.since.length = 1 ∧
      readAll (s.writer.flush .good).2.file = [] := by
    obtain rfl := Option.some.inj reached
    decide +kernel
  obtain ⟨ok, one, nothing⟩ := flushed
  refine ⟨s, reached, ok, one, nothing, fun survives => ?_⟩
  have shown := survives.reads .good ok
  rw [nothing, List.suffix_nil] at shown
  rw [shown] at one
  contradiction

end PagerDB.Wire

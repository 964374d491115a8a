import PagerDB.Wal.TornTail

/-! Appending to a log that a crash left. The writer goes on behind every byte of the file,
and the reader stops where the records stop: the two agree exactly when the file ends with a
whole record. -/
namespace PagerDB.Wire

open LittleEndian (encode field field_lt layout)

/-- LSN of the first byte of a log that holds these records, as `DB::Open` derives it. -/
def baseOf (records : List LogRecord) (checkpointLsn : UInt64) : UInt64 :=
  match records with
  | r :: _ => r.lsn
  | [] => if checkpointLsn = 0 then 1 else checkpointLsn

/-- `wal.log` after a crash: chained records, and then bytes that the reader does not take. -/
structure CrashedLog where
  old : List LogRecord
  torn : Bytes
  linked : ∀ r ∈ old.head?, Linked r.lsn old
  stops : readAll (serializeAll old ++ torn) = old

namespace CrashedLog

def file (log : CrashedLog) : Bytes := serializeAll log.old ++ log.torn

def reopen (log : CrashedLog) (checkpointLsn : UInt64) : LogWriter :=
  .open log.file (baseOf log.old checkpointLsn)

end CrashedLog

namespace LogWriter

def appendAll (w : LogWriter) (records : List LogRecord) : LogWriter := records.foldl append w

def assignedAll (w : LogWriter) : List LogRecord → List LogRecord
  | [] => []
  | r :: rs => w.assigned r :: (w.append r).assignedAll rs

theorem assignedAll_linked (w : LogWriter) (records : List LogRecord) :
    Linked w.endLsn (w.assignedAll records) := by
  induction records generalizing w with
  | nil => trivial
  | cons r rs ih => exact ⟨rfl, ih (w.append r)⟩

theorem appendAll_eq (w : LogWriter) (records : List LogRecord) :
    (w.appendAll records).file = w.file ∧ (w.appendAll records).fileBytes = w.fileBytes ∧
    (w.appendAll records).buffer = w.buffer ++ serializeAll (w.assignedAll records) := by
  induction records generalizing w with
  | nil => exact ⟨rfl, rfl, (List.append_nil _).symm⟩
  | cons r rs ih =>
    obtain ⟨file, bytes, buffer⟩ := ih (w.append r)
    refine ⟨file, bytes, buffer.trans ?_⟩
    rw [assignedAll, serializeAll_cons, ← List.append_assoc]
    rfl

theorem flush_file {w : LogWriter} (position : w.fileBytes = w.file.length) :
    (w.flush .good).2.file = w.file ++ w.buffer := by
  unfold flush
  split
  · rename_i idle
    rw [idle.1, List.append_nil]
  · split
    · rename_i empty
      rw [empty, List.append_nil]
      rfl
    · change writeAt w.file w.fileBytes w.buffer = _
      rw [position, writeAt_end]

end LogWriter

namespace CrashedLog

def extended (log : CrashedLog) (checkpointLsn : UInt64) (records : List LogRecord) : Bytes :=
  (((log.reopen checkpointLsn).appendAll records).flush .good).2.file

/-- The reader finds the old records and then the new ones. -/
def ReadsBack (log : CrashedLog) (checkpointLsn : UInt64) (records : List LogRecord) : Prop :=
  readAll (log.extended checkpointLsn records) =
    log.old ++ (log.reopen checkpointLsn).assignedAll records

theorem extended_eq (log : CrashedLog) (checkpointLsn : UInt64) (records : List LogRecord) :
    log.extended checkpointLsn records = serializeAll log.old ++ (log.torn ++
      serializeAll ((log.reopen checkpointLsn).assignedAll records)) := by
  obtain ⟨file, bytes, buffer⟩ := (log.reopen checkpointLsn).appendAll_eq records
  have position : ((log.reopen checkpointLsn).appendAll records).fileBytes =
      ((log.reopen checkpointLsn).appendAll records).file.length := by
    rw [file, bytes]
    rfl
  rw [extended, LogWriter.flush_file position, file, buffer]
  change serializeAll log.old ++ log.torn ++ ([] ++ _) = _
  rw [List.nil_append, List.append_assoc]

theorem linked_base (log : CrashedLog) (checkpointLsn : UInt64) :
    Linked (baseOf log.old checkpointLsn) log.old := by
  have linked := log.linked
  unfold baseOf
  cases eq : log.old with
  | nil => trivial
  | cons r rs =>
    rw [eq] at linked
    exact linked r rfl

theorem readAll_extended (log : CrashedLog) (checkpointLsn : UInt64) (records : List LogRecord) :
    ∃ fuel expected,
      readAll (log.extended checkpointLsn records) = log.old ++ readFrom fuel expected
        (log.torn ++ serializeAll ((log.reopen checkpointLsn).assignedAll records)) ∧
      (log.old = [] → expected = 0) ∧
      (log.old ≠ [] → expected = baseOf log.old checkpointLsn +
        UInt64.ofNat (serializeAll log.old).length) := by
  obtain ⟨fuel, expected, -, reads, start, moved⟩ :=
    readFrom_records (log.linked_base checkpointLsn)
      (log.torn ++ serializeAll ((log.reopen checkpointLsn).assignedAll records))
      (Or.inl (rfl : (0 : UInt64) = 0)) le_rfl
  exact ⟨fuel, expected, by rw [extended_eq, readAll, reads], start, moved⟩

theorem readsBack_of_whole (log : CrashedLog) (whole : log.torn = []) (checkpointLsn : UInt64)
    (records : List LogRecord) : log.ReadsBack checkpointLsn records := by
  have linked : Linked (baseOf log.old checkpointLsn)
      (log.old ++ (log.reopen checkpointLsn).assignedAll records) := by
    refine Linked.append.mpr ⟨log.linked_base checkpointLsn, ?_⟩
    have file : log.file = serializeAll log.old := by rw [CrashedLog.file, whole, List.append_nil]
    rw [← file]
    exact (log.reopen checkpointLsn).assignedAll_linked records
  obtain ⟨fuel, expected, -, reads, -⟩ :=
    readFrom_records linked [] (Or.inl (rfl : (0 : UInt64) = 0)) le_rfl
  have empty : readFrom fuel expected [] = [] := readFrom_of_parse_none rfl fuel expected
  rw [ReadsBack, extended_eq, whole, List.nil_append, ← serializeAll_append, readAll]
  rw [List.append_nil, empty, List.append_nil] at reads
  exact reads

end CrashedLog

/- A torn remainder. -/

theorem readFrom_head {fuel : Nat} {expected : UInt64} {bytes : Bytes} {r : LogRecord}
    {rs : List LogRecord} (reads : readFrom fuel expected bytes = r :: rs) :
    (expected = 0 ∨ r.lsn = expected) ∧ ∃ consumed, LogRecord.parse bytes = some (r, consumed) := by
  cases fuel with
  | zero => simp [readFrom] at reads
  | succ fuel =>
    rw [readFrom] at reads
    split at reads
    · cases reads
    · rename_i record consumed parsed
      split at reads
      · cases reads
      · rename_i accepts
        obtain ⟨rfl, -⟩ := List.cons.inj reads
        refine ⟨?_, consumed, parsed⟩
        by_cases zero : expected = 0
        · exact Or.inl zero
        · exact Or.inr (not_not.mp fun differs => accepts ⟨zero, differs⟩)

theorem parse_txid {bytes : Bytes} {r : LogRecord} {consumed : Nat}
    (parsed : LogRecord.parse bytes = some (r, consumed)) :
    r.txid = UInt64.ofNat (field 8 8 bytes) := by
  unfold LogRecord.parse at parsed
  split at parsed
  · cases parsed
  · simp only at parsed
    split at parsed
    · cases parsed
    · simp only [Option.ite_none_left_eq_some, Option.some.injEq, Prod.mk.injEq] at parsed
      obtain ⟨-, -, rfl, -⟩ := parsed
      rfl

theorem field_low (offset : Nat) (bytes : Bytes) :
    field offset 8 bytes % 256 = field offset 1 bytes := by
  unfold field
  cases bytes.drop offset with
  | nil => rfl
  | cons b bs =>
    have low := b.isLt
    simp only [List.take_succ_cons, List.take_zero, LittleEndian.decode]
    omega

theorem field_left {offset : Nat} {left : Bytes} (inside : offset < left.length) (rest : Bytes) :
    field offset 1 (left ++ rest) = field offset 1 left := by
  unfold field
  rw [List.drop_append_of_le_length (le_of_lt inside), List.take_append_of_le_length]
  rw [List.length_drop]
  omega

namespace CrashedLog

/-- Behind a remainder the reader looks for the next record at the wrong place: some record
does not have the bytes that stand there. -/
theorem whole_of_readsBack {log : CrashedLog} {checkpointLsn : UInt64}
    (reads : ∀ records, log.ReadsBack checkpointLsn records) : log.torn = [] := by
  by_contra some_torn
  have torn : 0 < log.torn.length := List.length_pos_of_ne_nil some_torn
  let w := log.reopen checkpointLsn
  -- byte 8 behind the old records, where the reader looks for the low byte of the next id
  let forced := field 8 1 (log.torn ++ encode 8 w.endLsn.toNat)
  have chosen : ∃ txid : UInt64, txid.toNat % 256 ≠ forced := by
    by_cases zero : forced = 0
    · exact ⟨1, by rw [zero]; decide⟩
    · exact ⟨0, fun same => zero same.symm⟩
  obtain ⟨txid, differs⟩ := chosen
  obtain ⟨fuel, expected, found, -⟩ := log.readAll_extended checkpointLsn [txnMarker txid .commit]
  have tail := List.append_cancel_left (found.symm.trans (reads [txnMarker txid .commit]))
  obtain ⟨-, consumed, parsed⟩ := readFrom_head tail
  have id := congrArg UInt64.toNat (parse_txid parsed)
  have width : 256 ^ 8 = 2 ^ 64 := by decide
  rw [UInt64.toNat_ofNat', Nat.mod_eq_of_lt ((field_lt 8 8 _).trans_eq width)] at id
  have low := congrArg (· % 256) id
  simp only [field_low] at low
  refine differs (low.trans ?_)
  have inside : 8 < (log.torn ++ encode 8 w.endLsn.toNat).length := by
    rw [List.length_append, LittleEndian.length_encode]
    omega
  let marker := w.assigned (txnMarker txid .commit)
  have lsn_first : marker.serialize = encode 8 w.endLsn.toNat ++ marker.serialize.drop 8 := by
    rw [LogRecord.serialize, LogRecord.header, layout, List.append_assoc,
      List.drop_left' (LittleEndian.length_encode 8 _)]
    rfl
  change field 8 1 (log.torn ++ (marker.serialize ++ [])) = _
  rw [List.append_nil, lsn_first, ← List.append_assoc, field_left inside]

end CrashedLog

/-- The old records followed by whatever is appended, for every log a crash can leave. -/
theorem reopened_log_reads_back_iff_whole (log : CrashedLog) (checkpointLsn : UInt64) :
    (∀ records, log.ReadsBack checkpointLsn records) ↔ log.torn = [] :=
  ⟨CrashedLog.whole_of_readsBack, fun whole => log.readsBack_of_whole whole checkpointLsn⟩

def shortRemainder : CrashedLog where
  old := [{ txnMarker 1 .begin with lsn := 1 }]
  torn := encode 5 32
  linked := by
    intro r isHead
    obtain rfl := Option.some.inj isHead
    exact ⟨rfl, trivial⟩
  stops := by decide +kernel

/-- The commit behind the five bytes is durable, and the reader does not see it. -/
theorem shortRemainder_hides_commit :
    readAll (shortRemainder.extended 0 [txnMarker 1 .commit]) = shortRemainder.old ∧
    ¬ shortRemainder.ReadsBack 0 [txnMarker 1 .commit] := by
  have hidden : readAll (shortRemainder.extended 0 [txnMarker 1 .commit]) = shortRemainder.old := by
    decide +kernel
  refine ⟨hidden, fun reads => ?_⟩
  have length := congrArg List.length (hidden.symm.trans reads)
  simp [LogWriter.assignedAll] at length

end PagerDB.Wire

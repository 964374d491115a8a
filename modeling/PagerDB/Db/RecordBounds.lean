import PagerDB.Db.Lasting
import PagerDB.Wal.Wire

/-! The codec of the log's records is exact, and what an open handle logs is in its range: over every run,
whichever calls fail, the lengths of a record fit their 16-bit fields and no before-image reaches the
sentinel. -/
namespace PagerDB

open KeepsLib MachineLib Store

variable {s s' : Store} {old : List LogRecord} {txid : TxId}

namespace Store.Logged

theorem facing (logged : s.Logged old) (io : List (Option Fault)) : (s.facing io).Logged old :=
  logged.same ⟨logged.tidy.cache, logged.tidy.disk⟩ rfl

theorem settles (logged : s.Logged old) (settles : Settles s s') : s'.Logged old := by
  refine ⟨⟨fun p f here => ?_, fun p page here => ?_⟩, fun w is r mem => ?_⟩
  · obtain ⟨g, there, same⟩ := settles.cache p f here
    exact same ▸ logged.tidy.cache p g there
  · rcases settles.disk p page here with there | ⟨g, there, rfl⟩
    · exact logged.tidy.disk p page there
    · exact logged.tidy.cache p g there
  · rcases settles.log r (by simpa [Store.records, is] using mem) with kept | marker
    · cases wal : s.wal with
      | none => simp [Store.records, wal] at kept
      | some v => exact logged.small v wal r (by simpa [Store.records, wal] using kept)
    · rw [marker]
      exact .inr trivial

theorem marker (logged : s.Logged old) {body : LogBody} (small : body.Encodable) :
    (s.onLog (·.append txid true body)).Logged old := by
  cases wal : s.wal with
  | none => exact logged.same ⟨logged.tidy.cache, logged.tidy.disk⟩ (by simp [Store.onLog, wal])
  | some w =>
    have chunks : (w.append txid true body).chunks = w.chunks ++ [.record ⟨w.endLsn, txid, true, body⟩] := by
      simp [LogWriter.append, LogWriter.chunks]
    exact logged.append wal chunks small ⟨logged.tidy.cache, logged.tidy.disk⟩ (by simp [Store.onLog, wal])

end Store.Logged

theorem logged_lasting : Lasting (Store.Logged old) where
  put _ _ _ _ := logs_treePut
  delete _ _ _ := logs_treeDelete
  begins txid := logs_logPageEvent txid true trivial
  fetch := logs_fetchPage
  facing _ io logged := logged.facing io
  evict s s' pid logged run := logged.step (show callStep s (.evict pid) = some s' from run)
  commit _ _ logged := logged.marker trivial
  abort _ _ logged := logged.marker trivial
  flush _ logged := logged.settles (.flush _)
  flushFault _ _ _ logged run := logged.settles (.flushFault run)
  checkpointed _ _ logged := logged.settles (.checkpointed _ _)
  checkpointFault _ _ _ _ logged run := logged.settles (.checkpointFault run)

/-- The records of one buffer: what was appended reads back, nothing shorter does, and what reads back
is what was appended. Over every run of an open handle, each record that was not there at its opening is
in the codec's range. -/
theorem codec_exact_on_logged_records :
    (∀ (r : Wire.LogRecord) (rest : Bytes), Wire.LogRecord.parse (r.serialize ++ rest) =
      some (r, r.serializedSize)) ∧
    (∀ (r : Wire.LogRecord) (n : Nat), n < r.serialize.length →
      Wire.LogRecord.parse (r.serialize.take n) = none) ∧
    (∀ (b : Bytes) (r : Wire.LogRecord) (n : Nat), Wire.LogRecord.parse b = some (r, n) →
      r.serialize = b.take n ∧ n = r.serializedSize) ∧
    ∀ (s : Store) (options : Options) (events : List HandleEvent), s.Tidy →
      EveryState Handle.next (fun h => ∀ r ∈ h.store.records, r ∈ s.records ∨ r.body.Encodable)
        (.opened s options) events := by
  refine ⟨Wire.LogRecord.parse_serialize, ?_, ?_, ?_⟩
  · intro r n cut
    rw [Wire.LogRecord.length_serialize] at cut
    exact r.parse_cut cut
  · intro b r n parses
    have size := congrArg List.length (Wire.LogRecord.serialize_of_parse parses)
    have enough := (Wire.LogRecord.parsed_of_parse parses).enough
    rw [Wire.LogRecord.length_serialize, List.length_take_of_le enough] at size
    exact ⟨Wire.LogRecord.serialize_of_parse parses, size.symm⟩
  · intro s options events tidy
    have start : s.Logged s.records := by
      refine ⟨tidy, fun w is r mem => .inl ?_⟩
      simpa [Store.records, is] using mem
    refine (logged_lasting.always start options events).imp fun h logged r mem => ?_
    cases wal : h.store.wal with
    | none => simp [Store.records, wal] at mem
    | some w => exact logged.small w wal r (by simpa [Store.records, wal] using mem)

def firstPut : List HandleEvent := [.call (.put [1] [2] [] none)]

/-- The records of a first Put, and a marker that is cut after three bytes. -/
theorem first_put_in_range : (∃ h, run Handle.next
    (.opened (create ⟨100, by decide⟩ (some (.open [] 1))) ⟨true, 0⟩)
      firstPut = some h ∧ h.store.records.length = 3 ∧ ∀ r ∈ h.store.records, r.body.Encodable) ∧
    Wire.LogRecord.parse ((Wire.txnMarker 7 .commit).serialize.take 3) = none ∧
    (Wire.txnMarker 7 .commit).serialize = (Wire.txnMarker 7 .commit).serialize.take 31 := by
  obtain ⟨round, cut, back, range⟩ := codec_exact_on_logged_records
  refine ⟨?_, cut _ 3 (by decide), ?_⟩
  · have counted : (run Handle.next
      (.opened (create ⟨100, by decide⟩ (some (.open [] 1))) ⟨true, 0⟩) firstPut).map
        (fun h => h.store.records.length) = some 3 := by
      decide +kernel
    obtain ⟨h, reach, three⟩ := Option.map_eq_some_iff.mp counted
    refine ⟨h, reach, three, fun r mem => ?_⟩
    exact ((range _ _ firstPut (create_tidy _ _)).last reach r mem).resolve_left nofun
  · have parses := round (Wire.txnMarker 7 .commit) []
    rw [List.append_nil] at parses
    exact (back _ _ _ parses).1

end PagerDB

import PagerDB.Db.Journal

/-! What `ReadAll` finds in a log that a crash has cut: whole records, in the order in which they
were appended, and
nothing of what stands behind a torn one. -/
namespace PagerDB

open LogWriter (fileBytes)

variable {n : Nat} {as bs cs : List Chunk} {rs fs ts : List LogRecord} {w : LogWriter} {base : Lsn}

def Torn (cs : List Chunk) : Prop := cs = [] ∨ ∃ k, 0 < k ∧ cs = [.torn k]

theorem cutChunks_of_le (room : fileBytes as ≤ n) (bs : List Chunk) :
    cutChunks n (as ++ bs) = as ++ cutChunks (n - fileBytes as) bs := by
  induction as generalizing n with
  | nil => rfl
  | cons c as ih =>
    rw [LogWriter.fileBytes_cons] at room
    rw [List.cons_append, cutChunks, if_pos ((Nat.le_add_right _ _).trans room), ih (by omega),
      LogWriter.fileBytes_cons, List.cons_append, Nat.sub_sub]

theorem cutChunks_records (n : Nat) (rs : List LogRecord) :
    ∃ ts torn, cutChunks n (rs.map .record) = ts.map .record ++ torn ∧ ts <+: rs ∧ Torn torn := by
  induction rs generalizing n with
  | nil => exact ⟨[], [], rfl, List.nil_prefix, .inl rfl⟩
  | cons r rs ih =>
    rw [List.map_cons, cutChunks]
    split
    · obtain ⟨ts, torn, cut, pre, last⟩ := ih (n - (Chunk.record r).size)
      exact ⟨r :: ts, torn, by rw [cut]; rfl, (List.prefix_cons_inj r).mpr pre, last⟩
    · split
      · exact ⟨[], [], rfl, List.nil_prefix, .inl rfl⟩
      · rename_i some
        exact ⟨[], [.torn n], rfl, List.nil_prefix, .inr ⟨n, Nat.pos_of_ne_zero some, rfl⟩⟩

/- Reading. -/

theorem readChain_torn {expected : Option Lsn} (torn : Torn cs) (as : List Chunk) :
    readChain expected (as ++ cs) = readChain expected as := by
  induction as generalizing expected with
  | nil =>
    rcases torn with rfl | ⟨k, -, rfl⟩
    · rfl
    · simp [readChain]
  | cons c as ih =>
    cases c with
    | torn k => simp [readChain]
    | record r =>
      cases expected with
      | none => simp only [List.cons_append, readChain, ih]
      | some e => simp only [List.cons_append, readChain, ih]

theorem readAll_torn (torn : Torn cs) (as : List Chunk) : readAll (as ++ cs) = readAll as :=
  readChain_torn torn as

/-- A record at the end of the file is found, or one before it is not and so neither is it. -/
theorem readAll_snoc (cs : List Chunk) (r : LogRecord) :
    readAll (cs ++ [.record r]) = readAll cs ∨ readAll (cs ++ [.record r]) = readAll cs ++ [r] := by
  unfold readAll
  generalize none = expected
  induction cs generalizing expected with
  | nil =>
    cases expected with
    | none => exact .inr rfl
    | some e =>
      by_cases here : r.lsn = e
      · exact .inr (by simp [readChain, here])
      · exact .inl (by simp [readChain, here])
  | cons c cs ih =>
    cases c with
    | torn k => exact .inl (by simp [readChain])
    | record q =>
      have rest := ih (some (q.lsn + q.serializedSize))
      cases expected with
      | none =>
        simp only [List.cons_append, readChain]
        exact rest.imp (congrArg _) (congrArg _)
      | some e =>
        simp only [List.cons_append, readChain]
        split
        · exact rest.imp (congrArg _) (congrArg _)
        · exact .inl rfl

theorem readChain_placed (placed : Placed base (rs.map .record)) :
    readChain (some base) (rs.map .record) = rs := by
  induction rs generalizing base with
  | nil => rfl
  | cons r rs ih =>
    obtain ⟨here, rest⟩ := placed
    rw [← here] at rest
    simp only [List.map_cons, readChain, here, if_true]
    rw [← here, ih rest]

theorem readAll_placed (placed : Placed base (rs.map .record)) : readAll (rs.map .record) = rs := by
  cases rs with
  | nil => rfl
  | cons r rs =>
    obtain ⟨here, rest⟩ := placed
    rw [← here] at rest
    change r :: readChain (some (r.lsn + r.serializedSize)) (rs.map .record) = _
    rw [readChain_placed rest]

theorem Placed.left (placed : Placed base (as ++ bs)) : Placed base as := by
  induction as generalizing base with
  | nil => trivial
  | cons c as ih =>
    cases c with
    | torn k => trivial
    | record r => exact ⟨placed.1, ih placed.2⟩

theorem le_end_of_placed (placed : Placed base cs) (c : MetaCopy) (start : base ≤ c.logStart) :
    base + fileBytes cs ≤ (LogWriter.open cs (Journal.baseLsn (readAll cs) c)).endLsn := by
  refine Nat.add_le_add_right ?_ _
  cases found : readAll cs with
  | nil => exact start
  | cons r rs => exact (placed.readAll_cons found).ge

/- Crashes. -/

theorem LogWriter.crashed_eq (w : LogWriter) (n : Nat) :
    ∃ ts torn, w.crashed n = w.file ++ (ts.map .record ++ torn) ∧ ts <+: w.buffer ∧ Torn torn := by
  obtain ⟨ts, torn, cut, pre, last⟩ := cutChunks_records
    (max (fileBytes w.file) n - fileBytes w.file) w.buffer
  refine ⟨ts, torn, ?_, pre, last⟩
  rw [← cut, crashed, chunks, cutChunks_of_le (le_max_left _ _)]

theorem LogWriter.crashed_flushed (flushed : w.buffer = []) (n : Nat) : w.crashed n = w.file := by
  rw [crashed, chunks, flushed, cutChunks_of_le (le_max_left _ _)]
  exact List.append_nil _

theorem LogWriter.crashed_sizes (sizes : ∀ c ∈ w.file, 0 < c.size) (n : Nat) :
    ∀ c ∈ w.crashed n, 0 < c.size := by
  obtain ⟨ts, torn, file, -, last⟩ := w.crashed_eq n
  rw [file]
  refine List.forall_mem_append.mpr ⟨sizes, List.forall_mem_append.mpr ⟨fun c mem => ?_, ?_⟩⟩
  · obtain ⟨r, -, rfl⟩ := List.mem_map.mp mem
    exact r.serializedSize_pos
  · rcases last with rfl | ⟨k, pos, rfl⟩
    · exact List.forall_mem_nil _
    · exact List.forall_mem_singleton.mpr pos

theorem eq_nil_of_no_bytes (sizes : ∀ c ∈ cs, 0 < c.size) (empty : fileBytes cs = 0) : cs = [] := by
  cases cs with
  | nil => rfl
  | cons c cs =>
    have pos := sizes c List.mem_cons_self
    rw [LogWriter.fileBytes_cons] at empty
    omega

theorem LogWriter.Sound.reopened (sound : w.Sound) {c : MetaCopy} (start : w.baseLsn ≤ c.logStart) (n : Nat) :
    (LogWriter.open (w.crashed n) (Journal.baseLsn (readAll (w.crashed n)) c)).Sound ∧
      Journal.baseLsn (readAll (w.crashed n)) c ≤ c.logStart ∧
      w.baseLsn + fileBytes (w.crashed n) ≤
        (LogWriter.open (w.crashed n) (Journal.baseLsn (readAll (w.crashed n)) c)).endLsn := by
  have crashed := sound.crashed n
  have placed := crashed.placed
  rw [LogWriter.open_chunks] at placed
  refine ⟨?_, ?_, le_end_of_placed placed c start⟩
  · cases found : readAll (w.crashed n) with
    | nil => exact crashed.of_open start (placed_of_readAll_nil found _)
    | cons r rs =>
      have here := placed.readAll_cons found
      change (LogWriter.open (w.crashed n) r.lsn).Sound
      rwa [here]
  · cases found : readAll (w.crashed n) with
    | nil => exact le_rfl
    | cons r rs => exact (placed.readAll_cons found).le.trans start

end PagerDB

import PagerDB.Wal.Wire

/-! What a cut log still says. A log without failed I/O is a chain of whole records from
`base_lsn` on; the reader returns those that lie within the cut and stops at the first one
that does not, and a flush leaves nothing it promised in the buffer. -/
namespace PagerDB.Wire

def serializeAll (rs : List LogRecord) : Bytes := (rs.map LogRecord.serialize).flatten

@[simp] theorem serializeAll_nil : serializeAll [] = [] := rfl

@[simp] theorem serializeAll_cons (r : LogRecord) (rs : List LogRecord) :
    serializeAll (r :: rs) = r.serialize ++ serializeAll rs := rfl

@[simp] theorem serializeAll_append (xs ys : List LogRecord) :
    serializeAll (xs ++ ys) = serializeAll xs ++ serializeAll ys := by
  simp [serializeAll]

def Chained : Nat → List LogRecord → Prop
  | _, [] => True
  | lsn, r :: rs => r.lsn.toNat = lsn ∧ Chained (lsn + r.serializedSize) rs

theorem Chained.append {lsn : Nat} {xs ys : List LogRecord} :
    Chained lsn (xs ++ ys) ↔ Chained lsn xs ∧ Chained (lsn + (serializeAll xs).length) ys := by
  induction xs generalizing lsn with
  | nil => simp [Chained]
  | cons r xs ih =>
    simp only [List.cons_append, Chained, ih, serializeAll_cons, List.length_append,
      LogRecord.length_serialize, Nat.add_assoc, and_assoc]

theorem Chained.within {lsn : Nat} {rs : List LogRecord} (chained : Chained lsn rs)
    {r : LogRecord} (mem : r ∈ rs) :
    lsn ≤ r.lsn.toNat ∧ r.lsn.toNat + r.serializedSize ≤ lsn + (serializeAll rs).length := by
  obtain ⟨xs, ys, rfl⟩ := List.append_of_mem mem
  obtain ⟨-, here, -⟩ := Chained.append.mp chained
  simp only [serializeAll_append, serializeAll_cons, List.length_append,
    LogRecord.length_serialize]
  omega

/- Reading whole records. -/

theorem serializedSize_pos (r : LogRecord) : 0 < r.serializedSize := by
  unfold LogRecord.serializedSize kHeaderSize
  omega

/-- The chain as the reader checks it, with its 64-bit sums. -/
def Linked : UInt64 → List LogRecord → Prop
  | _, [] => True
  | lsn, r :: rs => r.lsn = lsn ∧ Linked (lsn + UInt64.ofNat r.serializedSize) rs

theorem Linked.append {lsn : UInt64} {xs ys : List LogRecord} :
    Linked lsn (xs ++ ys) ↔
      Linked lsn xs ∧ Linked (lsn + UInt64.ofNat (serializeAll xs).length) ys := by
  induction xs generalizing lsn with
  | nil => simp [Linked]
  | cons r xs ih =>
    simp only [List.cons_append, Linked, ih, serializeAll_cons, List.length_append,
      LogRecord.length_serialize, UInt64.ofNat_add, UInt64.add_assoc, and_assoc]

theorem Chained.linked {lsn : UInt64} {rs : List LogRecord} (chained : Chained lsn.toNat rs) :
    Linked lsn rs := by
  induction rs generalizing lsn with
  | nil => trivial
  | cons r rs ih =>
    obtain ⟨here, after⟩ := chained
    refine ⟨UInt64.toNat_inj.mp here, ?_⟩
    cases rs with
    | nil => trivial
    | cons next rest =>
      -- the next record has an LSN, so the sum did not wrap
      have bound := next.lsn.toNat_lt
      have sum : (lsn + UInt64.ofNat r.serializedSize).toNat = lsn.toNat + r.serializedSize := by
        rw [UInt64.toNat_add, UInt64.toNat_ofNat', Nat.add_mod_mod]
        exact Nat.mod_eq_of_lt (by rw [← after.1]; exact bound)
      exact ih (by rw [sum]; exact after)

theorem readFrom_records {lsn : UInt64} {rs : List LogRecord} (linked : Linked lsn rs)
    {fuel : Nat} {expected : UInt64} (tail : Bytes) (continues : expected = 0 ∨ expected = lsn)
    (enough : (serializeAll rs ++ tail).length ≤ fuel) :
    ∃ fuel' expected', tail.length ≤ fuel' ∧
      readFrom fuel expected (serializeAll rs ++ tail) = rs ++ readFrom fuel' expected' tail ∧
      (rs = [] → expected' = expected) ∧
      (rs ≠ [] → expected' = lsn + UInt64.ofNat (serializeAll rs).length) := by
  induction rs generalizing lsn fuel expected with
  | nil => exact ⟨fuel, expected, by simpa using enough, by simp, fun _ => rfl, by simp⟩
  | cons r rs ih =>
    obtain ⟨rfl, after⟩ := linked
    have size := serializedSize_pos r
    have length := LogRecord.length_serialize r
    simp only [serializeAll_cons, List.append_assoc, List.length_append, length] at enough ⊢
    obtain ⟨fuel, rfl⟩ : ∃ k, fuel = k + 1 := ⟨fuel - 1, by omega⟩
    have accepts : ¬ (expected ≠ 0 ∧ r.lsn ≠ expected) := by
      rintro ⟨nonzero, differs⟩
      rcases continues with zero | same
      · exact nonzero zero
      · exact differs same.symm
    have less : (serializeAll rs ++ tail).length ≤ fuel := by
      rw [List.length_append]
      omega
    obtain ⟨fuel', expected', room, reads, same, moved⟩ := ih after (Or.inr rfl) less
    refine ⟨fuel', expected', room, ?_, by simp, fun _ => ?_⟩
    · rw [readFrom, LogRecord.parse_serialize]
      simp only [if_neg accepts, List.drop_left' length, reads, List.cons_append]
    · rw [UInt64.ofNat_add, ← UInt64.add_assoc]
      by_cases last : rs = []
      · subst last
        rw [same rfl]
        simp
      · rw [moved last]

theorem readFrom_of_parse_none {bytes : Bytes} (stops : LogRecord.parse bytes = none)
    (fuel : Nat) (expected : UInt64) : readFrom fuel expected bytes = [] := by
  cases fuel with
  | zero => rfl
  | succ fuel => simp only [readFrom, stops]

/- Cuts. -/

theorem take_serializeAll (rs : List LogRecord) (n : Nat) :
    ∃ whole rest tail, rs = whole ++ rest ∧
      (serializeAll rs).take n = serializeAll whole ++ tail ∧ LogRecord.parse tail = none ∧
      (serializeAll whole).length ≤ n ∧
      ∀ r ∈ rest.head?, n < (serializeAll whole).length + r.serializedSize := by
  induction rs generalizing n with
  | nil => exact ⟨[], [], [], rfl, by simp, rfl, by simp, by simp⟩
  | cons r rs ih =>
    have length := LogRecord.length_serialize r
    by_cases within : r.serializedSize ≤ n
    · obtain ⟨whole, rest, tail, rfl, cut, stops, fits, next⟩ := ih (n - r.serializedSize)
      refine ⟨r :: whole, rest, tail, rfl, ?_, stops, ?_, ?_⟩
      · rw [serializeAll_cons, List.take_append, length, cut, List.take_of_length_le (by omega)]
        simp
      · simp only [serializeAll_cons, List.length_append, length]
        omega
      · intro q isHead
        have bound := next q isHead
        simp only [serializeAll_cons, List.length_append, length]
        omega
    · have short : n < r.serializedSize := by omega
      refine ⟨[], r :: rs, r.serialize.take n, rfl, ?_, LogRecord.parse_cut r short, by simp, ?_⟩
      · rw [serializeAll_cons, List.take_append, length, Nat.sub_eq_zero_of_le (by omega)]
        simp
      · intro q isHead
        obtain rfl := Option.some.inj isHead
        simpa using short

def wholeWithin (base : UInt64) (n : Nat) (rs : List LogRecord) : List LogRecord :=
  rs.filter fun r => (r.lsn - base).toNat + r.serializedSize ≤ n

theorem Chained.offset {base : UInt64} {rs : List LogRecord} (chained : Chained base.toNat rs)
    {r : LogRecord} (mem : r ∈ rs) : (r.lsn - base).toNat = r.lsn.toNat - base.toNat :=
  UInt64.toNat_sub_of_le _ _ (UInt64.le_iff_toNat_le.mpr (chained.within mem).1)

theorem wholeWithin_append {base : UInt64} {n : Nat} {whole rest : List LogRecord}
    (chained : Chained base.toNat (whole ++ rest)) (fits : (serializeAll whole).length ≤ n)
    (next : ∀ r ∈ rest.head?, n < (serializeAll whole).length + r.serializedSize) :
    wholeWithin base n (whole ++ rest) = whole := by
  obtain ⟨left, right⟩ := Chained.append.mp chained
  have inside : ∀ r ∈ whole, (r.lsn - base).toNat + r.serializedSize ≤ n := by
    intro r mem
    have bounds := left.within mem
    rw [left.offset mem]
    omega
  have outside : ∀ r ∈ rest, ¬ (r.lsn - base).toNat + r.serializedSize ≤ n := by
    intro r mem
    rw [chained.offset (List.mem_append_right _ mem)]
    cases rest with
    | nil => cases mem
    | cons head rest =>
      have bound := next head rfl
      obtain ⟨here, after⟩ := right
      rcases List.mem_cons.mp mem with rfl | later
      · omega
      · have bounds := after.within later
        omega
  unfold wholeWithin
  rw [List.filter_append, List.filter_eq_self.mpr (by simpa using inside),
    List.filter_eq_nil_iff.mpr (by simpa using outside), List.append_nil]

theorem readAll_take {base : UInt64} {rs : List LogRecord} (chained : Chained base.toNat rs)
    (n : Nat) : readAll ((serializeAll rs).take n) = wholeWithin base n rs := by
  obtain ⟨whole, rest, tail, rfl, cut, stops, fits, next⟩ := take_serializeAll rs n
  obtain ⟨left, -⟩ := Chained.append.mp chained
  obtain ⟨fuel, expected, -, reads, -⟩ :=
    readFrom_records left.linked tail (Or.inl (rfl : (0 : UInt64) = 0)) le_rfl
  rw [cut, readAll, reads, readFrom_of_parse_none stops, List.append_nil,
    wholeWithin_append chained fits next]

/- Runs of the writer. -/

/-- One call on the writer. `truncate` is the end of a checkpoint: a flush, and then
`Truncate(end_lsn)`. -/
inductive Call where
  | append (r : LogRecord)
  | appendPageImage (pageId : UInt32) (page : RawPage) (txid : UInt64) (opEnd : Bool)
  | flush
  | flushTo (lsn : UInt64)
  | truncate

/-- The writer with the records appended since the last truncation, those of
`AppendPageImage` marked. -/
structure Session where
  writer : LogWriter
  logged : List (LogRecord × Bool)

namespace Session

def records (s : Session) : List LogRecord := s.logged.map Prod.fst

def step (s : Session) : Call → Session
  | .append r => ⟨s.writer.append r, s.logged ++ [(s.writer.assigned r, false)]⟩
  | .appendPageImage pageId page txid opEnd =>
    ⟨s.writer.appendPageImage pageId page txid opEnd,
      s.logged ++ [(s.writer.imageRecord pageId page txid opEnd, true)]⟩
  | .flush => { s with writer := (s.writer.flush .good).2 }
  | .flushTo lsn => { s with writer := (s.writer.flushTo .good lsn).2 }
  | .truncate =>
    let w := (s.writer.flush .good).2
    ⟨(w.truncate .good w.endLsn).2, []⟩

def run (base : UInt64) (calls : List Call) : Session :=
  calls.foldl step ⟨.open [] base, []⟩

end Session

def Call.bytes : Call → Nat
  | append r => r.serializedSize
  | appendPageImage .. => kHeaderSize + kPageSize + kCrcSize
  | _ => 0

theorem LogWriter.imageRecord_size (w : LogWriter) (pageId : UInt32) (page : RawPage)
    (txid : UInt64) (opEnd : Bool) :
    (w.imageRecord pageId page txid opEnd).serializedSize =
      kHeaderSize + kPageSize + kCrcSize := by
  simp [LogRecord.serializedSize, LogWriter.imageRecord, LogRecord.beforeBytes,
    (page.stamp w.endLsn).property]

structure Session.Sound (s : Session) : Prop where
  bytes : s.writer.file ++ s.writer.buffer = serializeAll s.records
  whole : ∃ held rest, s.records = held ++ rest ∧ s.writer.file = serializeAll held
  position : s.writer.fileBytes = s.writer.file.length
  first : 0 < s.writer.baseLsn.toNat
  chained : Chained s.writer.baseLsn.toNat s.records
  ends : s.writer.endLsn.toNat = s.writer.baseLsn.toNat + (serializeAll s.records).length
  flushed : s.writer.flushedLsn.toNat = s.writer.baseLsn.toNat + s.writer.file.length
  images : ∀ e ∈ s.logged, e.2 = true →
    ∃ page : RawPage, e.1.value = page.val ∧ page.pageLsn = e.1.lsn

namespace Session.Sound

variable {s : Session}

theorem opened {base : UInt64} (first : base ≠ 0) : (Session.run base []).Sound where
  bytes := rfl
  whole := ⟨[], [], rfl, rfl⟩
  position := rfl
  first := by
    have : base.toNat ≠ 0 := fun zero => first (UInt64.toNat_inj.mp zero)
    exact Nat.pos_of_ne_zero this
  chained := trivial
  ends := by simp [Session.run, LogWriter.open, Session.records]
  flushed := by simp [Session.run, LogWriter.open]
  images := nofun

theorem buffered (sound : s.Sound) (r : LogRecord) (image : Bool) (imaged : List UInt32)
    (here : r.lsn = s.writer.endLsn)
    (fits : s.writer.endLsn.toNat + r.serializedSize < 2 ^ 64)
    (page : image = true → ∃ page : RawPage, r.value = page.val ∧ page.pageLsn = r.lsn) :
    Session.Sound ⟨{ s.writer.bufferRecord r with imaged := imaged },
      s.logged ++ [(r, image)]⟩ where
  bytes := by
    simp only [LogWriter.bufferRecord, Session.records, List.map_append, List.map_cons,
      List.map_nil, serializeAll_append, serializeAll_cons, serializeAll_nil, List.append_nil,
      ← List.append_assoc]
    rw [sound.bytes, Session.records]
  whole := by
    obtain ⟨held, rest, all, file⟩ := sound.whole
    refine ⟨held, rest ++ [r], ?_, file⟩
    change (s.logged ++ [(r, image)]).map Prod.fst = _
    rw [List.map_append, ← List.append_assoc, ← all]
    rfl
  position := sound.position
  first := sound.first
  chained := by
    simp only [Session.records, List.map_append, List.map_cons, List.map_nil]
    refine Chained.append.mpr ⟨sound.chained, ?_, trivial⟩
    rw [here, sound.ends]
    rfl
  ends := by
    simp only [LogWriter.bufferRecord, Session.records, List.map_append, List.map_cons,
      List.map_nil, serializeAll_append, serializeAll_cons, serializeAll_nil, List.append_nil,
      List.length_append, LogRecord.length_serialize]
    rw [UInt64.toNat_add, UInt64.toNat_ofNat', Nat.add_mod_mod, Nat.mod_eq_of_lt fits, sound.ends]
    simp only [Session.records]
    omega
  flushed := sound.flushed
  images := by
    intro e mem marked
    rcases List.mem_append.mp mem with old | new
    · exact sound.images e old marked
    · obtain rfl := List.mem_singleton.mp new
      exact page marked

theorem flush_good (sound : s.Sound) :
    s.writer.flush .good = (true, { s.writer with
      file := s.writer.file ++ s.writer.buffer
      fileBytes := (s.writer.file ++ s.writer.buffer).length
      buffer := []
      flushedLsn := s.writer.endLsn }) := by
  have position := sound.position
  unfold LogWriter.flush
  split
  · rename_i idle
    obtain ⟨empty, same⟩ := idle
    rw [empty, List.append_nil, ← same, ← position, ← empty]
  · split
    · rename_i empty
      simp only [LogWriter.synced, FileIo.good, if_true]
      rw [empty, List.append_nil, ← position, ← empty]
    · simp only [LogWriter.synced, FileIo.good, if_true]
      rw [position, writeAt_end, List.length_append]

theorem after_flush (sound : s.Sound) :
    Session.Sound { s with writer := (s.writer.flush .good).2 } where
  bytes := by
    rw [sound.flush_good, List.append_nil]
    exact sound.bytes
  whole := by
    rw [sound.flush_good]
    exact ⟨s.records, [], (List.append_nil _).symm, sound.bytes⟩
  position := by rw [sound.flush_good]
  first := by rw [sound.flush_good]; exact sound.first
  chained := by rw [sound.flush_good]; exact sound.chained
  ends := by rw [sound.flush_good]; exact sound.ends
  flushed := by
    rw [sound.flush_good, sound.bytes]
    exact sound.ends
  images := sound.images

theorem after_flushTo (sound : s.Sound) (lsn : UInt64) :
    Session.Sound { s with writer := (s.writer.flushTo .good lsn).2 } := by
  unfold LogWriter.flushTo
  split
  · exact sound
  · split
    · exact sound
    · exact sound.after_flush

theorem after_truncate (sound : s.Sound) : (s.step .truncate).Sound where
  bytes := rfl
  whole := ⟨[], [], rfl, rfl⟩
  position := rfl
  first := by
    have ends := sound.ends
    have first := sound.first
    change 0 < (s.writer.flush .good).2.endLsn.toNat
    rw [sound.flush_good]
    change 0 < s.writer.endLsn.toNat
    omega
  chained := trivial
  ends := rfl
  flushed := rfl
  images := nofun

theorem endLsn_step (sound : s.Sound) {c : Call}
    (fits : s.writer.endLsn.toNat + c.bytes < 2 ^ 64) :
    (s.step c).writer.endLsn.toNat = s.writer.endLsn.toNat + c.bytes := by
  cases c with
  | append r =>
    change (s.writer.endLsn + UInt64.ofNat (s.writer.assigned r).serializedSize).toNat = _
    rw [UInt64.toNat_add, UInt64.toNat_ofNat', Nat.add_mod_mod]
    exact Nat.mod_eq_of_lt fits
  | appendPageImage pageId page txid opEnd =>
    change (s.writer.endLsn + UInt64.ofNat
      (s.writer.imageRecord pageId page txid opEnd).serializedSize).toNat = _
    rw [LogWriter.imageRecord_size, UInt64.toNat_add, UInt64.toNat_ofNat', Nat.add_mod_mod]
    exact Nat.mod_eq_of_lt fits
  | flush =>
    change (s.writer.flush .good).2.endLsn.toNat = _
    rw [sound.flush_good]
    rfl
  | flushTo lsn =>
    change (s.writer.flushTo .good lsn).2.endLsn.toNat = _
    unfold LogWriter.flushTo
    rw [sound.flush_good]
    split
    · rfl
    · split <;> rfl
  | truncate =>
    change (s.writer.flush .good).2.endLsn.toNat = _
    rw [sound.flush_good]
    rfl

theorem step (sound : s.Sound) {c : Call} (fits : s.writer.endLsn.toNat + c.bytes < 2 ^ 64) :
    (s.step c).Sound := by
  cases c with
  | append r => exact sound.buffered _ false s.writer.imaged rfl fits nofun
  | appendPageImage pageId page txid opEnd =>
    refine sound.buffered _ true _ rfl ?_ fun _ => ⟨page.stamp s.writer.endLsn, rfl, ?_⟩
    · rw [LogWriter.imageRecord_size]
      exact fits
    · exact page.pageLsn_stamp _
  | flush => exact sound.after_flush
  | flushTo lsn => exact sound.after_flushTo lsn
  | truncate => exact sound.after_truncate

theorem run_from (sound : s.Sound) (calls : List Call)
    (lsns : s.writer.endLsn.toNat + (calls.map Call.bytes).sum < 2 ^ 64) :
    (calls.foldl Session.step s).Sound := by
  induction calls generalizing s with
  | nil => exact sound
  | cons c calls ih =>
    simp only [List.map_cons, List.sum_cons] at lsns
    have fits : s.writer.endLsn.toNat + c.bytes < 2 ^ 64 := by omega
    refine ih (sound.step fits) ?_
    rw [sound.endLsn_step fits]
    omega

end Session.Sound

theorem Session.run_sound {base : UInt64} (first : base ≠ 0) (calls : List Call)
    (lsns : base.toNat + (calls.map Call.bytes).sum < 2 ^ 64) : (Session.run base calls).Sound := by
  refine (Session.Sound.opened first).run_from calls ?_
  simpa [Session.run, LogWriter.open] using lsns

def LogWriter.Holds (w : LogWriter) (r : LogRecord) : Prop :=
  (w.file.drop (r.lsn - w.baseLsn).toNat).take r.serializedSize = r.serialize

theorem Chained.stored {base : UInt64} {rs : List LogRecord} (chained : Chained base.toNat rs)
    {r : LogRecord} (mem : r ∈ rs) (rest : Bytes) :
    ((serializeAll rs ++ rest).drop (r.lsn - base).toNat).take r.serializedSize = r.serialize := by
  have offset := chained.offset mem
  obtain ⟨xs, ys, rfl⟩ := List.append_of_mem mem
  obtain ⟨-, here, -⟩ := Chained.append.mp chained
  have skip : (serializeAll xs).length = (r.lsn - base).toNat := by omega
  rw [serializeAll_append, List.append_assoc, List.drop_left' skip, serializeAll_cons,
    List.append_assoc, List.take_left' r.length_serialize]

namespace Session.Sound

variable {s : Session}

theorem readAll_cut (sound : s.Sound) (n : Nat) :
    readAll (s.writer.file.take n) =
      wholeWithin s.writer.baseLsn (min n s.writer.file.length) s.records := by
  obtain ⟨held, rest, all, file⟩ := sound.whole
  have chained := sound.chained
  rw [all] at chained
  obtain ⟨left, right⟩ := Chained.append.mp chained
  have none : wholeWithin s.writer.baseLsn (min n s.writer.file.length) rest = [] := by
    refine List.filter_eq_nil_iff.mpr fun r mem => ?_
    have bounds := right.within mem
    have size := serializedSize_pos r
    rw [chained.offset (List.mem_append_right _ mem), file]
    simp only [decide_eq_true_eq]
    omega
  have same : wholeWithin s.writer.baseLsn (min n s.writer.file.length) held =
      wholeWithin s.writer.baseLsn n held := by
    refine List.filter_congr fun r mem => ?_
    have bounds := left.within mem
    rw [left.offset mem, file]
    simp only [decide_eq_decide]
    omega
  calc readAll (s.writer.file.take n) = wholeWithin s.writer.baseLsn n held := by
        rw [file, readAll_take left]
    _ = wholeWithin s.writer.baseLsn (min n s.writer.file.length) (held ++ rest) := by
        rw [wholeWithin, wholeWithin, List.filter_append]
        exact ((congrArg₂ (· ++ ·) same none).trans (List.append_nil _)).symm
    _ = _ := by rw [all]

theorem holds_below_flushed (sound : s.Sound) {r : LogRecord} (mem : r ∈ s.records)
    (below : r.lsn.toNat < s.writer.flushedLsn.toNat) : s.writer.Holds r := by
  obtain ⟨held, rest, all, file⟩ := sound.whole
  have chained := sound.chained
  rw [all] at mem chained
  obtain ⟨left, right⟩ := Chained.append.mp chained
  rcases List.mem_append.mp mem with inside | outside
  · have stored := left.stored inside []
    rw [List.append_nil, ← file] at stored
    exact stored
  · have bounds := right.within outside
    rw [sound.flushed, file] at below
    omega

theorem holds_after_flush (sound : s.Sound) {r : LogRecord} (mem : r ∈ s.records) :
    (s.writer.flush .good).2.Holds r := by
  refine sound.after_flush.holds_below_flushed mem ?_
  have bounds := sound.chained.within mem
  have size := serializedSize_pos r
  rw [sound.flush_good, sound.ends]
  omega

theorem holds_after_flushTo (sound : s.Sound) {r : LogRecord} (mem : r ∈ s.records)
    {lsn : UInt64} (covered : r.lsn ≤ lsn) : (s.writer.flushTo .good lsn).2.Holds r := by
  have bounds := sound.chained.within mem
  have size := serializedSize_pos r
  have ends := sound.ends
  have first := sound.first
  have covers := UInt64.le_iff_toNat_le.mp covered
  unfold LogWriter.flushTo
  split
  · rename_i returns
    refine sound.holds_below_flushed mem ?_
    rcases returns with zero | past | ⟨same, last⟩
    · rw [zero] at covers
      exact absurd covers (by simp; omega)
    · have less := UInt64.lt_iff_toNat_lt.mp past
      omega
    · rw [same, last]
      omega
  · split
    · rename_i durable
      have le := UInt64.le_iff_toNat_le.mp durable
      exact sound.holds_below_flushed mem (by omega)
    · exact sound.holds_after_flush mem

theorem flushTo_ok (sound : s.Sound) (lsn : UInt64) : (s.writer.flushTo .good lsn).1 = true := by
  unfold LogWriter.flushTo
  rw [sound.flush_good]
  split
  · rfl
  · split <;> rfl

end Session.Sound

/-- For every sequence of calls that meet no I/O error and every cut of the file. LSNs are
byte counts and do not reach 2^64; 0 is no LSN. -/
theorem torn_tail_law (base : UInt64) (first : base ≠ 0) (calls : List Call)
    (lsns : base.toNat + (calls.map Call.bytes).sum < 2 ^ 64) :
    let s := Session.run base calls
    let w := s.writer
    (∀ n, readAll (w.file.take n) = wholeWithin w.baseLsn (min n w.file.length) s.records) ∧
    (∀ r ∈ s.records, ((w.file ++ w.buffer).drop (r.lsn - w.baseLsn).toNat).take
      r.serializedSize = r.serialize) ∧
    (∀ e ∈ s.logged, e.2 = true →
      ∃ page : RawPage, e.1.value = page.val ∧ page.pageLsn = e.1.lsn) ∧
    (∀ lsn, (w.flushTo .good lsn).1 = true ∧
      ∀ r ∈ s.records, r.lsn ≤ lsn → (w.flushTo .good lsn).2.Holds r) ∧
    ((w.flush .good).1 = true ∧ ∀ r ∈ s.records, (w.flush .good).2.Holds r) := by
  intro s w
  have sound : s.Sound := Session.run_sound first calls lsns
  refine ⟨sound.readAll_cut, ?_, sound.images, ?_, ?_⟩
  · intro r mem
    have stored := sound.chained.stored mem []
    rw [List.append_nil, ← sound.bytes] at stored
    exact stored
  · exact fun lsn => ⟨sound.flushTo_ok lsn, fun r mem => sound.holds_after_flushTo mem⟩
  · exact ⟨by rw [sound.flush_good], fun r mem => sound.holds_after_flush mem⟩

def twoMarkers : List Call :=
  [.append (txnMarker 7 .begin), .truncate, .append (txnMarker 7 .commit), .flushTo 32,
    .append (txnMarker 8 .begin), .flush]

theorem torn_tail_two_markers :
    (1 : UInt64) ≠ 0 ∧ (1 : UInt64).toNat + (twoMarkers.map Call.bytes).sum < 2 ^ 64 ∧
    readAll ((Session.run 1 twoMarkers).writer.file.take 61) =
      wholeWithin 32 61 [{ txnMarker 7 .commit with lsn := 32 }, { txnMarker 8 .begin with lsn := 63 }] ∧
    wholeWithin 32 61 [{ txnMarker 7 .commit with lsn := 32 }, { txnMarker 8 .begin with lsn := 63 }] =
      [{ txnMarker 7 .commit with lsn := 32 }] := by
  refine ⟨by decide, by decide, ?_, by decide⟩
  have law := (torn_tail_law 1 (by decide) twoMarkers (by decide)).1 61
  exact law

end PagerDB.Wire

import PagerDB.Recovery.Aftermath

/-! Which calls a crash leaves. The log keeps what was flushed, and of the rest whole records from
the front; a call
whose last record is among them survives, with all calls before it, and of one that is cut recovery
applies nothing. -/
namespace PagerDB

open LogWriter (fileBytes)
open LedgerLib MachineLib Store

/-- When the log ends behind these records. -/
def Directory.Survives (d : Directory) (l : Ledger Call) (w₀ : LogWriter) (ts : List LogRecord) : Prop :=
  ∃ k rk cut s w, l.durable ≤ k ∧ k ≤ l.entries.length ∧ ts = rk ++ cut ∧ (∀ r ∈ cut, r.Loose) ∧
    Remains d (l.entries.take k) w₀ s w rk

structure Retains (d : Directory) (l : Ledger Call) (w₀ w : LogWriter) (rs : List LogRecord) : Prop where
  sound : w.Sound
  base : w.baseLsn = w₀.baseLsn
  chunks : w.chunks = rs.map .record
  survives : ∀ ts, recordsOf w.file <+: ts → ts <+: rs → d.Survives l w₀ ts

/-- The process is gone, or `Open` is not through yet. -/
structure Halted (d : Directory) (l : Ledger Call) (w₀ w' : LogWriter) (s : Store) (w : LogWriter)
    (rk : List LogRecord) : Prop where
  remains : Remains d l.entries w₀ s w rk
  left : LeftLog d.base rk w.endLsn w'
  wal : d.store.wal = some w'
  durable : l.durable = l.entries.length

structure Fallen (d : Directory) (l : Ledger Call) (w₀ w' : LogWriter) (s : Store) (w : LogWriter)
    (rk : List LogRecord) : Prop extends Halted d l w₀ w' s w rk where
  stage : d.stage = .down
  opened : Reopened d.base rk d.store
  past : ∀ p, d.store.metaPage.numPages ≤ p → d.store.disk p = none

structure Redoing (d : Directory) (l : Ledger Call) (w₀ w' : LogWriter) (s : Store) (w : LogWriter)
    (rk todo : List LogRecord) (applied : Bool) : Prop extends Halted d l w₀ w' s w rk where
  stage : d.stage = .redoing todo applied
  rebuilding : Rebuilding d.base rk todo s.shape d.store

structure Running (d : Directory) (l : Ledger Call) (w₀ w : LogWriter) (rs : List LogRecord) : Prop where
  stage : d.stage = .up
  remains : Remains d l.entries w₀ d.store w rs
  survives : ∀ ts, recordsOf w.file <+: ts → ts <+: rs → d.Survives l w₀ ts
  sound : l.Sound

section

variable {d d' : Directory} {l l' : Ledger Call} {calls : List Call} {w₀ w w' w'' : LogWriter} {s s' : Store}
  {rs rk ts fs : List LogRecord} {bytes : Nat} {pages : PageId → PageFate} {p : PageId} {m : RefMap}

@[simp] theorem recordsOf_records (rs : List LogRecord) : recordsOf (rs.map .record) = rs :=
  by simp [recordsOf]

theorem LogWriter.split_chunks (chunks : w.chunks = rs.map .record) :
    w.file = (recordsOf w.file).map .record ∧ rs = recordsOf w.file ++ w.buffer := by
  obtain ⟨as, bs, cut, file, buffer⟩ := List.map_eq_append_iff.mp chunks.symm
  obtain rfl : bs = w.buffer := List.map_injective_iff.mpr (fun _ _ => Chunk.record.inj) buffer
  rw [← file, recordsOf_records]
  exact ⟨rfl, cut⟩

theorem Remains.moved (remains : Remains d calls w₀ s w rk) (base : d'.base = d.base)
    (wrote : ∀ p, p < d.base.metaPage.numPages → d'.wrote p = d.wrote p) : Remains d' calls w₀ s w rk := by
  refine ⟨base ▸ remains.founded, base ▸ remains.recorded, remains.maps, fun p lt page mem => ?_,
    fun p lt some => ?_⟩
  · rw [base] at lt ⊢
    rw [wrote p lt] at mem
    exact remains.wrote.versions p lt page mem
  · rw [base] at lt
    rw [wrote p lt] at some
    exact remains.wrote.logged p lt some

theorem Directory.Survives.moved (survives : d.Survives l w₀ ts) (base : d'.base = d.base)
    (wrote : ∀ p, p < d.base.metaPage.numPages → d'.wrote p = d.wrote p) (entries : l.entries <+: l'.entries)
    (durable : l'.durable = l.durable) : d'.Survives l' w₀ ts := by
  obtain ⟨k, rk, cut, s, w, least, most, eq, loose, remains⟩ := survives
  refine ⟨k, rk, cut, s, w, durable.le.trans least, most.trans entries.length_le, eq, loose, ?_⟩
  obtain ⟨more, all⟩ := entries
  rw [← all, List.take_append_of_le_length most]
  exact remains.moved base wrote

theorem Remains.survives (remains : Remains d l.entries w₀ s w rk) (sound : l.Sound) : d.Survives l w₀ rk :=
  ⟨l.entries.length, rk, [], s, w, sound, le_rfl, (List.append_nil rk).symm, List.forall_mem_nil _,
    by rwa [List.take_length]⟩

theorem Directory.Wrote.mono (wrote : d.Wrote rs) (ts : List LogRecord) : d.Wrote (rs ++ ts) where
  versions p lt page mem := (wrote.versions p lt page mem).mono ts
  logged p lt some := by
    obtain ⟨r, mem, target⟩ := wrote.logged p lt some
    exact ⟨r, List.mem_append_left _ mem, target⟩

theorem Directory.Wrote.worked {e : Work} (wrote : d.Wrote rs)
    (version : ∀ p, e.writes d.store p = true → (Shape.Later rs d.base.shape fun y =>
      y.pages p = some (d.store.view p)) ∧
      ∃ r ∈ rs, r.body.target = some p) : (d.worked e s').Wrote rs where
  versions p lt page mem := by
    have mem : page ∈ if e.writes d.store p then d.store.view p :: d.wrote p else d.wrote p := mem
    split at mem
    · rename_i writes
      rcases List.mem_cons.mp mem with rfl | mem
      · exact (version p writes).1
      · exact wrote.versions p lt page mem
    · exact wrote.versions p lt page mem
  logged p lt some := by
    cases writes : e.writes d.store p with
    | true => exact (version p writes).2
    | false =>
      refine wrote.logged p lt fun none => some ?_
      simp [Directory.worked, writes, none]

/- The log goes on. -/

theorem Retains.appended (retains : Retains d l w₀ w rs) (sound : w'.Sound) (base : w'.baseLsn = w.baseLsn)
    (file : w'.file = w.file) (chunks : w'.chunks = (rs ++ fs).map .record)
    (all : d.Survives l w₀ rs → ∀ gs, gs <+: fs →
      d.Survives l w₀ (rs ++ gs)) : Retains d l w₀ w' (rs ++ fs) where
  sound := sound
  base := base.trans retains.base
  chunks := chunks
  survives ts least most := by
    rw [file] at least
    have flushed : recordsOf w.file <+: rs := by
      obtain ⟨-, cut⟩ := LogWriter.split_chunks retains.chunks
      exact ⟨w.buffer, cut.symm⟩
    rcases List.prefix_or_prefix_of_prefix most (List.prefix_append rs fs) with old | ⟨gs, rfl⟩
    · exact retains.survives ts least old
    · exact all (retains.survives rs flushed List.prefix_rfl) gs ((List.prefix_append_right_inj rs).mp most)

theorem Directory.Survives.loose (survives : d.Survives l w₀ rs) (loose : ∀ r ∈ ts, r.Loose) :
    d.Survives l w₀ (rs ++ ts) := by
  obtain ⟨k, rk, cut, s, w, least, most, rfl, loose', remains⟩ := survives
  exact ⟨k, rk, cut ++ ts, s, w, least, most, List.append_assoc _ _ _,
    List.forall_mem_append.mpr ⟨loose', loose⟩, remains⟩

theorem Retains.loose (retains : Retains d l w₀ w rs) (continues : w.Continues w')
    (buffer : w'.buffer = w.buffer ++ fs)
    (loose : ∀ r ∈ fs, r.Loose) : Retains d l w₀ w' (rs ++ fs) := by
  refine retains.appended (continues.sound retains.sound) continues.base continues.file ?_ fun survives _ pre =>
    survives.loose fun r mem => loose r (pre.subset mem)
  rw [LogWriter.chunks, continues.file, buffer, List.map_append, ← List.append_assoc, List.map_append,
    ← retains.chunks, LogWriter.chunks]

theorem Retains.marked (retains : Retains d l w₀ w rs) :
    Retains d l w₀ (w.append kInvalidTxId true .checkpoint)
    (rs ++ [⟨w.endLsn, kInvalidTxId, true, .checkpoint⟩]) :=
  retains.loose ((LogWriter.Continues.refl w).logged kInvalidTxId true .checkpoint) rfl
    (List.forall_mem_singleton.mpr (.inr ⟨rfl, rfl, rfl⟩))

/- Crashes. -/

theorem Directory.found_past (pages : PageId → PageFate) (past : d.base.metaPage.numPages ≤ p) :
    d.found pages p = none :=
  if_neg (not_lt.mpr past)

theorem Retains.crashed (retains : Retains d l w₀ w rs) (bytes : Nat) (pages : PageId → PageFate) :
    ∃ k l' w' s wk rk, l.next (.crash k) = some l' ∧ Fallen (d.crashed w bytes pages) l' w₀ w' s wk rk := by
  obtain ⟨file, cut⟩ := LogWriter.split_chunks retains.chunks
  obtain ⟨ts, torn, crashed, pre, last⟩ := w.crashed_eq bytes
  obtain ⟨k, rk, tail, s, wk, least, most, eq, loose, remains⟩ := retains.survives (recordsOf w.file ++ ts)
    (List.prefix_append _ _) (by rw [cut]; exact (List.prefix_append_right_inj _).mpr pre)
  obtain ⟨m, founded⟩ := remains.founded
  have chunks : w.crashed bytes = (rk ++ tail).map .record ++ torn := by
    rw [crashed, ← List.append_assoc, ← eq, List.map_append, ← file]
  have placed : Placed w.baseLsn ((rk ++ tail).map .record) := by
    have all := retains.sound.placed
    obtain ⟨us, buffer⟩ := pre
    rw [retains.chunks, cut, ← buffer, ← List.append_assoc, eq, List.map_append] at all
    exact all.left
  have read : readAll (w.crashed bytes) = rk ++ tail :=
    by rw [chunks, readAll_torn last, readAll_placed placed]
  have start : w.baseLsn ≤ d.base.metaCopy.logStart := (retains.base.trans founded.base_eq).le
  obtain ⟨sound, start', ends⟩ := retains.sound.reopened start bytes
  have sizes : ∀ c ∈ w.file, 0 < c.size := by
    rw [file]
    intro c mem
    obtain ⟨r, -, rfl⟩ := List.mem_map.mp mem
    exact r.serializedSize_pos
  refine ⟨k, ⟨l.entries.take k, k⟩, _, s, wk, rk, if_pos ⟨least, most⟩,
    ⟨remains.moved rfl fun _ _ => rfl, ?_, rfl,
    (List.length_take_of_le most).symm⟩, rfl, remains.wrote.reopened founded pages _ _, fun p past => ?_⟩
  · refine ⟨rfl, sound, start', LogWriter.crashed_sizes sizes bytes,
      ⟨[], tail, read, List.forall_mem_nil _, loose⟩, ?_⟩
    calc
      wk.endLsn = w.baseLsn + fileBytes (rk.map .record) := by
        rw [remains.recorded.endLsn_eq, retains.base]
      _ ≤ w.baseLsn + fileBytes (w.crashed bytes) := by
        rw [chunks, List.map_append, LogWriter.fileBytes_append, LogWriter.fileBytes_append, Nat.add_assoc]
        exact Nat.add_le_add_left (Nat.le_add_right _ _) _
      _ ≤ _ := ends
  · exact Directory.found_past pages past

theorem LogWriter.open_flush (file : List Chunk) (base : Lsn) :
    (LogWriter.open file base).flush = .open file base := by
  simp [LogWriter.open, LogWriter.flush]

theorem LeftLog.flush {base : Store} {ends : Lsn} (left : LeftLog base rk ends w) : w.flush = w := by
  rw [left.opened]
  exact LogWriter.open_flush _ _

theorem LeftLog.buffer {base : Store} {ends : Lsn} (left : LeftLog base rk ends w) : w.buffer = [] := by
  rw [left.opened]
  rfl

theorem LeftLog.chunks {base : Store} {ends : Lsn} (left : LeftLog base rk ends w) : w.chunks = w.file := by
  rw [LogWriter.chunks, left.buffer]
  exact List.append_nil _

theorem LeftLog.calm {base : Store} {ends : Lsn} (left : LeftLog base rk ends w)
    (calm : ∀ r ∈ rk, r.body ≠ .begin) :
    ∀ r ∈ readAll w.file, r.body ≠ .begin := by
  obtain ⟨old, tail, read, skipped, loose⟩ := left.parts
  rw [read]
  refine List.forall_mem_append.mpr ⟨List.forall_mem_append.mpr ⟨fun r mem => (skipped r mem).2,
    calm⟩, fun r mem => ?_⟩
  rcases loose r mem with ⟨-, -, other⟩ | ⟨-, -, marker⟩
  · exact other
  · rw [marker]
    intro same
    cases same

theorem LeftLog.marked {base : Store} {ends : Lsn} (left : LeftLog base rk ends w) (bytes : Nat) :
    let file := (w.append kInvalidTxId true .checkpoint).crashed bytes
    LeftLog base rk ends (.open file (Journal.baseLsn (readAll file) base.metaCopy)) := by
  intro file
  have appended : (w.append kInvalidTxId true .checkpoint).Sound :=
    left.sound.logged kInvalidTxId true .checkpoint
  obtain ⟨sound, start, room⟩ := appended.reopened left.start bytes
  obtain ⟨ts, torn, crashed, pre, last⟩ := (w.append kInvalidTxId true .checkpoint).crashed_eq bytes
  have sizes : ∀ c ∈ (w.append kInvalidTxId true .checkpoint).file, 0 < c.size := left.sizes
  have crashed : file = w.file ++ ts.map .record ++ torn := by rw [List.append_assoc]; exact crashed
  have buffer : (w.append kInvalidTxId true .checkpoint).buffer =
    [⟨w.endLsn, kInvalidTxId, true, .checkpoint⟩] := by
    simp [LogWriter.append, left.buffer]
  refine ⟨rfl, sound, start, LogWriter.crashed_sizes sizes bytes, ?_, ?_⟩
  · obtain ⟨old, tail, read, skipped, loose⟩ := left.parts
    have found : readAll file = readAll w.file ∨
        readAll file = readAll w.file ++ [⟨w.endLsn, kInvalidTxId, true, .checkpoint⟩] := by
      rw [crashed, readAll_torn last]
      rw [buffer] at pre
      have pre : ts <+: [] ++ [⟨w.endLsn, kInvalidTxId, true, .checkpoint⟩] := pre
      rcases List.prefix_concat_iff.mp pre with rfl | none
      · exact readAll_snoc w.file _
      · obtain rfl := List.prefix_nil.mp none
        exact .inl (by simp)
    rcases found with same | more
    · exact ⟨old, tail, same.trans read, skipped, loose⟩
    · refine ⟨old, tail ++ [⟨w.endLsn, kInvalidTxId, true, .checkpoint⟩], ?_, skipped, ?_⟩
      · rw [← List.append_assoc, ← read]
        exact more
      · exact List.forall_mem_append.mpr ⟨loose, List.forall_mem_singleton.mpr (.inr ⟨rfl, rfl, rfl⟩)⟩
  · refine left.ends.trans (le_trans ?_ room)
    rw [left.sound.ends, left.chunks]
    exact Nat.add_le_add_left ((w.append kInvalidTxId true .checkpoint).fileBytes_crashed bytes) _

theorem Halted.crashed (halted : Halted d l w₀ w' s w rk) (d' : Directory) (base : d'.base = d.base)
    (wrote : d'.Wrote rk)
    {file : List Chunk} {bytes : Nat} (cut : w''.crashed bytes = file)
    (left : LeftLog d.base rk w.endLsn (.open file (Journal.baseLsn (readAll file) d.base.metaCopy)))
    (pages : PageId → PageFate) : ∃ w', Fallen (d'.crashed w'' bytes pages) l w₀ w' s w rk := by
  subst cut
  obtain ⟨m, founded⟩ := halted.remains.founded
  have same : (d'.crashed w'' bytes pages).base = d.base := base
  have remains : Remains (d'.crashed w'' bytes pages) l.entries w₀ s w rk :=
    ⟨⟨m, same ▸ founded⟩, same ▸ halted.remains.recorded, halted.remains.maps, ⟨wrote.versions, wrote.logged⟩⟩
  rw [← base] at left
  exact ⟨_, ⟨remains, left, rfl, halted.durable⟩, rfl, wrote.reopened (base ▸ founded) pages _ _,
    fun p past => Directory.found_past pages past⟩

/- Checkpoints. -/

/-- A handle that can make a checkpoint that loses nothing. -/
structure Ready (s : Store) (w : LogWriter) (m : RefMap) : Prop where
  wal : s.wal = some w
  ahead : s.Ahead
  coherent : s.Coherent
  tidy : ∀ p page, s.version p = some page → page.Tidy
  maps : s.Maps m
  sound : w.Sound
  sizes : ∀ c ∈ w.chunks, 0 < c.size
  calm : ∀ r ∈ readAll w.chunks, r.body ≠ .begin

theorem Recorded.ready {s₀ : Store} (recorded : Recorded s₀ w₀ s w rs) (maps : s.Maps m) : Ready s w m where
  wal := recorded.wal
  ahead := recorded.ahead
  coherent := recorded.coherent
  tidy p page here := by
    cases frame : s.cache p with
    | some f =>
      obtain rfl : f.page = page := by simpa [Store.version, frame] using here
      exact recorded.tidy.cache p f frame
    | none => exact recorded.tidy.disk p page (by simpa [Store.version, frame] using here)
  maps := maps
  sound := recorded.sound
  sizes c mem := by
    rw [recorded.chunks] at mem
    obtain ⟨r, -, rfl⟩ := List.mem_map.mp mem
    exact r.serializedSize_pos
  calm r mem := by
    have mem := mem_of_readAll mem
    rw [recorded.chunks, recordsOf_records] at mem
    exact recorded.calm r mem

theorem Rebuilt.ready {s₀ t : Store} (rebuilt : Rebuilt s₀ rk s.shape w' m t)
    (recorded : Recorded s₀ w₀ s w rk)
    (left : LeftLog s₀ rk w.endLsn w') : Ready t w' m where
  wal := rebuilt.wal
  ahead := rebuilt.ahead recorded left.ends
  coherent := rebuilt.coherent
  tidy _ _ := rebuilt.tidy recorded.tidy
  maps := rebuilt.maps
  sound := left.sound
  sizes := left.chunks ▸ left.sizes
  calm := left.chunks ▸ left.calm recorded.calm

namespace Ready

theorem founded (ready : Ready s w m) : (s.checkpointed false).Founded
    (w.marked.truncate w.marked.endLsn) m :=
  ready.ahead.founded ready.wal ready.coherent ready.tidy ready.maps

theorem checkpointed (ready : Ready s w (effects calls)) :
    Running (.restarted (s.checkpointed false)) ⟨calls, calls.length⟩ (w.marked.truncate w.marked.endLsn)
      (w.marked.truncate w.marked.endLsn) [] := by
  have remains : Remains (.restarted (s.checkpointed false)) calls (w.marked.truncate w.marked.endLsn)
      (s.checkpointed false) (w.marked.truncate w.marked.endLsn) [] :=
    ⟨⟨_, ready.founded⟩, ready.founded.recorded, ready.founded.maps, .start fun _ => rfl⟩
  refine ⟨rfl, remains, fun ts _ most => ?_, le_rfl⟩
  obtain rfl := List.prefix_nil.mp most
  exact remains.survives (l := ⟨calls, calls.length⟩) le_rfl

/-- It goes down before the log is emptied. All of that is older than the checkpoint. -/
theorem beforeTruncate (ready : Ready s w (effects calls)) (pages : PageId → PageFate) :
    ∃ w' s' w₁, Fallen ((Directory.restarted
      (s.checkpointed false)).crashed w.marked 0 pages) ⟨calls, calls.length⟩
      w₁ w' s' w₁ [] := by
  obtain ⟨-, checkpoint, -⟩ := checkpointed_wal ready.wal
  have founded := ready.founded
  have sound : w.marked.Sound := ((ready.sound.flush).logged kInvalidTxId true .checkpoint).flush
  have file : w.marked.file = w.chunks ++ [.record ⟨w.flush.endLsn, kInvalidTxId, true, .checkpoint⟩] := by
    simp [LogWriter.marked, LogWriter.flush, LogWriter.append, LogWriter.chunks]
  have whole : w.marked.crashed 0 = w.marked.file := LogWriter.crashed_flushed rfl 0
  have start : w.marked.baseLsn ≤ (s.checkpointed false).metaCopy.logStart := by
    rw [← founded.start]
    exact (Nat.le_add_right _ _).trans sound.ends.ge
  obtain ⟨sound', start', ends⟩ := sound.reopened start 0
  have older : ∀ r ∈ readAll w.marked.file, r.lsn < (s.checkpointed false).metaPage.checkpointLsn ∧
    r.body ≠ .begin := by
    intro r mem
    constructor
    · rw [checkpoint]
      have all : r ∈ recordsOf w.marked.chunks := by
        rw [LogWriter.chunks]
        simpa using .inl (mem_of_readAll mem)
      exact (Nat.lt_add_of_pos_right r.serializedSize_pos).trans_le (sound.below all)
    · rw [file] at mem
      rcases readAll_snoc w.chunks ⟨w.flush.endLsn, kInvalidTxId, true, .checkpoint⟩ with same | more
      · exact ready.calm r (same ▸ mem)
      · rw [more] at mem
        rcases List.mem_append.mp mem with mem | mem
        · exact ready.calm r mem
        · rw [List.mem_singleton.mp mem]
          intro same
          cases same
  have sizes : ∀ c ∈ w.marked.file, 0 < c.size := by
    rw [file]
    exact List.forall_mem_append.mpr ⟨ready.sizes,
      List.forall_mem_singleton.mpr (LogRecord.serializedSize_pos _)⟩
  have wrote : (Directory.restarted (s.checkpointed false)).Wrote [] :=
    .start fun _ => rfl
  refine ⟨_, _, _, ⟨⟨⟨_, founded⟩, founded.recorded, founded.maps, wrote.versions, wrote.logged⟩,
    ?_, rfl, rfl⟩, rfl,
    wrote.reopened founded pages _ _, fun p past => Directory.found_past pages past⟩
  refine ⟨rfl, sound', start', LogWriter.crashed_sizes sizes 0,
    ⟨readAll w.marked.file, [], ?_, older, List.forall_mem_nil _⟩, ?_⟩
  · rw [List.append_nil, List.append_nil]
    exact congrArg readAll whole
  · refine le_trans ?_ ends
    have all : w.marked.chunks = w.marked.file := List.append_nil _
    rw [whole, ← all]
    exact sound.ends.le

end Ready

end

end PagerDB

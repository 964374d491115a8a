import Mathlib.Data.List.Infix
import PagerDB.Wal.Log

/-! What the log writer keeps of the positions of its records, and what is left of them after
the file is cut. Only the records before the first torn run are readable, and only these have
to stand where their LSN says. -/
namespace PagerDB

def cutChunks : Nat → List Chunk → List Chunk
  | _, [] => []
  | n, c :: cs =>
    if c.size ≤ n then c :: cutChunks (n - c.size) cs else if n = 0 then [] else [.torn n]

/-- The whole records of a file, readable or not. -/
def recordsOf (cs : List Chunk) : List LogRecord :=
  cs.filterMap fun
    | .record r => some r
    | .torn _ => none

@[simp] theorem recordsOf_append (as bs : List Chunk) :
    recordsOf (as ++ bs) = recordsOf as ++ recordsOf bs :=
  List.filterMap_append

@[simp] theorem recordsOf_singleton (r : LogRecord) : recordsOf [.record r] = [r] := rfl

@[simp] theorem recordsOf_nil : recordsOf [] = [] := rfl

namespace LogWriter

def chunks (w : LogWriter) : List Chunk := w.file ++ w.buffer.map .record

def logged (w : LogWriter) (txid : TxId) (opEnd : Bool) : LogBody → LogWriter
  | .pageImage p page => w.appendPageImage p page txid opEnd
  | body => w.append txid opEnd body

@[simp] theorem fileBytes_append (as bs : List Chunk) :
    fileBytes (as ++ bs) = fileBytes as + fileBytes bs := by
  simp [fileBytes]

@[simp] theorem fileBytes_cons (c : Chunk) (cs : List Chunk) :
    fileBytes (c :: cs) = c.size + fileBytes cs := by
  simp [fileBytes]

@[simp] theorem fileBytes_nil : fileBytes [] = 0 := rfl

end LogWriter

open LogWriter (fileBytes)

def Placed : Lsn → List Chunk → Prop
  | _, [] => True
  | _, .torn _ :: _ => True
  | lsn, .record r :: cs => r.lsn = lsn ∧ Placed (lsn + r.serializedSize) cs

def Bounded : Lsn → List Chunk → Prop
  | _, [] => True
  | lsn, .torn n :: cs => Bounded (lsn + n) cs
  | lsn, .record r :: cs => r.lsn ≤ lsn ∧ Bounded (lsn + r.serializedSize) cs

theorem Bounded.snoc {lsn : Lsn} {cs : List Chunk} {r : LogRecord} (bounded : Bounded lsn cs)
    (here : r.lsn ≤ lsn + fileBytes cs) : Bounded lsn (cs ++ [.record r]) := by
  induction cs generalizing lsn with
  | nil => exact ⟨by simpa using here, trivial⟩
  | cons c cs ih =>
    rw [LogWriter.fileBytes_cons, ← Nat.add_assoc] at here
    cases c with
    | torn n => exact ih bounded here
    | record q => exact ⟨bounded.1, ih bounded.2 here⟩

theorem Bounded.mono {lsn lsn' : Lsn} {cs : List Chunk} (bounded : Bounded lsn cs)
    (le : lsn ≤ lsn') : Bounded lsn' cs := by
  induction cs generalizing lsn lsn' with
  | nil => trivial
  | cons c cs ih =>
    cases c with
    | torn n => exact ih bounded (Nat.add_le_add_right le n)
    | record q => exact ⟨bounded.1.trans le, ih bounded.2 (Nat.add_le_add_right le _)⟩

theorem Bounded.cut {lsn : Lsn} {cs : List Chunk} (bounded : Bounded lsn cs) (n : Nat) :
    Bounded lsn (cutChunks n cs) := by
  induction cs generalizing lsn n with
  | nil => trivial
  | cons c cs ih =>
    rw [cutChunks]
    split
    · cases c with
      | torn m => exact ih bounded _
      | record r => exact ⟨bounded.1, ih bounded.2 _⟩
    · split
      · trivial
      · trivial

theorem Bounded.below {lsn : Lsn} {cs : List Chunk} (bounded : Bounded lsn cs) {r : LogRecord}
    (mem : r ∈ recordsOf cs) : r.lsn + r.serializedSize ≤ lsn + fileBytes cs := by
  induction cs generalizing lsn with
  | nil => cases mem
  | cons c cs ih =>
    rw [LogWriter.fileBytes_cons, ← Nat.add_assoc]
    cases c with
    | torn n => exact ih bounded mem
    | record q =>
      rcases List.mem_cons.mp mem with rfl | rest
      · exact (Nat.add_le_add_right bounded.1 _).trans (Nat.le_add_right _ _)
      · exact ih bounded.2 rest

theorem Placed.snoc {lsn : Lsn} {cs : List Chunk} {r : LogRecord} (placed : Placed lsn cs)
    (here : r.lsn = lsn + fileBytes cs) : Placed lsn (cs ++ [.record r]) := by
  induction cs generalizing lsn with
  | nil => exact ⟨by simpa using here, trivial⟩
  | cons c cs ih =>
    cases c with
    | torn n => trivial
    | record q =>
      obtain ⟨first, rest⟩ := placed
      refine ⟨first, ih rest ?_⟩
      rw [here, LogWriter.fileBytes_cons, Chunk.size, Nat.add_assoc]

/- The reader. -/

theorem mem_of_readChain {expected : Option Lsn} {cs : List Chunk} {r : LogRecord}
    (mem : r ∈ readChain expected cs) : r ∈ recordsOf cs := by
  induction cs generalizing expected with
  | nil => simp [readChain] at mem
  | cons c cs ih =>
    cases c with
    | torn n => simp [readChain] at mem
    | record q =>
      have cases : r = q ∨ r ∈ readChain (some (q.lsn + q.serializedSize)) cs := by
        cases expected with
        | none => simpa [readChain] using mem
        | some e =>
          simp only [readChain] at mem
          split at mem
          · simpa using mem
          · cases mem
      rcases cases with rfl | rest
      · simp [recordsOf]
      · exact List.mem_cons_of_mem _ (ih rest)

theorem mem_of_readAll {cs : List Chunk} {r : LogRecord} (mem : r ∈ readAll cs) :
    r ∈ recordsOf cs := mem_of_readChain mem

theorem Placed.readAll_cons {lsn : Lsn} {cs : List Chunk} (placed : Placed lsn cs)
    {r : LogRecord} {rs : List LogRecord} (found : readAll cs = r :: rs) : r.lsn = lsn := by
  cases cs with
  | nil => cases found
  | cons c cs =>
    cases c with
    | torn n => cases found
    | record q =>
      obtain ⟨rfl, -⟩ := List.cons.inj found
      exact placed.1

theorem placed_of_readAll_nil {cs : List Chunk} (found : readAll cs = []) (lsn : Lsn) :
    Placed lsn cs := by
  cases cs with
  | nil => trivial
  | cons c cs =>
    cases c with
    | torn n => trivial
    | record q => cases found

/- Cuts. -/

theorem fileBytes_cut (n : Nat) (cs : List Chunk) :
    fileBytes (cutChunks n cs) = min n (fileBytes cs) := by
  induction cs generalizing n with
  | nil => simp [cutChunks]
  | cons c cs ih =>
    rw [cutChunks]
    split
    · rw [LogWriter.fileBytes_cons, LogWriter.fileBytes_cons, ih]
      omega
    · split
      · simp_all
      · rw [LogWriter.fileBytes_cons, LogWriter.fileBytes_cons, LogWriter.fileBytes_nil]
        change n + 0 = _
        omega

theorem Placed.cut {lsn : Lsn} {cs : List Chunk} (placed : Placed lsn cs) (n : Nat) :
    Placed lsn (cutChunks n cs) := by
  induction cs generalizing lsn n with
  | nil => trivial
  | cons c cs ih =>
    rw [cutChunks]
    split
    · cases c with
      | torn m => trivial
      | record r => exact ⟨placed.1, ih placed.2 _⟩
    · split
      · trivial
      · trivial

theorem recordsOf_cut_prefix (n : Nat) (cs : List Chunk) :
    recordsOf (cutChunks n cs) <+: recordsOf cs := by
  induction cs generalizing n with
  | nil => exact List.prefix_rfl
  | cons c cs ih =>
    rw [cutChunks]
    split
    · cases c with
      | torn m => exact ih _
      | record r => exact (List.prefix_cons_inj r).mpr (ih _)
    · split
      · exact List.nil_prefix
      · exact List.nil_prefix

theorem LogRecord.serializedSize_pos (r : LogRecord) : 0 < r.serializedSize := by
  unfold LogRecord.serializedSize
  omega

theorem recordsOf_of_no_bytes {cs : List Chunk} (empty : fileBytes cs = 0) : recordsOf cs = [] := by
  induction cs with
  | nil => rfl
  | cons c cs ih =>
    rw [LogWriter.fileBytes_cons] at empty
    cases c with
    | torn n => exact ih (Nat.eq_zero_of_add_eq_zero empty).2
    | record r =>
      exact absurd (Nat.eq_zero_of_add_eq_zero empty).1 (Nat.ne_of_gt r.serializedSize_pos)

/- The writer. -/

structure LogWriter.Positioned (w : LogWriter) : Prop where
  placed : Placed w.baseLsn w.chunks
  ends : w.endLsn = w.baseLsn + fileBytes w.chunks
  flushed : w.flushedLsn = w.baseLsn + fileBytes w.file

structure LogWriter.Sound (w : LogWriter) : Prop extends w.Positioned where
  bounded : Bounded w.baseLsn w.chunks
  stamped : ∀ r ∈ recordsOf w.chunks, ∀ p page, r.body = .pageImage p page → page.pageLsn = r.lsn

namespace LogWriter

variable {w : LogWriter}

def recordOf (w : LogWriter) (txid : TxId) (opEnd : Bool) (body : LogBody) : LogRecord :=
  ⟨w.endLsn, txid, opEnd, match body with
    | .pageImage p page => .pageImage p (page.stamp w.endLsn)
    | body => body⟩

theorem logged_chunks (w : LogWriter) (txid : TxId) (opEnd : Bool) (body : LogBody) :
    (w.logged txid opEnd body).chunks = w.chunks ++ [.record (w.recordOf txid opEnd body)] := by
  cases body <;> simp [logged, appendPageImage, append, chunks, recordOf]

theorem logged_endLsn (w : LogWriter) (txid : TxId) (opEnd : Bool) (body : LogBody) :
    (w.logged txid opEnd body).endLsn =
      w.endLsn + (w.recordOf txid opEnd body).serializedSize := by
  cases body <;> rfl

theorem logged_same (w : LogWriter) (txid : TxId) (opEnd : Bool) (body : LogBody) :
    (w.logged txid opEnd body).baseLsn = w.baseLsn ∧
    (w.logged txid opEnd body).flushedLsn = w.flushedLsn ∧
    (w.logged txid opEnd body).file = w.file := by
  cases body <;> exact ⟨rfl, rfl, rfl⟩

theorem flush_chunks (w : LogWriter) : w.flush.chunks = w.chunks := by
  simp [flush, chunks]

theorem open_chunks (file : List Chunk) (base : Lsn) : (LogWriter.open file base).chunks = file := by
  simp [LogWriter.open, chunks]

/-- The file was emptied under the writer, whose next write leaves a hole before it. -/
def holed (w : LogWriter) : LogWriter := { w with file := [.torn (fileBytes w.file)] }

/-- What a crash leaves of the log, at least the part that was synced. -/
def crashed (w : LogWriter) (n : Nat) : List Chunk :=
  cutChunks (max (fileBytes w.file) n) w.chunks

theorem fileBytes_le_chunks (w : LogWriter) : fileBytes w.file ≤ fileBytes w.chunks := by
  rw [chunks, fileBytes_append]
  exact Nat.le_add_right _ _

theorem fileBytes_crashed (w : LogWriter) (n : Nat) : fileBytes w.file ≤ fileBytes (w.crashed n) := by
  have room := w.fileBytes_le_chunks
  rw [crashed, fileBytes_cut]
  omega

namespace Positioned

theorem flushed_le_end (positioned : w.Positioned) : w.flushedLsn ≤ w.endLsn := by
  rw [positioned.flushed, positioned.ends]
  exact Nat.add_le_add_left w.fileBytes_le_chunks _

theorem logged (positioned : w.Positioned) (txid : TxId) (opEnd : Bool) (body : LogBody) :
    (w.logged txid opEnd body).Positioned := by
  obtain ⟨base, flushed, file⟩ := w.logged_same txid opEnd body
  have size : fileBytes (w.logged txid opEnd body).chunks =
      fileBytes w.chunks + (w.recordOf txid opEnd body).serializedSize := by
    simp [logged_chunks, Chunk.size]
  constructor
  · rw [base, logged_chunks]
    exact positioned.placed.snoc positioned.ends
  · rw [logged_endLsn, base, size, positioned.ends, Nat.add_assoc]
  · rw [flushed, base, file, positioned.flushed]

theorem flush (positioned : w.Positioned) : w.flush.Positioned := by
  have bytes : fileBytes w.flush.file = fileBytes w.chunks := rfl
  constructor
  · rw [flush_chunks]
    exact positioned.placed
  · rw [flush_chunks]
    exact positioned.ends
  · rw [bytes]
    exact positioned.ends

theorem truncate (w : LogWriter) (base : Lsn) : (w.truncate base).Positioned :=
  ⟨trivial, rfl, rfl⟩

theorem holed (positioned : w.Positioned) : w.holed.Positioned := by
  have bytes : fileBytes w.holed.file = fileBytes w.file := by simp [LogWriter.holed, Chunk.size]
  constructor
  · trivial
  · have ends := positioned.ends
    rw [chunks, fileBytes_append] at ends ⊢
    rw [bytes]
    exact ends
  · rw [bytes]
    exact positioned.flushed

theorem of_placed {file : List Chunk} {base : Lsn} (placed : Placed base file) :
    (LogWriter.open file base).Positioned := by
  have chunks := open_chunks file base
  constructor
  · rw [chunks]
    exact placed
  · rw [chunks]
    rfl
  · rfl

theorem crashed (positioned : w.Positioned) (n : Nat) :
    (LogWriter.open (w.crashed n) w.baseLsn).Positioned :=
  of_placed (positioned.placed.cut _)

theorem flushed_le_crashed (positioned : w.Positioned) (n : Nat) :
    w.flushedLsn ≤ (LogWriter.open (w.crashed n) w.baseLsn).flushedLsn := by
  rw [positioned.flushed]
  exact Nat.add_le_add_left (w.fileBytes_crashed n) _

end Positioned

namespace Sound

theorem logged (sound : w.Sound) (txid : TxId) (opEnd : Bool) (body : LogBody) :
    (w.logged txid opEnd body).Sound := by
  obtain ⟨base, -, -⟩ := w.logged_same txid opEnd body
  refine ⟨sound.toPositioned.logged txid opEnd body, ?_, fun r mem p page image => ?_⟩
  · rw [base, logged_chunks]
    exact sound.bounded.snoc sound.ends.le
  · rw [logged_chunks, recordsOf_append, recordsOf_singleton] at mem
    rcases List.mem_append.mp mem with old | new
    · exact sound.stamped r old p page image
    · obtain rfl := List.mem_singleton.mp new
      cases body with
      | pageImage q image' =>
        obtain ⟨-, rfl⟩ := LogBody.pageImage.inj image
        rfl
      | _ => cases image

theorem flush (sound : w.Sound) : w.flush.Sound := by
  refine ⟨sound.toPositioned.flush, ?_, ?_⟩
  · rw [flush_chunks]
    exact sound.bounded
  · rw [flush_chunks]
    exact sound.stamped

theorem truncate (w : LogWriter) (base : Lsn) : (w.truncate base).Sound :=
  ⟨.truncate w base, trivial, nofun⟩

theorem of_open {file : List Chunk} {base base' : Lsn} (sound : (LogWriter.open file base).Sound)
    (le : base ≤ base') (placed : Placed base' file) : (LogWriter.open file base').Sound := by
  have bounded := sound.bounded
  have stamped := sound.stamped
  rw [open_chunks] at bounded stamped
  refine ⟨.of_placed placed, ?_, ?_⟩
  · rw [open_chunks]
    exact bounded.mono le
  · rw [open_chunks]
    exact stamped

theorem below (sound : w.Sound) {r : LogRecord} (mem : r ∈ recordsOf w.chunks) :
    r.lsn + r.serializedSize ≤ w.endLsn :=
  (sound.bounded.below mem).trans sound.ends.ge

theorem crashed (sound : w.Sound) (n : Nat) :
    (LogWriter.open (w.crashed n) w.baseLsn).Sound := by
  have kept := recordsOf_cut_prefix (max (fileBytes w.file) n) w.chunks
  refine ⟨sound.toPositioned.crashed n, ?_, ?_⟩
  · rw [open_chunks]
    exact sound.bounded.cut _
  · rw [open_chunks]
    exact fun r mem => sound.stamped r (kept.subset mem)

end Sound

end LogWriter

end PagerDB

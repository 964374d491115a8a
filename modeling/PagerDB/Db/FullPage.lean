import PagerDB.Db.Life

/-! Full-page writes: recovery reads the log from the checkpoint LSN of the newest meta copy on,
and meets an image of a page before any change to it. The writer remembers which pages have
their image in the log and forgets them when it truncates, which is after the meta page moved. -/
namespace PagerDB

open MachineLib

/-- From `ck` on, the first record about a page is an image of it. -/
def FirstImages (ck : Lsn) (records : List LogRecord) : Prop :=
  ∀ p r, records.find? (fun r => ck ≤ r.lsn ∧ r.body.target = some p) = some r →
    r.body.isImage = true

namespace FirstImages

variable {ck : Lsn} {records : List LogRecord}

theorem of_cut (first : FirstImages ck records) {cut : List LogRecord} (kept : cut <+: records) :
    FirstImages ck cut :=
  fun p r found => first p r (kept.find?_eq_some found)

theorem of_below (below : ∀ r ∈ records, r.lsn < ck) : FirstImages ck records := by
  intro p r found
  have past := List.find?_some found
  simp only [decide_eq_true_eq] at past
  exact absurd (below r (List.mem_of_find?_eq_some found)) (not_lt.mpr past.1)

theorem snoc (first : FirstImages ck records) {r : LogRecord}
    (next : ∀ p, r.body.target = some p → r.body.isImage = true ∨
      ∃ q ∈ records, ck ≤ q.lsn ∧ q.body.target = some p) :
    FirstImages ck (records ++ [r]) := by
  intro p q found
  rw [List.find?_append] at found
  cases old : records.find? (fun r => ck ≤ r.lsn ∧ r.body.target = some p) with
  | some x =>
    rw [old] at found
    obtain rfl := Option.some.inj found
    exact first p x old
  | none =>
    rw [old, Option.none_or] at found
    obtain rfl : q = r := List.mem_singleton.mp (List.mem_of_find?_eq_some found)
    have here := List.find?_some found
    simp only [decide_eq_true_eq] at here
    rcases next p here.2 with image | ⟨x, mem, past⟩
    · exact image
    · have absent := List.find?_eq_none.mp old x mem
      simp only [decide_eq_true_eq] at absent
      exact absurd past absent

end FirstImages

theorem LogWriter.recordOf_target (w : LogWriter) (txid : TxId) (opEnd : Bool) (body : LogBody) :
    (w.recordOf txid opEnd body).body.target = body.target := by
  cases body <;> rfl

theorem LogWriter.recordOf_isImage (w : LogWriter) (txid : TxId) (opEnd : Bool) (body : LogBody) :
    (w.recordOf txid opEnd body).body.isImage = body.isImage := by
  cases body <;> rfl

theorem LogWriter.needsImage_logged {w : LogWriter} {txid : TxId} {opEnd : Bool} {body : LogBody}
    {p : PageId} (known : (w.logged txid opEnd body).needsImage p = false) :
    w.needsImage p = false ∨ body.target = some p := by
  cases body with
  | pageImage q page =>
    simp only [LogWriter.logged, LogWriter.appendPageImage, LogWriter.append, LogWriter.needsImage,
      List.contains_cons, Bool.not_eq_false', Bool.or_eq_true, beq_iff_eq] at known
    rcases known with rfl | old
    · exact .inr rfl
    · left
      rw [LogWriter.needsImage, old]
      rfl
  | _ => exact .inl known

namespace Journal

theorem mayLog_spec {j : Journal} {body : LogBody} (allowed : j.mayLog body = true) {p : PageId}
    (target : body.target = some p) : body.isImage = true ∨ j.wal.needsImage p = false := by
  cases body with
  | put q k v before =>
    obtain rfl := Option.some.inj target
    exact .inr (by simpa [mayLog] using allowed)
  | delete q k before =>
    obtain rfl := Option.some.inj target
    exact .inr (by simpa [mayLog] using allowed)
  | pageImage q page => exact .inl rfl
  | _ => cases target

/-- Until the next meta write, the pages known to have an image have it in the log that
recovery would read. -/
structure Imaged (j : Journal) (last : MetaCopy) : Prop where
  settled : j.Settled last
  first : FirstImages last.checkpointLsn (recordsOf j.wal.chunks)
  known : j.ckpt = .idle ∨ j.ckpt = .marked → ∀ p, j.wal.needsImage p = false →
    ∃ r ∈ recordsOf j.wal.chunks, last.checkpointLsn ≤ r.lsn ∧ r.body.target = some p

namespace Imaged

variable {j j' : Journal} {last : MetaCopy}

theorem create : Journal.create.Imaged ⟨0, kInvalidLsn⟩ := ⟨.create, nofun, nofun⟩

theorem same (imaged : j.Imaged last) (settled : j'.Settled last)
    (records : recordsOf j'.wal.chunks = recordsOf j.wal.chunks)
    (known : ∀ p, j'.wal.needsImage p = j.wal.needsImage p)
    (idle : j'.ckpt = .idle ∨ j'.ckpt = .marked → j.ckpt = .idle ∨ j.ckpt = .marked) :
    j'.Imaged last := by
  refine ⟨settled, ?_, fun open_ p image => ?_⟩
  · rw [records]
    exact imaged.first
  · rw [records]
    exact imaged.known (idle open_) p (known p ▸ image)

theorem append (imaged : j.Imaged last) (up : j.proc ≠ .down) (idle : j.ckpt = .idle)
    (txid : TxId) (opEnd : Bool) {body : LogBody} (allowed : j.mayLog body = true) :
    (j.append txid opEnd body).Imaged last := by
  have settled := imaged.settled
  have records := j.records_append txid opEnd body
  refine ⟨settled.append up idle txid opEnd body, ?_, fun _ p image => ?_⟩
  · rw [records]
    refine imaged.first.snoc fun p target => ?_
    rw [LogWriter.recordOf_isImage]
    rw [LogWriter.recordOf_target] at target
    exact (mayLog_spec allowed target).imp id (imaged.known (.inl idle) p)
  · rw [records]
    rcases LogWriter.needsImage_logged image with old | target
    · obtain ⟨r, mem, here⟩ := imaged.known (.inl idle) p old
      exact ⟨r, List.mem_append_left _ mem, here⟩
    · refine ⟨_, List.mem_append_right _ (List.mem_singleton_self _), settled.ck_le_end, ?_⟩
      rw [LogWriter.recordOf_target, target]

theorem flush (imaged : j.Imaged last) (up : j.proc ≠ .down) : j.flush.Imaged last :=
  imaged.same (imaged.settled.flush up) j.records_flush (fun _ => rfl) id

theorem mark (imaged : j.Imaged last) (up : j.proc ≠ .down) (idle : j.ckpt = .idle) :
    j.mark.Imaged last := by
  have allowed : j.mayLog .checkpoint = true := rfl
  have marked := (imaged.append up idle kInvalidTxId true allowed).flush up
  exact marked.same (imaged.settled.mark up idle) rfl (fun _ => rfl) fun _ => .inl idle

theorem past_end (settled : j.Settled last) (busy : j.ckpt ≠ .idle) :
    FirstImages j.metaPage.checkpointLsn (recordsOf j.wal.chunks) :=
  .of_below fun _ mem => settled.below_next busy mem

theorem writeMeta (imaged : j.Imaged last) (marked : j.ckpt = .marked) : j.writeMeta.Imaged last :=
  imaged.same (imaged.settled.writeMeta marked) rfl (fun _ => rfl) fun _ => .inr marked

theorem failMeta (imaged : j.Imaged last) (marked : j.ckpt = .marked) {fate : Fate}
    (fails : fate ≠ .kept) : (j.failMeta fate).Imaged last :=
  imaged.same (imaged.settled.failMeta marked fails) rfl (fun _ => rfl) fun _ => .inr marked

theorem syncMeta (imaged : j.Imaged last) (metaWritten : j.ckpt = .metaWritten) :
    j.syncMeta.Imaged j.metaPage :=
  ⟨imaged.settled.syncMeta metaWritten, past_end imaged.settled (by rw [metaWritten]; nofun),
    fun open_ => by rcases open_ with busy | busy <;> cases busy⟩

theorem truncate (imaged : j.Imaged last) (metaSynced : j.ckpt = .metaSynced) :
    j.truncate.Imaged last :=
  ⟨imaged.settled.truncate metaSynced, nofun, nofun⟩

theorem crash (imaged : j.Imaged last) (bytes : Nat) (metas : Bool → Fate) :
    ∃ last', (j.crash bytes metas).Imaged last' := by
  obtain ⟨last', which, settled, -⟩ := imaged.settled.crash bytes metas
  refine ⟨last', settled, ?_, nofun⟩
  have kept := j.records_crash bytes metas
  rcases which with rfl | ⟨metaWritten, rfl⟩
  · exact imaged.first.of_cut kept
  · exact (past_end imaged.settled (by rw [metaWritten]; nofun)).of_cut kept

theorem reopen (imaged : j.Imaged last) (down : j.proc = .down) {c : MetaCopy}
    (picked : pickMeta j.written = some c) : (j.reopen c).Imaged last := by
  obtain ⟨rfl, settled, -⟩ := imaged.settled.reopen down picked
  obtain ⟨wal, -⟩ := j.reopen_shape c
  refine ⟨settled, ?_, ?_⟩
  · rw [imaged.settled.records_reopen down c]
    exact imaged.first
  · rw [wal]
    nofun

theorem move (move : j.Move j') (imaged : j.Imaged last) : ∃ last', j'.Imaged last' := by
  cases move with
  | draw => exact ⟨last, imaged.same imaged.settled.draw rfl (fun _ => rfl) id⟩
  | append txid opEnd body up idle id allowed => 
    exact ⟨last, imaged.append up idle txid opEnd allowed⟩
  | flush up => exact ⟨last, imaged.flush up⟩
  | mark up idle => exact ⟨last, imaged.mark up idle⟩
  | writeMeta marked => exact ⟨last, imaged.writeMeta marked⟩
  | failMeta fate fails marked => exact ⟨last, imaged.failMeta marked fails⟩
  | syncMeta metaWritten => exact ⟨_, imaged.syncMeta metaWritten⟩
  | truncate metaSynced => exact ⟨last, imaged.truncate metaSynced⟩
  | crash bytes metas => exact imaged.crash bytes metas
  | reopen c down picked => exact ⟨last, imaged.reopen down picked⟩

end Imaged

end Journal

def Life.early (_ : Life) : LifeEvent ⊕ LifeFault → Prop
  | .inl _ => True
  | .inr f => f.leavesMetaAhead = false

end PagerDB

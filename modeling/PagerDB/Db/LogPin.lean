import PagerDB.Db.Life

/-! A transaction that has begun pins the log: no checkpoint moves past its `kBegin` before
its end marker is logged, whatever fails on the way. -/
namespace PagerDB

open MachineLib

/- Checkpoint LSNs, in memory and in both slots, durable or not. -/

namespace Journal

/-- A meta copy that is in the file, or that a crash may bring back. -/
def Copy (j : Journal) (c : MetaCopy) : Prop := ∃ b, j.written b = some c ∨ j.synced b = some c

def StartsWhole (j : Journal) : Prop := ∀ n cs, j.wal.chunks ≠ .torn n :: cs

/-- Newer copies name later LSNs, and none is past the log's end. A copy that a failed meta write
has left is ahead of the meta page, in the slot that the next one takes. -/
structure Ordered (j : Journal) : Prop where
  log : j.wal.Positioned
  order : ∀ c c', j.Copy c → j.Copy c' → c.generation ≤ c'.generation →
    c.checkpointLsn ≤ c'.checkpointLsn
  top : j.proc ≠ .down → ∀ c, j.Copy c → c.checkpointLsn ≤ j.metaPage.checkpointLsn
  written : j.proc ≠ .down → ∀ b c, j.written b = some c → c.generation ≤ j.metaPage.generation ∨
    ((j.ckpt = .idle ∨ j.ckpt = .marked) ∧ b = j.nextCopy.slot)
  synced : j.proc ≠ .down → ∀ b c, j.synced b = some c → c.generation ≤ j.metaPage.generation
  within : j.proc ≠ .down → j.metaPage.checkpointLsn ≤ j.wal.endLsn
  startsWhole : j.StartsWhole → ∀ c, j.Copy c → c.checkpointLsn ≤ j.wal.flushedLsn
  covered : j.ckpt ≠ .idle → j.metaPage.checkpointLsn = j.wal.endLsn ∧
    j.wal.flushedLsn = j.wal.endLsn
  down : j.proc = .down → j.ckpt = .idle ∧ j.written = j.synced ∧
    j.wal = .open j.wal.file j.wal.baseLsn

namespace Ordered

variable {j : Journal}

theorem create : Journal.create.Ordered where
  log := .truncate (.open [] kFirstLsn) kFirstLsn
  order := by
    rintro c c' ⟨_, eq | eq⟩ ⟨_, eq' | eq'⟩ -
    all_goals
      obtain rfl := Option.some.inj eq
      obtain rfl := Option.some.inj eq'
      exact le_rfl
  top := by
    rintro - c ⟨_, eq | eq⟩
    all_goals
      obtain rfl := Option.some.inj eq
      exact le_rfl
  written := by
    intro _ b c eq
    obtain rfl := Option.some.inj eq
    exact .inl le_rfl
  synced := by
    intro _ b c eq
    obtain rfl := Option.some.inj eq
    exact le_rfl
  within := fun _ => Nat.zero_le _
  startsWhole := by
    rintro - c ⟨_, eq | eq⟩
    all_goals
      obtain rfl := Option.some.inj eq
      exact Nat.zero_le _
  covered := fun busy => absurd rfl busy
  down := nofun

theorem grown (ordered : j.Ordered) (up : j.proc ≠ .down) {w : LogWriter} (log : w.Positioned)
    (starts : (∀ n cs, w.chunks ≠ .torn n :: cs) → j.StartsWhole)
    (flushed : j.wal.flushedLsn ≤ w.flushedLsn) (ends : j.wal.endLsn ≤ w.endLsn)
    (owner : Lsn → Nat)
    (covered : j.ckpt ≠ .idle → w.endLsn = j.wal.endLsn ∧ w.flushedLsn = w.endLsn) :
    Ordered { j with wal := w, owner := owner } where
  log := log
  order := ordered.order
  top := ordered.top
  written := ordered.written
  synced := ordered.synced
  within := fun up => (ordered.within up).trans ends
  startsWhole := fun whole c copy => (ordered.startsWhole (starts whole) c copy).trans flushed
  covered := fun busy => ⟨(ordered.covered busy).1.trans (covered busy).1.symm, (covered busy).2⟩
  down := fun down => absurd down up

theorem append (ordered : j.Ordered) (up : j.proc ≠ .down) (idle : j.ckpt = .idle) (txid : TxId)
    (opEnd : Bool) (body : LogBody) : (j.append txid opEnd body).Ordered := by
  refine ordered.grown up (ordered.log.logged txid opEnd body) (fun whole n cs eq => ?_) ?_ ?_ _
    (fun busy => absurd idle busy)
  · refine whole n (cs ++ [.record (j.wal.recordOf txid opEnd body)]) ?_
    rw [LogWriter.logged_chunks, eq]
    rfl
  · exact (j.wal.logged_same txid opEnd body).2.1.ge
  · rw [LogWriter.logged_endLsn]
    exact Nat.le_add_right _ _

theorem flush (ordered : j.Ordered) (up : j.proc ≠ .down) : j.flush.Ordered :=
  ordered.grown up ordered.log.flush (fun whole n cs eq => whole n cs (j.wal.flush_chunks.trans eq))
    ordered.log.flushed_le_end le_rfl j.owner fun _ => ⟨rfl, rfl⟩

theorem mark (ordered : j.Ordered) (up : j.proc ≠ .down) (idle : j.ckpt = .idle) :
    j.mark.Ordered := by
  have marked := (ordered.append up idle kInvalidTxId true .checkpoint).flush up
  have grows : j.wal.endLsn ≤ j.appendMarker.wal.endLsn :=
    (Nat.le_add_right _ _).trans (LogWriter.logged_endLsn j.wal _ true .checkpoint).ge
  exact { marked with
    top := fun _ c copy => (ordered.top up c copy).trans ((ordered.within up).trans grows)
    written := fun _ b c here => (ordered.written up b c here).imp id fun next => ⟨.inr rfl, next.2⟩
    within := fun _ => le_rfl
    covered := fun _ => ⟨rfl, rfl⟩
    down := fun down => absurd down up }

theorem up_of_busy (ordered : j.Ordered) (busy : j.ckpt ≠ .idle) : j.proc ≠ .down :=
  fun down => busy (ordered.down down).1

theorem slot_update {slots : Bool → Option MetaCopy} {slot b : Bool} {new c : MetaCopy}
    (here : Function.update slots slot (some new) b = some c) :
    (slots b = some c ∧ b ≠ slot) ∨ (b = slot ∧ c = new) := by
  by_cases mine : b = slot
  · subst mine
    rw [Function.update_self] at here
    exact .inr ⟨rfl, (Option.some.inj here).symm⟩
  · rw [Function.update_of_ne mine] at here
    exact .inl ⟨here, mine⟩

theorem copied (ordered : j.Ordered) (marked : j.ckpt = .marked) {j' : Journal} (wal : j'.wal = j.wal)
    (up' : j'.proc ≠ .down) (synced : j'.synced = j.synced)
    (slots : ∀ b c, j'.written b = some c →
      (j.written b = some c ∧ b ≠ j.nextCopy.slot) ∨ (b = j.nextCopy.slot ∧ c = j.nextCopy))
    (names : j'.metaPage.checkpointLsn = j.metaPage.checkpointLsn)
    (generation : j.metaPage.generation ≤ j'.metaPage.generation)
    (ahead : j.nextCopy.generation ≤ j'.metaPage.generation ∨
      (j'.ckpt = .idle ∧ j'.metaPage = j.metaPage)) : j'.Ordered := by
  have busy : j.ckpt ≠ .idle := by rw [marked]; nofun
  have up := ordered.up_of_busy busy
  obtain ⟨ends, flushed⟩ := ordered.covered busy
  -- the others are older than the copy
  have copies : ∀ c, j'.Copy c → (j.Copy c ∧ c.generation ≤ j.metaPage.generation) ∨ c = j.nextCopy := by
    rintro c ⟨b, here | here⟩
    · rcases slots b c here with ⟨old, other⟩ | ⟨-, new⟩
      · refine .inl ⟨⟨b, .inl old⟩, ?_⟩
        exact (ordered.written up b c old).resolve_right fun next => other next.2
      · exact .inr new
    · rw [synced] at here
      exact .inl ⟨⟨b, .inr here⟩, ordered.synced up b c here⟩
  have next : j.nextCopy.generation = j.metaPage.generation + 1 := rfl
  have within : ∀ c, j'.Copy c → c.checkpointLsn ≤ j.metaPage.checkpointLsn := by
    intro c copy
    rcases copies c copy with ⟨old, -⟩ | rfl
    · exact ordered.top up c old
    · exact le_rfl
  refine {
    log := wal ▸ ordered.log
    order := fun c c' copy copy' le => ?_
    top := fun _ c copy => names ▸ within c copy
    written := fun _ b c here => ?_
    synced := fun _ b c here => (ordered.synced up b c (synced ▸ here)).trans generation
    within := fun _ => by rw [names, wal]; exact ordered.within up
    startsWhole := fun _ c copy => by rw [wal]; exact (within c copy).trans (ends.trans flushed.symm).le
    covered := fun _ => by rw [names, wal]; exact ⟨ends, flushed⟩
    down := fun down => absurd down up' }
  · rcases copies c' copy' with ⟨old', older'⟩ | rfl
    · rcases copies c copy with ⟨old, -⟩ | rfl
      · exact ordered.order c c' old old' le
      · omega
    · exact within c copy
  · rcases slots b c here with ⟨old, other⟩ | ⟨mine, rfl⟩
    · refine .inl (((ordered.written up b c old).resolve_right fun next => other next.2).trans generation)
    · refine ahead.imp id fun ⟨idle, same⟩ => ⟨.inl idle, ?_⟩
      rw [mine, nextCopy, nextCopy, same]

theorem writeMeta (ordered : j.Ordered) (marked : j.ckpt = .marked) : j.writeMeta.Ordered := by
  have up := ordered.up_of_busy (by rw [marked]; nofun)
  exact ordered.copied marked rfl up rfl (fun _ _ => slot_update) rfl (Nat.le_succ _) (.inl le_rfl)

theorem fewer (ordered : j.Ordered) {j' : Journal} (wal : j'.wal = j.wal) (copy : j'.metaPage = j.metaPage)
    (up : j.proc ≠ .down) (up' : j'.proc ≠ .down)
    (written : ∀ b c, j'.written b = some c → j.written b = some c)
    (synced : ∀ b c, j'.synced b = some c → j.synced b = some c ∨
      (j.written b = some c ∧ j.ckpt = .metaWritten))
    (early : j.ckpt = .idle ∨ j.ckpt = .marked → j'.ckpt = .idle ∨ j'.ckpt = .marked)
    (busy : j'.ckpt ≠ .idle → j.ckpt ≠ .idle) : j'.Ordered := by
  have copies : ∀ c, j'.Copy c → j.Copy c := by
    rintro c ⟨b, here | here⟩
    · exact ⟨b, .inl (written b c here)⟩
    · exact ⟨b, (synced b c here).elim .inr fun new => .inl new.1⟩
  refine {
    log := wal ▸ ordered.log
    order := fun c c' here here' => ordered.order c c' (copies c here) (copies c' here')
    top := fun _ c here => copy ▸ ordered.top up c (copies c here)
    written := fun _ b c here => ?_
    synced := fun _ b c here => ?_
    within := fun _ => by rw [copy, wal]; exact ordered.within up
    startsWhole := fun whole c here => ?_
    covered := fun late => by rw [copy, wal]; exact ordered.covered (busy late)
    down := fun down => absurd down up' }
  · rw [nextCopy, copy]
    exact (ordered.written up b c (written b c here)).imp id fun next => ⟨early next.1, next.2⟩
  · rw [copy]
    rcases synced b c here with old | ⟨new, late⟩
    · exact ordered.synced up b c old
    · refine (ordered.written up b c new).resolve_right fun next => ?_
      rcases next.1 with early | early
      · cases late.symm.trans early
      · cases late.symm.trans early
  · rw [wal]
    refine ordered.startsWhole (fun n cs eq => whole n cs ?_) c (copies c here)
    rw [wal]
    exact eq

theorem failMeta (ordered : j.Ordered) (marked : j.ckpt = .marked) (fate : Fate) :
    (j.failMeta fate).Ordered := by
  have up := ordered.up_of_busy (by rw [marked]; nofun)
  by_cases kept : fate = .kept
  · subst kept
    exact ordered.copied marked rfl up rfl (fun _ _ => slot_update) rfl le_rfl (.inr ⟨rfl, rfl⟩)
  · refine ordered.fewer rfl rfl up up (fun b c here => ?_) (fun _ _ => .inl) (fun _ => .inl rfl) fun busy =>
      absurd rfl busy
    exact (failMeta_written here).resolve_right fun new => kept new.1

theorem syncMeta (ordered : j.Ordered) (metaWritten : j.ckpt = .metaWritten) :
    j.syncMeta.Ordered := by
  have busy : j.ckpt ≠ .idle := by rw [metaWritten]; nofun
  have up := ordered.up_of_busy busy
  refine ordered.fewer rfl rfl up up (fun _ _ => id) (fun b c here =>
    .inr ⟨here, metaWritten⟩) ?_ fun _ => busy
  rintro (early | early)
  · cases metaWritten.symm.trans early
  · cases metaWritten.symm.trans early

theorem giveUp (ordered : j.Ordered) (busy : j.ckpt ≠ .idle) : Ordered { j with ckpt := .idle } :=
  ordered.fewer rfl rfl (ordered.up_of_busy busy) (ordered.up_of_busy busy) (fun _ _ => id) (fun _ _ => .inl)
    (fun _ => .inl rfl) fun idle => absurd rfl idle

theorem truncate (ordered : j.Ordered) (metaSynced : j.ckpt = .metaSynced) : j.truncate.Ordered where
  log := .truncate j.wal _
  order := ordered.order
  top := fun _ => ordered.top (ordered.up_of_busy (by rw [metaSynced]; nofun))
  written := fun _ b c here =>
    (ordered.written (ordered.up_of_busy (by rw [metaSynced]; nofun)) b c here).imp id fun next =>
      ⟨.inl rfl, next.2⟩
  synced := fun _ => ordered.synced (ordered.up_of_busy (by rw [metaSynced]; nofun))
  within := fun _ => le_rfl
  startsWhole := fun _ c copy => ordered.top (ordered.up_of_busy (by rw [metaSynced]; nofun)) c copy
  covered := fun busy => absurd rfl busy
  down := nofun

theorem holed (ordered : j.Ordered) (metaSynced : j.ckpt = .metaSynced) :
    Ordered { j with ckpt := .idle, wal := j.wal.holed } := by
  have up := ordered.up_of_busy (by rw [metaSynced]; nofun)
  exact {
    log := ordered.log.holed
    order := ordered.order
    top := ordered.top
    written := fun _ b c here => (ordered.written up b c here).imp id fun next => ⟨.inl rfl, next.2⟩
    synced := ordered.synced
    within := ordered.within
    startsWhole := fun whole => absurd rfl (whole _ _)
    covered := fun busy => absurd rfl busy
    down := fun down => absurd down up }

theorem crash (ordered : j.Ordered) (bytes : Nat) (metas : Bool → Fate) :
    (j.crash bytes metas).Ordered := by
  have copies : ∀ c, (j.crash bytes metas).Copy c → j.Copy c := by
    rintro c ⟨b, here⟩
    have eq : (metas b).apply (j.written b) (j.synced b) = some c := here.elim id id
    exact ⟨b, (Fate.apply_some eq).imp And.right id⟩
  -- a torn run at the front is older than the last flush
  have torn : (j.crash bytes metas).StartsWhole → j.StartsWhole := by
    intro whole n cs eq
    obtain ⟨rest, file⟩ : ∃ rest, j.wal.file = .torn n :: rest := by
      unfold LogWriter.chunks at eq
      cases file : j.wal.file with
      | nil =>
        rw [file] at eq
        cases buffer : j.wal.buffer with
        | nil => simp [buffer] at eq
        | cons r rs => simp [buffer] at eq
      | cons c rest =>
        rw [file] at eq
        exact ⟨rest, by rw [(List.cons.inj eq).1]⟩
    have fits : n ≤ max (LogWriter.fileBytes j.wal.file) bytes := by
      rw [file, LogWriter.fileBytes_cons]
      exact (Nat.le_add_right _ _).trans (le_max_left _ _)
    refine whole n (cutChunks (max (LogWriter.fileBytes j.wal.file) bytes - n) cs) ?_
    change (LogWriter.open (j.wal.crashed bytes) j.wal.baseLsn).chunks = _
    rw [LogWriter.open_chunks, LogWriter.crashed, eq, cutChunks]
    exact if_pos fits
  exact {
    log := ordered.log.crashed bytes
    order := fun c c' here here' => ordered.order c c' (copies c here) (copies c' here')
    top := fun up => absurd rfl up
    written := fun up => absurd rfl up
    synced := fun up => absurd rfl up
    within := fun up => absurd rfl up
    startsWhole := fun whole c here => (ordered.startsWhole (torn whole) c (copies c here)).trans
      (ordered.log.flushed_le_crashed bytes)
    covered := fun busy => absurd rfl busy
    down := fun _ => ⟨rfl, rfl, rfl⟩ }

theorem reopen (ordered : j.Ordered) (down : j.proc = .down) {c : MetaCopy}
    (picked : pickMeta j.written = some c) : (j.reopen c).Ordered := by
  obtain ⟨idle, same, opened⟩ := ordered.down down
  obtain ⟨⟨slot, mine⟩, newest⟩ := pickMeta_max picked
  have top : ∀ c', j.Copy c' → c'.generation ≤ c.generation ∧
      c'.checkpointLsn ≤ c.checkpointLsn := by
    rintro c' ⟨b, here⟩
    have written : j.written b = some c' := here.elim id fun synced => same ▸ synced
    have older := newest b c' written
    exact ⟨older, ordered.order c' c ⟨b, .inl written⟩ ⟨slot, .inl mine⟩ older⟩
  have placed := ordered.log.placed
  rw [opened, LogWriter.open_chunks] at placed
  let base := baseLsn (readAll j.wal.file) c
  have positions : Placed base j.wal.file ∧
      c.checkpointLsn ≤ base + LogWriter.fileBytes j.wal.file := by
    change Placed (baseLsn (readAll j.wal.file) c) _ ∧ _ ≤ baseLsn (readAll j.wal.file) c + _
    cases found : readAll j.wal.file with
    | nil =>
      exact ⟨placed_of_readAll_nil found _, c.le_logStart.trans (Nat.le_add_right _ _)⟩
    | cons r rs =>
      have here : r.lsn = j.wal.baseLsn := placed.readAll_cons found
      change Placed r.lsn _ ∧ _ ≤ r.lsn + _
      rw [here, ← ordered.log.flushed]
      refine ⟨placed, ordered.startsWhole (fun n cs eq => ?_) c ⟨slot, .inl mine⟩⟩
      rw [opened, LogWriter.open_chunks] at eq
      change j.wal.file = _ at eq
      rw [eq] at found
      cases found
  obtain ⟨wal, idle', up, copy, written, synced⟩ := j.reopen_shape c
  have copies : ∀ c', (j.reopen c).Copy c' → j.Copy c' := by
    rintro c' ⟨b, here⟩
    rw [written, synced] at here
    exact ⟨b, here⟩
  exact {
    log := by rw [wal]; exact .of_placed positions.1
    order := fun c c' here here' => ordered.order c c' (copies c here) (copies c' here')
    top := fun _ c' here => by rw [copy]; exact (top c' (copies c' here)).2
    written := fun _ b c' here => .inl (by rw [copy]; exact (top c' (copies c' ⟨b, .inl here⟩)).1)
    synced := fun _ b c' here => by rw [copy]; exact (top c' (copies c' ⟨b, .inr here⟩)).1
    within := fun _ => by rw [copy, wal]; exact positions.2
    startsWhole := fun _ c' here => by
      rw [wal]
      exact (top c' (copies c' here)).2.trans positions.2
    covered := fun busy => absurd (idle'.trans idle) busy
    down := fun down => absurd down up }

theorem move {j' : Journal} (move : j.Move j') (ordered : j.Ordered) : j'.Ordered := by
  cases move with
  | draw => exact { ordered with }
  | append txid opEnd body up idle => exact ordered.append up idle txid opEnd body
  | flush up => exact ordered.flush up
  | mark up idle => exact ordered.mark up idle
  | writeMeta marked => exact ordered.writeMeta marked
  | failMeta fate fails marked => exact ordered.failMeta marked fate
  | syncMeta metaWritten => exact ordered.syncMeta metaWritten
  | truncate metaSynced => exact ordered.truncate metaSynced
  | crash bytes metas => exact ordered.crash bytes metas
  | reopen c down picked => exact ordered.reopen down picked

end Ordered

structure Keeps (j j' : Journal) : Prop where
  base : j'.wal.baseLsn = j.wal.baseLsn
  copy : j'.metaPage = j.metaPage
  copies : ∀ c, j'.Copy c → j.Copy c
  records : recordsOf j.wal.chunks <+: recordsOf j'.wal.chunks

theorem Keeps.refl (j : Journal) : Keeps j j := ⟨rfl, rfl, fun _ copy => copy, List.prefix_rfl⟩

theorem keeps_append (j : Journal) (txid : TxId) (opEnd : Bool) (body : LogBody) :
    Keeps j (j.append txid opEnd body) := by
  refine ⟨(j.wal.logged_same txid opEnd body).1, rfl, fun _ copy => copy, ?_⟩
  rw [records_append]
  exact List.prefix_append _ _

theorem keeps_flush (j : Journal) : Keeps j j.flush := by
  refine ⟨rfl, rfl, fun _ copy => copy, ?_⟩
  rw [records_flush]

end Journal

namespace Life

/-- The log still holds the transaction from its `kBegin` on, and so it will after a crash. -/
structure Retained (s : Life) (txid : TxId) (lsn : Lsn) : Prop where
  base : s.wal.baseLsn ≤ lsn
  memory : s.metaPage.checkpointLsn ≤ lsn
  copies : ∀ b c, s.written b = some c ∨ s.synced b = some c → c.checkpointLsn ≤ lsn
  marker : ∃ r ∈ recordsOf s.wal.chunks, r.lsn = lsn ∧ r.txid = txid ∧ r.body = .begin

structure Pinned (s : Life) : Prop where
  ordered : s.toJournal.Ordered
  retained : ∀ b ∈ s.begun, s.Retained b.1 b.2
  count : s.begun.length ≤ s.activeBegunTxns
  quiet : s.ckpt ≠ .idle ∨ s.proc = .down → s.begun = []

variable {s s' : Life}

theorem create_pinned : create.Pinned := ⟨.create, nofun, le_rfl, fun _ => rfl⟩

namespace Retained

theorem keep {txid : TxId} {lsn : Lsn} (retained : s.Retained txid lsn)
    (keeps : s.toJournal.Keeps s'.toJournal) : s'.Retained txid lsn := by
  obtain ⟨r, mem, marker⟩ := retained.marker
  refine ⟨?_, ?_, fun b c here => ?_, r, keeps.records.subset mem, marker⟩
  · rw [keeps.base]
    exact retained.base
  · rw [keeps.copy]
    exact retained.memory
  · obtain ⟨b', here'⟩ := keeps.copies c ⟨b, here⟩
    exact retained.copies b' c here'

end Retained

namespace Pinned

theorem keep (pinned : s.Pinned) (ordered : s'.toJournal.Ordered)
    (keeps : s.toJournal.Keeps s'.toJournal) (fewer : ∀ b ∈ s'.begun, b ∈ s.begun)
    (count : s'.begun.length ≤ s'.activeBegunTxns)
    (quiet : s'.ckpt ≠ .idle ∨ s'.proc = .down → s'.begun = []) : s'.Pinned :=
  ⟨ordered, fun b mem => (pinned.retained b (fewer b mem)).keep keeps, count, quiet⟩

theorem of_none (ordered : s'.toJournal.Ordered) (none : s'.begun = []) : s'.Pinned := by
  refine ⟨ordered, ?_, ?_, fun _ => none⟩
  · rw [none]
    nofun
  · rw [none]
    exact Nat.zero_le _

theorem none_of_busy (pinned : s.Pinned) (busy : s.ckpt ≠ .idle) : s.begun = [] :=
  pinned.quiet (.inl busy)

theorem none_of_mayTruncate (pinned : s.Pinned) (may : s.mayTruncate = true) : s.begun = [] := by
  obtain ⟨-, -, -, zero⟩ := mayTruncate_spec may
  have count := pinned.count
  rw [zero] at count
  exact List.eq_nil_of_length_eq_zero (Nat.le_zero.mp count)

theorem of_journal (pinned : s.Pinned) {j : Journal} (ordered : j.Ordered)
    (keeps : s.toJournal.Keeps j) (ckpt : j.ckpt = s.ckpt) (proc : j.proc = s.proc) :
    Life.Pinned { s with toJournal := j } :=
  pinned.keep ordered keeps (fun _ mem => mem) pinned.count (by
    change j.ckpt ≠ .idle ∨ j.proc = .down → _
    rw [ckpt, proc]
    exact pinned.quiet)

theorem log (pinned : s.Pinned) {txid : TxId} {body : LogBody} (opEnd : Bool)
    (ordered : (s.append txid opEnd body).Ordered) : (s.log txid opEnd body).Pinned := by
  have logged := pinned.of_journal ordered (s.keeps_append txid opEnd body) rfl rfl
  unfold Life.log
  cases body.target with
  | none => exact logged
  | some p => exact { logged with retained := fun b mem => { logged.retained b mem with } }

theorem ensureBegun (pinned : s.Pinned) {txid : TxId} (up : s.proc ≠ .down)
    (idle : s.ckpt = .idle) : (s.ensureBegun txid).Pinned := by
  have ordered := pinned.ordered.append up idle txid true .begin
  have keeps := s.keeps_append txid true .begin
  refine ⟨ordered, fun b mem => ?_, Nat.succ_le_succ pinned.count, fun busy => ?_⟩
  · rcases List.mem_cons.mp mem with rfl | old
    · refine ⟨?_, pinned.ordered.within up, fun b c here => ?_, ?_⟩
      · change (s.wal.logged txid true .begin).baseLsn ≤ _
        rw [(s.wal.logged_same txid true .begin).1]
        exact (Nat.le_add_right _ _).trans pinned.ordered.log.ends.ge
      · exact (pinned.ordered.top up c ⟨b, here⟩).trans (pinned.ordered.within up)
      · refine ⟨s.wal.recordOf txid true .begin, ?_, rfl, rfl, rfl⟩
        change _ ∈ recordsOf (s.append txid true .begin).wal.chunks
        rw [Journal.records_append]
        exact List.mem_append_right _ (List.mem_singleton_self _)
    · exact (pinned.retained b old).keep keeps
  · exact (busy.elim (absurd idle) fun down => absurd down up)

theorem finish (pinned : s.Pinned) {txid : TxId} (up : s.proc ≠ .down) (idle : s.ckpt = .idle)
    (commit : Bool) (mem : txid ∈ s.begun.map Prod.fst) : (s.finish txid commit).Pinned := by
  refine pinned.keep (pinned.ordered.append up idle txid true _) (s.keeps_append txid true _)
    (fun b mem => (List.mem_filter.mp mem).1) ?_ fun busy =>
      (busy.elim (absurd idle) fun down => absurd down up)
  obtain ⟨b, here, rfl⟩ := List.mem_map.mp mem
  have shorter : (s.finish b.1 commit).begun.length < s.begun.length :=
    List.length_filter_lt_length_iff_exists.mpr ⟨b, here, by simp⟩
  exact Nat.le_sub_one_of_lt (shorter.trans_le pinned.count)

end Pinned

def Step (s s' : Life) : Prop := s'.Pinned ∧ (s'.begun ≠ [] → s.toJournal.Keeps s'.toJournal)

theorem Step.of_none (ordered : s'.toJournal.Ordered) (empty : s'.begun = []) : s.Step s' :=
  ⟨.of_none ordered empty, fun some => absurd empty some⟩

theorem Step.of_same (pinned : s.Pinned) (journal : s'.toJournal = s.toJournal)
    (begun : s'.begun = s.begun) (count : s'.activeBegunTxns = s.activeBegunTxns) : s.Step s' := by
  have keeps : s.toJournal.Keeps s'.toJournal := journal ▸ .refl _
  refine ⟨pinned.keep (journal ▸ pinned.ordered) keeps (fun b mem => begun ▸ mem) ?_ ?_,
    fun _ => keeps⟩
  · rw [begun, count]
    exact pinned.count
  · rw [begun, journal]
    exact pinned.quiet

theorem next_step {e : LifeEvent} (pinned : s.Pinned) (run : s.next e = some s') : s.Step s' := by
  cases e with
  | draw =>
    obtain ⟨-, eq⟩ := Option.ite_none_right_eq_some.mp run
    obtain rfl := Option.some.inj eq
    have keeps : s.toJournal.Keeps s.draw := { Journal.Keeps.refl s.toJournal with }
    exact ⟨pinned.of_journal { pinned.ordered with } keeps rfl rfl, fun _ => keeps⟩
  | log txid opEnd body =>
    obtain ⟨⟨admits, -⟩, eq⟩ := Option.ite_none_right_eq_some.mp run
    obtain rfl := Option.some.inj eq
    obtain ⟨up, idle, -⟩ := admitsWriter_spec admits
    refine ⟨pinned.log opEnd (pinned.ordered.append up idle txid opEnd body), fun _ => ?_⟩
    rw [log_toJournal]
    exact s.keeps_append txid opEnd body
  | ensureBegun txid =>
    obtain ⟨⟨admits, -⟩, eq⟩ := Option.ite_none_right_eq_some.mp run
    obtain rfl := Option.some.inj eq
    obtain ⟨up, idle, -⟩ := admitsWriter_spec admits
    exact ⟨pinned.ensureBegun up idle, fun _ => s.keeps_append txid true .begin⟩
  | finish txid commit =>
    obtain ⟨⟨admits, -, mem⟩, eq⟩ := Option.ite_none_right_eq_some.mp run
    obtain rfl := Option.some.inj eq
    obtain ⟨up, idle, -⟩ := admitsWriter_spec admits
    exact ⟨pinned.finish up idle commit mem, fun _ => s.keeps_append txid true _⟩
  | flush =>
    obtain ⟨up, eq⟩ := Option.ite_none_left_eq_some.mp run
    obtain rfl := Option.some.inj eq
    exact ⟨pinned.of_journal (pinned.ordered.flush up) s.keeps_flush rfl rfl, fun _ => s.keeps_flush⟩
  | newPage p =>
    obtain ⟨-, eq⟩ := Option.ite_none_left_eq_some.mp run
    obtain rfl := Option.some.inj eq
    exact .of_same pinned rfl rfl rfl
  | fetch p =>
    obtain ⟨-, eq⟩ := Option.ite_none_left_eq_some.mp run
    obtain ⟨lsn, -, rfl⟩ := Option.map_eq_some_iff.mp eq
    exact .of_same pinned rfl rfl rfl
  | init p =>
    obtain ⟨-, eq⟩ := Option.ite_none_right_eq_some.mp run
    obtain rfl := Option.some.inj eq
    exact .of_same pinned rfl rfl rfl
  | evict p =>
    obtain ⟨-, eq⟩ := Option.ite_none_right_eq_some.mp run
    obtain rfl := Option.some.inj eq
    exact .of_same pinned rfl rfl rfl
  | writeBack p =>
    obtain ⟨up, eq⟩ := Option.ite_none_left_eq_some.mp run
    obtain ⟨lsn, -, rfl⟩ := Option.map_eq_some_iff.mp eq
    by_cases zero : lsn = kInvalidLsn
    · exact .of_same pinned (if_pos zero) rfl rfl
    · have flushes : (s.writeBack p lsn).toJournal = s.flush := if_neg zero
      have keeps : s.toJournal.Keeps (s.writeBack p lsn).toJournal := flushes ▸ s.keeps_flush
      refine ⟨pinned.keep (flushes ▸ pinned.ordered.flush up) keeps (fun _ mem => mem) pinned.count
        ?_, fun _ => keeps⟩
      rw [flushes]
      exact pinned.quiet
  | mark =>
    obtain ⟨may, eq⟩ := Option.ite_none_right_eq_some.mp run
    obtain rfl := Option.some.inj eq
    obtain ⟨up, idle, -⟩ := mayTruncate_spec may
    exact .of_none (pinned.ordered.mark up idle) (pinned.none_of_mayTruncate may)
  | writeMeta =>
    obtain ⟨marked, eq⟩ := Option.ite_none_right_eq_some.mp run
    obtain rfl := Option.some.inj eq
    exact .of_none (pinned.ordered.writeMeta marked) (pinned.none_of_busy (by rw [marked]; nofun))
  | syncMeta =>
    obtain ⟨metaWritten, eq⟩ := Option.ite_none_right_eq_some.mp run
    obtain rfl := Option.some.inj eq
    exact .of_none (pinned.ordered.syncMeta metaWritten)
      (pinned.none_of_busy (by rw [metaWritten]; nofun))
  | truncate =>
    obtain ⟨metaSynced, eq⟩ := Option.ite_none_right_eq_some.mp run
    obtain rfl := Option.some.inj eq
    exact .of_none (pinned.ordered.truncate metaSynced)
      (pinned.none_of_busy (by rw [metaSynced]; nofun))
  | crash bytes metas pages =>
    obtain ⟨-, eq⟩ := Option.ite_none_left_eq_some.mp run
    obtain rfl := Option.some.inj eq
    exact .of_none (pinned.ordered.crash bytes metas) rfl
  | reopen =>
    obtain ⟨down, eq⟩ := Option.ite_none_right_eq_some.mp run
    obtain ⟨c, picked, rfl⟩ := Option.map_eq_some_iff.mp eq
    exact .of_none (pinned.ordered.reopen down picked) (pinned.quiet (.inr down))
  | redo r =>
    obtain ⟨-, eq⟩ := Option.ite_none_right_eq_some.mp run
    obtain rfl | ⟨p, lsn, rfl⟩ | ⟨p, lsn, rfl⟩ := redo_shape eq
    all_goals exact .of_same pinned rfl rfl rfl

theorem fail_step {f : LifeFault} (pinned : s.Pinned) (run : s.fail f = some s') : s.Step s' := by
  cases f with
  | markerFlush =>
    obtain ⟨may, eq⟩ := Option.ite_none_right_eq_some.mp run
    obtain rfl := Option.some.inj eq
    obtain ⟨up, idle, -⟩ := mayTruncate_spec may
    exact .of_none (pinned.ordered.append up idle _ true .checkpoint)
      (pinned.none_of_mayTruncate may)
  | metaWrite fate =>
    obtain ⟨marked, eq⟩ := Option.ite_none_right_eq_some.mp run
    obtain rfl := Option.some.inj eq
    exact .of_none (pinned.ordered.failMeta marked fate)
      (pinned.none_of_busy (by rw [marked]; nofun))
  | metaSync =>
    obtain ⟨metaWritten, eq⟩ := Option.ite_none_right_eq_some.mp run
    obtain rfl := Option.some.inj eq
    have busy : s.ckpt ≠ .idle := by rw [metaWritten]; nofun
    exact .of_none (pinned.ordered.giveUp busy) (pinned.none_of_busy busy)
  | truncate =>
    obtain ⟨metaSynced, eq⟩ := Option.ite_none_right_eq_some.mp run
    obtain rfl := Option.some.inj eq
    have busy : s.ckpt ≠ .idle := by rw [metaSynced]; nofun
    exact .of_none (pinned.ordered.giveUp busy) (pinned.none_of_busy busy)
  | truncateSync =>
    obtain ⟨metaSynced, eq⟩ := Option.ite_none_right_eq_some.mp run
    obtain rfl := Option.some.inj eq
    exact .of_none (pinned.ordered.holed metaSynced)
      (pinned.none_of_busy (by rw [metaSynced]; nofun))
  | commitFlush txid =>
    obtain ⟨⟨admits, -, mem⟩, eq⟩ := Option.ite_none_right_eq_some.mp run
    obtain rfl := Option.some.inj eq
    obtain ⟨up, idle, -⟩ := admitsWriter_spec admits
    have finished := pinned.finish up idle true mem
    refine ⟨⟨finished.ordered, fun b here => { finished.retained b here with },
      finished.count.trans (Nat.sub_le _ _), finished.quiet⟩, fun _ => ?_⟩
    exact s.keeps_append txid true .commit
  | operation =>
    obtain ⟨-, eq⟩ := Option.ite_none_left_eq_some.mp run
    obtain rfl := Option.some.inj eq
    exact .of_same pinned rfl rfl rfl
  | pageWrite p =>
    obtain ⟨-, eq⟩ := Option.ite_none_left_eq_some.mp run
    obtain rfl := Option.some.inj eq
    exact .of_same pinned rfl rfl rfl

theorem nextOrFail_step {e : LifeEvent ⊕ LifeFault} (pinned : s.Pinned)
    (run : s.nextOrFail e = some s') : s.Step s' := by
  cases e with
  | inl e => exact next_step pinned run
  | inr f => exact fail_step pinned run

end Life

/-- In every history, with whatever I/O fails: each transaction that has begun and not ended has
its records in the log, with every checkpoint LSN at or before its `kBegin`, and as long as there
is one no record leaves the log. -/
theorem begun_transactions_pin_the_log (events : List (LifeEvent ⊕ LifeFault)) :
    EveryState Life.nextOrFail (fun s => (∀ b ∈ s.begun, s.Retained b.1 b.2) ∧
      ∀ e t, s.nextOrFail e = some t → t.begun ≠ [] →
        recordsOf s.wal.chunks <+: recordsOf t.wal.chunks)
      Life.create events := by
  have pinned : EveryState Life.nextOrFail Life.Pinned Life.create events :=
    everyState_invariant (fun _ _ _ pinned run => (Life.nextOrFail_step pinned run).1)
      Life.create_pinned
  exact pinned.imp fun s pinned => ⟨pinned.retained, fun e t run some =>
    ((Life.nextOrFail_step pinned run).2 some).records⟩

end PagerDB

import PagerDB.Db.StatusOutcome

/-! What a poisoned handle still lets through. Many threads are inside calls; each call saw, when
it was entered, whether the handle was poisoned. `DbImpl` turns such a call away, `TxnImpl` asks
only whether its transaction is active. -/
namespace PagerDB

open MachineLib Store

structure Traffic where
  handle : Handle
  /-- The call a thread is in, and whether the handle was poisoned when it was entered. -/
  running : Nat → Option (DbCall × Bool)

inductive TrafficEvent where
  | enter (i : Nat) (c : DbCall)
  /-- The call takes its locks and latches, does its work and returns. -/
  | finish (i : Nat)
  | evict (pid : PageId)
  | fetch (pid : PageId) (io : List (Option Fault))

namespace Traffic

def opened (s : Store) (options : Options) : Traffic := ⟨.opened s options, fun _ => none⟩

def finished (s : Traffic) (i : Nat) (h : Handle) : Traffic := ⟨h, Function.update s.running i none⟩

def next (s : Traffic) : TrafficEvent → Option Traffic
  | .enter i c =>
    if (s.running i).isNone then
      some { s with running := Function.update s.running i (some (c, s.handle.needsReopen)) }
    else none
  | .finish i =>
    match s.running i with
    | some (c, late) => (s.handle.perform late c).map fun out => s.finished i out.2
    | none => none
  | .evict pid => (s.handle.next (.evict pid)).map fun h => { s with handle := h }
  | .fetch pid io => (s.handle.next (.fetch pid io)).map fun h => { s with handle := h }

end Traffic

namespace DbCall

/-- The calls that poisoning is to stop. Abort and Sync are not among them. -/
def writer : DbCall → Bool
  | put .. | delete .. | checkpoint .. | begin .. | txnPut .. | txnDelete .. | commit .. => true
  | _ => false

def writes (h : Handle) : DbCall → Bool
  | put .. | delete .. | txnPut .. | txnDelete .. => true
  | commit t _ => (h.txns t).any fun x => !x.undo.isEmpty
  | _ => false

/-- A live transaction gets the lock for a write, or commits after its `kBegin`. -/
def slipsThrough (h : Handle) : DbCall → Bool
  | txnPut t key .. | txnDelete t key .. => (h.txns t).any fun x =>
      x.active && decide (h.locks.check ⟨t, x.priority, key, .exclusive⟩ = .grant)
  | commit t _ => (h.txns t).any fun x => x.active && x.begun
  | _ => false

end DbCall

/-- No tree page is modified, no record appended and no write acknowledged. -/
structure Handle.Stopped (h : Handle) (c : DbCall) (r : Report) (h' : Handle) : Prop where
  pages : h'.store.view = h.store.view
  log : h'.store.records = h.store.records
  status : r = .ok → c.writes h = false

namespace Traffic

def Stops (s : Traffic) : TrafficEvent → Prop
  | .finish i => ∀ c r h', s.running i = some (c, true) → c.writer = true →
      s.handle.perform true c = some (r, h') → s.handle.Stopped c r h'
  | _ => True

def turnsAway (s : Traffic) : TrafficEvent → Bool
  | .finish i =>
    match s.running i with
    | some (c, true) => !c.slipsThrough s.handle
    | _ => true
  | _ => true

end Traffic

/- Poisoned handles stay poisoned, and a transaction with writes has begun. -/

namespace Handle

variable {h h' : Handle} {r : Report}

structure Settled (h h' : Handle) : Prop where
  poisoned : h.needsReopen = true → h'.needsReopen = true
  begun : (∀ t x, h.txns t = some x → x.undo ≠ [] → x.begun = true) →
    ∀ t x, h'.txns t = some x → x.undo ≠ [] → x.begun = true

theorem synced_txns (h : Handle) : h.synced.txns = h.txns := by
  unfold synced
  split <;> rfl

namespace Settled

theorem of_same (flag : h'.needsReopen = h.needsReopen) (txns : h'.txns = h.txns) : Settled h h' :=
  ⟨fun p => flag.trans p, fun b => by rwa [txns]⟩

theorem refl (h : Handle) : Settled h h := of_same rfl rfl

theorem trans {a b c : Handle} (x : Settled a b) (y : Settled b c) : Settled a c :=
  ⟨fun p => y.poisoned (x.poisoned p), fun q => y.begun (x.begun q)⟩

theorem set {t : TxId} {x : TxnImpl} (flag : h.needsReopen = true → h'.needsReopen = true)
    (txns : h'.txns = Function.update h.txns t (some x))
    (ok : (∀ t x, h.txns t = some x → x.undo ≠ [] → x.begun = true) → x.undo ≠ [] → x.begun = true) :
    Settled h h' := by
  refine ⟨flag, fun all u y found => ?_⟩
  rw [txns] at found
  by_cases same : u = t
  · subst same
    rw [Function.update_self] at found
    cases found
    exact ok all
  · rw [Function.update_of_ne same] at found
    exact all u y found

theorem of_settles (settles : Settles (Unmoved h.store) h h') : Settled h h' := by
  obtain ⟨-, same⟩ := settles
  rw [same]
  exact of_same rfl rfl

theorem autocommit {op : TxId → M (Option Bytes)} {harmless : Status → Bool}
    {io : List (Option Fault)} {late : Option Late}
    (run : h.autocommit op harmless io late = some (r, h')) : Settled h h' := by
  unfold Handle.autocommit at run
  split at run
  · rename_i s done
    have stored : Settled h { h with store := s, nextTxid := h.nextTxid + 1 } := of_same rfl rfl
    exact stored.trans (of_settles (settles_finishWrite (unmoved_settling _) (.refl _) run))
  · obtain ⟨-, eq⟩ := Option.ite_none_right_eq_some.mp run
    cases eq
    exact ⟨fun poisoned => by simp [poisoned], fun begun => begun⟩
  · cases run

theorem txnWrite {t : TxId} {x : TxnImpl} {key : Bytes} {op : M (Option Bytes)}
    {harmless : Status → Bool} {io : List (Option Fault)}
    (run : h.txnWrite t x key op harmless io = some (r, h')) : Settled h h' := by
  unfold Handle.txnWrite at run
  dsimp only at run
  split at run
  · cases run
    exact set (fun poisoned => poisoned) rfl fun _ _ => rfl
  · split at run
    · cases run
      exact set (fun poisoned => poisoned) rfl fun _ _ => rfl
    · cases run
      exact set (fun _ => rfl) rfl fun _ _ => rfl
  · cases run

section

variable {t : TxId} {x : TxnImpl} (found : h.txns t = some x)

include found

theorem poison : Settled h (h.poison t x) :=
  set (fun _ => rfl) rfl fun begun => begun t x found

theorem ended : Settled h (h.ended t x) :=
  set (fun poisoned => poisoned) rfl fun begun => begun t x found

theorem commitBody {late : Option Late} (run : h.commitBody t x late = some (r, h')) :
    Settled h h' := by
  have logged : Settled h (h.logged t .commit) := of_same rfl rfl
  have marked : Settled h ((if x.begun then (h.logged t .commit).synced else h).ended t x) := by
    split
    · have flushed := of_settles (settles_synced (h := h.logged t .commit) (unmoved_settling _) (.refl _))
      exact (logged.trans flushed).trans (ended (by rw [synced_txns]; exact found))
    · exact ended found
  match late with
  | none => exact marked.trans (of_settles (settles_maybeAutoCheckpoint (unmoved_settling _) (.refl _) run))
  | some (.checkpoint f e) =>
    exact marked.trans (of_settles (settles_maybeAutoCheckpoint (unmoved_settling _) (.refl _) run))
  | some (.flush f e) =>
    obtain ⟨-, run⟩ := Option.ite_none_right_eq_some.mp run
    obtain ⟨g, fails, eq⟩ := Option.map_eq_some_iff.mp run
    cases eq
    obtain ⟨-, fails⟩ := Option.ite_none_right_eq_some.mp fails
    obtain ⟨s, -, rfl⟩ := Option.map_eq_some_iff.mp fails
    have stored : Settled h { h.logged t .commit with store := s } := of_same rfl rfl
    exact stored.trans (poison found)

theorem abortBody {io : List (Option Fault)} (run : h.abortBody t x io = some (r, h')) :
    Settled h h' := by
  unfold Handle.abortBody at run
  split at run
  · split at run
    · rename_i s done
      cases run
      have logged : Settled h ({ h with store := s }.logged t .abort) := of_same rfl rfl
      exact logged.trans (ended found)
    · cases run
      exact (poison found).trans (of_same rfl rfl)
    · cases run
  · cases run
    exact ended found

end

theorem onTxn {t : TxId} {body : TxnImpl → Option (Report × Handle)}
    (next : ∀ x, h.txns t = some x → body x = some (r, h') → Settled h h')
    (run : h.onTxn t body = some (r, h')) : Settled h h' := by
  unfold Handle.onTxn at run
  split at run
  · cases run
  · rename_i x found
    split at run
    · exact next x found run
    · cases run
      exact refl h

theorem locking {q : Request} {timedOut : Bool} {body : Handle → Option (Report × Handle)}
    (next : ∀ g, body g = some (r, h') → Settled g h')
    (run : h.locking q timedOut body = some (r, h')) : Settled h h' := by
  unfold Handle.locking at run
  split at run
  · have granted : Settled h { h with locks := h.locks.grant q } := of_same rfl rfl
    exact granted.trans (next _ run)
  · cases run
    exact refl h
  · obtain ⟨-, eq⟩ := Option.ite_none_right_eq_some.mp run
    cases eq
    exact refl h

/-- A call that saw the handle clean may still end on a poisoned one. -/
theorem perform {poisoned : Bool} {c : DbCall} (run : h.perform poisoned c = some (r, h')) :
    Settled h h' := by
  cases c with
  | put key value io late =>
    simp only [Handle.perform] at run
    split at run
    · cases run
      exact refl h
    · exact autocommit run
  | delete key io late =>
    simp only [Handle.perform] at run
    split at run
    · cases run
      exact refl h
    · exact autocommit run
  | sync fault =>
    cases fault with
    | none =>
      cases run
      exact of_same rfl rfl
    | some f =>
      obtain ⟨s, -, eq⟩ := Option.map_eq_some_iff.mp run
      cases eq
      exact of_same rfl rfl
  | checkpoint fault => exact of_settles (settles_checkpointLocked (unmoved_settling _) (.refl _) run)
  | begin retryOf =>
    simp only [Handle.perform] at run
    split at run
    · cases run
      exact refl h
    · cases run
      exact set (fun poisoned => poisoned) rfl fun _ writes => absurd rfl writes
  | txnGet t key timedOut =>
    refine onTxn (fun x _ => locking fun g run => ?_) run
    cases run
    exact refl _
  | txnPut t key value timedOut io => exact onTxn (fun x _ => locking fun g => txnWrite) run
  | txnDelete t key timedOut io => exact onTxn (fun x _ => locking fun g => txnWrite) run
  | commit t late => exact onTxn (fun x found => commitBody found) run
  | abort t io => exact onTxn (fun x found => abortBody found) run

end Settled

/- A late writer. -/

theorem Stopped.of_same {c : DbCall} {s : Status} (same : h'.store = h.store) :
    h.Stopped c (.failed s) h' :=
  ⟨by rw [same], by rw [same], nofun⟩

theorem checkpointLocked_poisoned {fault : Option (CheckpointFault × Status)}
    (poisoned : h.needsReopen = true) (run : h.checkpointLocked fault = some (r, h')) :
    r = .needsReopen ∧ h' = h := by
  cases fault with
  | none =>
    rw [checkpointLocked, if_pos poisoned] at run
    cases run
    exact ⟨rfl, rfl⟩
  | some f =>
    rw [checkpointLocked, if_pos poisoned] at run
    cases run

theorem maybeAutoCheckpoint_poisoned {fault : Option (CheckpointFault × Status)}
    (poisoned : h.needsReopen = true) (run : h.maybeAutoCheckpoint fault = some (r, h')) :
    h' = h := by
  unfold maybeAutoCheckpoint at run
  split at run
  · exact (checkpointLocked_poisoned poisoned run).2
  · obtain ⟨-, eq⟩ := Option.ite_none_right_eq_some.mp run
    cases eq
    rfl

theorem write_stopped {c : DbCall} {t : TxId} {key : Bytes} {timedOut : Bool}
    {body : TxnImpl → Handle → Option (Report × Handle)}
    (away : ((h.txns t).any fun x =>
      x.active && decide (h.locks.check ⟨t, x.priority, key, .exclusive⟩ = .grant)) = false)
    (run : (h.onTxn t fun x => h.locking ⟨t, x.priority, key, .exclusive⟩ timedOut (body x)) =
      some (r, h')) : h.Stopped c r h' := by
  unfold onTxn at run
  split at run
  · cases run
  · rename_i x found
    split at run
    · rename_i active
      dsimp only [locking] at run
      split at run
      · rename_i granted
        simp [found, active, granted] at away
      · cases run
        exact .of_same rfl
      · obtain ⟨-, eq⟩ := Option.ite_none_right_eq_some.mp run
        cases eq
        exact .of_same rfl
    · cases run
      exact .of_same rfl

theorem commit_stopped {t : TxId} {late : Option Late} (poisoned : h.needsReopen = true)
    (begun : ∀ t x, h.txns t = some x → x.undo ≠ [] → x.begun = true)
    (away : ((h.txns t).any fun x => x.active && x.begun) = false)
    (run : (h.onTxn t fun x => h.commitBody t x late) = some (r, h')) :
    h.Stopped (.commit t late) r h' := by
  unfold onTxn at run
  split at run
  · cases run
  · rename_i x found
    split at run
    · rename_i active
      have idle : x.begun = false := by simpa [found, active] using away
      have empty : x.undo = [] := by
        by_contra writes
        rw [begun t x found writes] at idle
        cases idle
      have still : (h.ended t x).needsReopen = true := poisoned
      have same : h'.store = h.store := by
        match late with
        | none =>
          simp only [commitBody, idle, Bool.false_eq_true, if_false] at run
          rw [maybeAutoCheckpoint_poisoned still run]
          rfl
        | some (.checkpoint f e) =>
          simp only [commitBody, idle, Bool.false_eq_true, if_false] at run
          rw [maybeAutoCheckpoint_poisoned still run]
          rfl
        | some (.flush f e) =>
          simp only [commitBody, idle, Bool.false_eq_true, if_false] at run
          cases run
      exact ⟨by rw [same], by rw [same], fun _ => by simp [DbCall.writes, found, empty]⟩
    · cases run
      exact .of_same rfl

theorem perform_stopped {c : DbCall} (poisoned : h.needsReopen = true)
    (begun : ∀ t x, h.txns t = some x → x.undo ≠ [] → x.begun = true)
    (away : c.slipsThrough h = false) (writer : c.writer = true)
    (run : h.perform true c = some (r, h')) : h.Stopped c r h' := by
  cases c with
  | put | delete | begin =>
    cases run
    exact .of_same rfl
  | checkpoint fault =>
    obtain ⟨rfl, rfl⟩ := checkpointLocked_poisoned poisoned run
    exact .of_same rfl
  | txnPut | txnDelete => exact write_stopped away run
  | commit => exact commit_stopped poisoned begun away run
  | sync | txnGet | abort => cases writer

end Handle

namespace Traffic

variable {s s' : Traffic}

/-- Only a poisoned handle has late calls, and transactions with writes have begun. -/
structure Ordered (s : Traffic) : Prop where
  late : ∀ i c, s.running i = some (c, true) → s.handle.needsReopen = true
  begun : ∀ t x, s.handle.txns t = some x → x.undo ≠ [] → x.begun = true

theorem Ordered.settled (ordered : s.Ordered) (settled : s.handle.Settled s'.handle)
    (fewer : ∀ i e, s'.running i = some e → s.running i = some e) : s'.Ordered :=
  ⟨fun i c late => settled.poisoned (ordered.late i c (fewer i _ late)), settled.begun ordered.begun⟩

theorem Ordered.next {ev : TrafficEvent} (ordered : s.Ordered) (step : s.next ev = some s') :
    s'.Ordered := by
  cases ev with
  | enter i c =>
    obtain ⟨-, eq⟩ := Option.ite_none_right_eq_some.mp step
    cases eq
    refine ⟨fun j d late => ?_, ordered.begun⟩
    by_cases same : j = i
    · subst same
      simp only [Function.update_self, Option.some.injEq, Prod.mk.injEq] at late
      exact late.2
    · simp only [Function.update_of_ne same] at late
      exact ordered.late j d late
  | finish i =>
    simp only [Traffic.next] at step
    split at step
    · obtain ⟨out, run, rfl⟩ := Option.map_eq_some_iff.mp step
      refine ordered.settled (.perform run) fun j e late => ?_
      by_cases same : j = i
      · subst same
        simp only [finished, Function.update_self, reduceCtorEq] at late
      · simpa only [finished, Function.update_of_ne same] using late
    · cases step
  | evict pid =>
    obtain ⟨h, run, rfl⟩ := Option.map_eq_some_iff.mp step
    obtain ⟨t, -, rfl⟩ := Option.map_eq_some_iff.mp run
    exact ordered.settled (.of_same rfl rfl) fun _ _ late => late
  | fetch pid io =>
    obtain ⟨h, run, rfl⟩ := Option.map_eq_some_iff.mp step
    simp only [Handle.next] at run
    split at run
    · cases run
      exact ordered.settled (.of_same rfl rfl) fun _ _ late => late
    · cases run

theorem Ordered.stops {ev : TrafficEvent} (ordered : s.Ordered) (away : s.turnsAway ev = true) :
    s.Stops ev := by
  cases ev with
  | finish i =>
    intro c r h' running writer run
    simp only [turnsAway, running, Bool.not_eq_true'] at away
    exact Handle.perform_stopped (ordered.late i c running) ordered.begun away writer run
  | _ => trivial

end Traffic

end PagerDB

import PagerDB.Txn.LockSafety
import PagerDB.Txn.WaitDie

/-! Who sleeps in `Acquire`, and who wakes it. The sleepers on `cv_` are kept apart from those that have been
notified and have yet to make another pass. -/
namespace PagerDB

open MachineLib

structure Sleepers where
  lm : LockManager
  asleep : List Request
  /-- Woken, on the way to another pass. -/
  signalled : List Request

inductive WaitEvent where
  | acquire (r : Request)
  /-- A call that was woken looks at the holders again. -/
  | pass (r : Request)
  /-- The condition variable wakes a sleeper for no reason. -/
  | spurious (r : Request)
  /-- The deadline has passed, whether the call was notified or not. -/
  | timeout (r : Request)
  | releaseAll (t : TxId)

namespace LockManager

variable {lm : LockManager} {r : Request}

def Barred (lm : LockManager) (r : Request) : Prop :=
  ∃ h ∈ lm.holders r.key, conflicts r.txid r.mode h.1 h.2.mode = true

theorem Barred.grant (barred : lm.Barred r) (q : Request) : (lm.grant q).Barred r := by
  obtain ⟨h, mem, conflict⟩ := barred
  unfold Barred
  rw [grant_holders]
  split
  · rename_i same
    rw [same] at mem
    obtain ⟨g, held, id, -, stays⟩ := granted_keeps (r := q) mem
    refine ⟨g, held, ?_⟩
    rw [id]
    exact LockState.conflicts_raise stays conflict
  · exact ⟨h, mem, conflict⟩

theorem barred_of_refused (refused : lm.check r ≠ .grant) : lm.Barred r := by
  by_contra free
  refine refused (check_grant.mpr fun h mem => ?_)
  by_contra conflict
  exact free ⟨h, mem, Bool.not_eq_false _ ▸ conflict⟩

end LockManager

namespace Sleepers

def initial : Sleepers := ⟨.empty, [], []⟩

def attempt (s : Sleepers) (r : Request) : Sleepers :=
  match s.lm.check r with
  | .grant => { s with lm := s.lm.grant r }
  | .die => s
  | .wait => { s with asleep := s.asleep ++ [r] }

/-- `ReleaseAll` returns before `notify_all` when the transaction has no locks. -/
def released (s : Sleepers) (t : TxId) : Sleepers :=
  match s.lm.held t with
  | none => s
  | some _ => ⟨s.lm.releaseAll t, [], s.signalled ++ s.asleep⟩

def step (s : Sleepers) : WaitEvent → Option Sleepers
  | .acquire r => some (s.attempt r)
  | .pass r => if r ∈ s.signalled then some ({ s with signalled := s.signalled.erase r }.attempt r) else none
  | .spurious r =>
    if r ∈ s.asleep then some { s with asleep := s.asleep.erase r, signalled := s.signalled ++ [r] } else none
  | .timeout r =>
    if r ∈ s.asleep then some { s with asleep := s.asleep.erase r }
    else if r ∈ s.signalled then some { s with signalled := s.signalled.erase r }
    else none
  | .releaseAll t => some (s.released t)

/-- Every sleeper has a holder in its way. -/
structure Attended (s : Sleepers) : Prop where
  table : s.lm.Consistent
  barred : ∀ r ∈ s.asleep, s.lm.Barred r

variable {s s' : Sleepers} {e : WaitEvent} {r : Request}

theorem Attended.attempt (attended : s.Attended) (r : Request) : (s.attempt r).Attended := by
  unfold Sleepers.attempt
  cases verdict : s.lm.check r with
  | grant => exact ⟨attended.table.grant verdict, fun q mem => (attended.barred q mem).grant r⟩
  | die => exact attended
  | wait =>
    have refused : s.lm.check r ≠ .grant := by
      rw [verdict]
      decide
    refine ⟨attended.table, List.forall_mem_append.mpr ⟨attended.barred, ?_⟩⟩
    exact List.forall_mem_singleton.mpr (LockManager.barred_of_refused refused)

theorem Attended.released (attended : s.Attended) (t : TxId) : (s.released t).Attended := by
  unfold Sleepers.released
  split
  · exact attended
  · exact ⟨attended.table.releaseAll t, List.forall_mem_nil _⟩

theorem Attended.step (attended : s.Attended) (next : s.step e = some s') : s'.Attended := by
  cases e with
  | acquire r =>
    obtain rfl := Option.some.inj next
    exact attended.attempt r
  | pass r =>
    obtain ⟨-, eq⟩ := Option.ite_none_right_eq_some.mp next
    obtain rfl := Option.some.inj eq
    have resumed : Attended { s with signalled := s.signalled.erase r } := ⟨attended.table, attended.barred⟩
    exact resumed.attempt r
  | spurious r =>
    obtain ⟨-, eq⟩ := Option.ite_none_right_eq_some.mp next
    obtain rfl := Option.some.inj eq
    exact ⟨attended.table, fun q mem => attended.barred q (List.mem_of_mem_erase mem)⟩
  | timeout r =>
    simp only [Sleepers.step] at next
    split at next
    · obtain rfl := Option.some.inj next
      exact ⟨attended.table, fun q mem => attended.barred q (List.mem_of_mem_erase mem)⟩
    · obtain ⟨-, eq⟩ := Option.ite_none_right_eq_some.mp next
      obtain rfl := Option.some.inj eq
      exact ⟨attended.table, attended.barred⟩
  | releaseAll t =>
    obtain rfl := Option.some.inj next
    exact attended.released t

theorem Attended.woken (attended : s.Attended) (mem : r ∈ s.asleep) :
    ∃ h ∈ s.lm.holders r.key, conflicts r.txid r.mode h.1 h.2.mode = true ∧
      r ∈ (s.released h.1).signalled := by
  obtain ⟨h, holds, conflict⟩ := attended.barred r mem
  refine ⟨h, holds, conflict, ?_⟩
  have keys : r.key ∈ s.lm.heldKeys h.1 := (attended.table.listed r.key h.1).mpr ⟨h, holds, rfl⟩
  unfold Sleepers.released
  split
  · rename_i none_
    rw [LockManager.heldKeys, none_] at keys
    cases keys
  · exact List.mem_append_right _ mem

/-- No wake-up is lost: whoever sleeps has a conflicting holder, and the release of that holder wakes it. -/
theorem sleepers_await_holders (events : List WaitEvent) :
    EveryState step (fun s => ∀ r ∈ s.asleep, s.lm.check r ≠ .grant ∧ ∃ h ∈ s.lm.holders r.key,
      conflicts r.txid r.mode h.1 h.2.mode = true ∧
        ∀ s', s.step (.releaseAll h.1) = some s' → r ∈ s'.signalled) initial events := by
  have start : initial.Attended := ⟨LockManager.empty_consistent, List.forall_mem_nil _⟩
  have always : EveryState step Attended initial events :=
    everyState_invariant (fun _ _ _ attended next => attended.step next) start
  refine always.imp fun s attended r mem => ?_
  obtain ⟨h, holds, conflict, wakes⟩ := attended.woken mem
  refine ⟨fun granted => ?_, h, holds, conflict, fun s' next => ?_⟩
  · cases conflict.symm.trans (LockManager.check_grant.mp granted h holds)
  · rw [← Option.some.inj next]
    exact wakes

/-- The reader of a key sleeps until its writer is done. -/
example : (run step initial [.acquire ⟨2, 2, [0], .exclusive⟩, .acquire ⟨1, 1, [0], .shared⟩]).map
    (fun s => (s.asleep.map Request.txid, (s.released 2).signalled.map Request.txid)) = some ([1], [1]) := by
  decide

end Sleepers

/- The eldest transaction. -/

namespace LockState

variable {s s' : LockState} {t p : TxId}

def Eldest (s : LockState) (t p : TxId) : Prop := (t, p) ∈ s.live ∧ ∀ l ∈ s.live, p ≤ l.2

theorem Eldest.spared (eldest : s.Eldest t p) (ok : s.Ok) (key : Bytes) (mode : LockMode) :
    s.lm.check ⟨t, p, key, mode⟩ ≠ .die := by
  intro dies
  have older : (scanHolders ⟨t, p, key, mode⟩ (s.lm.holders key)).2 = true := by
    simp only [LockManager.check] at dies
    split at dies
    · cases dies
    · split at dies
      · assumption
      · cases dies
  obtain ⟨h, mem, -, lt⟩ := (scanHolders_older _ _).mp older
  exact absurd (eldest.2 _ (ok.holders key h mem)) (not_le.mpr lt)

theorem live_attempt (s : LockState) (r : Request) : (s.attempt r).live = s.live := by
  unfold LockState.attempt
  cases s.lm.check r with
  | grant | die | wait => rfl

theorem Eldest.step {e : LockEvent} (eldest : s.Eldest t p) (younger : ∀ u q, e = .begin u q → p ≤ q)
    (alive : e ≠ .releaseAll t) (next : s.step e = some s') : s'.Eldest t p := by
  cases e with
  | begin u q =>
    obtain ⟨-, eq⟩ := Option.ite_none_left_eq_some.mp next
    obtain rfl := Option.some.inj eq
    exact ⟨List.mem_cons_of_mem _ eldest.1, List.forall_mem_cons.mpr ⟨younger u q rfl, eldest.2⟩⟩
  | acquire u key mode =>
    simp only [LockState.step] at next
    split at next
    · cases next
    · obtain ⟨-, eq⟩ := Option.ite_none_left_eq_some.mp next
      obtain rfl := Option.some.inj eq
      unfold Eldest
      rw [live_attempt]
      exact eldest
  | wake r =>
    obtain ⟨-, eq⟩ := Option.ite_none_right_eq_some.mp next
    obtain rfl := Option.some.inj eq
    unfold Eldest
    rw [live_attempt]
    exact eldest
  | timeout r =>
    obtain ⟨-, eq⟩ := Option.ite_none_right_eq_some.mp next
    obtain rfl := Option.some.inj eq
    exact eldest
  | releaseAll u =>
    obtain ⟨-, eq⟩ := Option.ite_none_left_eq_some.mp next
    obtain rfl := Option.some.inj eq
    refine ⟨List.mem_filter.mpr ⟨eldest.1, decide_eq_true fun same => alive (same ▸ rfl)⟩, fun l mem => ?_⟩
    exact eldest.2 l (List.mem_filter.mp mem).1

theorem eldest_never_dies (before rest : List LockEvent) (s : LockState)
    (reach : run step initial before = some s) (eldest : s.Eldest t p)
    (younger : ∀ u q, .begin u q ∈ rest → p ≤ q) (alive : .releaseAll t ∉ rest) :
    EveryState step (fun s' => ∀ key mode, s'.lm.check ⟨t, p, key, mode⟩ ≠ .die) s rest := by
  have ok : s.Ok := run_invariant (fun _ _ _ ok next => ok.step next) initial_ok reach
  clear reach
  induction rest generalizing s with
  | nil => exact eldest.spared ok
  | cons e rest ih =>
    refine ⟨eldest.spared ok, fun s' next => ?_⟩
    obtain ⟨other, later⟩ := not_or.mp (mt List.mem_cons.mpr alive)
    have here : ∀ u q, e = .begin u q → p ≤ q :=
      fun u q same => younger u q (List.mem_cons.mpr (.inl same.symm))
    exact ih s' (eldest.step here (Ne.symm other) next) (fun u q mem =>
      younger u q (List.mem_cons_of_mem _ mem)) later
      (ok.step next)

theorem elder_waits : ∃ s s', run step initial [.begin 1 1, .begin 2 2, .acquire 2 [0] .exclusive] = some s ∧
    run step s [.begin 3 3, .acquire 3 [0] .shared] = some s' ∧
      s'.lm.check ⟨1, 1, [0], .exclusive⟩ ≠ .die := by
  obtain ⟨s, reach, eldest⟩ : ∃ s, run step initial [.begin 1 1, .begin 2 2,
    .acquire 2 [0] .exclusive] = some s ∧
      s.Eldest 1 1 := ⟨_, rfl, .tail _ (.head _), by decide⟩
  obtain ⟨s', next⟩ : ∃ s', run step s [.begin 3 3, .acquire 3 [0] .shared] = some s' := by
    obtain rfl := Option.some.inj reach
    exact ⟨_, rfl⟩
  have spared := eldest_never_dies _ [.begin 3 3, .acquire 3 [0] .shared] s reach eldest (by simp) (by decide)
  exact ⟨s, s', reach, next, spared.last next [0] .exclusive⟩

end LockState

end PagerDB

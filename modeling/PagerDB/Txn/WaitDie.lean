import Mathlib.Data.List.Nodup
import PagerDB.Lib.Machine
import PagerDB.Txn.LockTable

/-! Transactions on the lock manager. Each has an age, distinct among the live ones,
and at most one call in flight. A blocked caller may be woken at any time, by a
release or for no reason, and then makes another pass; its wait may also time out. -/
namespace PagerDB

open MachineLib Relation

structure LockState where
  lm : LockManager
  live : List (TxId × TxId)
  waiting : List Request

inductive LockEvent where
  | begin (txid priority : TxId)
  | acquire (txid : TxId) (key : Bytes) (mode : LockMode)
  | wake (r : Request)
  | timeout (r : Request)
  | releaseAll (txid : TxId)
  deriving DecidableEq

namespace LockState

def initial : LockState := ⟨.empty, [], []⟩

def isWaiting (s : LockState) (t : TxId) : Bool := s.waiting.any fun r => r.txid = t

def attempt (s : LockState) (r : Request) : LockState :=
  match s.lm.check r with
  | .grant => { s with lm := s.lm.grant r }
  | .die => s
  | .wait => { s with waiting := s.waiting ++ [r] }

def woken (s : LockState) (r : Request) : LockState := { s with waiting := s.waiting.erase r }

def step (s : LockState) : LockEvent → Option LockState
  | .begin t p =>
    if s.live.any fun l => l.1 = t || l.2 = p then none else some { s with live := (t, p) :: s.live }
  | .acquire t key mode =>
    match s.live.lookup t with
    | none => none
    | some p => if s.isWaiting t then none else some (s.attempt ⟨t, p, key, mode⟩)
  | .wake r => if r ∈ s.waiting then some ((s.woken r).attempt r) else none
  | .timeout r => if r ∈ s.waiting then some (s.woken r) else none
  | .releaseAll t =>
    if s.isWaiting t then none
    else some { s with
      lm := s.lm.releaseAll t
      live := s.live.filter fun l => decide (l.1 ≠ t) }

/-- A blocked requester waits for every holder that conflicts with its request. -/
def WaitsFor (s : LockState) (a b : TxId) : Prop :=
  ∃ r ∈ s.waiting, r.txid = a ∧
    ∃ h ∈ s.lm.holders r.key, h.1 = b ∧ conflicts r.txid r.mode h.1 h.2.mode = true

def age (s : LockState) (t : TxId) : TxId := (s.live.lookup t).getD 0

def NoDeadlock (s : LockState) : Prop :=
  (∀ a b, s.WaitsFor a b → s.age a < s.age b) ∧ ∀ t, ¬ TransGen s.WaitsFor t t

def requested (s : LockState) : LockEvent → Option Request
  | .acquire t key mode => (s.live.lookup t).map fun p => ⟨t, p, key, mode⟩
  | .wake r => some r
  | _ => none

/-- When no holder of the key conflicts with the request, every other blocked
transaction whose pending request on the key does conflict is older. -/
def AdmitsNoElder (s : LockState) (e : LockEvent) : Prop :=
  ∀ r, s.requested e = some r →
    (∀ h ∈ s.lm.holders r.key, conflicts r.txid r.mode h.1 h.2.mode = false) →
    ∀ w ∈ s.waiting, w.key = r.key → conflicts w.txid w.mode r.txid r.mode = true →
      s.age w.txid < s.age r.txid

structure Ok (s : LockState) : Prop where
  table : s.lm.Consistent
  ids : (s.live.map Prod.fst).Nodup
  ages : (s.live.map Prod.snd).Nodup
  holders : ∀ key, ∀ h ∈ s.lm.holders key, (h.1, h.2.priority) ∈ s.live
  waiters : ∀ r ∈ s.waiting, (r.txid, r.priority) ∈ s.live
  single : (s.waiting.map Request.txid).Nodup

variable {s t : LockState} {r : Request}

theorem Ok.lookup (ok : s.Ok) {a p : TxId} (mem : (a, p) ∈ s.live) : s.live.lookup a = some p := by
  have ids := ok.ids
  revert mem ids
  generalize s.live = live
  intro mem ids
  induction live with
  | nil => cases mem
  | cons l rest ih =>
    obtain ⟨b, q⟩ := l
    simp only [List.map_cons, List.nodup_cons] at ids
    rw [List.lookup_cons]
    rcases List.mem_cons.mp mem with e | mem
    · cases e
      simp
    · have ne : a ≠ b := fun e => ids.1 (e ▸ List.mem_map_of_mem mem)
      rw [beq_eq_false_iff_ne.mpr ne]
      exact ih mem ids.2

theorem Ok.age_eq (ok : s.Ok) {a p : TxId} (mem : (a, p) ∈ s.live) : s.age a = p := by
  simp [age, ok.lookup mem]

theorem lookup_mem {live : List (TxId × TxId)} {a p : TxId} (h : live.lookup a = some p) :
    (a, p) ∈ live := by
  induction live with
  | nil => cases h
  | cons l rest ih =>
    rw [List.lookup_cons] at h
    by_cases e : a = l.1
    · rw [beq_iff_eq.mpr e] at h
      rw [e, ← Option.some.inj h]
      simp
    · rw [beq_eq_false_iff_ne.mpr e] at h
      exact List.mem_cons_of_mem _ (ih h)

theorem Ok.ages_inj (ok : s.Ok) {a b p : TxId} (ha : (a, p) ∈ s.live) (hb : (b, p) ∈ s.live) :
    a = b := by
  have := List.inj_on_of_nodup_map ok.ages ha hb rfl
  exact (Prod.mk.inj this).1

theorem not_isWaiting {t : TxId} (h : ¬ s.isWaiting t = true) : ∀ r ∈ s.waiting, r.txid ≠ t := by
  simpa [isWaiting] using h

/- Every step keeps the bookkeeping. -/

theorem Ok.attempt (ok : s.Ok) (live : (r.txid, r.priority) ∈ s.live)
    (idle : ∀ w ∈ s.waiting, w.txid ≠ r.txid) : (s.attempt r).Ok := by
  unfold LockState.attempt
  cases verdict : s.lm.check r with
  | grant =>
    refine ⟨ok.table.grant verdict, ok.ids, ok.ages, ?_, ok.waiters, ok.single⟩
    intro key h mem
    simp only [LockManager.grant_holders] at mem
    split at mem
    · rcases LockManager.mem_granted mem with old | ⟨id, -, new | ⟨o, mem, oid, prio⟩⟩
      · exact ok.holders _ h old
      · exact id ▸ new ▸ live
      · have := ok.holders _ o mem
        rwa [oid, prio, ← id] at this
    · exact ok.holders key h mem
  | die => exact ok
  | wait =>
    refine ⟨ok.table, ok.ids, ok.ages, ok.holders, ?_, ?_⟩
    · intro w mem
      rcases List.mem_append.mp mem with mem | mem
      · exact ok.waiters w mem
      · exact List.mem_singleton.mp mem ▸ live
    · rw [List.map_append, List.nodup_append]
      refine ⟨ok.single, by simp, fun a ha b hb => ?_⟩
      obtain ⟨w, mem, rfl⟩ := List.mem_map.mp ha
      simp only [List.map_cons, List.map_nil, List.mem_singleton] at hb
      exact hb ▸ idle w mem

theorem Ok.woken (ok : s.Ok) (r : Request) : (s.woken r).Ok :=
  ⟨ok.table, ok.ids, ok.ages, ok.holders, fun w mem => ok.waiters w (List.mem_of_mem_erase mem),
    ok.single.sublist (List.erase_sublist.map _)⟩

theorem Ok.woken_idle (ok : s.Ok) (mem : r ∈ s.waiting) :
    ∀ w ∈ (s.woken r).waiting, w.txid ≠ r.txid := by
  intro w hw e
  have nodup : s.waiting.Nodup := List.Nodup.of_map _ ok.single
  obtain ⟨ne, hw⟩ := (nodup.mem_erase_iff).mp hw
  exact ne (List.inj_on_of_nodup_map ok.single hw mem e)

theorem Ok.step (ok : s.Ok) {e : LockEvent} (h : s.step e = some t) : t.Ok := by
  cases e with
  | begin a p =>
    simp only [LockState.step] at h
    split at h
    · cases h
    · rename_i fresh
      obtain rfl := Option.some.inj h
      simp only [List.any_eq_true, Bool.or_eq_true, decide_eq_true_eq, not_exists, not_and, not_or] at fresh
      refine ⟨ok.table, ?_, ?_, ?_, ?_, ok.single⟩
      · simp only [List.map_cons, List.nodup_cons]
        refine ⟨fun mem => ?_, ok.ids⟩
        obtain ⟨l, hl, e⟩ := List.mem_map.mp mem
        exact (fresh l hl).1 e
      · simp only [List.map_cons, List.nodup_cons]
        refine ⟨fun mem => ?_, ok.ages⟩
        obtain ⟨l, hl, e⟩ := List.mem_map.mp mem
        exact (fresh l hl).2 e
      · exact fun key x mem => List.mem_cons_of_mem _ (ok.holders key x mem)
      · exact fun w mem => List.mem_cons_of_mem _ (ok.waiters w mem)
  | acquire a key mode =>
    simp only [LockState.step] at h
    split at h
    · cases h
    · rename_i p found
      split at h
      · cases h
      · rename_i idle
        obtain rfl := Option.some.inj h
        exact ok.attempt (lookup_mem found) (not_isWaiting idle)
  | wake w =>
    simp only [LockState.step] at h
    split at h
    · rename_i mem
      obtain rfl := Option.some.inj h
      exact (ok.woken w).attempt (ok.waiters w mem) (ok.woken_idle mem)
    · cases h
  | timeout w =>
    simp only [LockState.step] at h
    split at h
    · obtain rfl := Option.some.inj h
      exact ok.woken w
    · cases h
  | releaseAll a =>
    simp only [LockState.step] at h
    split at h
    · cases h
    · rename_i idle
      obtain rfl := Option.some.inj h
      refine ⟨ok.table.releaseAll a, ok.ids.sublist (List.filter_sublist.map _),
        ok.ages.sublist (List.filter_sublist.map _), ?_, ?_, ok.single⟩
      · intro key x mem
        rw [ok.table.releaseAll_holders] at mem
        obtain ⟨mem, ne⟩ := List.mem_filter.mp mem
        exact List.mem_filter.mpr ⟨ok.holders key x mem, ne⟩
      · intro w mem
        exact List.mem_filter.mpr ⟨ok.waiters w mem, by simpa using not_isWaiting idle w mem⟩

theorem initial_ok : initial.Ok where
  table := LockManager.empty_consistent
  ids := List.nodup_nil
  ages := List.nodup_nil
  holders key h mem := by simp [initial, LockManager.empty, LockManager.holders] at mem
  waiters r mem := by cases mem
  single := List.nodup_nil

/- Waiting for younger transactions only. -/

def Younger (s : LockState) : Prop :=
  ∀ r ∈ s.waiting, ∀ h ∈ s.lm.holders r.key, conflicts r.txid r.mode h.1 h.2.mode = true →
    r.priority < h.2.priority

theorem noDeadlock_iff (ok : s.Ok) : s.NoDeadlock ↔ s.Younger := by
  constructor
  · rintro ⟨younger, -⟩ r mem h held conflict
    have := younger r.txid h.1 ⟨r, mem, rfl, h, held, rfl, conflict⟩
    rwa [ok.age_eq (ok.waiters r mem), ok.age_eq (ok.holders _ h held)] at this
  · intro younger
    have edges : ∀ a b, s.WaitsFor a b → s.age a < s.age b := by
      rintro a b ⟨r, mem, rfl, h, held, rfl, conflict⟩
      rw [ok.age_eq (ok.waiters r mem), ok.age_eq (ok.holders _ h held)]
      exact younger r mem h held conflict
    have paths : ∀ a b, TransGen s.WaitsFor a b → s.age a < s.age b := by
      intro a b path
      induction path with
      | single edge => exact edges _ _ edge
      | tail _ edge ih => exact ih.trans (edges _ _ edge)
    exact ⟨edges, fun a cycle => absurd (paths a a cycle) (lt_irrefl _)⟩

theorem conflicts_raise {a b : TxId} {m n n' : LockMode} (raise : n = .exclusive → n' = .exclusive)
    (h : conflicts a m b n = true) : conflicts a m b n' = true := by
  unfold conflicts at h ⊢
  split at h
  · cases h
  · rename_i ne
    rw [if_neg ne]
    simp only [Bool.or_eq_true, decide_eq_true_eq] at h ⊢
    exact h.imp id raise

theorem Younger.attempt (ok : s.Ok) (young : s.Younger) (live : (r.txid, r.priority) ∈ s.live)
    (admits : s.lm.check r = .grant → ∀ w ∈ s.waiting, w.key = r.key →
      conflicts w.txid w.mode r.txid r.mode = true → w.priority < r.priority) :
    (s.attempt r).Younger := by
  unfold LockState.attempt
  cases verdict : s.lm.check r with
  | grant =>
    intro w mem h held conflict
    simp only [LockManager.grant_holders] at held
    split at held
    · rename_i same
      rcases LockManager.mem_granted held with old | ⟨id, mode, prio⟩
      · exact young w mem h (same ▸ old) conflict
      · have : h.2.priority = r.priority := by
          rcases prio with e | ⟨o, mem, oid, e⟩
          · exact e
          · have live' := ok.holders _ o mem
            rw [oid] at live'
            exact e ▸ Option.some.inj ((ok.lookup live').symm.trans (ok.lookup live))
        rw [this]
        exact admits verdict w mem same (id ▸ mode ▸ conflict)
    · exact young w mem h held conflict
  | die => exact young
  | wait =>
    intro w mem h held conflict
    rcases List.mem_append.mp mem with mem | mem
    · exact young w mem h held conflict
    · obtain rfl := List.mem_singleton.mp mem
      refine lt_of_le_of_ne (LockManager.check_wait verdict h held conflict) fun e => ?_
      have same := ok.ages_inj live (e ▸ ok.holders _ h held)
      simp [conflicts, same] at conflict

theorem Younger.woken (young : s.Younger) (r : Request) : (s.woken r).Younger :=
  fun w mem => young w (List.mem_of_mem_erase mem)

theorem step_younger (ok : s.Ok) (young : s.Younger) {e : LockEvent} (admits : s.AdmitsNoElder e)
    (h : s.step e = some t) : t.Younger := by
  cases e with
  | begin a p =>
    simp only [LockState.step] at h
    split at h
    · cases h
    · obtain rfl := Option.some.inj h
      exact young
  | acquire a key mode =>
    simp only [LockState.step] at h
    split at h
    · cases h
    · rename_i p found
      split at h
      · cases h
      · obtain rfl := Option.some.inj h
        have live : (a, p) ∈ s.live := lookup_mem found
        refine young.attempt ok live fun granted w mem same conflict => ?_
        have := admits ⟨a, p, key, mode⟩ (by simp [requested, found])
          (LockManager.check_grant.mp granted) w mem same conflict
        rwa [ok.age_eq (ok.waiters w mem), ok.age_eq live] at this
  | wake r =>
    simp only [LockState.step] at h
    split at h
    · rename_i pending
      obtain rfl := Option.some.inj h
      have live := ok.waiters r pending
      refine (young.woken r).attempt (ok.woken r) live fun granted w mem same conflict => ?_
      have mem := List.mem_of_mem_erase mem
      have := admits r rfl (LockManager.check_grant.mp granted) w mem same conflict
      rwa [ok.age_eq (ok.waiters w mem), ok.age_eq live] at this
    · cases h
  | timeout r =>
    simp only [LockState.step] at h
    split at h
    · obtain rfl := Option.some.inj h
      exact young.woken r
    · cases h
  | releaseAll a =>
    simp only [LockState.step] at h
    split at h
    · cases h
    · obtain rfl := Option.some.inj h
      intro w mem x held conflict
      simp only [ok.table.releaseAll_holders] at held
      exact young w mem x (List.mem_filter.mp held).1 conflict

theorem attempt_elder (ok : s.Ok) (live : (r.txid, r.priority) ∈ s.live)
    (after : (s.attempt r).Younger) (granted : s.lm.check r = .grant) {w : Request}
    (mem : w ∈ s.waiting) (same : w.key = r.key)
    (conflict : conflicts w.txid w.mode r.txid r.mode = true) : w.priority < r.priority := by
  have eq : s.attempt r = { s with lm := s.lm.grant r } := by simp only [LockState.attempt, granted]
  rw [eq] at after
  obtain ⟨g, held, id, raise⟩ := LockManager.granted_holds r (s.lm.holders r.key)
  have young := after w mem g (by simpa only [LockManager.grant_holders, if_pos same] using held)
    (id ▸ conflicts_raise raise conflict)
  rcases LockManager.mem_granted held with old | ⟨-, -, e | ⟨o, mem, oid, e⟩⟩
  · have live' := ok.holders _ g old
    rw [id] at live'
    rwa [Option.some.inj ((ok.lookup live').symm.trans (ok.lookup live))] at young
  · rwa [e] at young
  · have live' := ok.holders _ o mem
    rw [oid, e] at live'
    rwa [Option.some.inj ((ok.lookup live').symm.trans (ok.lookup live))] at young

theorem step_admits (ok : s.Ok) {e : LockEvent} (h : s.step e = some t) (after : t.Younger) :
    s.AdmitsNoElder e := by
  intro r req free w mem same conflict
  cases e with
  | begin a p => cases req
  | acquire a key mode =>
    simp only [LockState.step] at h
    split at h
    · cases h
    · rename_i p found
      split at h
      · cases h
      · obtain rfl := Option.some.inj h
        simp only [requested, found, Option.map_some, Option.some.injEq] at req
        subst req
        have live : (a, p) ∈ s.live := lookup_mem found
        rw [ok.age_eq (ok.waiters w mem), ok.age_eq live]
        exact attempt_elder ok live after (LockManager.check_grant.mpr free) mem same conflict
  | wake q =>
    simp only [LockState.step] at h
    split at h
    · rename_i pending
      obtain rfl := Option.some.inj h
      obtain rfl := Option.some.inj req
      have live := ok.waiters q pending
      have ne : w ≠ q := fun e => by simp [conflicts, e] at conflict
      rw [ok.age_eq (ok.waiters w mem), ok.age_eq live]
      exact attempt_elder (ok.woken q) live after (LockManager.check_grant.mpr free)
        ((List.mem_erase_of_ne ne).mpr mem) same conflict
    · cases h
  | timeout q => cases req
  | releaseAll a => cases req

/-- In a run from the empty table no state has a deadlock, or a wait for an elder,
exactly when no step grants a lock past a blocked younger transaction that conflicts. -/
theorem no_deadlock_iff_admits_no_elder (events : List LockEvent) :
    EveryState step NoDeadlock initial events ↔ EveryStep step AdmitsNoElder initial events := by
  constructor
  · intro good
    refine everyStep_of_state (I := Ok) (P := NoDeadlock) (fun s e t ok h => ok.step h) ?_
      initial_ok good
    intro s e t ok h after
    exact step_admits ok h ((noDeadlock_iff (ok.step h)).mp after)
  · intro cond
    have both := everyState_of_step (I := fun s => s.Ok ∧ s.Younger)
      (fun s e t inv admits h => ⟨inv.1.step h, step_younger inv.1 inv.2 admits h⟩)
      (s := initial) ⟨initial_ok, fun r mem => by cases mem⟩ cond
    exact both.imp fun t inv => (noDeadlock_iff inv.1).mpr inv.2

/-- Transaction 5 blocks for an exclusive lock behind the shared lock of the younger 9.
The older 3 then joins 9 in shared mode and blocks on what 5 holds. -/
def overtaking : List LockEvent :=
  [.begin 3 3, .begin 5 5, .begin 9 9, .acquire 5 [1] .exclusive, .acquire 9 [0] .shared,
    .acquire 5 [0] .exclusive, .acquire 3 [0] .shared, .acquire 3 [1] .exclusive]

theorem overtaking_deadlocks :
    (∃ s, run step initial overtaking = some s ∧ TransGen s.WaitsFor 3 3) ∧
      ¬ EveryState step NoDeadlock initial overtaking := by
  have cycle : ∃ s, run step initial overtaking = some s ∧ TransGen s.WaitsFor 3 3 := by
    refine ⟨_, rfl, .tail (b := 5) (.single ?_) ?_⟩
    · exact ⟨⟨3, 3, [1], .exclusive⟩, by decide, rfl, (5, ⟨.exclusive, 5⟩), by decide, rfl, rfl⟩
    · exact ⟨⟨5, 5, [0], .exclusive⟩, by decide, rfl, (3, ⟨.shared, 3⟩), by decide, rfl, rfl⟩
  obtain ⟨s, end_, path⟩ := cycle
  exact ⟨⟨s, end_, path⟩, fun good => (good.last end_).2 3 path⟩

end LockState

end PagerDB

import Mathlib.Data.List.Nodup
import PagerDB.Lib.Machine
import PagerDB.Txn.LockTable

/-! The lock table under any calls: several threads may ask for one transaction, under any priority and for
any key again, and a release may come while its transaction waits. What is granted lasts until the release. -/
namespace PagerDB

open MachineLib

namespace LockManager

variable {lm : LockManager} {r : Request} {t : TxId} {key : Bytes} {mode : LockMode}

def Has (lm : LockManager) (t : TxId) (key : Bytes) (mode : LockMode) : Prop :=
  ∃ h ∈ lm.holders key, h.1 = t ∧ (mode = .exclusive → h.2.mode = .exclusive)

structure Safe (lm : LockManager) : Prop where
  modes : ∀ key, (∃ t p, lm.holders key = [(t, ⟨.exclusive, p⟩)]) ∨ ∀ h ∈ lm.holders key, h.2.mode = .shared
  unique : ∀ key, ((lm.holders key).map Prod.fst).Nodup
  inhabited : ∀ key, lm.table key ≠ some []
  listed : ∀ t key, key ∈ lm.heldKeys t ↔ ∃ h ∈ lm.holders key, h.1 = t
  nodup : ∀ t, (lm.heldKeys t).Nodup

theorem Consistent.modes (ok : lm.Consistent) (key : Bytes) :
    (∃ t p, lm.holders key = [(t, ⟨.exclusive, p⟩)]) ∨ ∀ h ∈ lm.holders key, h.2.mode = .shared := by
  by_cases shared : ∀ h ∈ lm.holders key, h.2.mode = .shared
  · exact .inr shared
  · simp only [not_forall] at shared
    obtain ⟨⟨t, mode, p⟩, mem, exclusive⟩ := shared
    have mode_eq : mode = .exclusive := by
      cases mode with
      | shared => exact absurd rfl exclusive
      | exclusive => rfl
    subst mode_eq
    have same : ∀ h ∈ lm.holders key, h = (t, ⟨.exclusive, p⟩) := by
      intro h held
      have id : h.1 = t := by
        by_contra other
        have clash := ok.compatible key h held _ mem
        simp [conflicts, Ne.symm other] at clash
      exact List.inj_on_of_nodup_map (ok.unique key) held mem id
    have once : (lm.holders key).Nodup := List.Nodup.of_map _ (ok.unique key)
    refine .inl ⟨t, p, ?_⟩
    exact List.perm_singleton.mp ((List.perm_ext_iff_of_nodup once (List.nodup_singleton _)).mpr fun h =>
      ⟨fun held => List.mem_singleton.mpr (same h held), fun here => List.mem_singleton.mp here ▸ mem⟩)

theorem Consistent.safe (ok : lm.Consistent) : lm.Safe :=
  ⟨ok.modes, ok.unique, ok.inhabited, fun t key => ok.listed key t, ok.nodup⟩

theorem Has.grant (holds : lm.Has t key mode) (r : Request) : (lm.grant r).Has t key mode := by
  obtain ⟨h, mem, id, raised⟩ := holds
  unfold Has
  rw [grant_holders]
  split
  · rename_i same
    rw [same] at mem
    obtain ⟨g, held, id', -, stays⟩ := granted_keeps (r := r) mem
    exact ⟨g, held, id'.trans id, fun exclusive => stays (raised exclusive)⟩
  · exact ⟨h, mem, id, raised⟩

theorem grant_has (lm : LockManager) (r : Request) : (lm.grant r).Has r.txid r.key r.mode := by
  unfold Has
  rw [grant_holders, if_pos rfl]
  exact granted_holds r (lm.holders r.key)

theorem Has.releaseAll {u : TxId} (ok : lm.Consistent) (holds : lm.Has t key mode) (other : t ≠ u) :
    (lm.releaseAll u).Has t key mode := by
  obtain ⟨h, mem, rfl, raised⟩ := holds
  refine ⟨h, ?_, rfl, raised⟩
  rw [ok.releaseAll_holders]
  exact List.mem_filter.mpr ⟨mem, decide_eq_true other⟩

end LockManager

/- Calls. -/

structure Lockers where
  lm : LockManager
  blocked : List Request

inductive LockCall where
  | acquire (r : Request)
  | wake (r : Request)
  | timeout (r : Request)
  | releaseAll (t : TxId)

namespace LockCall

def pass : LockCall → Option Request
  | acquire r | wake r => some r
  | _ => none

end LockCall

namespace Lockers

def initial : Lockers := ⟨.empty, []⟩

def woken (s : Lockers) (r : Request) : Lockers := { s with blocked := s.blocked.erase r }

def attempt (s : Lockers) (r : Request) : Lockers :=
  match s.lm.check r with
  | .grant => { s with lm := s.lm.grant r }
  | .die => s
  | .wait => { s with blocked := s.blocked ++ [r] }

def step (s : Lockers) : LockCall → Option Lockers
  | .acquire r => some (s.attempt r)
  | .wake r => if r ∈ s.blocked then some ((s.woken r).attempt r) else none
  | .timeout r => if r ∈ s.blocked then some (s.woken r) else none
  | .releaseAll t => some { s with lm := s.lm.releaseAll t }

structure Changes (s : Lockers) (c : LockCall) (s' : Lockers) : Prop where
  kept : ∀ t key mode, c ≠ .releaseAll t → s.lm.Has t key mode → s'.lm.Has t key mode
  granted : ∀ r, c.pass = some r → s.lm.check r = .grant → s'.lm.Has r.txid r.key r.mode
  denied : ∀ r, c.pass = some r → s.lm.check r ≠ .grant → s'.lm = s.lm
  timedOut : ∀ r, c = .timeout r → s'.lm = s.lm
  released : ∀ t, c = .releaseAll t →
    (∀ key, s'.lm.holders key = (s.lm.holders key).filter fun h => decide (h.1 ≠ t)) ∧
    ∀ u, s'.lm.heldKeys u = if u = t then [] else s.lm.heldKeys u

/-- Whatever is held is held at least as strongly until the release. -/
def Lasting (s : Lockers) (rest : List LockCall) : Prop :=
  ∀ t key mode, s.lm.Has t key mode → .releaseAll t ∉ rest →
    EveryState step (fun s' => s'.lm.Has t key mode) s rest

variable {s s' : Lockers} {c : LockCall} {r : Request}

theorem attempt_cases (s : Lockers) (r : Request) :
    s.lm.check r = .grant ∧ (s.attempt r).lm = s.lm.grant r ∨
      s.lm.check r ≠ .grant ∧ (s.attempt r).lm = s.lm := by
  unfold attempt
  cases verdict : s.lm.check r with
  | grant => exact .inl ⟨rfl, rfl⟩
  | die => exact .inr ⟨nofun, rfl⟩
  | wait => exact .inr ⟨nofun, rfl⟩

theorem step_cases (next : s.step c = some s') :
    (∃ r, c.pass = some r ∧ (s.lm.check r = .grant ∧ s'.lm = s.lm.grant r ∨
      s.lm.check r ≠ .grant ∧ s'.lm = s.lm)) ∨
    (∃ r, c = .timeout r ∧ s'.lm = s.lm) ∨ ∃ t, c = .releaseAll t ∧ s'.lm = s.lm.releaseAll t := by
  cases c with
  | acquire r =>
    obtain rfl := Option.some.inj next
    exact .inl ⟨r, rfl, s.attempt_cases r⟩
  | wake r =>
    obtain ⟨-, eq⟩ := Option.ite_none_right_eq_some.mp next
    obtain rfl := Option.some.inj eq
    exact .inl ⟨r, rfl, (s.woken r).attempt_cases r⟩
  | timeout r =>
    obtain ⟨-, eq⟩ := Option.ite_none_right_eq_some.mp next
    obtain rfl := Option.some.inj eq
    exact .inr (.inl ⟨r, rfl, rfl⟩)
  | releaseAll t =>
    obtain rfl := Option.some.inj next
    exact .inr (.inr ⟨t, rfl, rfl⟩)

theorem step_consistent (ok : s.lm.Consistent) (next : s.step c = some s') : s'.lm.Consistent := by
  rcases step_cases next with ⟨r, -, ⟨free, eq⟩ | ⟨-, eq⟩⟩ | ⟨r, -, eq⟩ | ⟨t, -, eq⟩
  · rw [eq]
    exact ok.grant free
  · rw [eq]
    exact ok
  · rw [eq]
    exact ok
  · rw [eq]
    exact ok.releaseAll t

theorem step_holds {t : TxId} {key : Bytes} {mode : LockMode} (ok : s.lm.Consistent)
    (holds : s.lm.Has t key mode) (kept : c ≠ .releaseAll t) (next : s.step c = some s') :
    s'.lm.Has t key mode := by
  rcases step_cases next with ⟨r, -, ⟨-, eq⟩ | ⟨-, eq⟩⟩ | ⟨r, -, eq⟩ | ⟨u, rfl, eq⟩
  · rw [eq]
    exact holds.grant r
  · rw [eq]
    exact holds
  · rw [eq]
    exact holds
  · rw [eq]
    exact holds.releaseAll ok fun same => kept (same ▸ rfl)

theorem step_changes (ok : s.lm.Consistent) (next : s.step c = some s') : Changes s c s' := by
  refine ⟨fun t key mode kept holds => step_holds ok holds kept next, ?_, ?_, ?_, ?_⟩
  all_goals
    rcases step_cases next with ⟨r, pass, verdict⟩ | ⟨r, rfl, eq⟩ | ⟨t, rfl, eq⟩
  · rintro q pass' free
    obtain rfl := Option.some.inj (pass.symm.trans pass')
    rcases verdict with ⟨-, eq⟩ | ⟨refused, -⟩
    · rw [eq]
      exact LockManager.grant_has s.lm r
    · exact absurd free refused
  · nofun
  · nofun
  · rintro q pass' refused
    obtain rfl := Option.some.inj (pass.symm.trans pass')
    rcases verdict with ⟨free, -⟩ | ⟨-, eq⟩
    · exact absurd free refused
    · exact eq
  · nofun
  · nofun
  · rintro q rfl
    cases pass
  · exact fun _ _ => eq
  · nofun
  · rintro t rfl
    cases pass
  · nofun
  · rintro u ⟨⟩
    rw [eq]
    exact ⟨ok.releaseAll_holders t, LockManager.releaseAll_heldKeys s.lm t⟩

theorem lasting (ok : s.lm.Consistent) (rest : List LockCall) : s.Lasting rest := by
  intro t key mode holds kept
  induction rest generalizing s with
  | nil => exact holds
  | cons c rest ih =>
    obtain ⟨other, later⟩ := not_or.mp (mt List.mem_cons.mpr kept)
    exact ⟨holds, fun s' next => ih (step_consistent ok next)
      (step_holds ok holds (Ne.symm other) next) later⟩

/-- Every call changes the table as it says, keys have one exclusive holder or shared ones, the two tables
agree, and a mode lasts until its transaction is released. -/
theorem lock_table_safe (calls rest : List LockCall) :
    EveryState step (fun s => s.lm.Safe ∧ s.Lasting rest ∧ ∀ c s', s.step c = some s' → Changes s c s')
      initial calls := by
  have always : EveryState step (fun s => s.lm.Consistent) initial calls :=
    everyState_invariant (fun _ _ _ ok next => step_consistent ok next) LockManager.empty_consistent
  exact always.imp fun s ok => ⟨ok.safe, lasting ok rest, fun c s' next => step_changes ok next⟩

/-- An upgrade is entered in place. -/
example : (run step initial [.acquire ⟨1, 1, [0], .shared⟩, .acquire ⟨1, 1, [0], .exclusive⟩]).map
    (fun s => (s.lm.holders [0], s.lm.heldKeys 1)) = some ([(1, ⟨.exclusive, 1⟩)], [[0]]) := by
  decide

end Lockers

end PagerDB

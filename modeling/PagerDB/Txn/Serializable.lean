import PagerDB.Txn.Transaction

/-! Committed transactions are serializable in commit order. The handle is read as a
strictly locked map: locks from the lock table, the current map from the tree, the
committed map from the serial run of what committed. -/
namespace PagerDB

open MachineLib StrictLocking Store

/- Locks. -/

namespace LockManager

variable {lm : LockManager} {r : Request} {t u : TxId} {k : Bytes}

def Holds (lm : LockManager) (t : TxId) (k : Bytes) : Prop := ∃ h ∈ lm.holders k, h.1 = t

def Owns (lm : LockManager) (t : TxId) (k : Bytes) : Prop :=
  ∃ h ∈ lm.holders k, h.1 = t ∧ h.2.mode = .exclusive

theorem grant_holds : (lm.grant r).Holds u k ↔ lm.Holds u k ∨ u = r.txid ∧ k = r.key := by
  unfold Holds
  rw [grant_holders]
  by_cases e : k = r.key
  · subst e
    rw [if_pos rfl]
    constructor
    · rintro ⟨h, mem, rfl⟩
      rcases mem_granted mem with old | ⟨new, -⟩
      · exact .inl ⟨h, old, rfl⟩
      · exact .inr ⟨new, rfl⟩
    · rintro (⟨h, mem, rfl⟩ | ⟨rfl, -⟩)
      · obtain ⟨g, hg, eq, -⟩ := granted_keeps mem
        exact ⟨g, hg, eq⟩
      · obtain ⟨g, hg, eq, -⟩ := granted_holds r (lm.holders r.key)
        exact ⟨g, hg, eq⟩
  · rw [if_neg e]
    simp [e]

theorem grant_owns : (lm.grant r).Owns u k ↔
    lm.Owns u k ∨ r.mode = .exclusive ∧ u = r.txid ∧ k = r.key := by
  unfold Owns
  rw [grant_holders]
  by_cases e : k = r.key
  · subst e
    rw [if_pos rfl]
    constructor
    · rintro ⟨h, mem, rfl, mode⟩
      rcases mem_granted mem with old | ⟨new, raised, -⟩
      · exact .inl ⟨h, old, rfl, mode⟩
      · exact .inr ⟨raised.symm.trans mode, new, rfl⟩
    · rintro (⟨h, mem, rfl, mode⟩ | ⟨mode, rfl, -⟩)
      · obtain ⟨g, hg, eq, -, keeps⟩ := granted_keeps mem
        exact ⟨g, hg, eq, keeps mode⟩
      · obtain ⟨g, hg, eq, raised⟩ := granted_holds r (lm.holders r.key)
        exact ⟨g, hg, eq, raised mode⟩
  · rw [if_neg e]
    simp [e]

theorem Consistent.release_holds (ok : lm.Consistent) :
    (lm.releaseAll t).Holds u k ↔ lm.Holds u k ∧ u ≠ t := by
  unfold Holds
  rw [ok.releaseAll_holders]
  constructor
  · rintro ⟨h, mem, rfl⟩
    obtain ⟨old, other⟩ := List.mem_filter.mp mem
    exact ⟨⟨h, old, rfl⟩, by simpa using other⟩
  · rintro ⟨⟨h, mem, rfl⟩, other⟩
    exact ⟨h, List.mem_filter.mpr ⟨mem, by simpa using other⟩, rfl⟩

theorem Consistent.release_owns (ok : lm.Consistent) :
    (lm.releaseAll t).Owns u k ↔ lm.Owns u k ∧ u ≠ t := by
  unfold Owns
  rw [ok.releaseAll_holders]
  constructor
  · rintro ⟨h, mem, rfl, mode⟩
    obtain ⟨old, other⟩ := List.mem_filter.mp mem
    exact ⟨⟨h, old, rfl, mode⟩, by simpa using other⟩
  · rintro ⟨⟨h, mem, rfl, mode⟩, other⟩
    exact ⟨h, List.mem_filter.mpr ⟨mem, by simpa using other⟩, rfl, mode⟩

theorem grant_noOwner (free : lm.check r = .grant) (owner : lm.Owns u r.key) : u = r.txid := by
  obtain ⟨h, mem, rfl, mode⟩ := owner
  by_contra other
  have := check_grant.mp free h mem
  simp [conflicts, other, mode] at this

theorem grant_noHolder (free : lm.check r = .grant) (mode : r.mode = .exclusive)
    (holder : lm.Holds u r.key) : u = r.txid := by
  obtain ⟨h, mem, rfl⟩ := holder
  by_contra other
  have := check_grant.mp free h mem
  simp [conflicts, other, mode] at this

end LockManager

/- Tree operations on the map. -/

section Map

variable {s s' : Store} {m : RefMap} {key value : Bytes} {txid : TxId}

theorem Models.facing (models : Models s m) (io : List (Option Fault)) : Models (s.facing io) m := by
  obtain ⟨entries, rep, agree⟩ := models
  exact ⟨entries, rep.facing io, agree⟩

theorem Models.same (models : Models s m) (same : Same s s') : Models s' m := by
  obtain ⟨entries, rep, agree⟩ := models
  exact ⟨entries, rep.same same, agree⟩

theorem Models.put {wantBefore : Bool} {before : Option Bytes} (models : Models s m)
    (run : treePut key value txid wantBefore s = .ok before s') :
    before = (if wantBefore then m key else none) ∧
      Models s' (Function.update m key (some value)) := by
  obtain ⟨entries, rep, agree⟩ := models
  obtain ⟨eq, entries', rep', put⟩ := treePut_ok rep run
  refine ⟨by rw [eq, agree], entries', rep', fun k => ?_⟩
  rw [put k, Function.update_apply, agree]

theorem Models.delete {wantBefore : Bool} {before : Option Bytes} (models : Models s m)
    (run : treeDelete key txid wantBefore s = .ok before s') :
    (m key).isSome ∧ before = (if wantBefore then m key else none) ∧
      Models s' (Function.update m key none) := by
  obtain ⟨entries, rep, agree⟩ := models
  have removal := treeDelete_removal rep key txid wantBefore
  rw [run] at removal
  cases removal with
  | removed look after erased =>
    rw [agree] at look
    refine ⟨by simp [look], by rw [look], _, after, fun k => ?_⟩
    rw [erased k, Function.update_apply, agree]

theorem Models.delete_absent {wantBefore : Bool} {e : Failure} (models : Models s m)
    (run : treeDelete key txid wantBefore s = .error e s') (notFound : isNotFound e = true) :
    m key = none ∧ Models s' m := by
  obtain ⟨entries, rep, agree⟩ := models
  have removal := treeDelete_removal rep key txid wantBefore
  rw [run] at removal
  cases removal with
  | absent look same _ =>
    rw [agree] at look
    exact ⟨look, entries, rep.same same, agree⟩
  | fault foreign _ =>
    rw [foreign] at notFound
    cases notFound

theorem onlyIf_same {c : Bool} {x : M Unit} {u : Unit}
    (keeps : ∀ s s' u, x s = .ok u s' → Same s s') (run : onlyIf c x s = .ok u s') : Same s s' := by
  rcases onlyIf_ok.mp run with ⟨-, run⟩ | ⟨-, rfl⟩
  · exact keeps s s' u run
  · exact Same.refl s

theorem ensureBegun_same {begun : Bool} {u : Unit} (run : ensureBegun txid begun s = .ok u s') :
    Same s s' :=
  onlyIf_same (fun _ _ _ marker => logPageEvent_same marker) run

theorem ensureBegun_total (s : Store) (txid : TxId) (begun : Bool) :
    ∃ s', ensureBegun txid begun s = .ok () s' := by
  cases begun with
  | true => exact ⟨s, rfl⟩
  | false =>
    obtain ⟨r, s', append⟩ := appendRecord_succeeds s txid true .begin
    refine ⟨s', ?_⟩
    change logPageEvent .begin txid true s = _
    unfold logPageEvent
    rw [bind_of_ok append]
    rfl

theorem commitRecord_same {begun sync : Bool} {u : Unit}
    (run : commitRecord txid begun sync s = .ok u s') : Same s s' := by
  refine onlyIf_same (fun a b _ run => ?_) run
  obtain ⟨_, t, marker, flush⟩ := bind_ok.mp run
  refine (logPageEvent_same marker).trans (onlyIf_same (fun a b _ run => ?_) flush)
  cases run
  exact same_wal a _

theorem Models.txn_put {begun : Bool} {before : Option Bytes} (models : Models s m)
    (run : txnPut txid begun key value s = .ok before s') :
    before = m key ∧ Models s' (Function.update m key (some value)) := by
  obtain ⟨_, t, marker, run⟩ := bind_ok.mp run
  simpa using (models.same (ensureBegun_same marker)).put run

theorem Models.txn_delete {begun : Bool} {before : Option Bytes} (models : Models s m)
    (run : txnDelete txid begun key s = .ok before s') :
    (m key).isSome ∧ before = m key ∧ Models s' (Function.update m key none) := by
  obtain ⟨_, t, marker, run⟩ := bind_ok.mp run
  simpa using (models.same (ensureBegun_same marker)).delete run

theorem Models.txn_delete_absent {begun : Bool} {e : Failure} (models : Models s m)
    (run : txnDelete txid begun key s = .error e s') (notFound : isNotFound e = true) :
    m key = none ∧ Models s' m := by
  obtain ⟨t, marker⟩ := ensureBegun_total s txid begun
  unfold txnDelete at run
  rw [bind_of_ok marker] at run
  exact (models.same (ensureBegun_same marker)).delete_absent run notFound

theorem Models.undo_write {before result : Option Bytes} (models : Models s m)
    (run : undoWrite txid key before s = .ok result s') :
    Models s' (Function.update m key before) := by
  cases before with
  | some value => exact (models.put run).2
  | none => exact (models.delete run).2.2

theorem Models.get {e : Failure} (models : Models s m) :
    (∀ value, treeGet key s = .ok value s' → m key = some value ∧ Models s' m) ∧
      (treeGet key s = .error e s' → isNotFound e = true → m key = none ∧ Models s' m) := by
  obtain ⟨entries, rep, agree⟩ := models
  have answer := treeGet_answer rep key
  rw [agree] at answer
  constructor
  · intro value run
    rw [run] at answer
    cases answer with
    | value found same => exact ⟨found, entries, rep.same same, agree⟩
  · intro run notFound
    rw [run] at answer
    cases answer with
    | absent found same => exact ⟨found, entries, rep.same same, agree⟩
    | fault foreign _ =>
      rw [foreign] at notFound
      cases notFound

end Map

/- The handle as a strictly locked map. -/

def openEntry (done : List (Op Bytes Bytes)) (x : TxnImpl) (phase : Phase) : Option (Txn Bytes Bytes) :=
  if x.active || phase.rolling then some ⟨done, x.undo, x.active⟩ else none

namespace TxnDb

variable {d d' : TxnDb} {t : TxId} {x : TxnImpl} {m m₀ : RefMap}

def live (d : TxnDb) (t : TxId) : Option (Txn Bytes Bytes) :=
  (d.txns t).bind fun e => openEntry (d.done t) e.1 e.2

def view (d : TxnDb) (now base : RefMap) : View TxId Bytes Bytes :=
  ⟨d.locks.Holds, d.locks.Owns, d.live, now, base⟩

def base (d : TxnDb) (m₀ : RefMap) : RefMap := effect d.committed.flatten m₀

structure Inv (m₀ : RefMap) (d : TxnDb) (now : RefMap) : Prop where
  models : Models d.store now
  isolated : Isolated (d.view now (d.base m₀))
  valid : Valid m₀ d.committed.flatten
  locks : d.locks.Consistent
  fresh : ∀ t, d.nextTxid ≤ t → d.txns t = none ∧ d.done t = []
  rolling : ∀ t x, d.txns t = some (x, .rollingBack) → x.active = false
  acquiring : ∀ t x c, d.txns t = some (x, .acquiring c) → x.active = true
  locked : ∀ t x c, d.txns t = some (x, .locked c) → x.active = true ∧ d.locks.Holds t c.key ∧
    (c.mode = .exclusive → d.locks.Owns t c.key)

theorem live_of {phase : Phase} (at_ : d.txns t = some (x, phase)) :
    d.live t = openEntry (d.done t) x phase := by
  simp [live, at_]

theorem live_open {phase : Phase} (at_ : d.txns t = some (x, phase)) (active : x.active = true) :
    d.live t = some ⟨d.done t, x.undo, true⟩ := by
  rw [live_of at_, openEntry, active]
  rfl

theorem live_update {phase : Phase} (txns : d'.txns = Function.update d.txns t (some (x, phase)))
    (done : ∀ u, u ≠ t → d'.done u = d.done u) :
    d'.live = Function.update d.live t (openEntry (d'.done t) x phase) := by
  funext u
  by_cases e : u = t
  · subst e
    simp [live, txns]
  · simp [live, txns, e, done u e]

theorem Inv.phases {y : TxnImpl} {phase : Phase} (inv : Inv m₀ d m)
    (txns : d'.txns = Function.update d.txns t (some (y, phase)))
    (done : ∀ u, u ≠ t → d'.done u = d.done u) (lt : t < d'.nextTxid)
    (next : d.nextTxid ≤ d'.nextTxid)
    (holds : ∀ u k, u ≠ t → d.locks.Holds u k → d'.locks.Holds u k)
    (owns : ∀ u k, u ≠ t → d.locks.Owns u k → d'.locks.Owns u k)
    (rolling : phase = .rollingBack → y.active = false)
    (acquiring : ∀ c, phase = .acquiring c → y.active = true)
    (locked : ∀ c, phase = .locked c → y.active = true ∧ d'.locks.Holds t c.key ∧
      (c.mode = .exclusive → d'.locks.Owns t c.key)) :
    (∀ u, d'.nextTxid ≤ u → d'.txns u = none ∧ d'.done u = []) ∧
    (∀ u x, d'.txns u = some (x, .rollingBack) → x.active = false) ∧
    (∀ u x c, d'.txns u = some (x, .acquiring c) → x.active = true) ∧
    (∀ u x c, d'.txns u = some (x, .locked c) → x.active = true ∧ d'.locks.Holds u c.key ∧
      (c.mode = .exclusive → d'.locks.Owns u c.key)) := by
  have old : ∀ u, u ≠ t → d'.txns u = d.txns u := fun u ne => by
    rw [txns, Function.update_of_ne ne]
  have new : d'.txns t = some (y, phase) := by rw [txns, Function.update_self]
  refine ⟨fun u le => ?_, fun u x at_ => ?_, fun u x c at_ => ?_, fun u x c at_ => ?_⟩
  · have ne : u ≠ t := fun e => absurd lt (not_lt.mpr (e ▸ le))
    rw [old u ne, done u ne]
    exact inv.fresh u (next.trans le)
  · by_cases e : u = t
    · rw [e, new] at at_
      obtain ⟨rfl, rfl⟩ := Prod.mk.inj (Option.some.inj at_)
      exact rolling rfl
    · exact inv.rolling u x (old u e ▸ at_)
  · by_cases e : u = t
    · rw [e, new] at at_
      obtain ⟨rfl, rfl⟩ := Prod.mk.inj (Option.some.inj at_)
      exact acquiring c rfl
    · exact inv.acquiring u x c (old u e ▸ at_)
  · by_cases e : u = t
    · rw [e, new] at at_
      obtain ⟨rfl, rfl⟩ := Prod.mk.inj (Option.some.inj at_)
      rw [e]
      exact locked c rfl
    · obtain ⟨active, held, owned⟩ := inv.locked u x c (old u e ▸ at_)
      exact ⟨active, holds u _ e held, fun mode => owns u _ e (owned mode)⟩

theorem Inv.older {e : TxnImpl × Phase} (inv : Inv m₀ d m) (at_ : d.txns t = some e) :
    t < d.nextTxid := by
  by_contra le
  rw [(inv.fresh t (not_lt.mp le)).1] at at_
  cases at_

/- Steps. -/

theorem live_setTxn {phase : Phase} (phase' : Phase) (at_ : d.txns t = some (x, phase))
    (active : x.active = true) : (d.setTxn t x phase').live = d.live := by
  have moved : (d.setTxn t x phase').live = Function.update d.live t (openEntry (d.done t) x phase') :=
    live_update rfl fun _ _ => rfl
  have same : openEntry (d.done t) x phase' = d.live t := by
    rw [live_of at_, openEntry, openEntry, active]
    rfl
  rw [moved, same, Function.update_eq_self]

theorem Inv.turned {phase phase' : Phase} (inv : Inv m₀ d m) (at_ : d.txns t = some (x, phase))
    (active : x.active = true) (turn : phase' = .idle ∨ ∃ c, phase' = .acquiring c) :
    Inv m₀ (d.setTxn t x phase') m := by
  have moved : (d.setTxn t x phase').txns = Function.update d.txns t (some (x, phase')) := rfl
  obtain ⟨fresh, rolling, acquiring, locked⟩ := inv.phases moved (fun _ _ => rfl)
    (inv.older at_) le_rfl (fun _ _ _ h => h) (fun _ _ _ h => h)
    (by rintro rfl; rcases turn with e | ⟨c, e⟩ <;> cases e) (fun _ _ => active)
    (by rintro c rfl; rcases turn with e | ⟨c, e⟩ <;> cases e)
  refine ⟨inv.models, ?_, inv.valid, inv.locks, fresh, rolling, acquiring, locked⟩
  have view : (d.setTxn t x phase').view m (d.base m₀) = d.view m (d.base m₀) := by
    simp only [view, live_setTxn phase' at_ active]
    rfl
  exact view ▸ inv.isolated

theorem Inv.begun (inv : Inv m₀ d m) (retryOf : TxId) : Inv m₀ (d.begin_ retryOf) m := by
  obtain ⟨absent, blank⟩ := inv.fresh d.nextTxid le_rfl
  have closed : d.live d.nextTxid = none := by simp [live, absent]
  have moved : (d.begin_ retryOf).txns = Function.update d.txns d.nextTxid
      (some (⟨if retryOf = kInvalidTxId then d.nextTxid else retryOf, [], true, false⟩, .idle)) := rfl
  obtain ⟨fresh, rolling, acquiring, locked⟩ := inv.phases moved (fun _ _ => rfl)
    (Nat.lt_succ_self _) (Nat.le_succ _) (fun _ _ _ h => h) (fun _ _ _ h => h)
    (fun e => by cases e) (fun _ _ => rfl) (fun _ e => by cases e)
  refine ⟨inv.models, ?_, inv.valid, inv.locks, fresh, rolling, acquiring, locked⟩
  have live : (d.begin_ retryOf).live =
      Function.update d.live d.nextTxid (some ⟨[], [], true⟩) := by
    rw [live_update moved fun _ _ => rfl]
    simp [openEntry, begin_, setTxn, blank]
  have view : (d.begin_ retryOf).view m (d.base m₀) = { d.view m (d.base m₀) with
      live := Function.update d.live d.nextTxid (some ⟨[], [], true⟩) } := by
    simp only [view, live]
    rfl
  exact view ▸ inv.isolated.opened closed

theorem Inv.passed {c : TxnCall} (inv : Inv m₀ d m) (at_ : d.txns t = some (x, .acquiring c)) :
    Inv m₀ (d.pass t x c) m := by
  have active := inv.acquiring t x c at_
  unfold pass
  split
  · rename_i verdict
    have moved : (d.granted t x c).txns = Function.update d.txns t (some (x, .locked c)) := rfl
    have holds : ∀ u k, (d.granted t x c).locks.Holds u k ↔
        d.locks.Holds u k ∨ u = t ∧ k = c.key := fun _ _ => LockManager.grant_holds
    have owns : ∀ u k, (d.granted t x c).locks.Owns u k ↔
        d.locks.Owns u k ∨ c.mode = .exclusive ∧ u = t ∧ k = c.key := fun _ _ =>
      LockManager.grant_owns
    obtain ⟨fresh, rolling, acquiring, locked⟩ := inv.phases moved (fun _ _ => rfl) (inv.older at_)
      le_rfl (fun u k _ h => (holds u k).mpr (.inl h)) (fun u k _ h => (owns u k).mpr (.inl h))
      (fun e => by cases e) (fun _ e => by cases e)
      (by
        rintro c' e
        cases e
        exact ⟨active, (holds t _).mpr (.inr ⟨rfl, rfl⟩), fun mode => (owns t _).mpr
          (.inr ⟨mode, rfl, rfl⟩)⟩)
    refine ⟨inv.models, ?_, inv.valid, inv.locks.grant verdict, fresh, rolling, acquiring, locked⟩
    have here : ((d.view m (d.base m₀)).live t).isSome := by
      rw [show (d.view m (d.base m₀)).live t = d.live t from rfl, live_open at_ active]
      rfl
    have live : (d.granted t x c).live = d.live := live_setTxn (.locked c) at_ active
    rw [view, live]
    exact inv.isolated.granted here holds owns (fun u => LockManager.grant_noOwner verdict)
      (fun mode u => LockManager.grant_noHolder verdict mode)
  · exact inv.turned at_ active (.inl rfl)
  · exact inv

theorem Inv.reported {c : TxnCall} {y : TxnImpl} {s : Store} (inv : Inv m₀ d m)
    (op : Op Bytes Bytes) (at_ : d.txns t = some (x, .locked c)) (key : op.key = c.key)
    (mode : op.writes = true → c.mode = .exclusive) (active : y.active = true)
    (models : Models s (op.apply m)) (right : op.Sees m)
    (remembers : op.writes = true ∧ y.undo = x.undo ++ [(op.key, m op.key)] ∨
      op.apply m = m ∧ y.undo = x.undo) : Inv m₀ (d.reports t y s op) (op.apply m) := by
  obtain ⟨was, held, owned⟩ := inv.locked t x c at_
  have moved : (d.reports t y s op).txns = Function.update d.txns t (some (y, .idle)) := rfl
  have others : ∀ u, u ≠ t → (d.reports t y s op).done u = d.done u := fun u ne =>
    Function.update_of_ne ne _ _
  obtain ⟨fresh, rolling, acquiring, locked⟩ := inv.phases moved others (inv.older at_) le_rfl
    (fun _ _ _ h => h) (fun _ _ _ h => h) (fun e => by cases e) (fun _ _ => active)
    (fun _ e => by cases e)
  refine ⟨models, ?_, inv.valid, inv.locks, fresh, rolling, acquiring, locked⟩
  have live : (d.reports t y s op).live =
      Function.update d.live t (some ⟨d.done t ++ [op], y.undo, true⟩) := by
    rw [live_update moved others, openEntry, active]
    simp [reports]
  rw [view, live]
  exact inv.isolated.did (live_open at_ was) rfl (key ▸ held) (fun w => key ▸ owned (mode w)) right
    remembers

theorem Inv.performed {c : TxnCall} {io : List (Option Fault)} (inv : Inv m₀ d m)
    (at_ : d.txns t = some (x, .locked c)) (step : d.perform t x io c = some d') :
    ∃ now, Inv m₀ d' now := by
  have active := (inv.locked t x c at_).1
  have models := inv.models.facing io
  cases c with
  | get key =>
    simp only [perform] at step
    cases run : treeGet key (d.store.facing io) with
    | ok value s =>
      simp only [run, Option.some.injEq] at step
      subst step
      obtain ⟨found, after⟩ := (models.get (e := .diverges)).1 value run
      exact ⟨m, inv.reported (.get key (some value)) at_ rfl (fun w => by cases w) active after
        found (.inr ⟨rfl, rfl⟩)⟩
    | error e s =>
      simp only [run, Option.ite_none_right_eq_some, Option.some.injEq] at step
      obtain ⟨notFound, rfl⟩ := step
      obtain ⟨absent, after⟩ := models.get.2 run notFound
      exact ⟨m, inv.reported (.get key none) at_ rfl (fun w => by cases w) active after absent
        (.inr ⟨rfl, rfl⟩)⟩
  | put key value =>
    simp only [perform] at step
    cases run : txnPut t x.begun key value (d.store.facing io) with
    | error e s => simp [run] at step
    | ok before s =>
      simp only [run, Option.some.injEq] at step
      subst step
      obtain ⟨rfl, after⟩ := models.txn_put run
      exact ⟨_, inv.reported (.put key value) at_ rfl (fun _ => rfl) active after trivial
        (.inl ⟨rfl, rfl⟩)⟩
  | delete key =>
    simp only [perform] at step
    cases run : txnDelete t x.begun key (d.store.facing io) with
    | ok before s =>
      simp only [run, Option.some.injEq] at step
      subst step
      obtain ⟨found, rfl, after⟩ := models.txn_delete run
      exact ⟨_, inv.reported (.delete key true) at_ rfl (fun _ => rfl) active after found
        (.inl ⟨rfl, rfl⟩)⟩
    | error e s =>
      simp only [run, Option.ite_none_right_eq_some, Option.some.injEq] at step
      obtain ⟨notFound, rfl⟩ := step
      obtain ⟨absent, after⟩ := models.txn_delete_absent run notFound
      have same : Function.update m key none = m := by rw [← absent, Function.update_eq_self]
      have after' : Models s (Function.update m key none) := by rwa [same]
      exact ⟨_, inv.reported (.delete key false) at_ rfl (fun _ => rfl) active after'
        (by simp [Op.Sees, absent]) (.inr ⟨same, rfl⟩)⟩

theorem Inv.stopped (inv : Inv m₀ d m) (at_ : d.txns t = some (x, .idle)) (active : x.active = true) :
    Inv m₀ (d.setTxn t { x with active := false } .rollingBack) m := by
  have moved : (d.setTxn t { x with active := false } .rollingBack).txns =
      Function.update d.txns t (some ({ x with active := false }, .rollingBack)) := rfl
  obtain ⟨fresh, rolling, acquiring, locked⟩ := inv.phases moved (fun _ _ => rfl)
    (inv.older at_) le_rfl (fun _ _ _ h => h) (fun _ _ _ h => h) (fun _ => rfl)
    (fun _ e => by cases e) (fun _ e => by cases e)
  refine ⟨inv.models, ?_, inv.valid, inv.locks, fresh, rolling, acquiring, locked⟩
  have live : (d.setTxn t { x with active := false } .rollingBack).live =
      Function.update d.live t (some ⟨d.done t, x.undo, false⟩) :=
    live_update moved fun _ _ => rfl
  rw [view, live]
  exact inv.isolated.stopped (live_open at_ active)

theorem Inv.undid {key : Bytes} {before : Option Bytes} {s : Store} (inv : Inv m₀ d m)
    (at_ : d.txns t = some (x, .rollingBack)) (newest : x.undo.getLast? = some (key, before))
    (models : Models s (Function.update m key before)) :
    Inv m₀ (d.undone t x s) (Function.update m key before) := by
  have off := inv.rolling t x at_
  have moved : (d.undone t x s).txns =
      Function.update d.txns t (some ({ x with undo := x.undo.dropLast }, .rollingBack)) := rfl
  obtain ⟨fresh, rolling, acquiring, locked⟩ := inv.phases moved (fun _ _ => rfl)
    (inv.older at_) le_rfl (fun _ _ _ h => h) (fun _ _ _ h => h) (fun _ => off)
    (fun _ e => by cases e) (fun _ e => by cases e)
  refine ⟨models, ?_, inv.valid, inv.locks, fresh, rolling, acquiring, locked⟩
  have entry : d.live t = some ⟨d.done t, x.undo, x.active⟩ := by
    rw [live_of at_, openEntry, off]
    rfl
  have live : (d.undone t x s).live =
      Function.update d.live t (some ⟨d.done t, x.undo.dropLast, x.active⟩) := by
    rw [live_update moved fun _ _ => rfl, openEntry, off]
    rfl
  rw [view, live]
  exact inv.isolated.undid entry off (List.dropLast_append_getLast? _ newest).symm

theorem Inv.rolledBack {io : List (Option Fault)} (inv : Inv m₀ d m)
    (at_ : d.txns t = some (x, .rollingBack)) (step : d.undoLast t x io = some d') :
    ∃ now, Inv m₀ d' now := by
  have models := inv.models.facing io
  unfold undoLast at step
  cases newest : x.undo.getLast? with
  | none => simp [newest] at step
  | some u =>
    obtain ⟨key, before⟩ := u
    simp only [newest] at step
    cases run : undoWrite t key before (d.store.facing io) with
    | ok result s =>
      simp only [run, Option.some.injEq] at step
      subst step
      exact ⟨_, inv.undid at_ newest (models.undo_write run)⟩
    | error e s =>
      simp only [run, Option.ite_none_right_eq_some, Option.some.injEq] at step
      obtain ⟨⟨rfl, notFound⟩, rfl⟩ := step
      obtain ⟨absent, after⟩ := models.delete_absent run notFound
      have same : Function.update m key none = m := by rw [← absent, Function.update_eq_self]
      exact ⟨_, inv.undid at_ newest (by rwa [same])⟩

theorem Inv.closed {phase : Phase} {s : Store} {more : List (List (Op Bytes Bytes))} (inv : Inv m₀ d m)
    (at_ : d.txns t = some (x, phase)) (models : Models s m)
    (valid : Valid m₀ (d.committed ++ more).flatten)
    (mine : ∀ k, d.locks.Owns t k → m k = effect (d.committed ++ more).flatten m₀ k)
    (rest : ∀ k, ¬ d.locks.Owns t k → effect (d.committed ++ more).flatten m₀ k = d.base m₀ k) :
    Inv m₀ { d.released t x s with committed := d.committed ++ more } m := by
  have moved : (d.released t x s).txns =
      Function.update d.txns t (some ({ x with active := false }, .idle)) := rfl
  have holds : ∀ u k, (d.released t x s).locks.Holds u k ↔ d.locks.Holds u k ∧ u ≠ t := fun _ _ =>
    inv.locks.release_holds
  have owns : ∀ u k, (d.released t x s).locks.Owns u k ↔ d.locks.Owns u k ∧ u ≠ t := fun _ _ =>
    inv.locks.release_owns
  obtain ⟨fresh, rolling, acquiring, locked⟩ := inv.phases moved (fun _ _ => rfl)
    (inv.older at_) le_rfl (fun u k ne h => (holds u k).mpr ⟨h, ne⟩)
    (fun u k ne h => (owns u k).mpr ⟨h, ne⟩) (fun e => by cases e) (fun _ e => by cases e)
    (fun _ e => by cases e)
  refine ⟨models, ?_, valid, inv.locks.releaseAll t, fresh, rolling, acquiring, locked⟩
  have live : (d.released t x s).live = Function.update d.live t none :=
    live_update moved fun _ _ => rfl
  have view : TxnDb.view { d.released t x s with committed := d.committed ++ more } m
      (effect (d.committed ++ more).flatten m₀) =
        ⟨(d.released t x s).locks.Holds, (d.released t x s).locks.Owns,
          Function.update d.live t none, m, effect (d.committed ++ more).flatten m₀⟩ := by
    rw [← live]
    rfl
  rw [base, view]
  exact inv.isolated.ended holds owns mine rest

theorem Inv.commits (inv : Inv m₀ d m) (at_ : d.txns t = some (x, .idle)) (active : x.active = true)
    (step : d.commit t x = some d') : Inv m₀ d' m := by
  unfold commit at step
  cases run : commitRecord t x.begun d.syncOnWrite d.store with
  | error e s => simp [run] at step
  | ok u s =>
    simp only [run, Option.some.injEq] at step
    subst step
    have entry := live_open at_ active
    have grown : effect (d.committed ++ [d.done t]).flatten m₀ = effect (d.done t) (d.base m₀) := by
      rw [List.flatten_append, effect_append, base]
      simp
    refine inv.closed at_ (inv.models.same (commitRecord_same run)) ?_ ?_ ?_
    · rw [List.flatten_append]
      refine valid_append.mpr ⟨inv.valid, ?_⟩
      rw [List.flatten_singleton]
      exact inv.isolated.valid t _ entry rfl
    · intro k owner
      rw [grown]
      exact inv.isolated.own t _ k entry rfl owner
    · intro k other
      rw [grown]
      exact inv.isolated.unowned entry rfl other

theorem Inv.aborted (inv : Inv m₀ d m) (at_ : d.txns t = some (x, .rollingBack))
    (step : d.endAbort t x = some d') : Inv m₀ d' m := by
  unfold endAbort at step
  rw [Option.ite_none_right_eq_some] at step
  obtain ⟨nothing, step⟩ := step
  cases run : onlyIf x.begun (logTxnMarker t .abort) d.store with
  | error e s => simp [run] at step
  | ok u s =>
    simp only [run, Option.some.injEq] at step
    subst step
    have off := inv.rolling t x at_
    have entry : d.live t = some ⟨d.done t, x.undo, x.active⟩ := by
      rw [live_of at_, openEntry, off]
      rfl
    have same := onlyIf_same (fun _ _ _ marker => logPageEvent_same marker) run
    have mine : ∀ k, d.locks.Owns t k → m k = effect (d.committed ++ []).flatten m₀ k := by
      intro k owner
      have := inv.isolated.undone t _ k entry owner
      simp only [nothing, List.lookup_nil, Option.getD_none] at this
      rw [List.append_nil]
      exact this
    have closed := inv.closed at_ (inv.models.same same) (by rw [List.append_nil]; exact inv.valid)
      mine (fun k _ => by rw [List.append_nil]; rfl)
    rwa [List.append_nil] at closed

theorem Inv.step {ev : TxnEvent} (inv : Inv m₀ d m) (step : d.step ev = some d') :
    ∃ now, Inv m₀ d' now := by
  unfold TxnDb.step at step
  split at step
  · cases step
    exact ⟨m, inv.begun _⟩
  · split at step
    · rename_i at_
      cases step
      split
      · rename_i active
        exact ⟨m, inv.turned at_ active (.inr ⟨_, rfl⟩)⟩
      · exact ⟨m, inv⟩
    · cases step
  · split at step
    · rename_i at_
      cases step
      exact ⟨m, inv.passed at_⟩
    · cases step
  · split at step
    · rename_i at_
      cases step
      exact ⟨m, inv.turned at_ (inv.acquiring _ _ _ at_) (.inl rfl)⟩
    · cases step
  · split at step
    · rename_i at_
      exact inv.performed at_ step
    · cases step
  · split at step
    · rename_i at_
      split at step
      · rename_i active
        exact ⟨m, inv.commits at_ active step⟩
      · cases step
        exact ⟨m, inv⟩
    · cases step
  · split at step
    · rename_i at_
      cases step
      split
      · rename_i active
        exact ⟨m, inv.stopped at_ active⟩
      · exact ⟨m, inv⟩
    · cases step
  · split at step
    · rename_i at_
      exact inv.rolledBack at_ step
    · cases step
  · split at step
    · rename_i at_
      exact ⟨m, inv.aborted at_ step⟩
    · cases step

theorem opened_inv {s : Store} (models : Models s m) (syncOnWrite : Bool) :
    Inv m (opened s syncOnWrite) m := by
  have unheld : ∀ t k, ¬ (LockManager.empty.Holds t k) := by
    rintro t k ⟨h, mem, -⟩
    cases mem
  have unowned : ∀ t k, ¬ (LockManager.empty.Owns t k) := by
    rintro t k ⟨h, mem, -⟩
    cases mem
  have closed : ∀ t x, (opened s syncOnWrite).live t ≠ some x := by
    intro t x h
    cases h
  exact ⟨models, ⟨fun t _ k o => absurd o (unowned t k), fun t k h => absurd h (unheld t k),
    fun t k o => absurd o (unowned t k), fun t x h => absurd h (closed t x),
    fun t x h => absurd h (closed t x), fun t x _ h => absurd h (closed t x),
    fun t x h => absurd h (closed t x), fun t x _ h => absurd h (closed t x), fun _ _ => rfl⟩,
    trivial, LockManager.empty_consistent, fun _ _ => ⟨rfl, rfl⟩, fun _ _ h => (by cases h),
    fun _ _ _ h => (by cases h), fun _ _ _ h => (by cases h)⟩

def AllEnded (d : TxnDb) : Prop := ∀ t, d.live t = none

theorem Inv.final (inv : Inv m₀ d m) (ended : d.AllEnded) : Models d.store (d.base m₀) := by
  have same : m = d.base m₀ := by
    funext k
    refine inv.isolated.free k fun t owner => ?_
    have := inv.isolated.known t k (inv.isolated.weaker t k owner)
    rw [show (d.view m (d.base m₀)).live t = d.live t from rfl, ended t] at this
    cases this
  exact same ▸ inv.models

end TxnDb

/-- In every state of every interleaving, what the committed transactions were told is
what a serial run in commit order tells them, and once all have ended the tree agrees
with the map that serial run leaves. -/
theorem transactions_serialize_in_commit_order (s : Store) (m : RefMap) (start : Models s m)
    (syncOnWrite : Bool) (events : List TxnEvent) :
    EveryState TxnDb.step (fun d => Valid m d.committed.flatten ∧
      (d.AllEnded → Agrees d.store (effect d.committed.flatten m))) (.opened s syncOnWrite) events := by
  have always : EveryState TxnDb.step (fun d => ∃ now, TxnDb.Inv m d now)
      (.opened s syncOnWrite) events :=
    everyState_invariant (fun _ _ _ ⟨_, inv⟩ step => inv.step step)
      ⟨m, TxnDb.opened_inv start syncOnWrite⟩
  exact always.imp fun d ⟨_, inv⟩ => ⟨inv.valid, fun ended => (inv.final ended).agrees⟩

/-- A put, a commit and a read by a second transaction, on a new database. -/
def shortHistory : List TxnEvent :=
  [.begin kInvalidTxId, .begin kInvalidTxId, .call 1 (.put [0] [7]), .pass 1, .perform 1 [], .commit 1,
    .call 2 (.get [0]), .pass 2, .perform 2 [], .commit 2]

theorem short_history_serializes :
    Models (create ⟨16, by decide⟩ none) (fun _ => none) ∧
      (run TxnDb.step (.opened (create ⟨16, by decide⟩ none) true) shortHistory).isSome = true ∧
      EveryState TxnDb.step (fun d => Valid (fun _ => none) d.committed.flatten ∧
        (d.AllEnded → Agrees d.store (effect d.committed.flatten fun _ => none)))
        (.opened (create ⟨16, by decide⟩ none) true) shortHistory :=
  ⟨create_models _ _, by decide +kernel,
    transactions_serialize_in_commit_order _ _ (create_models _ _) true shortHistory⟩

end PagerDB

import PagerDB.Db.Poison
import PagerDB.Txn.Serializable

/-! `TxnImpl::Abort`, cut between its inverse writes, among the calls of all other transactions and the
autocommit ones. The map that is left when the pending inverse writes are made is what the others alone
have left; the transaction's own steps do not change it. -/
namespace PagerDB

open MachineLib SortedLib Store

/-- The handle, and for each transaction in `Abort` the inverse writes it has still to make. -/
structure Session where
  handle : Handle
  undoing : TxId → Option (List (Bytes × Option Bytes))

inductive SessionEvent where
  | handle (e : HandleEvent)
  | abort (t : TxId)
  | undo (t : TxId) (io : List (Option Fault))
  | endAbort (t : TxId)

def HandleEvent.uncut : HandleEvent → Bool
  | .call (.abort ..) => true
  | _ => false

namespace Session

def opened (s : Store) (options : Options) : Session := ⟨.opened s options, fun _ => none⟩

def step (σ : Session) : SessionEvent → Option Session
  | .handle e => if e.uncut then none else (σ.handle.next e).map fun h => { σ with handle := h }
  | .abort t =>
    match σ.handle.txns t with
    | some x =>
      if x.active then
        some ⟨σ.handle.setTxn t { x with active := false },
          Function.update σ.undoing t (some (if x.begun then x.undo.reverse else []))⟩
      else none
    | none => none
  | .undo t io =>
    match σ.undoing t, σ.handle.txns t with
    | some (w :: rest), some x =>
      match Handle.rollback t [w] (σ.handle.store.facing io) with
      | .ok _ s => some ⟨{ σ.handle with store := s }, Function.update σ.undoing t (some rest)⟩
      | .error (.status _) s =>
        some ⟨{ σ.handle.poison t x with store := s }, Function.update σ.undoing t none⟩
      | .error .. => none
    | _, _ => none
  | .endAbort t =>
    match σ.undoing t, σ.handle.txns t with
    | some [], some x =>
      some ⟨(if x.begun then σ.handle.logged t .abort else σ.handle).ended t x,
        Function.update σ.undoing t none⟩
    | _, _ => none

def seen (σ : Session) (key : Bytes) : Option Bytes := σ.handle.seen key

end Session

def Handle.undoOf (h : Handle) (t : TxId) : List (Bytes × Option Bytes) := (h.txns t).elim [] TxnImpl.undo

def Session.touched (σ : Session) (t : TxId) : List Bytes := (σ.handle.undoOf t).map Prod.fst

namespace SessionEvent

def author : SessionEvent → Option TxId
  | .handle (.call (.txnGet t ..)) | .handle (.call (.txnPut t ..)) | .handle (.call (.txnDelete t ..))
  | .handle (.call (.commit t ..)) => some t
  | .abort t | .undo t _ | .endAbort t => some t
  | _ => none

def writes (σ : Session) : SessionEvent → Option Bytes
  | .handle (.call (.put key ..)) | .handle (.call (.delete key ..))
  | .handle (.call (.txnPut _ key ..)) | .handle (.call (.txnDelete _ key ..)) => some key
  | .undo t _ => (σ.undoing t).bind fun l => l.head?.map Prod.fst
  | _ => none

/-- The others write other keys than the transaction has written. -/
def Apart (t : TxId) (σ : Session) (e : SessionEvent) : Prop :=
  e.author ≠ some t → ∀ key ∈ e.writes σ, key ∉ σ.touched t

instance (t : TxId) (σ : Session) (e : SessionEvent) : Decidable (Apart t σ e) :=
  inferInstanceAs (Decidable (_ → ∀ key ∈ e.writes σ, _))

end SessionEvent

/-- What `Abort` of `t` leaves when it returns Ok from `σ`. -/
structure Session.RolledBack (t : TxId) (σ₀ : Session) (events : List SessionEvent) (σ σ' : Session) :
    Prop where
  /-- A key it wrote is as it was before the step that wrote it first. -/
  restored : ∀ key ∈ σ.touched t, ∃ a e b g g', events = a ++ e :: b ∧ run step σ₀ a = some g ∧
    g.step e = some g' ∧ e.author = some t ∧ e.writes g = some key ∧ key ∉ g.touched t ∧ key ∈ g'.touched t ∧
    σ'.seen key = g.seen key
  /-- No step of it has changed any other key. -/
  others : ∀ key, key ∉ σ.touched t → ∀ a e b g g', events ++ [.endAbort t] = a ++ e :: b →
    run step σ₀ a = some g → g.step e = some g' → e.author = some t → g'.seen key = g.seen key
  count : ∃ live : List Bytes, live.Nodup ∧ (∀ key, key ∈ live ↔ (σ'.seen key).isSome) ∧
    σ'.handle.store.metaPage.numKeys = live.length

/- What a call can do to the map and to the transactions. -/

namespace Handle

variable {h h' : Handle} {r : Report} {m : RefMap}

structure Quiet (h h' : Handle) : Prop where
  store : Unmoved h.store h'.store
  txns : h'.txns = h.txns
  ids : h'.nextTxid = h.nextTxid

namespace Quiet

theorem refl (h : Handle) : Quiet h h := ⟨.refl _, rfl, rfl⟩

theorem trans {a b c : Handle} (x : Quiet a b) (y : Quiet b c) : Quiet a c :=
  ⟨x.store.trans y.store, y.txns.trans x.txns, y.ids.trans x.ids⟩

theorem of_settles (settles : Settles (Unmoved h.store) h h') : Quiet h h' := by
  obtain ⟨kept, same⟩ := settles
  exact ⟨kept, by rw [same], by rw [same]⟩

theorem logged (h : Handle) (t : TxId) (body : LogBody) : Quiet h (h.logged t body) := ⟨.onLog _ _, rfl, rfl⟩

end Quiet

end Handle

theorem Models.unmoved {s s' : Store} {m : RefMap} (models : Models s m) (kept : Unmoved s s') :
    Models s' m := by
  obtain ⟨entries, rep, agree⟩ := models
  exact ⟨entries, rep.unmoved kept, agree⟩

namespace Handle

variable {h h' : Handle} {r : Report} {m : RefMap} {key : Bytes} {value : Option Bytes}

/-- An operation that leaves `value` under `key`, and the map as it was when it fails harmlessly. -/
structure Stores (op : M (Option Bytes)) (harmless : Status → Bool) (key : Bytes) (value : Option Bytes) :
    Prop where
  ok : ∀ s m b s', Models s m → op s = .ok b s' → Models s' (Function.update m key value)
  harmless : ∀ s m e s', Healthy s → Models s m → op s = .error (.status e) s' → harmless e = true →
    Models s' m

theorem stores_put (key value : Bytes) (t : TxId) (wantBefore : Bool) :
    Stores (treePut key value t wantBefore) (fun e => e.code = .invalidArgument) key (some value) := by
  constructor
  · intro s m b s' models run
    exact (models.put run).2
  · intro s m e s' healthy models run invalid
    obtain ⟨⟨_, entries, rep, _⟩, neat⟩ := healthy
    rw [treePut_invalidArgument rep neat (of_decide_eq_true invalid) run]
    exact models

theorem stores_delete (key : Bytes) (t : TxId) (wantBefore : Bool) :
    Stores (treeDelete key t wantBefore) (fun e => e.code = .notFound) key none := by
  constructor
  · intro s m b s' models run
    exact (models.delete run).2.2
  · intro s m e s' _ models run gone
    exact (models.delete_absent run gone).2

theorem Stores.begun {op : M (Option Bytes)} {harmless : Status → Bool}
    (stores : Stores op harmless key value)
    (t : TxId) (begun : Bool) : Stores (do ensureBegun t begun; op) harmless key value := by
  constructor
  · intro s m b s' models run
    obtain ⟨_, u, first, run⟩ := bind_ok.mp run
    exact stores.ok _ _ _ _ (models.same (ensureBegun_same first)) run
  · intro s m e s' healthy models run ok
    obtain ⟨u, first⟩ := ensureBegun_runs s t begun
    rw [bind_of_ok first] at run
    exact stores.harmless _ _ _ _ (healthy.ensureBegun first) (models.same (ensureBegun_same first)) run ok

/-- What a step of this author that may write this key does to the map and to the transactions. -/
inductive Effect (h h' : Handle) : Option TxId → Option Bytes → Prop
  | still {a : Option TxId} {k : Option Bytes} (txns : h'.txns = h.txns)
    (seen : h'.seen = h.seen) : Effect h h' a k
  | wrote {key : Bytes} {value : Option Bytes} (txns : h'.txns = h.txns)
    (seen : h'.seen = Function.update h.seen key value) : Effect h h' none (some key)
  | began {x : TxnImpl} {k : Option Bytes} (txns : h'.txns = Function.update h.txns h.nextTxid (some x))
    (undo : x.undo = []) (next : h'.nextTxid = h.nextTxid + 1) (seen : h'.seen = h.seen) : Effect h h' none k
  | turned {t : TxId} {x y : TxnImpl} {k : Option Bytes} (found : h.txns t = some x)
    (active : x.active = true)
    (txns : h'.txns = Function.update h.txns t (some y)) (undo : y.undo = x.undo) (seen : h'.seen = h.seen) :
    Effect h h' (some t) k
  | logged {t : TxId} {x y : TxnImpl} {key : Bytes} {value : Option Bytes} (found : h.txns t = some x)
    (active : x.active = true) (txns : h'.txns = Function.update h.txns t (some y))
    (undo : y.undo = x.undo ++ [(key, h.seen key)]) (seen : h'.seen = Function.update h.seen key value) :
    Effect h h' (some t) (some key)

theorem Quiet.seen (quiet : Quiet h h') (healthy : Healthy h.store) : h'.seen = h.seen :=
  funext (seen_unmoved healthy quiet.store)

theorem seen_eq (models : Models h.store m) : h.seen = m := funext (seen_models models)

theorem models_seen (healthy : Healthy h.store) : Models h.store h.seen := by
  obtain ⟨m, models⟩ := healthy.models
  rwa [seen_eq models]

theorem autocommit_effect {op : TxId → M (Option Bytes)} {harmless : Status → Bool} {io : List (Option Fault)}
    {late : Option Late} (stores : ∀ t, Stores (op t) harmless key value) (healthy : Healthy h.store)
    (run : h.autocommit op harmless io late = some (r, h')) (up : h'.needsReopen = false) :
    h.nextTxid ≤ h'.nextTxid ∧ Effect h h' none (some key) := by
  have models := (models_seen healthy).facing io
  unfold Handle.autocommit at run
  split at run
  · rename_i b s done
    have after := (stores _).ok _ _ _ _ models done
    have quiet := Quiet.of_settles (settles_finishWrite (unmoved_settling _) (.refl _) run)
    have seen : h'.seen = Function.update h.seen key value := seen_eq (after.unmoved quiet.store)
    refine ⟨?_, .wrote quiet.txns seen⟩
    rw [quiet.ids]
    exact Nat.le_succ _
  · rename_i e s fails
    obtain ⟨-, eq⟩ := Option.ite_none_right_eq_some.mp run
    cases eq
    obtain ⟨-, ok⟩ : h.needsReopen = false ∧ harmless e = true := by simpa using up
    have after := (stores _).harmless _ _ _ _ (healthy.facing io) models fails ok
    exact ⟨Nat.le_succ _, .still rfl (seen_eq after)⟩
  · cases run

theorem txnWrite_effect {op : M (Option Bytes)} {harmless : Status → Bool}
    {io : List (Option Fault)} {t : TxId}
    {x : TxnImpl} (stores : Stores op harmless key value)
    (before : ∀ s m b s', Models s m → op s = .ok b s' → b = m key) (healthy : Healthy h.store)
    (found : h.txns t = some x) (active : x.active = true)
    (run : h.txnWrite t x key op harmless io = some (r, h')) (up : h'.needsReopen = false) :
    h.nextTxid ≤ h'.nextTxid ∧ Effect h h' (some t) (some key) := by
  have models := (models_seen healthy).facing io
  unfold Handle.txnWrite at run
  dsimp only at run
  split at run
  · rename_i b s done
    cases run
    have old := before _ _ _ _ models done
    have after := stores.ok _ _ _ _ models done
    exact ⟨le_rfl, @Effect.logged _ _ t x _ key value found active rfl (by rw [old]) (seen_eq after)⟩
  · rename_i e s fails
    split at run
    · rename_i ok
      cases run
      have after := stores.harmless _ _ _ _ (healthy.facing io) models fails ok
      exact ⟨le_rfl, .turned found active rfl rfl (seen_eq after)⟩
    · cases run
      cases up
  · cases run

theorem Effect.locks {l : LockManager} {a : Option TxId} {k : Option Bytes}
    (effect : Effect { h with locks := l } h' a k) : Effect h h' a k := by
  cases effect with
  | still txns seen => exact .still txns seen
  | wrote txns seen => exact .wrote txns seen
  | began txns undo next seen => exact .began txns undo next seen
  | turned found active txns undo seen => exact .turned found active txns undo seen
  | logged found active txns undo seen => exact .logged found active txns undo seen

theorem commit_effect {t : TxId} {x : TxnImpl} {late : Option Late} {k : Option Bytes}
    (healthy : Healthy h.store)
    (found : h.txns t = some x) (active : x.active = true) (run : h.commitBody t x late = some (r, h'))
    (up : h'.needsReopen = false) : h.nextTxid ≤ h'.nextTxid ∧ Effect h h' (some t) k := by
  have marked : Quiet h (if x.begun then (h.logged t .commit).synced else h) := by
    split
    · exact (Quiet.logged h t .commit).trans (.of_settles (settles_synced (unmoved_settling _) (.refl _)))
    · exact Quiet.refl h
  have ended : ∀ fault, (ended (if x.begun then
    (h.logged t .commit).synced else h) t x).maybeAutoCheckpoint fault =
      some (r, h') → h.nextTxid ≤ h'.nextTxid ∧ Effect h h' (some t) k := by
    intro fault run
    have quiet := Quiet.of_settles (settles_maybeAutoCheckpoint (unmoved_settling _) (.refl _) run)
    have store : Unmoved h.store h'.store := marked.store.trans quiet.store
    refine ⟨(quiet.ids.trans marked.ids).ge, .turned (y := { x with active := false }) found active ?_ rfl ?_⟩
    · rw [quiet.txns]
      change Function.update _ t _ = _
      rw [marked.txns]
    · exact funext (seen_unmoved healthy store)
  match late with
  | none => exact ended none run
  | some (.checkpoint f e) => exact ended _ run
  | some (.flush f e) =>
    obtain ⟨-, run⟩ := Option.ite_none_right_eq_some.mp run
    obtain ⟨g, -, eq⟩ := Option.map_eq_some_iff.mp run
    cases eq
    cases up

theorem onTxn_effect {t : TxId} {body : TxnImpl → Option (Report × Handle)} {k : Option Bytes}
    (next : ∀ x, h.txns t = some x → x.active = true → body x = some (r, h') →
      h.nextTxid ≤ h'.nextTxid ∧ Effect h h' (some t) k) (run : h.onTxn t body = some (r, h')) :
    h.nextTxid ≤ h'.nextTxid ∧ Effect h h' (some t) k := by
  unfold onTxn at run
  split at run
  · cases run
  · rename_i x found
    split at run
    · rename_i active
      exact next x found active run
    · cases run
      exact ⟨le_rfl, .still rfl rfl⟩

theorem locking_effect {q : Request} {timedOut : Bool} {body : Handle → Option (Report × Handle)}
    {a : Option TxId} {k : Option Bytes}
    (next : ∀ l, body { h with locks := l } = some (r, h') → h.nextTxid ≤ h'.nextTxid ∧
      Effect { h with locks := l } h' a k) (run : h.locking q timedOut body = some (r, h')) :
    h.nextTxid ≤ h'.nextTxid ∧ Effect h h' a k := by
  unfold locking at run
  split at run
  · obtain ⟨ids, effect⟩ := next _ run
    exact ⟨ids, effect.locks⟩
  · cases run
    exact ⟨le_rfl, .still rfl rfl⟩
  · obtain ⟨-, eq⟩ := Option.ite_none_right_eq_some.mp run
    cases eq
    exact ⟨le_rfl, .still rfl rfl⟩

theorem call_effect {σ : Session} {c : DbCall} (healthy : Healthy h.store)
    (cut : (HandleEvent.call c).uncut = false)
    (run : h.call c = some (r, h')) (up : h'.needsReopen = false) : h.nextTxid ≤ h'.nextTxid ∧
      Effect h h' (SessionEvent.handle (.call c)).author ((SessionEvent.handle (.call c)).writes σ) := by
  have fresh : h.needsReopen = false := by
    by_contra poisoned
    rw [(Settled.perform run).poisoned (by simpa using poisoned)] at up
    cases up
  have quietly : ∀ {a k}, Quiet h h' → h.nextTxid ≤ h'.nextTxid ∧ Effect h h' a k :=
    fun quiet => ⟨quiet.ids.ge, .still quiet.txns (quiet.seen healthy)⟩
  unfold call at run
  rw [fresh] at run
  cases c with
  | put key value io late => exact autocommit_effect (fun t => stores_put key value t false) healthy run up
  | delete key io late => exact autocommit_effect (fun t => stores_delete key t false) healthy run up
  | sync fault =>
    cases fault with
    | none =>
      cases run
      exact quietly ⟨.onLog _ _, rfl, rfl⟩
    | some f =>
      obtain ⟨s, fails, eq⟩ := Option.map_eq_some_iff.mp run
      cases eq
      exact quietly ⟨.flushFault fails, rfl, rfl⟩
  | checkpoint fault =>
    exact quietly (.of_settles (settles_checkpointLocked (unmoved_settling _) (.refl _) run))
  | begin retryOf =>
    cases run
    exact ⟨Nat.le_succ _, .began rfl rfl rfl rfl⟩
  | txnGet t key timedOut =>
    refine onTxn_effect (fun x found active => locking_effect fun l run => ?_) run
    cases run
    exact ⟨le_rfl, .still rfl rfl⟩
  | txnPut t key value timedOut io =>
    refine onTxn_effect (fun x found active => locking_effect fun l run => ?_) run
    have stores := (stores_put key value t true).begun t x.begun
    exact txnWrite_effect (h := { h with locks := l }) stores (fun s m b s' models run =>
      (models.txn_put run).1)
      healthy found active run up
  | txnDelete t key timedOut io =>
    refine onTxn_effect (fun x found active => locking_effect fun l run => ?_) run
    have stores := (stores_delete key t true).begun t x.begun
    exact txnWrite_effect (h := { h with locks := l }) stores (fun s m b s' models run =>
      (models.txn_delete run).2.1)
      healthy found active run up
  | commit t late =>
    exact onTxn_effect (fun x found active run => commit_effect healthy found active run up) run
  | abort t io => cases cut

theorem next_effect {σ : Session} {e : HandleEvent} (healthy : Healthy h.store) (cut : e.uncut = false)
    (run : h.next e = some h') (up : h'.needsReopen = false) : h.nextTxid ≤ h'.nextTxid ∧
      Effect h h' (SessionEvent.handle e).author ((SessionEvent.handle e).writes σ) := by
  cases e with
  | call c =>
    obtain ⟨⟨r, g⟩, called, rfl⟩ := Option.map_eq_some_iff.mp run
    exact call_effect healthy cut called up
  | evict pid =>
    obtain ⟨s, evicted, rfl⟩ := Option.map_eq_some_iff.mp run
    have after := (models_seen healthy).same (evict_same evicted)
    exact ⟨le_rfl, .still rfl (seen_eq after)⟩
  | fetch pid io =>
    simp only [Handle.next] at run
    split at run
    · rename_i s fetched
      cases run
      have after := ((models_seen healthy).facing io).same (fetchPage_same fetched)
      exact ⟨le_rfl, .still rfl (seen_eq after)⟩
    · cases run

theorem next_up {e : HandleEvent} (run : h.next e = some h') (up : h'.needsReopen = false) :
    h.needsReopen = false := by
  cases e with
  | call c =>
    obtain ⟨⟨r, g⟩, called, rfl⟩ := Option.map_eq_some_iff.mp run
    by_contra poisoned
    rw [(Settled.perform called).poisoned (by simpa using poisoned)] at up
    cases up
  | evict pid =>
    obtain ⟨s, -, rfl⟩ := Option.map_eq_some_iff.mp run
    exact up
  | fetch pid io =>
    simp only [Handle.next] at run
    split at run
    · cases run
      exact up
    · cases run

theorem next_begun {e : HandleEvent} (run : h.next e = some h')
    (begun : ∀ t x, h.txns t = some x → x.undo ≠ [] → x.begun = true) :
    ∀ t x, h'.txns t = some x → x.undo ≠ [] → x.begun = true := by
  cases e with
  | call c =>
    obtain ⟨⟨r, g⟩, called, rfl⟩ := Option.map_eq_some_iff.mp run
    exact (Settled.perform called).begun begun
  | evict pid =>
    obtain ⟨s, -, rfl⟩ := Option.map_eq_some_iff.mp run
    exact begun
  | fetch pid io =>
    simp only [Handle.next] at run
    split at run
    · cases run
      exact begun
    · cases run

theorem rollback_one {t : TxId} {s s' : Store} {w : Bytes × Option Bytes} {u : Unit} (models : Models s m)
    (run : rollback t [w] s = .ok u s') : Models s' (Function.update m w.1 w.2) := by
  obtain ⟨key, before⟩ := w
  obtain ⟨_, v, first, rest⟩ := bind_ok.mp run
  obtain ⟨-, rfl⟩ := pure_ok.mp rest
  split at first
  · rename_i b v done
    cases first
    exact models.undo_write done
  · rename_i e v fails
    split at first
    · rename_i gone
      obtain ⟨rfl, gone⟩ := gone
      cases first
      obtain ⟨absent, after⟩ := models.delete_absent fails gone
      rw [← absent, Function.update_eq_self]
      exact after
    · cases first

end Handle

/- Sessions. -/

namespace Session

variable {σ σ' τ : Session} {t : TxId} {e : SessionEvent}

def up (σ : Session) : Prop := σ.handle.needsReopen = false

structure Good (σ : Session) : Prop where
  healthy : Healthy σ.handle.store
  begun : ∀ t x, σ.handle.txns t = some x → x.undo ≠ [] → x.begun = true
  fresh : ∀ t, σ.handle.nextTxid ≤ t → σ.handle.txns t = none
  undoing : ∀ t l, σ.undoing t = some l → ∃ x, σ.handle.txns t = some x ∧ x.active = false ∧
    l <:+ x.undo.reverse

inductive Effect (σ σ' : Session) : Option TxId → Option Bytes → Prop
  | call {a : Option TxId} {k : Option Bytes} (undoing : σ'.undoing = σ.undoing)
    (effect : Handle.Effect σ.handle σ'.handle a k) : Effect σ σ' a k
  | stopped {t : TxId} {x : TxnImpl} (found : σ.handle.txns t = some x) (active : x.active = true)
    (txns : σ'.handle.txns = Function.update σ.handle.txns t (some { x with active := false }))
    (undoing : σ'.undoing = Function.update σ.undoing t (some x.undo.reverse)) (seen : σ'.seen = σ.seen) :
    Effect σ σ' (some t) none
  | undid {t : TxId} {w : Bytes × Option Bytes} {rest : List (Bytes × Option Bytes)}
    (pending : σ.undoing t = some (w :: rest)) (txns : σ'.handle.txns = σ.handle.txns)
    (undoing : σ'.undoing = Function.update σ.undoing t (some rest))
    (seen : σ'.seen = Function.update σ.seen w.1 w.2) : Effect σ σ' (some t) (some w.1)
  | ended {t : TxId} {x : TxnImpl} (pending : σ.undoing t = some []) (found : σ.handle.txns t = some x)
    (txns : σ'.handle.txns = Function.update σ.handle.txns t (some { x with active := false }))
    (undoing : σ'.undoing = Function.update σ.undoing t none) (seen : σ'.seen = σ.seen) :
    Effect σ σ' (some t) none

theorem step_up (run : σ.step e = some σ') (up : σ'.up) : σ.up := by
  cases e with
  | handle e =>
    obtain ⟨-, run⟩ := Option.ite_none_left_eq_some.mp run
    obtain ⟨h, next, rfl⟩ := Option.map_eq_some_iff.mp run
    exact Handle.next_up next up
  | abort t =>
    simp only [step] at run
    split at run
    · obtain ⟨-, eq⟩ := Option.ite_none_right_eq_some.mp run
      cases eq
      exact up
    · cases run
  | undo t io =>
    simp only [step] at run
    split at run
    · split at run
      · cases run
        exact up
      · cases run
        cases up
      · cases run
    · cases run
  | endAbort t =>
    simp only [step] at run
    split at run
    · rename_i x _ _
      cases run
      cases began : x.begun with
      | true => simpa [Session.up, began, Handle.ended, Handle.setTxn, Handle.logged] using up
      | false => simpa [Session.up, began, Handle.ended, Handle.setTxn] using up
    · cases run

theorem begun_update {h h' : Handle} {u : TxId} {x : TxnImpl}
    (begun : ∀ t x, h.txns t = some x → x.undo ≠ [] → x.begun = true) (found : h.txns u = some x)
    (txns : h'.txns = Function.update h.txns u (some { x with active := false })) :
    ∀ t x, h'.txns t = some x → x.undo ≠ [] → x.begun = true := by
  intro t y after writes
  rw [txns] at after
  by_cases same : t = u
  · subst same
    rw [Function.update_self] at after
    cases after
    exact begun t x found writes
  · rw [Function.update_of_ne same] at after
    exact begun t y after writes

theorem step_effect (good : Good σ) (run : σ.step e = some σ') (up : σ'.up) :
    σ.handle.nextTxid ≤ σ'.handle.nextTxid ∧ Healthy σ'.handle.store ∧
      (∀ t x, σ'.handle.txns t = some x → x.undo ≠ [] → x.begun = true) ∧
      Effect σ σ' e.author (e.writes σ) := by
  cases e with
  | handle e =>
    obtain ⟨cut, run⟩ := Option.ite_none_left_eq_some.mp run
    obtain ⟨h, next, rfl⟩ := Option.map_eq_some_iff.mp run
    obtain ⟨ids, effect⟩ := Handle.next_effect (σ := σ) good.healthy (by simpa using cut) next up
    have fit : h.Fit := Handle.Fit.next (.inr good.healthy) next
    exact ⟨ids, fit.resolve_left (by simpa [Session.up] using up), Handle.next_begun next good.begun,
      .call rfl effect⟩
  | abort t =>
    simp only [step] at run
    split at run
    · rename_i x found
      obtain ⟨active, eq⟩ := Option.ite_none_right_eq_some.mp run
      cases eq
      refine ⟨le_rfl, good.healthy, begun_update good.begun found rfl, .stopped found active rfl ?_ rfl⟩
      cases began : x.begun with
      | true => rfl
      | false =>
        have none : x.undo = [] := by
          by_contra some
          rw [good.begun t x found some] at began
          cases began
        rw [none]
        rfl
    · cases run
  | undo t io =>
    simp only [step] at run
    split at run
    · rename_i w rest x pending found
      split at run
      · rename_i u s done
        cases run
        have models := (Handle.models_seen good.healthy).facing io
        have after := Handle.rollback_one models done
        have writes : (SessionEvent.undo t io).writes σ = some w.1 := by
          simp [SessionEvent.writes, pending]
        rw [writes]
        exact ⟨le_rfl, Handle.rollback_healthy (good.healthy.facing io) done, good.begun,
          .undid pending rfl rfl (Handle.seen_eq after)⟩
      · cases run
        cases up
      · cases run
    · cases run
  | endAbort t =>
    simp only [step] at run
    split at run
    · rename_i x pending found
      cases run
      have quiet : Handle.Quiet σ.handle (if x.begun then σ.handle.logged t .abort else σ.handle) := by
        split
        · exact .logged _ _ _
        · exact .refl _
      have txns : Function.update (if x.begun then σ.handle.logged t .abort else σ.handle).txns t
          (some { x with active := false }) = Function.update σ.handle.txns t
            (some { x with active := false }) := by
        rw [quiet.txns]
      exact ⟨quiet.ids.ge, good.healthy.unmoved quiet.store, begun_update good.begun found txns,
        .ended pending found txns rfl (quiet.seen good.healthy)⟩
    · cases run

end Session

namespace Handle

variable {h h' : Handle} {t u : TxId} {x y : TxnImpl}

theorem undoOf_same (txns : h'.txns t = h.txns t) : h'.undoOf t = h.undoOf t := by rw [undoOf, undoOf, txns]

theorem undoOf_found (found : h.txns t = some x) : h.undoOf t = x.undo := by rw [undoOf, found]; rfl

theorem undoOf_update (txns : h'.txns = Function.update h.txns u (some y)) :
    h'.undoOf t = if t = u then y.undo else h.undoOf t := by
  by_cases same : t = u
  · subst same
    simp [undoOf, txns]
  · simp [undoOf, txns, same]

theorem Effect.idle {a : Option TxId} {k : Option Bytes} (effect : Effect h h' a k)
    (fresh : ∀ t, h.nextTxid ≤ t → h.txns t = none) (found : h.txns t = some x) (ended : x.active = false) :
    h'.txns t = some x := by
  have other : ∀ {u y}, h'.txns = Function.update h.txns u (some y) → u ≠ t → h'.txns t = some x := by
    intro u y txns ne
    rw [txns, Function.update_of_ne ne.symm, found]
  have running : ∀ {u y}, h.txns u = some y → y.active = true → u ≠ t := by
    rintro u y known active rfl
    obtain rfl := Option.some.inj (known.symm.trans found)
    rw [ended] at active
    cases active
  cases effect with
  | still txns _ => rw [txns, found]
  | wrote txns _ => rw [txns, found]
  | began txns _ _ _ =>
    apply other txns
    rintro rfl
    rw [fresh _ le_rfl] at found
    cases found
  | turned known active txns _ _ => exact other txns (running known active)
  | logged known active txns _ _ => exact other txns (running known active)

theorem Effect.fresh {a : Option TxId} {k : Option Bytes} (effect : Effect h h' a k)
    (ids : h.nextTxid ≤ h'.nextTxid) (fresh : ∀ t, h.nextTxid ≤ t → h.txns t = none) (t : TxId)
    (le : h'.nextTxid ≤ t) : h'.txns t = none := by
  have old := fresh t (ids.trans le)
  have other : ∀ {u y}, h'.txns = Function.update h.txns u (some y) → t ≠ u → h'.txns t = none := by
    intro u y txns ne
    rw [txns, Function.update_of_ne ne, old]
  have known : ∀ {u y}, h.txns u = some y → t ≠ u := by
    rintro u y found rfl
    rw [old] at found
    cases found
  cases effect with
  | still txns _ => rw [txns, old]
  | wrote txns _ => rw [txns, old]
  | began txns _ next _ =>
    apply other txns
    rintro rfl
    rw [next] at le
    exact absurd le (Nat.not_succ_le_self _)
  | turned found _ txns _ _ => exact other txns (known found)
  | logged found _ txns _ _ => exact other txns (known found)

end Handle

namespace Session

variable {σ σ' τ : Session} {t : TxId} {e : SessionEvent} {key : Bytes}

theorem Good.opened (s : Store) (options : Options) (healthy : Healthy s) : Good (opened s options) := by
  constructor
  · exact healthy
  · intro t x found
    cases found
  · intro t _
    rfl
  · intro t l pending
    cases pending

theorem Good.step (good : Good σ) (run : σ.step e = some σ') (up : σ'.up) : Good σ' := by
  obtain ⟨ids, healthy, begun, effect⟩ := step_effect good run up
  generalize e.author = a, e.writes σ = k at effect
  have fresh : ∀ t, σ'.handle.nextTxid ≤ t → σ'.handle.txns t = none := by
    intro t le
    have old := good.fresh t (ids.trans le)
    have known : ∀ {u y}, σ.handle.txns u = some y → t ≠ u := by
      rintro u y found rfl
      rw [old] at found
      cases found
    cases effect with
    | call _ effect => exact effect.fresh ids good.fresh t le
    | stopped found _ txns _ _ => rw [txns, Function.update_of_ne (known found), old]
    | undid _ txns _ _ => rw [txns, old]
    | ended _ found txns _ _ => rw [txns, Function.update_of_ne (known found), old]
  refine ⟨healthy, begun, fresh, ?_⟩
  intro t l pending
  cases effect with
  | call undoing effect =>
    rw [undoing] at pending
    obtain ⟨x, found, ended, suffix⟩ := good.undoing t l pending
    exact ⟨x, effect.idle good.fresh found ended, ended, suffix⟩
  | @stopped u x found active txns undoing _ =>
    rw [undoing] at pending
    by_cases same : t = u
    · subst same
      rw [Function.update_self] at pending
      obtain rfl := Option.some.inj pending
      exact ⟨{ x with active := false }, by rw [txns, Function.update_self], rfl, List.suffix_refl _⟩
    · rw [Function.update_of_ne same] at pending
      obtain ⟨y, found, ended, suffix⟩ := good.undoing t l pending
      exact ⟨y, by rw [txns, Function.update_of_ne same, found], ended, suffix⟩
  | @undid u w rest old txns undoing _ =>
    rw [undoing] at pending
    rw [txns]
    by_cases same : t = u
    · subst same
      rw [Function.update_self] at pending
      obtain rfl := Option.some.inj pending
      obtain ⟨y, found, ended, suffix⟩ := good.undoing t _ old
      exact ⟨y, found, ended, (List.suffix_cons w rest).trans suffix⟩
    · rw [Function.update_of_ne same] at pending
      exact good.undoing t l pending
  | @ended u x _ _ txns undoing _ =>
    rw [undoing] at pending
    by_cases same : t = u
    · subst same
      rw [Function.update_self] at pending
      cases pending
    · rw [Function.update_of_ne same] at pending
      obtain ⟨y, found, ended, suffix⟩ := good.undoing t l pending
      exact ⟨y, by rw [txns, Function.update_of_ne same, found], ended, suffix⟩

/-- `Abort` or `Commit` has returned. -/
def Ended (σ : Session) (t : TxId) : Prop :=
  (∃ x, σ.handle.txns t = some x ∧ x.active = false) ∧ σ.undoing t = none

theorem Ended.step (good : Good σ) (ended : Ended σ t) (run : σ.step e = some σ') (up : σ'.up) :
    Ended σ' t := by
  obtain ⟨⟨x, found, inactive⟩, none⟩ := ended
  obtain ⟨-, -, -, effect⟩ := step_effect good run up
  generalize e.author = a, e.writes σ = k at effect
  cases effect with
  | call undoing effect => exact ⟨⟨x, effect.idle good.fresh found inactive, inactive⟩, by rw [undoing, none]⟩
  | @stopped u y known active txns undoing _ =>
    have ne : t ≠ u := by
      rintro rfl
      obtain rfl := Option.some.inj (known.symm.trans found)
      rw [inactive] at active
      cases active
    exact ⟨⟨x, by rw [txns, Function.update_of_ne ne, found], inactive⟩, by
      rw [undoing, Function.update_of_ne ne, none]⟩
  | @undid u w rest old txns undoing _ =>
    have ne : t ≠ u := by
      rintro rfl
      rw [none] at old
      cases old
    exact ⟨⟨x, by rw [txns, found], inactive⟩, by rw [undoing, Function.update_of_ne ne, none]⟩
  | @ended u y old _ txns undoing _ =>
    have ne : t ≠ u := by
      rintro rfl
      rw [none] at old
      cases old
    exact ⟨⟨x, by rw [txns, Function.update_of_ne ne, found], inactive⟩, by
      rw [undoing, Function.update_of_ne ne, none]⟩

theorem Good.idle (good : Good σ) {x : TxnImpl} (found : σ.handle.txns t = some x)
    (active : x.active = true) :
    σ.undoing t = none := by
  cases pending : σ.undoing t with
  | none => rfl
  | some l =>
    obtain ⟨z, known, ended, -⟩ := good.undoing t l pending
    obtain rfl := Option.some.inj (known.symm.trans found)
    rw [ended] at active
    cases active

/- The map without the transaction. -/

/-- The inverse writes of the list, in this order. -/
def restore (l : List (Bytes × Option Bytes)) (m : RefMap) : RefMap :=
  l.foldl (fun m w => Function.update m w.1 w.2) m

theorem restore_apart {l : List (Bytes × Option Bytes)} {m : RefMap} (apart : key ∉ l.map Prod.fst) :
    restore l m key = m key := by
  induction l generalizing m with
  | nil => rfl
  | cons w rest ih =>
    rw [List.map_cons, List.mem_cons, not_or] at apart
    have rest := ih (m := Function.update m w.1 w.2) apart.2
    rw [Function.update_of_ne apart.1] at rest
    exact rest

theorem restore_congr {l : List (Bytes × Option Bytes)} {m m' : RefMap} (same : m' key = m key) :
    restore l m' key = restore l m key := by
  induction l generalizing m m' with
  | nil => exact same
  | cons w rest ih =>
    apply ih
    dsimp only
    by_cases here : key = w.1
    · subst here
      rw [Function.update_self, Function.update_self]
    · rw [Function.update_of_ne here, Function.update_of_ne here, same]

/-- The inverse writes that `Abort` has still to make, or would have to. -/
def pending (σ : Session) (t : TxId) : List (Bytes × Option Bytes) :=
  (σ.undoing t).getD (σ.handle.undoOf t).reverse

def without (σ : Session) (t : TxId) : RefMap := restore (σ.pending t) σ.seen

theorem Good.pending_suffix (good : Good σ) (t : TxId) : σ.pending t <:+ (σ.handle.undoOf t).reverse := by
  cases going : σ.undoing t with
  | none =>
    rw [pending, going]
    exact List.suffix_refl _
  | some l =>
    obtain ⟨x, found, -, suffix⟩ := good.undoing t l going
    rw [pending, going, Handle.undoOf_found found]
    exact suffix

theorem Good.pending_touched (good : Good σ) {w : Bytes × Option Bytes} (mem : w ∈ σ.pending t) :
    w.1 ∈ σ.touched t :=
  List.mem_map_of_mem (List.mem_reverse.mp ((good.pending_suffix t).subset mem))

theorem Effect.undoOf {a : Option TxId} {k : Option Bytes} (good : Good σ)
    (effect : Effect σ σ' a k) (t : TxId) :
    σ'.handle.undoOf t = σ.handle.undoOf t ∨
      ∃ key, a = some t ∧ k = some key ∧ σ.undoing t = none ∧ σ'.undoing t = none ∧
        σ'.handle.undoOf t = σ.handle.undoOf t ++ [(key, σ.seen key)] := by
  have kept : ∀ {u x y}, σ.handle.txns u = some x →
    σ'.handle.txns = Function.update σ.handle.txns u (some y) →
      y.undo = x.undo → σ'.handle.undoOf t = σ.handle.undoOf t := by
    intro u x y found txns undo
    rw [Handle.undoOf_update txns]
    split
    · rename_i same
      rw [undo, same, Handle.undoOf_found found]
    · rfl
  cases effect with
  | call undoing effect =>
    cases effect with
    | still txns _ => exact .inl (Handle.undoOf_same (by rw [txns]))
    | wrote txns _ => exact .inl (Handle.undoOf_same (by rw [txns]))
    | began txns undo _ _ =>
      refine .inl ?_
      rw [Handle.undoOf_update txns]
      split
      · rename_i same
        rw [undo, same, Handle.undoOf, good.fresh _ le_rfl]
        rfl
      · rfl
    | turned found _ txns undo _ => exact .inl (kept found txns undo)
    | @logged u x y key value found active txns undo _ =>
      by_cases same : t = u
      · subst same
        have idle := good.idle found active
        refine .inr ⟨key, rfl, rfl, idle, by rw [undoing, idle], ?_⟩
        rw [Handle.undoOf_update txns, if_pos rfl, undo, Handle.undoOf_found found]
        rfl
      · exact .inl (by rw [Handle.undoOf_update txns, if_neg same])
  | stopped found _ txns _ _ => exact .inl (kept found txns rfl)
  | undid _ txns _ _ => exact .inl (Handle.undoOf_same (by rw [txns]))
  | ended _ found txns _ _ => exact .inl (kept found txns rfl)

theorem Effect.seen_apart {a : Option TxId} {k : Option Bytes} (effect : Effect σ σ' a k) (apart : key ∉ k) :
    σ'.seen key = σ.seen key := by
  have other : ∀ {key' value}, k = some key' → σ'.seen = Function.update σ.seen key' value →
      σ'.seen key = σ.seen key := by
    rintro key' value rfl seen
    rw [seen, Function.update_of_ne]
    rintro rfl
    exact apart rfl
  cases effect with
  | call _ effect =>
    cases effect with
    | still _ seen => exact congrFun seen key
    | wrote _ seen => exact other rfl seen
    | began _ _ _ seen => exact congrFun seen key
    | turned _ _ _ _ seen => exact congrFun seen key
    | logged _ _ _ _ seen => exact other rfl seen
  | stopped _ _ _ _ seen => exact congrFun seen key
  | undid _ _ _ seen => exact other rfl seen
  | ended _ _ _ _ seen => exact congrFun seen key

theorem Effect.pending_other {a : Option TxId} {k : Option Bytes} (good : Good σ) (effect : Effect σ σ' a k)
    (ne : a ≠ some t) : σ'.pending t = σ.pending t := by
  have undo : σ'.handle.undoOf t = σ.handle.undoOf t := by
    rcases effect.undoOf good t with same | ⟨_, own, -⟩
    · exact same
    · exact absurd own ne
  have undoing : σ'.undoing t = σ.undoing t := by
    have other : ∀ {u : TxId}, some u ≠ some t → t ≠ u := by
      rintro u ne rfl
      exact ne rfl
    cases effect with
    | call undoing _ => rw [undoing]
    | stopped _ _ _ undoing _ => rw [undoing, Function.update_of_ne (other ne)]
    | undid _ _ undoing _ => rw [undoing, Function.update_of_ne (other ne)]
    | ended _ _ _ undoing _ => rw [undoing, Function.update_of_ne (other ne)]
  rw [pending, pending, undo, undoing]

theorem Effect.without_own {k : Option Bytes} (good : Good σ) (effect : Effect σ σ' (some t) k)
    (going : ¬ Ended σ' t) : σ'.without t = σ.without t := by
  have quiet : σ'.undoing t = σ.undoing t → σ'.handle.undoOf t = σ.handle.undoOf t → σ'.seen = σ.seen →
      σ'.without t = σ.without t := by
    intro undoing undo seen
    rw [without, without, pending, pending, undoing, undo, seen]
  have undo := effect.undoOf good t
  cases effect with
  | call undoing effect =>
    cases effect with
    | still txns seen => exact quiet (by rw [undoing]) (Handle.undoOf_same (by rw [txns])) seen
    | turned found _ txns same seen =>
      refine quiet (by rw [undoing]) ?_ seen
      rw [Handle.undoOf_update txns, if_pos rfl, same, Handle.undoOf_found found]
    | @logged _ x y key value found active txns list seen =>
      have old := Handle.undoOf_found found
      have new : σ'.handle.undoOf t = x.undo ++ [(key, σ.seen key)] := by
        rw [Handle.undoOf_update txns, if_pos rfl, list]
        rfl
      obtain same | ⟨_, -, -, idle, idle', -⟩ := undo
      · rw [new, old] at same
        exact absurd same (by simp)
      · -- the new entry puts back what the write has just replaced
        have seen' : σ'.seen = Function.update σ.seen key value := seen
        have back : Function.update σ'.seen key (σ.seen key) = σ.seen := by
          rw [seen', Function.update_idem, Function.update_eq_self]
        rw [without, without, pending, pending, idle, idle', new, old]
        simp only [Option.getD_none, List.reverse_append, List.reverse_cons, List.reverse_nil,
          List.nil_append,
          List.singleton_append]
        exact congrArg (restore x.undo.reverse) back
  | @stopped _ x found active txns undoing seen =>
    rw [without, without, pending, pending, undoing, Function.update_self, good.idle found active, seen,
      Handle.undoOf_found found]
    rfl
  | undid old _ undoing seen =>
    rw [without, without, pending, pending, undoing, Function.update_self, old, seen]
    rfl
  | @ended _ x _ _ txns undoing _ =>
    exact absurd ⟨⟨_, by rw [txns, Function.update_self], rfl⟩, by rw [undoing, Function.update_self]⟩ going

/- Runs. -/

variable {events : List SessionEvent}

theorem run_up (reach : run step σ events = some τ) (up : τ.up) : σ.up := by
  induction events generalizing σ with
  | nil =>
    obtain rfl := Option.some.inj reach
    exact up
  | cons e rest ih =>
    obtain ⟨σ', first, reach⟩ := Option.bind_eq_some_iff.mp reach
    exact step_up first (ih reach)

theorem Good.run (good : Good σ) (reach : MachineLib.run Session.step σ events = some τ)
    (up : τ.up) : Good τ := by
  induction events generalizing σ with
  | nil =>
    obtain rfl := Option.some.inj reach
    exact good
  | cons e rest ih =>
    obtain ⟨σ', first, reach⟩ := Option.bind_eq_some_iff.mp reach
    exact ih (good.step first (run_up reach up)) reach

theorem Ended.run (good : Good σ) (ended : Ended σ t) (reach : MachineLib.run Session.step σ events = some τ)
    (up : τ.up) : Ended τ t := by
  induction events generalizing σ with
  | nil =>
    obtain rfl := Option.some.inj reach
    exact ended
  | cons e rest ih =>
    obtain ⟨σ', first, reach⟩ := Option.bind_eq_some_iff.mp reach
    have up' := run_up reach up
    exact ih (good.step first up') (ended.step good first up') reach

theorem touched_step (good : Good σ) (taken : σ.step e = some σ') (up : σ'.up) :
    σ.touched t ⊆ σ'.touched t := by
  obtain ⟨-, -, -, effect⟩ := step_effect good taken up
  rcases effect.undoOf good t with same | ⟨_, -, -, -, -, grown⟩
  · rw [touched, touched, same]
    exact List.Subset.refl _
  · rw [touched, touched, grown, List.map_append]
    exact List.subset_append_left _ _

theorem touched_run (good : Good σ) (reach : run step σ events = some τ) (up : τ.up) :
    σ.touched t ⊆ τ.touched t := by
  induction events generalizing σ with
  | nil =>
    obtain rfl := Option.some.inj reach
    exact List.Subset.refl _
  | cons e rest ih =>
    obtain ⟨σ', first, reach⟩ := Option.bind_eq_some_iff.mp reach
    have up' := run_up reach up
    exact List.Subset.trans (touched_step good first up') (ih (good.step first up') reach)

theorem without_step (good : Good σ) (taken : σ.step e = some σ') (up : σ'.up) (apart : e.Apart t σ)
    (going : ¬ Ended σ' t) (mem : key ∈ σ.touched t) : σ'.without t key = σ.without t key := by
  obtain ⟨-, -, -, effect⟩ := step_effect good taken up
  by_cases own : e.author = some t
  · rw [own] at effect
    exact congrFun (effect.without_own good going) key
  · rw [without, without, effect.pending_other good own]
    apply restore_congr
    exact effect.seen_apart fun writes => apart own key writes mem

/-- Once the transaction has written a key, what would be left of it without the transaction stays. -/
theorem without_run (good : Good σ) (reach : run step σ events = some τ) (up : τ.up)
    (apart : EveryStep step (SessionEvent.Apart t) σ events) (going : ¬ Ended τ t) (mem : key ∈ σ.touched t) :
    τ.without t key = σ.without t key := by
  induction events generalizing σ with
  | nil =>
    obtain rfl := Option.some.inj reach
    rfl
  | cons e rest ih =>
    obtain ⟨σ', first, reach⟩ := Option.bind_eq_some_iff.mp reach
    obtain ⟨here, apart⟩ := apart σ' first
    have up' := run_up reach up
    have good' := good.step first up'
    have going' : ¬ Ended σ' t := fun ended => going (Ended.run good' ended reach up)
    rw [ih good' reach apart (touched_step good first up' mem)]
    exact without_step good first up' here going' mem

theorem first_write (good : Good σ) (reach : run step σ events = some τ) (up : τ.up)
    (apart : EveryStep step (SessionEvent.Apart t) σ events) (going : ¬ Ended τ t)
      (before : key ∉ σ.touched t)
    (after : key ∈ τ.touched t) : ∃ a e b g g', events = a ++ e :: b ∧ run step σ a = some g ∧
      g.step e = some g' ∧
      e.author = some t ∧ e.writes g = some key ∧ key ∉ g.touched t ∧ key ∈ g'.touched t ∧
      τ.without t key = g.seen key := by
  induction events generalizing σ with
  | nil =>
    obtain rfl := Option.some.inj reach
    exact absurd after before
  | cons e rest ih =>
    obtain ⟨σ', first, reach⟩ := Option.bind_eq_some_iff.mp reach
    obtain ⟨here, apart⟩ := apart σ' first
    have up' := run_up reach up
    have good' := good.step first up'
    have going' : ¬ Ended σ' t := fun ended => going (Ended.run good' ended reach up)
    by_cases now : key ∈ σ'.touched t
    · obtain ⟨-, -, -, effect⟩ := step_effect good first up'
      rcases effect.undoOf good t with same | ⟨key', own, writes, -, -, grown⟩
      · rw [touched, same] at now
        exact absurd now before
      · obtain rfl : key = key' := by
          have new := now
          rw [touched, grown, List.map_append, List.mem_append] at new
          simpa using new.resolve_left before
        refine ⟨[], e, rest, σ, σ', rfl, rfl, first, own, writes, before, now, ?_⟩
        rw [own] at effect
        rw [without_run good' reach up apart going now, effect.without_own good going', without]
        apply restore_apart
        intro mem
        obtain ⟨w, member, rfl⟩ := List.mem_map.mp mem
        exact before (good.pending_touched member)
    · obtain ⟨a, e', b, g, g', rfl, run, taken, own, writes, fresh, wrote, value⟩ := ih good' reach apart now
      refine ⟨e :: a, e', b, g, g', rfl, ?_, taken, own, writes, fresh, wrote, value⟩
      exact Option.bind_eq_some_iff.mpr ⟨σ', first, run⟩

theorem own_step (good : Good σ) (taken : σ.step e = some σ') (up : σ'.up) (own : e.author = some t)
    (untouched : key ∉ σ'.touched t) : σ'.seen key = σ.seen key := by
  have grows := touched_step (t := t) good taken up
  obtain ⟨-, -, -, effect⟩ := step_effect good taken up
  have grown := effect.undoOf good t
  rw [own] at effect grown
  generalize e.writes σ = k at effect grown
  cases effect with
  | call undoing effect =>
    cases effect with
    | still _ seen => exact congrFun seen key
    | turned _ _ _ _ seen => exact congrFun seen key
    | @logged _ x y key' value found _ txns undo seen =>
      have written : key' ∈ σ'.touched t := by
        rw [touched, Handle.undoOf_update txns, if_pos rfl, undo]
        simp
      have ne : key ≠ key' := fun same => untouched (same ▸ written)
      exact (congrFun seen key).trans (Function.update_of_ne ne _ _)
  | stopped _ _ _ _ seen => exact congrFun seen key
  | @undid _ w rest old _ _ seen =>
    have member : w ∈ σ.pending t := by
      rw [pending, old]
      exact List.mem_cons_self
    have ne : key ≠ w.1 := fun same => untouched (grows (same ▸ good.pending_touched member))
    rw [seen, Function.update_of_ne ne]
  | ended _ _ _ _ seen => exact congrFun seen key

theorem Good.count (good : Good σ) : ∃ live : List Bytes, live.Nodup ∧
    (∀ key, key ∈ live ↔ (σ.seen key).isSome) ∧ σ.handle.store.metaPage.numKeys = live.length := by
  obtain ⟨m, entries, rep, agree⟩ := good.healthy.models
  have seen : σ.seen = m := Handle.seen_eq ⟨entries, rep, agree⟩
  refine ⟨entries.map Prod.fst, rep.asc.imp fun lt => lt.ne, ?_, ?_⟩
  · intro key
    rw [seen, ← agree, List.mem_map, Option.isSome_iff_exists]
    constructor
    · rintro ⟨r, mem, rfl⟩
      exact ⟨r.2, (lookup_eq_some_iff_mem rep.asc).mpr mem⟩
    · rintro ⟨value, found⟩
      exact ⟨_, (lookup_eq_some_iff_mem rep.asc).mp found, rfl⟩
  · rw [List.length_map]
    exact rep.count

end Session

open Session in
/-- Over a handle of any sound tree, among any steps of others on other keys. -/
theorem abort_is_exact_rollback (s : Store) (options : Options) (healthy : Healthy s) (t : TxId)
    (events : List SessionEvent) {σ σ' : Session}
    (apart : EveryStep Session.step (SessionEvent.Apart t) (Session.opened s options) events)
    (reach : run Session.step (Session.opened s options) events = some σ)
      (returns : σ.step (.endAbort t) = some σ')
    (up : σ'.handle.needsReopen = false) : RolledBack t (Session.opened s options) events σ σ' := by
  have good₀ := Good.opened s options healthy
  have up₁ := step_up returns up
  have good := good₀.run reach up₁
  have whole : run Session.step (Session.opened s options) (events ++ [.endAbort t]) = some σ' := by
    rw [run_append, reach, Option.bind_some]
    exact Option.bind_eq_some_iff.mpr ⟨σ', returns, rfl⟩
  have pending : σ.undoing t = some [] := by
    simp only [Session.step] at returns
    split at returns
    · assumption
    · cases returns
  have going : ¬ Ended σ t := by
    rintro ⟨-, none⟩
    rw [none] at pending
    cases pending
  have done : σ.without t = σ.seen := by
    rw [without, Session.pending, pending]
    rfl
  obtain ⟨-, -, -, effect⟩ := step_effect good returns up
  constructor
  · intro key mem
    obtain ⟨a, e, b, g, g', cut, part, taken, own, writes, fresh, wrote, value⟩ :=
      first_write good₀ reach up₁ apart going
        (by simp [touched, Handle.undoOf, Session.opened, Handle.opened]) mem
    refine ⟨a, e, b, g, g', cut, part, taken, own, writes, fresh, wrote, ?_⟩
    rw [effect.seen_apart (by simp [SessionEvent.writes]), ← value, done]
  · intro key untouched a e b g g' cut part taken own
    rw [cut, run_append, part, Option.bind_some] at whole
    obtain ⟨ρ, first, rest⟩ := Option.bind_eq_some_iff.mp whole
    obtain rfl := Option.some.inj (taken.symm.trans first)
    have up' := run_up rest up
    have good' := good₀.run part (step_up taken up')
    apply own_step good' taken up' own
    intro member
    have last := touched_run (t := t) (good'.step taken up') rest up member
    rcases effect.undoOf good t with same | ⟨_, -, writes, -⟩
    · rw [touched, same] at last
      exact untouched last
    · cases writes
  · exact (good.step returns up).count

/-- A transaction that replaces one value and inserts a key, with an autocommit Put in between. -/
def shortSession : List SessionEvent :=
  [.handle (.call (.put [1] [5] [] none)), .handle (.call (.begin kInvalidTxId)),
    .handle (.call (.txnPut 2 [1] [6] false [])), .handle (.call (.put [3] [9] [] none)),
    .handle (.call (.txnPut 2 [2] [7] false [])), .abort 2, .undo 2 [], .undo 2 []]

theorem short_session_rolled_back : ∃ σ σ',
    run Session.step (.opened (create ⟨100, by decide⟩ (some (.open [] 1))) ⟨true, 0⟩) shortSession = some σ ∧
    σ.step (.endAbort 2) = some σ' ∧ σ'.seen [1] = some [5] ∧ σ'.seen [2] = none ∧
    Session.RolledBack 2 (.opened (create ⟨100, by decide⟩ (some (.open [] 1)))
      ⟨true, 0⟩) shortSession σ σ' := by
  have outcome : ((run Session.step (.opened (create ⟨100, by decide⟩ (some (.open [] 1))) ⟨true, 0⟩)
      shortSession).bind fun σ => σ.step (.endAbort 2)).map
        (fun σ => (σ.handle.needsReopen, σ.seen [1], σ.seen [2])) = some (false, some [5], none) := by
    decide +kernel
  obtain ⟨σ', returns, values⟩ := Option.map_eq_some_iff.mp outcome
  obtain ⟨σ, reach, returns⟩ := Option.bind_eq_some_iff.mp returns
  obtain ⟨up, one, two⟩ : σ'.handle.needsReopen = false ∧ σ'.seen [1] = some [5] ∧ σ'.seen [2] = none := by
    simpa using values
  exact ⟨σ, σ', reach, returns, one, two, abort_is_exact_rollback _ _ (healthy_create _ _) 2 shortSession
    (by decide +kernel) reach returns up⟩

end PagerDB

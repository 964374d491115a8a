import PagerDB.BTree.Scan
import PagerDB.Lib.Machine

/-! The tree as an ordered map. A run is a sequence of Put and Delete calls, each
meeting its own pattern of faults and ending well, with frames written back and
dropped in between; beside it runs the reference map. -/
namespace PagerDB

open MachineLib SortedLib Store

abbrev RefMap := Bytes → Option Bytes

inductive Call where
  | put (key value : Bytes)
  | delete (key : Bytes)
  deriving DecidableEq

def Call.perform (txid : TxId) (wantBefore : Bool) : Call → M (Option Bytes)
  | put key value => treePut key value txid wantBefore
  | delete key => treeDelete key txid wantBefore

def Call.apply : Call → RefMap → RefMap
  | put key value, m => Function.update m key (some value)
  | delete key, m => Function.update m key none

def Call.mayEndWith : Call → Failure → Bool
  | put .., _ => false
  | delete _, e => isNotFound e

inductive Event where
  | call (c : Call) (txid : TxId) (wantBefore : Bool) (io : List (Option Fault))
  | evict (pid : PageId)

namespace Store

/-- The store with the faults its next call will meet. -/
def facing (s : Store) (io : List (Option Fault)) : Store := { s with io := io }

def evict (s : Store) (pid : PageId) : Option Store :=
  match s.cache pid with
  | none => none
  | some f =>
    if f.dirty ∨ s.disk pid = some f.page then
      some { s.setDisk pid (some f.page) with
        cache := fun q => if q = pid then none else s.cache q }
    else none

/-- A database as `Open` creates it, with or without a log. -/
def create (vol : Volume) (wal : Option LogWriter) : Store :=
  ⟨fun _ => none, fun _ => none, kFirstDataPage, .init, fun _ => some .init, wal, vol, []⟩

end Store

/-- `none` when the call fails, which ends the run. -/
def treeStep : Store × RefMap → Event → Option (Store × RefMap)
  | (s, m), .call c txid wantBefore io =>
    match c.perform txid wantBefore (s.facing io) with
    | .ok _ s' => some (s', c.apply m)
    | .error e s' => if c.mayEndWith e then some (s', m) else none
  | (s, m), .evict pid => (s.evict pid).map fun s' => (s', m)

/-- What a caller can observe. Under faults a read may fail in other ways, but an answer
it gives is right. -/
structure Agrees (s : Store) (m : RefMap) : Prop where
  get : ∀ key io, match treeGet key (s.facing io) with
    | .ok value _ => m key = some value
    | .error e _ => (isNotFound e = true → m key = none) ∧ (io = [] → isNotFound e = true)
  contains : ∀ key, ∃ s', treeContains key (s.facing []) = .ok (m key).isSome s'
  delete : ∀ key txid wantBefore io, match treeDelete key txid wantBefore (s.facing io) with
    | .ok before _ => m key ≠ none ∧ before = if wantBefore then m key else none
    | .error e s' => (isNotFound e = true → m key = none ∧ Untouched s s') ∧
        (io = [] → isNotFound e = true)
  scan : ∀ start endKey, ∃ seen s',
    scan start endKey (fun _ _ => true) (s.facing []) = .ok (seen, none) s' ∧
      (seen.map Prod.fst).Pairwise (· < ·) ∧
      ∀ key value, (key, value) ∈ seen ↔
        m key = some value ∧ start ≤ key ∧ (endKey ≠ [] → key < endKey)

/-- The invariant: the store represents the reference map. -/
def Models (s : Store) (m : RefMap) : Prop :=
  ∃ entries, Represents s entries ∧ ∀ key, entries.lookup key = m key

variable {s s' : Store} {m : RefMap} {entries : List (Bytes × Bytes)}

theorem Sound.facing (sound : Sound s) (io : List (Option Fault)) : Sound (s.facing io) :=
  ⟨sound.free, sound.first, sound.limit, sound.readable⟩

theorem Represents.facing (rep : Represents s entries) (io : List (Option Fault)) :
    Represents (s.facing io) entries := by
  refine ⟨rep.sound.facing io, rep.count, ?_⟩
  rcases rep.tree with empty | ⟨h, tree, eq⟩
  · exact .inl empty
  · exact .inr ⟨h, ⟨tree.inner, tree.nodup, tree.range, tree.row, tree.accounted⟩, eq⟩

theorem evict_same {pid : PageId} (run : s.evict pid = some s') : Same s s' := by
  unfold Store.evict at run
  cases frame : s.cache pid with
  | none =>
    simp only [frame] at run
    cases run
  | some f =>
    simp only [frame, Option.ite_none_right_eq_some, Option.some.injEq] at run
    obtain ⟨-, rfl⟩ := run
    have view : ∀ q, Store.view { s.setDisk pid (some f.page) with
        cache := fun q => if q = pid then none else s.cache q } q = s.view q := by
      intro q
      by_cases e : q = pid
      · subst e
        simp [Store.view, Store.setDisk, frame]
      · simp [Store.view, Store.setDisk, e]
    refine ⟨funext fun q => by simp only [Store.bodies, view], fun q acc => by rwa [view], rfl, ?_,
      rfl, id⟩
    intro q readable
    by_cases e : q = pid
    · simp [Store.setDisk, e]
    · simpa [Store.setDisk, e] using readable

theorem create_models (vol : Volume) (wal : Option LogWriter) :
    Models (create vol wal) fun _ => none := by
  refine ⟨[], ⟨⟨rfl, le_rfl, (by decide : kFirstDataPage ≤ kInvalidPageId), ?_⟩, rfl,
    .inl ⟨rfl, rfl⟩⟩, fun _ => rfl⟩
  intro p lo hi
  exact absurd hi (not_lt.mpr lo)

theorem treeStep_models {ev : Event} {t : Store × RefMap} (models : Models s m)
    (step : treeStep (s, m) ev = some t) : Models t.1 t.2 := by
  obtain ⟨entries, rep, agree⟩ := models
  cases ev with
  | evict pid =>
    obtain ⟨s', run, rfl⟩ := Option.map_eq_some_iff.mp step
    exact ⟨entries, rep.same (evict_same run), agree⟩
  | call c txid wantBefore io =>
    have rep' := rep.facing io
    cases c with
    | put key value =>
      simp only [treeStep, Call.perform] at step
      cases run : treePut key value txid wantBefore (s.facing io) with
      | error e u => simp [run, Call.mayEndWith] at step
      | ok b u =>
        simp only [run, Option.some.injEq] at step
        subst step
        obtain ⟨-, entries', after, put⟩ := treePut_ok rep' run
        refine ⟨entries', after, fun k => ?_⟩
        simp only [put k, Call.apply, Function.update_apply, agree]
    | delete key =>
      simp only [treeStep, Call.perform] at step
      have removal := treeDelete_removal rep' key txid wantBefore
      generalize treeDelete key txid wantBefore (s.facing io) = out at removal step
      cases removal with
      | removed look after erased =>
        simp only [Option.some.injEq] at step
        subst step
        refine ⟨_, after, fun k => ?_⟩
        simp only [erased k, Call.apply, Function.update_apply, agree]
      | absent look same untouched =>
        obtain ⟨-, eq⟩ := Option.ite_none_right_eq_some.mp step
        cases eq
        exact ⟨entries, rep'.same same, agree⟩
      | fault foreign some => simp [Call.mayEndWith, foreign] at step

theorem Models.agrees (models : Models s m) : Agrees s m := by
  obtain ⟨entries, rep, agree⟩ := models
  refine ⟨?_, ?_, ?_, ?_⟩
  · intro key io
    have answer := treeGet_answer (rep.facing io) key
    generalize treeGet key (s.facing io) = out at answer
    rw [agree] at answer
    cases answer with
    | value found _ => exact found
    | absent found _ => exact ⟨fun _ => found, fun _ => rfl⟩
    | fault foreign some =>
      refine ⟨fun is => ?_, fun none => absurd none some⟩
      rw [foreign] at is
      cases is
  · intro key
    have answer := treeGet_answer (rep.facing []) key
    unfold treeContains
    generalize treeGet key (s.facing []) = out at answer
    rw [agree] at answer
    cases answer with
    | value found _ => exact ⟨_, by rw [found]; rfl⟩
    | absent found _ => exact ⟨_, by rw [found]; rfl⟩
    | fault foreign some => exact absurd rfl some
  · intro key txid wantBefore io
    have removal := treeDelete_removal (rep.facing io) key txid wantBefore
    generalize treeDelete key txid wantBefore (s.facing io) = out at removal
    cases removal with
    | removed look _ _ =>
      rw [agree] at look
      exact ⟨by simp [look], by rw [look]⟩
    | absent look _ untouched =>
      rw [agree] at look
      exact ⟨fun _ => ⟨look, untouched.view, untouched.metaPage, untouched.wal⟩, fun _ => rfl⟩
    | fault foreign some =>
      refine ⟨fun is => ?_, fun none => absurd none some⟩
      rw [foreign] at is
      cases is
  · intro start endKey
    obtain ⟨s', -, run⟩ := scan_shows (rep.facing []) rfl start endKey fun _ _ => true
    have asc : ((entries.filter (fun r => start ≤ r.1)).map Prod.fst).Pairwise (· < ·) :=
      rep.asc.sublist (List.filter_sublist.map _)
    rw [shown_all asc] at run
    refine ⟨_, s', run, asc.sublist (List.filter_sublist.map _), fun key value => ?_⟩
    rw [← agree, lookup_eq_some_iff_mem rep.asc]
    simp only [List.mem_filter, decide_eq_true_eq, imp_iff_not_or, not_not, ne_eq]
    tauto

/-- Every prefix of a run of Put and Delete calls agrees with the reference map. -/
theorem tree_is_ordered_map (vol : Volume) (wal : Option LogWriter) (events : List Event) :
    EveryState treeStep (fun x => Agrees x.1 x.2) (create vol wal, fun _ => none) events := by
  have always : EveryState treeStep (fun x => Models x.1 x.2) (create vol wal, fun _ => none) events :=
    everyState_invariant (fun _ _ _ models step => treeStep_models models step)
      (create_models vol wal)
  exact always.imp fun _ => Models.agrees

end PagerDB

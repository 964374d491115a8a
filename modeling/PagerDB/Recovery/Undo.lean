import PagerDB.BTree.Composed
import PagerDB.Db.StatusOutcome
import PagerDB.BTree.PutRoom
import PagerDB.Recovery.Losers
import PagerDB.Txn.Serializable

/-! The undo of losers in `DbImpl::Recover`. Newest first, the oldest record of a key is undone last, so
the key ends with that record's before-image; the inverse records of an unfinished `Abort`, which carry
none, are newer than the writes they invert. -/
namespace PagerDB

open KeepsLib MachineLib Store

/- The undo. -/

def tolerant (op : M (Option Bytes)) : M Unit := fun s =>
  match op s with
  | .ok _ s => .ok () s
  | .error e s => if isNotFound e then .ok () s else .error e s

def undoRecord (undoTxid : TxId) : LogBody → M Unit
  | .put _ key _ (some before) => tolerant (treePut key before undoTxid false)
  | .put _ key _ none => tolerant (treeDelete key undoTxid false)
  | .delete _ key (some before) => treePut key before undoTxid false >>= fun _ => pure ()
  | _ => pure ()

def undoLoop (undoTxid : TxId) : List LogRecord → M Unit
  | [] => pure ()
  | r :: rest => do
    undoRecord undoTxid r.body
    undoLoop undoTxid rest

def undoLosers (undoTxid : TxId) (checkpoint : Lsn) (records : List LogRecord) : M Unit :=
  undoLoop undoTxid (lost checkpoint records).reverse

/- What the log tells of the losers. -/

structure Write where
  key : Bytes
  after : Option Bytes
  before : Option Bytes
  deriving DecidableEq

def LogBody.write : LogBody → Option Write
  | .put _ key value before => some ⟨key, some value, before⟩
  | .delete _ key before => some ⟨key, none, before⟩
  | _ => none

/-- The record that `Abort` leaves of its inverse write. -/
def Write.inverse (w : Write) : Write := ⟨w.key, w.before, none⟩

/-- Each before-image is the value just before the write; only keys that are there are deleted. -/
def Faithful : RefMap → List Write → Prop
  | _, [] => True
  | m, w :: rest => w.before = m w.key ∧ (w.after = none → w.before ≠ none) ∧
    Faithful (Function.update m w.key w.after) rest

/-- The writes of one loser, then those inverse records of an unfinished `Abort` that no page image
has stood in for. -/
def OwnLog (origin : RefMap) (own : List Write) : Prop :=
  ∃ writes inverses, own = writes ++ inverses ∧ Faithful origin writes ∧
    inverses.Sublist (writes.reverse.map Write.inverse)

def writesOf (records : List LogRecord) : List Write := records.filterMap fun r => r.body.write

structure LoserLog (checkpoint : Lsn) (records : List LogRecord) (origin : TxId → RefMap) : Prop where
  own : ∀ t, isLoser checkpoint records t = true →
    OwnLog (origin t) (writesOf ((lost checkpoint records).filter (·.txid = t)))
  disjoint : ∀ r ∈ lost checkpoint records, ∀ q ∈ lost checkpoint records, ∀ v w,
    r.body.write = some v → q.body.write = some w → v.key = w.key → r.txid = q.txid

structure Restored (checkpoint : Lsn) (records : List LogRecord) (origin : TxId → RefMap)
    (m m' : RefMap) : Prop where
  undone : ∀ r ∈ lost checkpoint records, ∀ w, r.body.write = some w → m' w.key = origin r.txid w.key
  kept : ∀ key, (∀ w ∈ writesOf (lost checkpoint records), w.key ≠ key) → m' key = m key

/- On maps. -/

/-- The undo of one write; an inverse record of a delete tells nothing to undo. -/
def Write.undo (w : Write) (m : RefMap) : RefMap :=
  if w.after = none ∧ w.before = none then m else Function.update m w.key w.before

/-- Newest first: the head of the log comes last. -/
def undoWrites (ws : List Write) (m : RefMap) : RefMap := ws.foldr Write.undo m

variable {origin m : RefMap} {ws : List Write} {w : Write} {key : Bytes}

theorem Write.undo_other (ne : key ≠ w.key) : w.undo m key = m key := by
  unfold Write.undo
  split
  · rfl
  · exact Function.update_of_ne ne _ _

theorem undoWrites_other (apart : ∀ w ∈ ws, w.key ≠ key) : undoWrites ws m key = m key := by
  induction ws with
  | nil => rfl
  | cons w rest ih =>
    have ne := (apart w List.mem_cons_self).symm
    exact (Write.undo_other ne).trans (ih fun v mem => apart v (List.mem_cons_of_mem _ mem))

theorem undoWrites_first {a b : List Write} (apart : ∀ v ∈ a, v.key ≠ w.key)
    (tells : w.after = none → w.before ≠ none) : undoWrites (a ++ w :: b) m w.key = w.before := by
  induction a with
  | nil =>
    have undoes : ¬ (w.after = none ∧ w.before = none) := fun both => tells both.1 both.2
    change Write.undo w _ w.key = _
    rw [Write.undo, if_neg undoes, Function.update_self]
  | cons v rest ih =>
    have ne := (apart v List.mem_cons_self).symm
    exact (Write.undo_other ne).trans (ih fun u mem => apart u (List.mem_cons_of_mem _ mem))

theorem Faithful.first {a b : List Write} (faithful : Faithful origin (a ++ w :: b))
    (apart : ∀ v ∈ a, v.key ≠ w.key) : w.before = origin w.key ∧ (w.after = none → w.before ≠ none) := by
  induction a generalizing origin with
  | nil => exact ⟨faithful.1, faithful.2.1⟩
  | cons v rest ih =>
    have ne := (apart v List.mem_cons_self).symm
    obtain ⟨image, tells⟩ := ih faithful.2.2 fun u mem => apart u (List.mem_cons_of_mem _ mem)
    rw [Function.update_of_ne ne] at image
    exact ⟨image, tells⟩

theorem OwnLog.first {a b : List Write} (own : OwnLog origin (a ++ w :: b)) (apart : ∀ v ∈ a, v.key ≠ w.key) :
    w.before = origin w.key ∧ (w.after = none → w.before ≠ none) := by
  obtain ⟨writes, inverses, eq, faithful, sub⟩ := own
  have older : w ∈ inverses → ∃ v ∈ writes, v.key = w.key := by
    intro mem
    obtain ⟨v, inside, rfl⟩ := List.mem_map.mp (sub.subset mem)
    exact ⟨v, List.mem_reverse.mp inside, rfl⟩
  rcases List.append_eq_append_iff.mp eq with ⟨c, rfl, tail⟩ | ⟨c, rfl, tail⟩
  · cases c with
    | nil =>
      obtain ⟨v, mem, same⟩ := older (by simp [← show w :: b = inverses from tail])
      exact absurd same (apart v (by simpa using mem))
    | cons v c =>
      obtain ⟨rfl, -⟩ := List.cons.inj tail
      exact faithful.first apart
  · obtain ⟨v, mem, same⟩ := older (by simp [tail])
    exact absurd same (apart v (List.mem_append_left _ mem))

section

variable {checkpoint : Lsn} {records : List LogRecord} {origins : TxId → RefMap}

theorem writesOf_append (a b : List LogRecord) : writesOf (a ++ b) = writesOf a ++ writesOf b :=
  List.filterMap_append

theorem writesOf_cons {r : LogRecord} (write : r.body.write = some w) (rest : List LogRecord) :
    writesOf (r :: rest) = w :: writesOf rest :=
  List.filterMap_cons_some write

theorem mem_writesOf {rs : List LogRecord} : w ∈ writesOf rs ↔ ∃ r ∈ rs, r.body.write = some w :=
  List.mem_filterMap

theorem oldest {rs : List LogRecord} (mem : w ∈ writesOf rs) : ∃ a r b v, rs = a ++ r :: b ∧
    r.body.write = some v ∧ v.key = w.key ∧ ∀ u ∈ writesOf a, u.key ≠ w.key := by
  obtain ⟨q, inside, writes⟩ := mem_writesOf.mp mem
  have some : (rs.find? fun r => (r.body.write.map Write.key) = some w.key).isSome := by
    rw [List.find?_isSome]
    exact ⟨q, inside, by simp [writes]⟩
  obtain ⟨r, found⟩ := Option.isSome_iff_exists.mp some
  obtain ⟨hit, a, b, eq, before⟩ := List.find?_eq_some_iff_append.mp found
  obtain ⟨v, body, same⟩ := Option.map_eq_some_iff.mp (of_decide_eq_true hit)
  refine ⟨a, r, b, v, eq, body, same, fun u mem' same' => ?_⟩
  obtain ⟨q', inside', writes'⟩ := mem_writesOf.mp mem'
  have miss := before q' inside'
  simp [writes', same'] at miss

theorem undoWrites_restores (log : LoserLog checkpoint records origins) (m : RefMap) :
    Restored checkpoint records origins m (undoWrites (writesOf (lost checkpoint records)) m) := by
  refine ⟨fun q mem w writes => ?_, fun key apart => undoWrites_other apart⟩
  obtain ⟨a, r, b, v, eq, body, same, apart⟩ := oldest (mem_writesOf.mpr ⟨q, mem, writes⟩)
  have mem' : r ∈ lost checkpoint records := by
    rw [eq]
    exact List.mem_append_right _ List.mem_cons_self
  have owner : r.txid = q.txid := log.disjoint r mem' q mem v w body writes same
  have own := log.own r.txid (lost_isLoser mem')
  rw [eq, List.filter_append, List.filter_cons_of_pos (by simp), writesOf_append, writesOf_cons body] at own
  rw [← same] at apart ⊢
  obtain ⟨image, tells⟩ := own.first fun u inside => by
    obtain ⟨x, kept, is⟩ := mem_writesOf.mp inside
    exact apart u (mem_writesOf.mpr ⟨x, List.mem_of_mem_filter kept, is⟩)
  rw [eq, writesOf_append, writesOf_cons body, undoWrites_first apart tells, image, owner]

end

/- On the tree. -/

def LogBody.putBack : LogBody → Option (Bytes × Bytes)
  | .put _ key _ before | .delete _ key before => before.map (key, ·)
  | _ => none

def Store.TakesBack (s : Store) (body : LogBody) : Prop := ∀ r, body.putBack = some r →
  4 + r.1.length + r.2.length ≤ kMaxLeafRecordBytes ∧ s.PutFits r.1 r.2

/-- What the undo puts back finds room, record by record. -/
def UndoFits (undoTxid : TxId) : List LogRecord → Store → Prop
  | [], _ => True
  | r :: rest, s => s.TakesBack r.body ∧ ∀ s', undoRecord undoTxid r.body s = .ok () s' →
      UndoFits undoTxid rest s'

section

variable {s s' : Store} {undoTxid : TxId} {body : LogBody}

theorem newPage_loud (s : Store) : FailsOnly (isNotFound · = false) newPage s := by
  have point : ∀ s, FailsOnly (isNotFound · = false) ioPoint s := fun s _ _ => ioPoint_error
  refine (point s).bind fun _ t _ => .bind ?_ fun _ _ _ =>
    .bind (.of_ok (modify_run _)) fun _ _ _ => .of_ok (pure_run _)
  refine .bind (.of_ok get_run) fun m t _ => .ite (fun _ => ?_) fun _ => ?_
  · refine .bind (fun _ _ => readPage_error) fun page u _ => ?_
    cases page.body with
    | free next =>
      exact (point u).bind fun _ _ _ => .bind (.of_ok (modify_run _)) fun _ _ _ => .of_ok (pure_run _)
    | _ =>
      intro e s' run
      cases run
      rfl
  · refine (point t).bind fun _ _ _ => .bind (fun e s' run => ?_) fun _ _ _ =>
      .bind (.of_ok (modify_run _)) fun _ _ _ => .of_ok (pure_run _)
    obtain ⟨-, rfl, -⟩ := failIf_error.mp run
    rfl

theorem loud {txid : TxId} : Composes txid fun x => ∀ s, FailsOnly (isNotFound · = false) x s where
  pure _ _ := .of_ok (pure_run _)
  bind first next s := (first s).bind fun a t _ => next a t
  failIf c _ e quiet s := by
    intro e' s' run
    obtain ⟨-, rfl, -⟩ := failIf_error.mp run
    exact quiet
  diverges s := by
    intro e s' run
    cases run
    rfl
  isEmpty _ := .of_ok isEmpty_run
  root next s := (FailsOnly.of_ok get_run).bind fun _ _ _ => next _ _ _
  fetchPage _ _ _ _ := fetchPage_error
  getPage _ _ := .of_ok (getPage_run _)
  setPage _ _ _ := .of_ok (setPage_run _ _)
  markDirty _ _ := .of_ok (markDirty_run _)
  newPage := newPage_loud
  appendRecord opEnd body _ s := by
    obtain ⟨r, t, run⟩ := appendRecord_succeeds s txid opEnd body
    exact .of_ok run
  logPageImage pid opEnd s := by
    obtain ⟨t, run⟩ := logPageImage_succeeds s pid txid opEnd
    exact .of_ok run
  setRootPageId _ _ := .of_ok rfl
  addToNumKeys _ _ := .of_ok rfl

theorem treePut_foreign {value : Bytes} {e : Failure}
    (run : treePut key value undoTxid false s = .error e s') :
    isNotFound e = false := by
  refine loud.treePut (fun pid before opEnd s => ?_) s e s' run
  obtain ⟨t, run⟩ := logKeyRecord_succeeds s (.put pid _ _ before) undoTxid pid opEnd false
  exact .of_ok run

theorem tolerant_ok {op : M (Option Bytes)} (run : tolerant op s = .ok () s') :
    (∃ b, op s = .ok b s') ∨ ∃ e, op s = .error e s' ∧ isNotFound e = true := by
  unfold tolerant at run
  split at run
  · cases run
    exact .inl ⟨_, ‹_›⟩
  · split at run
    · cases run
      exact .inr ⟨_, ‹_›, ‹_›⟩
    · cases run

theorem tolerant_error {op : M (Option Bytes)} {e : Failure} (run : tolerant op s = .error e s') :
    op s = .error e s' ∧ isNotFound e = false := by
  unfold tolerant at run
  split at run
  · cases run
  · split at run
    · cases run
    · cases run
      exact ⟨‹_›, Bool.eq_false_iff.mpr ‹_›⟩

theorem treeDelete_absent_neat {e : Failure} (models : Models s m) (neat : Neat True s)
    (run : treeDelete key undoTxid false s = .error e s') : Neat True s' := by
  obtain ⟨entries, rep, -⟩ := models
  have removal := treeDelete_removal rep key undoTxid false
  rw [run] at removal
  cases removal with
  | absent look same untouched =>
    refine ⟨fun quiet => same.io (neat.quiet quiet), fun p => ?_⟩
    rw [untouched.view]
    exact neat.packed p
  | fault foreign io => exact absurd (neat.quiet trivial) io

theorem undoRecord_writes (models : Models s m) (run : undoRecord undoTxid body s = .ok () s') :
    Models s' (undoWrites body.write.toList m) := by
  cases body with
  | put page key value before =>
    cases before with
    | some before =>
      rcases tolerant_ok run with ⟨b, run⟩ | ⟨e, run, gone⟩
      · exact (models.put run).2
      · rw [treePut_foreign run] at gone
        cases gone
    | none =>
      rcases tolerant_ok run with ⟨b, run⟩ | ⟨e, run, gone⟩
      · exact (models.delete run).2.2
      · obtain ⟨absent, models'⟩ := models.delete_absent run gone
        have same : Function.update m key none = m := by rw [← absent, Function.update_eq_self]
        change Models s' (Function.update m key none)
        rwa [same]
  | delete page key before =>
    cases before with
    | some before =>
      obtain ⟨b, t, run, eq⟩ := bind_ok.mp run
      cases eq
      exact (models.put run).2
    | none =>
      cases run
      exact models
  | _ =>
    cases run
    exact models

theorem undoRecord_neat (models : Models s m) (neat : Neat True s)
    (run : undoRecord undoTxid body s = .ok () s') :
    Neat True s' := by
  cases body with
  | put page key value before =>
    cases before with
    | some before =>
      rcases tolerant_ok run with ⟨b, run⟩ | ⟨e, run, gone⟩
      · exact keeps_treePut _ _ _ _ _ _ _ run neat
      · rw [treePut_foreign run] at gone
        cases gone
    | none =>
      rcases tolerant_ok run with ⟨b, run⟩ | ⟨e, run, gone⟩
      · exact keeps_treeDelete _ _ _ _ _ _ run neat
      · exact treeDelete_absent_neat models neat run
  | delete page key before =>
    cases before with
    | some before =>
      obtain ⟨b, t, run, eq⟩ := bind_ok.mp run
      cases eq
      exact keeps_treePut _ _ _ _ _ _ _ run neat
    | none =>
      cases run
      exact neat
  | _ =>
    cases run
    exact neat

theorem undoRecord_models (models : Models s m) (neat : Neat True s)
    (run : undoRecord undoTxid body s = .ok () s') :
    Models s' (undoWrites body.write.toList m) ∧ Neat True s' :=
  ⟨undoRecord_writes models run, undoRecord_neat models neat run⟩

theorem undoRecord_fails (models : Models s m) (neat : Neat True s) (fits : s.TakesBack body) :
    FailsOnly (· = fileFull) (undoRecord undoTxid body) s := by
  have adm : Admits (· = fileFull) True True :=
    ⟨rfl, fun no => absurd trivial no, fun no => absurd trivial no, fun no => absurd trivial no⟩
  have put : ∀ key value, body.putBack = some (key, value) →
      FailsOnly (· = fileFull) (treePut key value undoTxid false) s := by
    intro key value back
    obtain ⟨entries, rep, -⟩ := models
    obtain ⟨size, room⟩ := fits _ back
    exact treePut_fails adm rep neat size fun _ => room
  intro e s' run
  cases body with
  | put page key value before =>
    cases before with
    | some before =>
      obtain ⟨fails, -⟩ := tolerant_error run
      exact put _ _ rfl _ _ fails
    | none =>
      obtain ⟨fails, found⟩ := tolerant_error run
      obtain ⟨entries, rep, -⟩ := models
      have removal := treeDelete_removal rep key undoTxid false
      rw [fails] at removal
      cases removal with
      | absent => cases found
      | fault _ io => exact absurd (neat.quiet trivial) io
  | delete page key before =>
    cases before with
    | some before => exact (put _ _ rfl).bind (fun _ _ _ => .of_ok (pure_run _)) _ _ run
    | none => cases run
  | _ => cases run

theorem undoLoop_writes {rs : List LogRecord} (models : Models s m)
    (run : undoLoop undoTxid rs s = .ok () s') :
    Models s' (undoWrites (writesOf rs.reverse) m) := by
  induction rs generalizing s m with
  | nil =>
    cases run
    exact models
  | cons r rest ih =>
    obtain ⟨_, t, first, run⟩ := bind_ok.mp run
    have rest := ih (undoRecord_writes models first) run
    have one : writesOf [r] = r.body.write.toList := by
      unfold writesOf
      cases write : r.body.write with
      | none => exact List.filterMap_cons_none write
      | some w => exact List.filterMap_cons_some write
    rw [List.reverse_cons, writesOf_append, one]
    exact (congrArg (Models s') List.foldr_append).mpr rest

theorem undoRecord_hadRoom (models : Models s m) (run : undoRecord undoTxid body s = .ok () s') :
    s.TakesBack body := by
  obtain ⟨entries, rep, agree⟩ := models
  rintro ⟨key, value⟩ back
  cases body with
  | put page key' value' before =>
    obtain ⟨before, rfl, eq⟩ := Option.map_eq_some_iff.mp back
    cases eq
    rcases tolerant_ok run with ⟨b, run⟩ | ⟨e, run, gone⟩
    · exact treePut_hadRoom rep run
    · rw [treePut_foreign run] at gone
      cases gone
  | delete page key' before =>
    obtain ⟨before, rfl, eq⟩ := Option.map_eq_some_iff.mp back
    cases eq
    obtain ⟨b, t, run, -⟩ := bind_ok.mp run
    exact treePut_hadRoom rep run
  | _ => cases back

theorem undoLoop_hadRoom {rs : List LogRecord} (models : Models s m) (neat : Neat True s)
    (run : undoLoop undoTxid rs s = .ok () s') : UndoFits undoTxid rs s := by
  induction rs generalizing s m with
  | nil => trivial
  | cons r rest ih =>
    obtain ⟨_, t, first, run⟩ := bind_ok.mp run
    obtain ⟨models', neat'⟩ := undoRecord_models models neat first
    refine ⟨undoRecord_hadRoom models first, fun t' again => ?_⟩
    cases first.symm.trans again
    exact ih models' neat' run

theorem undoLoop_fails {rs : List LogRecord} (models : Models s m) (neat : Neat True s)
    (fits : UndoFits undoTxid rs s) : FailsOnly (· = fileFull) (undoLoop undoTxid rs) s := by
  induction rs generalizing s m with
  | nil => exact .of_ok (pure_run _)
  | cons r rest ih =>
    refine .bind (undoRecord_fails models neat fits.1) fun _ t first => ?_
    obtain ⟨models', neat'⟩ := undoRecord_models models neat first
    exact ih models' neat' (fits.2 t first)

end

def UndoRestores (undoTxid : TxId) (checkpoint : Lsn) (records : List LogRecord) (origin : TxId → RefMap)
    (m : RefMap) (s : Store) : Prop :=
  ∃ s' m', undoLosers undoTxid checkpoint records s = .ok () s' ∧ Models s' m' ∧
    Restored checkpoint records origin m m'

def UndoFull (undoTxid : TxId) (checkpoint : Lsn) (records : List LogRecord) (s : Store) : Prop :=
  ∃ s', undoLosers undoTxid checkpoint records s = .error fileFull s'

/-- On a volume that is not full, the undo restores the map from before the losers exactly when all that it
puts back finds room. -/
theorem undo_restores_iff_fits {s : Store} (models : Models s m) (neat : Neat True s) {checkpoint : Lsn}
    {records : List LogRecord} {origin : TxId → RefMap} (log : LoserLog checkpoint records origin)
    (undoTxid : TxId) : UndoFull undoTxid checkpoint records s ∨
      (UndoRestores undoTxid checkpoint records origin m s ↔
        UndoFits undoTxid (lost checkpoint records).reverse s) := by
  cases run : undoLosers undoTxid checkpoint records s with
  | ok u s' =>
    have models' := undoLoop_writes models run
    rw [List.reverse_reverse] at models'
    exact .inr ⟨fun _ => undoLoop_hadRoom models neat run, fun _ =>
      ⟨s', _, run, models', undoWrites_restores log m⟩⟩
  | error e s' =>
    by_cases full : e = fileFull
    · exact .inl ⟨s', full ▸ run⟩
    · refine .inr ⟨fun ⟨t, m', done, _⟩ => ?_, fun fits =>
        absurd (undoLoop_fails models neat fits e s' run) full⟩
      cases run.symm.trans done

/-- A small leaf and a transaction that deletes one of its records, cut by a crash; others write on. -/
def cutDelete (others : List (Byte × Nat)) : List HandleEvent :=
  ([(1, 0), (2, 0), (3, 0), (4, 979), (5, 979), (6, 979), (8, 999)].map fun (r : Byte × Nat) =>
      .call (.put [r.1] (List.replicate r.2 0) [] none)) ++
    [.call (.begin kInvalidTxId), .call (.txnDelete 8 [8] false [])] ++
      others.map fun r => .call (.put [r.1] (List.replicate r.2 0) [] none)

def undoFailure (undoTxid : TxId) (checkpoint : Lsn) (records : List LogRecord) (s : Store) :
    Option Failure :=
  match undoLosers undoTxid checkpoint records s with
  | .ok .. => none
  | .error e _ => some e

theorem loserLog_single {checkpoint : Lsn} {records : List LogRecord} {t : TxId}
    (only : ∀ r ∈ records, r.body = .begin → r.txid = t)
    (own : OwnLog origin (writesOf
      (lost checkpoint records))) : LoserLog checkpoint records fun _ => origin := by
  have single : ∀ u, isLoser checkpoint records u = true → u = t := by
    intro u loser
    obtain ⟨r, mem, is⟩ := List.any_eq_true.mp (Bool.and_eq_true_iff.mp loser).1
    obtain ⟨-, txid, begins⟩ := of_decide_eq_true is
    exact txid.symm.trans (only r mem begins)
  have all : ∀ r ∈ lost checkpoint records, r.txid = t := fun r mem => single _ (lost_isLoser mem)
  refine ⟨fun u loser => ?_, fun r mem q mem' _ _ _ _ _ => (all r mem).trans (all q mem').symm⟩
  have whole : (lost checkpoint records).filter (·.txid = u) = lost checkpoint records := by
    rw [List.filter_eq_self]
    intro r mem
    simp [all r mem, single u loser]
  rwa [whole]

def largeValue : Bytes := List.replicate 999 0

def beforeDelete : RefMap := fun key => if key = [8] then some largeValue else none

theorem cutDelete_reaches {others : List (Byte × Nat)} {h : Handle}
    (reach : run Handle.next (.opened (create ⟨100, by decide⟩ (some (.open [] 1))) ⟨true, 0⟩)
      (cutDelete others) =
      some h)
    (facts : (h.needsReopen, decide (∀ r ∈ h.store.records, r.body = .begin → r.txid = 8),
      writesOf (lost h.store.metaPage.checkpointLsn h.store.records)) =
        (false, true, [⟨[8], none, some largeValue⟩])) :
    (∃ m, Models (h.store.facing []) m) ∧ Neat True (h.store.facing []) ∧
      LoserLog h.store.metaPage.checkpointLsn h.store.records fun _ => beforeDelete := by
  simp only [Prod.mk.injEq, decide_eq_true_eq] at facts
  obtain ⟨up, only, writes⟩ := facts
  have fit : h.Fit := run_invariant (fun _ _ _ fit step => Handle.Fit.next fit step)
    (.inr (healthy_create _ _)) reach
  obtain ⟨⟨m, models⟩, neat⟩ := fit.resolve_left (by simp [up])
  refine ⟨⟨m, models.facing []⟩, ⟨fun _ => rfl, neat.packed⟩, loserLog_single only ?_⟩
  rw [writes]
  exact ⟨_, [], (List.append_nil _).symm, ⟨by simp [beforeDelete], by simp, trivial⟩, List.nil_sublist _⟩

theorem cut_delete_undone : ∃ h,
    run Handle.next (.opened (create ⟨100, by decide⟩ (some (.open [] 1))) ⟨true, 0⟩)
      (cutDelete [(7, 0)]) = some h ∧
    ∃ m, Models (h.store.facing []) m ∧ UndoRestores h.nextTxid h.store.metaPage.checkpointLsn h.store.records
      (fun _ => beforeDelete) m (h.store.facing []) := by
  have outcome : (run Handle.next (.opened (create ⟨100, by decide⟩ (some (.open [] 1))) ⟨true, 0⟩)
      (cutDelete [(7, 0)])).map (fun h => ((h.needsReopen,
        decide (∀ r ∈ h.store.records, r.body = .begin → r.txid = 8),
        writesOf (lost h.store.metaPage.checkpointLsn h.store.records)),
        decide ((lost h.store.metaPage.checkpointLsn h.store.records).map (fun r => r.body.putBack) =
          [none, some ([8], largeValue)] ∧ (h.store.facing []).PutFits [8] largeValue),
        undoFailure h.nextTxid h.store.metaPage.checkpointLsn h.store.records (h.store.facing []))) =
      some ((false, true, [⟨[8], none, some largeValue⟩]), true, none) := by
    decide +kernel
  obtain ⟨h, reach, facts⟩ := Option.map_eq_some_iff.mp outcome
  obtain ⟨facts, room⟩ := Prod.mk.inj facts
  obtain ⟨room, ends⟩ := Prod.mk.inj room
  obtain ⟨backs, room⟩ := of_decide_eq_true room
  obtain ⟨⟨m, models⟩, neat, log⟩ := cutDelete_reaches reach facts
  obtain ⟨b, tail, both, nothing, backs⟩ := List.map_eq_cons_iff.mp backs
  obtain ⟨r, rfl, back⟩ := List.map_eq_singleton_iff.mp backs
  have fits : UndoFits h.nextTxid (lost h.store.metaPage.checkpointLsn h.store.records).reverse
    (h.store.facing []) := by
    rw [both]
    refine ⟨fun x is => ?_, fun _ _ => ⟨fun x is => ?_, fun _ _ => trivial⟩⟩
    · cases back.symm.trans is
      exact ⟨by decide +kernel, room⟩
    · cases nothing.symm.trans is
  rcases undo_restores_iff_fits models neat log h.nextTxid with ⟨s', full⟩ | iff
  · rw [undoFailure, full] at ends
    cases ends
  · exact ⟨h, reach, m, models, iff.mpr fits⟩

/-- Another record has taken its room, and the split for it leaves it on the full half. -/
theorem cut_delete_stays : ¬ ∀ (events : List HandleEvent) (h : Handle),
    run Handle.next (.opened (create ⟨100, by decide⟩ (some (.open [] 1))) ⟨true, 0⟩) events = some h →
    ∀ m origin, Models (h.store.facing []) m →
      LoserLog h.store.metaPage.checkpointLsn h.store.records origin →
      UndoFull h.nextTxid h.store.metaPage.checkpointLsn h.store.records (h.store.facing []) ∨
      UndoRestores h.nextTxid h.store.metaPage.checkpointLsn h.store.records origin m
        (h.store.facing []) := by
  intro every
  have outcome : (run Handle.next (.opened (create ⟨100, by decide⟩ (some (.open [] 1))) ⟨true, 0⟩)
      (cutDelete [(7, 979)])).map (fun h => ((h.needsReopen,
        decide (∀ r ∈ h.store.records, r.body = .begin → r.txid = 8),
        writesOf (lost h.store.metaPage.checkpointLsn h.store.records)),
        undoFailure h.nextTxid h.store.metaPage.checkpointLsn h.store.records (h.store.facing []))) =
      some ((false, true, [⟨[8], none, some largeValue⟩]),
        some (.status (.Internal "Failed to insert after split (right)"))) := by
    decide +kernel
  obtain ⟨h, reach, facts⟩ := Option.map_eq_some_iff.mp outcome
  obtain ⟨facts, fails⟩ := Prod.mk.inj facts
  obtain ⟨⟨m, models⟩, -, log⟩ := cutDelete_reaches reach facts
  unfold undoFailure at fails
  rcases every _ h reach m _ models log with ⟨s', full⟩ | ⟨s', m', done, -⟩
  · rw [full] at fails
    cases fails
  · rw [done] at fails
    cases fails

end PagerDB

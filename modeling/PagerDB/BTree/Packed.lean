import Mathlib.Algebra.BigOperators.Group.List.Basic
import PagerDB.Lib.Keeps
import PagerDB.BTree.Reads

/-! Space in inner nodes. Nothing is ever deleted from one, so none has dead bytes: what is not
taken by its entries is free. -/
namespace PagerDB

open KeepsLib Store

namespace Page

/-- An inner node accounts for all its bytes, and none is dead. -/
def Packed (p : Page) : Prop := p.isInternal = true → p.Accounted ∧ p.deadBytes = 0

variable {p : Page} {prev next r : PageId} {recs : List (Bytes × Bytes)}
  {es : List (Bytes × PageId)} {key value : Bytes}

theorem packed_of_leaf (body : p.body = .leaf prev next recs) : p.Packed := by
  intro inner
  simp [isInternal, body] at inner

theorem packed_blank (body : p.body = .blank) : p.Packed := by
  intro inner
  simp [isInternal, body] at inner

theorem packed_init (pid : PageId) : (init pid (.internal r [])).Packed :=
  fun _ => ⟨⟨rfl, (by decide : kPageHeaderSize + 0 * kSlotEntrySize ≤ kPageSize)⟩, rfl⟩

theorem stamp_packed (packed : p.Packed) (lsn : Lsn) : (p.stamp lsn).Packed := packed

theorem setPrevLeaf_packed (packed : p.Packed) (q : PageId) : (p.setPrevLeaf q).Packed := by
  unfold setPrevLeaf
  split
  · exact packed_of_leaf rfl
  · exact packed

theorem isLeaf_cases (leaf : p.isLeaf = true) : ∃ prev next recs, p.body = .leaf prev next recs := by
  unfold isLeaf at leaf
  split at leaf
  · exact ⟨_, _, _, ‹_›⟩
  · cases leaf

theorem insertRecordAt_packed {index : Nat} {rec : Bytes × Bytes}
    (body : p.body = .leaf prev next recs) : (p.insertRecordAt index rec).2.Packed := by
  unfold insertRecordAt
  simp only [body]
  split
  · exact packed_of_leaf body
  · split
    · exact packed_of_leaf rfl
    · exact packed_of_leaf body

theorem insertLeaf_packed (packed : p.Packed) : (p.insertLeaf key value).2.Packed := by
  unfold insertLeaf
  split
  · rename_i leaf
    obtain ⟨prev, next, recs, body⟩ := isLeaf_cases leaf
    have fit := (p.ensureFit_body (kSlotEntrySize + 4 + key.length + value.length)).trans body
    dsimp only
    split
    · split
      · exact packed_of_leaf fit
      · exact insertRecordAt_packed fit
    · exact packed_of_leaf fit
  · exact packed

theorem updateLeaf_packed (packed : p.Packed) : (p.updateLeaf key value).2.Packed := by
  unfold updateLeaf
  split
  · rename_i prev next recs body
    dsimp only
    split
    · split
      · exact packed_of_leaf rfl
      · split
        · split
          · exact packed
          · exact packed_of_leaf rfl
        · exact packed_of_leaf rfl
    · exact packed
  · exact packed

theorem deleteAt_packed {index : Nat} (leaf : p.isLeaf = true) : (p.deleteAt index).2.Packed := by
  obtain ⟨prev, next, recs, body⟩ := isLeaf_cases leaf
  unfold deleteAt
  simp only [body]
  split
  · exact packed_of_leaf body
  · exact packed_of_leaf rfl

theorem internal_free (body : p.body = .internal r es) (packed : p.Packed) :
    p.freeSpace + (es.map fun e => kSlotEntrySize + internalRecordBytes e).sum =
      kPageSize - kPageHeaderSize := by
  obtain ⟨⟨total, start⟩, dead⟩ := packed (by simp [isInternal, body])
  have cost : (es.map fun e => kSlotEntrySize + internalRecordBytes e).sum =
      es.length * kSlotEntrySize + (es.map internalRecordBytes).sum := by
    rw [List.sum_map_add]
    simp
  rw [cost]
  simp only [freeSpace, freeSpaceStart, numSlots, liveBytes, body, dead] at total start ⊢
  simp only [kPageSize, kPageHeaderSize, kSlotEntrySize] at total start ⊢
  omega

theorem searchLoop_le (keys : List Bytes) (key : Bytes) (fuel left right : Nat)
    (order : left ≤ right) : (searchLoop keys key fuel left right).1 ≤ right := by
  induction fuel generalizing left right with
  | zero => exact order
  | succ fuel ih =>
    rw [searchLoop]
    dsimp only
    split
    · split
      · change left + (right - left) / 2 ≤ right
        omega
      · split
        · exact (ih left _ (by omega)).trans (by omega)
        · exact ih _ right (by omega)
    · exact order

theorem lowerBound_le (p : Page) (key : Bytes) : p.lowerBound key ≤ p.numSlots :=
  searchLoop_le _ _ _ 0 _ (Nat.zero_le _)

theorem insertInternal_packed {c : PageId} (packed : p.Packed) :
    (p.insertInternal key c).2.Packed := by
  unfold insertInternal
  split
  · rename_i r es body
    obtain ⟨⟨total, start⟩, dead⟩ := packed (by simp [isInternal, body])
    have fit : p.ensureFit (kSlotEntrySize + 6 + key.length) =
        (decide (kSlotEntrySize + 6 + key.length ≤ p.freeSpace), p) := by
      unfold ensureFit
      split
      · simp_all
      · rename_i full
        rw [dead, if_neg (by simpa using full)]
        simp [full]
    simp only [fit, body]
    split
    · split
      · rename_i fits
        intro _
        have index := p.lowerBound_le key
        have slots : p.numSlots = es.length := by simp [numSlots, body]
        have live : ((es.insertIdx (p.lowerBound key) (key, c)).map internalRecordBytes).sum =
            (es.map internalRecordBytes).sum + internalRecordBytes (key, c) := by
          have perm := (List.perm_insertIdx (key, c) es (slots ▸ index)).map internalRecordBytes
          rw [perm.sum_eq, List.map_cons, List.sum_cons, Nat.add_comm]
        have length : (es.insertIdx (p.lowerBound key) (key, c)).length = es.length + 1 := by
          rw [List.length_insertIdx, if_pos (slots ▸ index)]
        have room : kSlotEntrySize + internalRecordBytes (key, c) ≤ p.freeSpace := by
          simpa [canFit] using fits
        simp only [freeSpace, freeSpaceStart, slots, kSlotEntrySize] at room start
        refine ⟨⟨?_, ?_⟩, dead⟩
        · simp only [liveBytes, body] at total ⊢
          rw [live]
          omega
        · simp only [freeSpaceStart, numSlots, length, kSlotEntrySize]
          omega
      · exact packed
    · exact packed
  · exact packed

theorem insertInternalAfterSplit_packed {left right : PageId} (packed : p.Packed) :
    (p.insertInternalAfterSplit key left right).2.Packed := by
  unfold insertInternalAfterSplit
  split
  · split
    · dsimp only
      split
      · exact packed
      · rename_i fits
        intro _
        generalize spliceEntries key left right _ _ = es at fits
        have cost : (es.map fun e => kSlotEntrySize + 2 + e.1.length + 4).sum =
            es.length * kSlotEntrySize + (es.map internalRecordBytes).sum := by
          have each : (fun e : Bytes × PageId => kSlotEntrySize + 2 + e.1.length + 4) =
              fun e => kSlotEntrySize + internalRecordBytes e := by
            funext e
            simp only [internalRecordBytes]
            omega
          rw [each, List.sum_map_add]
          simp
        rw [cost] at fits
        simp only [kPageSize, kPageHeaderSize, kSlotEntrySize] at fits
        refine ⟨⟨?_, ?_⟩, rfl⟩
        · simp only [init, liveBytes, kPageSize]
          omega
        · simp only [init, freeSpaceStart, numSlots, kPageSize, kPageHeaderSize, kSlotEntrySize]
          omega
    · exact packed
  · exact packed

end Page

/- Stores. -/

/-- Every inner node is packed. A store that is also quiet has no fault pending. -/
structure Neat (q : Prop) (s : Store) : Prop where
  quiet : q → s.io = []
  packed : ∀ p, (s.view p).Packed

section

variable {q : Prop} {s s' : Store} {pid : PageId}

theorem Neat.putPage (neat : Neat q s) {page : Page} (packed : page.Packed) :
    Neat q (s.putPage pid page) := by
  refine ⟨neat.quiet, fun p => ?_⟩
  rw [view_putPage]
  split
  · exact packed
  · exact neat.packed p

theorem Neat.dirtied (neat : Neat q s) : Neat q (s.dirtied pid) :=
  ⟨neat.quiet, fun p => by rw [view_dirtied]; exact neat.packed p⟩

theorem keeps_ioPoint : Keeps (Neat q) ioPoint := by
  intro s u s' run neat
  unfold ioPoint at run
  split at run
  · cases run
    exact neat
  · rename_i rest io
    cases run
    exact ⟨fun quiet => absurd (neat.quiet quiet) (by simp [io]), neat.packed⟩
  · cases run

theorem keeps_fetchPage (pid : PageId) : Keeps (Neat q) (fetchPage pid) := by
  intro s u s' run neat
  refine ⟨fun quiet => (fetchPage_same run).io (neat.quiet quiet), ?_⟩
  rw [(fetchPage_untouched run).view]
  exact neat.packed

theorem keeps_readPage (pid : PageId) : Keeps (Neat q) (readPage pid) := by
  intro s page s' run neat
  obtain ⟨-, same, view⟩ := readPage_ok run
  refine ⟨fun quiet => same.io (neat.quiet quiet), ?_⟩
  rw [view]
  exact neat.packed

theorem keeps_failIf {I : Store → Prop} {c : Prop} [Decidable c] {e : Failure} : Keeps I (failIf c e) :=
  .ite (.throw e) (.pure ())

theorem keeps_onlyIf {c : Bool} {x : M Unit} (keep : Keeps (Neat q) x) :
    Keeps (Neat q) (onlyIf c x) :=
  .ite keep (.pure ())

theorem keeps_getPage {I : Store → Prop} (pid : PageId) : Keeps I (getPage pid) := by
  intro s page s' run inv
  cases run
  exact inv

theorem keeps_setPage (pid : PageId) {page : Page} (packed : page.Packed) :
    Keeps (Neat q) (setPage pid page) := by
  intro s u s' run neat
  cases run
  exact neat.putPage packed

theorem keeps_markDirty (pid : PageId) : Keeps (Neat q) (markDirty pid) := by
  intro s u s' run neat
  cases run
  exact neat.dirtied

theorem keeps_withNode (pid : PageId) {f : Page → Bool × Page}
    (packed : ∀ p : Page, p.Packed → (f p).2.Packed) : Keeps (Neat q) (withNode pid f) := by
  intro s b s' run neat
  cases run
  exact neat.putPage (packed _ (neat.packed pid))

theorem keeps_edit (pid : PageId) {f : Page → Page} {β : Type} {rest : Page → M β}
    (packed : ∀ p : Page, p.Packed → (f p).Packed) (next : ∀ p, Keeps (Neat q) (rest p)) :
    Keeps (Neat q) (do
      let page ← getPage pid
      setPage pid (f page)
      rest page) := by
  refine (keeps_getPage pid).bind_of fun page t known neat b s' run => ?_
  obtain ⟨t', got⟩ := known
  cases got
  exact ((keeps_setPage pid (packed _ (neat.packed pid))).bind fun _ => next _) t b s' run neat

theorem keeps_newPage : Keeps (Neat q) newPage := by
  have zeroed : ∀ {s t : Store}, Neat q s → t.io = s.io →
      (∀ p, t.view p = s.view p ∨ t.view p = .zeroed) → Neat q t := by
    intro s t neat io view
    refine ⟨fun quiet => io.trans (neat.quiet quiet), fun p => ?_⟩
    rcases view p with same | blank
    · rw [same]
      exact neat.packed p
    · rw [blank]
      exact Page.packed_blank rfl
  have disk : ∀ (s : Store) pid p, (s.setDisk pid (some .zeroed)).view p = s.view p ∨
      (s.setDisk pid (some .zeroed)).view p = .zeroed := by
    intro s pid p
    unfold Store.view Store.setDisk
    cases s.cache p with
    | some f => exact .inl rfl
    | none =>
      by_cases same : p = pid
      · exact .inr (by simp [same])
      · exact .inl (by simp [same])
  unfold newPage
  refine keeps_ioPoint.bind fun _ => .bind ?_ fun pid => .bind (.modify fun s neat => ?_) fun _ => .pure _
  · unfold allocatePage
    refine Keeps.get.bind fun s => .ite ?_ ?_
    · refine (keeps_readPage _).bind fun page => ?_
      cases page.body with
      | free next =>
        exact keeps_ioPoint.bind fun _ =>
          .bind (.modify fun t neat => zeroed neat rfl fun p => disk t _ p) fun _ => .pure _
      | _ => exact Keeps.throw _
    · exact keeps_ioPoint.bind fun _ => keeps_failIf.bind fun _ =>
        .bind (.modify fun t neat => zeroed neat rfl fun p => disk t _ p) fun _ => .pure _
  · refine zeroed neat rfl fun p => ?_
    rw [view_setFrame]
    split
    · exact .inr rfl
    · exact .inl rfl

/- Logging. -/

theorem keeps_wal (f : Store → Option LogWriter) :
    Keeps (Neat q) (modify fun s => { s with wal := f s } : M Unit) :=
  .modify fun _ neat => ⟨neat.quiet, neat.packed⟩

theorem keeps_appendRecord (txid : TxId) (opEnd : Bool) (body : LogBody) :
    Keeps (Neat q) (appendRecord txid opEnd body) := by
  refine Keeps.get.bind fun s => ?_
  cases s.wal with
  | none => exact .pure _
  | some w => exact (keeps_wal _).bind fun _ => .pure _

theorem keeps_logPageImage (pid : PageId) (txid : TxId) (opEnd : Bool) :
    Keeps (Neat q) (logPageImage pid txid opEnd) := by
  refine (keeps_markDirty pid).bind fun _ => Keeps.get.bind fun s => ?_
  cases s.wal with
  | none => exact .pure _
  | some w => exact keeps_edit pid (fun _ packed => packed) fun _ => keeps_wal _

theorem keeps_logPageEvent (body : LogBody) (txid : TxId) (opEnd : Bool) :
    Keeps (Neat q) (logPageEvent body txid opEnd) :=
  (keeps_appendRecord txid opEnd body).bind fun _ => .pure _

theorem keeps_logDelta (body : LogBody) (txid : TxId) (pid : PageId) (opEnd : Bool) :
    Keeps (Neat q) (logDelta body txid pid opEnd) := by
  refine (keeps_appendRecord txid opEnd body).bind fun lsn => ?_
  cases lsn with
  | none => exact .pure _
  | some lsn =>
    refine (keeps_getPage pid).bind_of fun page t known neat b s' run => ?_
    obtain ⟨t', got⟩ := known
    cases got
    exact keeps_setPage pid (Page.stamp_packed (neat.packed pid) lsn) t b s' run neat

theorem keeps_logKeyRecord (body : LogBody) (txid : TxId) (pid : PageId) (opEnd needsUndo : Bool) :
    Keeps (Neat q) (logKeyRecord body txid pid opEnd needsUndo) := by
  refine (keeps_markDirty pid).bind fun _ => Keeps.get.bind fun s => ?_
  cases s.wal with
  | none => exact .pure _
  | some w =>
    refine .ite ?_ (keeps_logDelta body txid pid opEnd)
    exact (keeps_logPageImage pid txid _).bind fun _ =>
      .ite (keeps_logDelta body txid pid opEnd) (.pure _)

/- Structure changes. -/

theorem keeps_rebuildLeaf (pid : PageId) (overflow : String) (recs : List (Bytes × Bytes)) :
    Keeps (Neat q) (rebuildLeaf pid overflow recs) := by
  induction recs with
  | nil => exact .pure _
  | cons r recs ih =>
    exact (keeps_withNode pid fun _ packed => Page.insertLeaf_packed packed).bind fun _ =>
      keeps_failIf.bind fun _ => ih

theorem keeps_rebuildInternal (pid : PageId) (overflow : String) (es : List (Bytes × PageId)) :
    Keeps (Neat q) (rebuildInternal pid overflow es) := by
  induction es with
  | nil => exact .pure _
  | cons e es ih =>
    exact (keeps_withNode pid fun _ packed => Page.insertInternal_packed packed).bind fun _ =>
      keeps_failIf.bind fun _ => ih

theorem keeps_relinkSibling (oldNext new : PageId) (txid : TxId) :
    Keeps (Neat q) (relinkSibling oldNext new txid) :=
  (keeps_fetchPage oldNext).bind fun _ =>
    keeps_edit oldNext (fun _ packed => Page.setPrevLeaf_packed packed new) fun _ =>
      keeps_logPageImage oldNext txid false

theorem keeps_splitLeaf (pid : PageId) (txid : TxId) : Keeps (Neat q) (splitLeaf pid txid) :=
  (keeps_getPage pid).bind fun _ => keeps_newPage.bind fun new =>
    (keeps_logPageEvent _ txid false).bind fun _ =>
    (keeps_setPage pid (Page.packed_of_leaf rfl)).bind fun _ =>
    (keeps_rebuildLeaf pid _ _).bind fun _ => (keeps_logPageImage pid txid false).bind fun _ =>
    (keeps_setPage new (Page.packed_of_leaf rfl)).bind fun _ =>
    (keeps_rebuildLeaf new _ _).bind fun _ => (keeps_logPageImage new txid false).bind fun _ =>
    (keeps_onlyIf (keeps_relinkSibling _ new txid)).bind fun _ => .pure _

theorem keeps_splitInternal (pid : PageId) (txid : TxId) : Keeps (Neat q) (splitInternal pid txid) :=
  (keeps_getPage pid).bind fun _ => keeps_newPage.bind fun new =>
    (keeps_logPageEvent _ txid false).bind fun _ => keeps_failIf.bind fun _ =>
    (keeps_setPage pid (Page.packed_init pid)).bind fun _ =>
    (keeps_rebuildInternal pid _ _).bind fun _ => (keeps_logPageImage pid txid false).bind fun _ =>
    (keeps_setPage new (Page.packed_init new)).bind fun _ =>
    (keeps_rebuildInternal new _ _).bind fun _ => (keeps_logPageImage new txid false).bind fun _ =>
    .pure _

theorem keeps_insertIntoHalf (txid : TxId) (key newKey : Bytes) (left right parent new : PageId) :
    Keeps (Neat q) (insertIntoHalf txid key newKey left right parent new) := by
  have half : ∀ (pid : PageId) (message : String), Keeps (Neat q) (do
      let inserted ← withNode pid (·.insertInternalAfterSplit key left right)
      failIf (!inserted) (.status (.Internal message))
      logPageImage pid txid false) := fun pid _ =>
    (keeps_withNode pid fun _ packed => Page.insertInternalAfterSplit_packed packed).bind fun _ =>
      keeps_failIf.bind fun _ => keeps_logPageImage pid txid false
  exact .ite (half parent _) (half new _)

theorem keeps_metaPage (f : MetaPage → MetaPage) :
    Keeps (Neat q) (modify fun s => { s with metaPage := f s.metaPage } : M Unit) :=
  .modify fun _ neat => ⟨neat.quiet, neat.packed⟩

theorem keeps_createNewRoot (splitKey : Bytes) (left right : PageId) (txid : TxId) :
    Keeps (Neat q) (createNewRoot splitKey left right txid) := by
  refine keeps_newPage.bind fun root => (keeps_logPageEvent _ txid false).bind fun _ => ?_
  -- the page that takes its rightmost child is the inner node just filled
  intro s u s' run neat
  simp only [bind_ok, getPage_run, setPage_run, withNode_run, failIf_ok] at run
  obtain ⟨_, s1, init, flag, s2, put, _, _, ⟨yes, rfl⟩, _, _, ⟨rfl, rfl⟩, _, s3, put', _, s4, image,
    _, s5, event, set⟩ := run
  cases init
  cases put
  cases put'
  simp only [view_putPage, if_true] at yes image
  have filled : ((Page.init root (.internal kInvalidPageId [])).insertInternal splitKey left).2.Packed :=
    Page.insertInternal_packed (Page.packed_init root)
  generalize insert : (Page.init root (.internal kInvalidPageId [])).insertInternal splitKey left = out
    at yes image filled
  obtain ⟨flag, p⟩ := out
  obtain rfl : flag = true := by simpa using yes
  have blank : (Page.init root (.internal kInvalidPageId [])).body = .internal kInvalidPageId [] := rfl
  have body : p.body = .internal kInvalidPageId [(splitKey, left)] :=
    insertInternal_last blank List.Pairwise.nil (by simp) insert
  have packed : Page.Packed { p with body := .internal right p.entries } := by
    intro _
    have inner : p.isInternal = true := by simp [Page.isInternal, body]
    obtain ⟨⟨total, start⟩, dead⟩ := filled inner
    have entries : p.entries = [(splitKey, left)] := by simp [Page.entries, body]
    refine ⟨⟨?_, ?_⟩, dead⟩
    · simpa [Page.liveBytes, body, entries] using total
    · simpa [Page.freeSpaceStart, Page.numSlots, body, entries] using start
  have neat₁ := keeps_logPageImage root txid false _ _ _ image
    (((neat.putPage (Page.packed_init root)).putPage filled).putPage packed)
  have neat₂ := keeps_logPageEvent _ txid true _ _ _ event neat₁
  exact keeps_metaPage (fun m => { m with rootPageId := root }) _ _ _ set neat₂

theorem keeps_propagate (txid : TxId) (ancestors : List PageId) (key : Bytes) (left right : PageId) :
    Keeps (Neat q) (propagate txid ancestors key left right) := by
  induction ancestors generalizing key left right with
  | nil => exact keeps_createNewRoot key left right txid
  | cons parent ancestors ih =>
    refine (keeps_withNode parent fun _ packed => Page.insertInternalAfterSplit_packed packed).bind
      fun _ => .ite (keeps_logPageImage parent txid true) ?_
    exact (keeps_splitInternal parent txid).bind fun _ =>
      (keeps_insertIntoHalf txid _ _ _ _ _ _).bind fun _ => ih _ _ _

theorem keeps_insertSplit (key value : Bytes) (txid : TxId) (wantBefore : Bool)
    (before : Option Bytes) (splitKey : Bytes) (leaf new : PageId) :
    Keeps (Neat q) (insertSplit key value txid wantBefore before splitKey leaf new) := by
  have half : ∀ (pid : PageId) (message : String), Keeps (Neat q) (do
      let inserted ← withNode pid (·.insertLeaf key value)
      failIf (!inserted) (.status (.Internal message))
      logKeyRecord (.put pid key value before) txid pid false wantBefore) := fun pid _ =>
    (keeps_withNode pid fun _ packed => Page.insertLeaf_packed packed).bind fun _ =>
      keeps_failIf.bind fun _ => keeps_logKeyRecord _ txid pid false wantBefore
  exact .ite (half leaf _) (half new _)

theorem keeps_addToNumKeys (delta : Int) : Keeps (Neat q) (addToNumKeys delta) :=
  keeps_metaPage fun m => { m with numKeys := m.numKeys + delta }

theorem keeps_putSplitting (key value : Bytes) (txid : TxId) (wantBefore : Bool)
    (before : Option Bytes) (replacing : Bool) (leaf : PageId) (ancestors : List PageId) :
    Keeps (Neat q) (putSplitting key value txid wantBefore before replacing leaf ancestors) :=
  (keeps_splitLeaf leaf txid).bind fun _ =>
    (keeps_insertSplit key value txid wantBefore before _ leaf _).bind fun _ =>
    (keeps_onlyIf (keeps_addToNumKeys 1)).bind fun _ => keeps_propagate txid ancestors _ _ _

theorem keeps_putFirst (key value : Bytes) (txid : TxId) : Keeps (Neat q) (putFirst key value txid) :=
  keeps_newPage.bind fun root => (keeps_setPage root (Page.packed_of_leaf rfl)).bind fun _ =>
    (keeps_withNode root fun _ packed => Page.insertLeaf_packed packed).bind fun _ =>
    keeps_failIf.bind fun _ => (keeps_logPageEvent _ txid false).bind fun _ =>
    (keeps_logPageImage root txid false).bind fun _ => (keeps_logPageEvent _ txid true).bind fun _ =>
    (keeps_metaPage fun m => { m with rootPageId := root }).bind fun _ => keeps_addToNumKeys 1

/- Calls. Only leaves lose records. -/

section Descents

variable {I : Store → Prop} (fetch : ∀ pid, Keeps I (fetchPage pid))

include fetch

theorem keeps_descend (key : Bytes) (fuel : Nat) (pid : PageId) : Keeps I (descend key fuel pid) := by
  induction fuel generalizing pid with
  | zero => exact .throw _
  | succ fuel ih =>
    exact (fetch pid).bind fun _ => (keeps_getPage pid).bind fun _ =>
      .ite (.pure _) (keeps_failIf.bind fun _ => ih _)

theorem keeps_findLeaf (key : Bytes) : Keeps I (findLeaf key) :=
  Keeps.get.bind fun _ => keeps_descend fetch key _ _

theorem keeps_descendPath (key : Bytes) (fuel : Nat) (pid : PageId) :
    Keeps I (descendPath key fuel pid) := by
  induction fuel generalizing pid with
  | zero => exact .throw _
  | succ fuel ih =>
    exact (fetch pid).bind fun _ => (keeps_getPage pid).bind fun _ =>
      .ite (.pure _) (keeps_failIf.bind fun _ => (ih _).bind fun _ => .pure _)

end Descents

theorem descend_isLeaf {key : Bytes} {fuel : Nat} {leaf : PageId}
    (run : descend key fuel pid s = .ok leaf s') : (s'.view leaf).isLeaf = true := by
  induction fuel generalizing pid s with
  | zero => cases run
  | succ fuel ih =>
    simp only [descend, bind_ok, getPage_run] at run
    obtain ⟨_, t, -, _, _, ⟨rfl, rfl⟩, run⟩ := run
    split at run
    · rename_i found
      obtain ⟨rfl, rfl⟩ := pure_ok.mp run
      exact found
    · simp only [bind_ok, failIf_ok] at run
      obtain ⟨_, _, ⟨-, rfl⟩, run⟩ := run
      exact ih run

theorem findLeaf_isLeaf {key : Bytes} {leaf : PageId} (run : findLeaf key s = .ok leaf s') :
    (s'.view leaf).isLeaf = true := by
  simp only [findLeaf, bind_ok, get_run] at run
  obtain ⟨_, _, ⟨rfl, rfl⟩, run⟩ := run
  exact descend_isLeaf run

theorem descendPath_isLeaf {key : Bytes} {fuel : Nat} {stack : List PageId}
    (run : descendPath key fuel pid s = .ok stack s') :
    stack ≠ [] ∧ (s'.view (stack.getLastD kInvalidPageId)).isLeaf = true := by
  induction fuel generalizing pid s stack with
  | zero => cases run
  | succ fuel ih =>
    simp only [descendPath, bind_ok, getPage_run] at run
    obtain ⟨_, t, -, _, _, ⟨rfl, rfl⟩, run⟩ := run
    split at run
    · rename_i found
      obtain ⟨rfl, rfl⟩ := pure_ok.mp run
      exact ⟨by simp, found⟩
    · simp only [bind_ok, failIf_ok] at run
      obtain ⟨_, _, ⟨-, rfl⟩, rest, t', run, ret⟩ := run
      obtain ⟨rfl, rfl⟩ := pure_ok.mp ret
      obtain ⟨some, leaf⟩ := ih run
      cases rest with
      | nil => exact absurd rfl some
      | cons x rest =>
        refine ⟨List.cons_ne_nil _ _, ?_⟩
        rw [List.getLastD_cons, List.getLastD_cons]
        rwa [List.getLastD_cons] at leaf

theorem updateLeaf_isLeaf {p : Page} {key value : Bytes} (leaf : p.isLeaf = true) :
    (p.updateLeaf key value).2.isLeaf = true := by
  obtain ⟨prev, next, recs, body⟩ := Page.isLeaf_cases leaf
  unfold Page.updateLeaf
  simp only [body]
  repeat' split
  all_goals first | exact leaf | rfl

theorem removeGrown_neat {leaf : PageId} {index : Nat} {u : Unit} (leafy : (s.view leaf).isLeaf = true)
    (neat : Neat q s) (run : removeGrown leaf index s = .ok u s') : Neat q s' := by
  simp only [removeGrown, bind_ok, withNode_run, failIf_ok, markDirty_run] at run
  obtain ⟨_, t, put, _, _, ⟨-, rfl⟩, dirty⟩ := run
  cases put
  cases dirty
  exact (neat.putPage (Page.deleteAt_packed leafy)).dirtied

theorem putHeld_neat {key value : Bytes} {txid : TxId} {wantBefore : Bool} {leaf : PageId}
    {ancestors : List PageId} {b : Option Bytes} (leafy : (s.view leaf).isLeaf = true)
    (neat : Neat q s) (run : putHeld key value txid wantBefore leaf ancestors s = .ok b s') :
    Neat q s' := by
  unfold putHeld at run
  rw [bind_of_ok (getPage_run leaf)] at run
  generalize (s.view leaf).findKeyIndex key = find at run
  obtain ⟨index, found⟩ := find
  simp only at run
  generalize (if (wantBefore && found) = true then some ((s.view leaf).getValueAt index) else none) =
    before at run
  obtain ⟨flag, t, put, run⟩ := bind_ok.mp run
  rw [withNode_run] at put
  cases put
  have neat₁ : Neat q (s.putPage leaf
      (if found then (s.view leaf).updateLeaf key value else (false, s.view leaf)).2) := by
    refine neat.putPage ?_
    split
    · exact Page.updateLeaf_packed (neat.packed leaf)
    · exact neat.packed leaf
  have leafy₁ : ((s.putPage leaf (if found then (s.view leaf).updateLeaf key value
      else (false, s.view leaf)).2).view leaf).isLeaf = true := by
    rw [view_putPage, if_pos rfl]
    split
    · exact updateLeaf_isLeaf leafy
    · exact leafy
  generalize (if found then (s.view leaf).updateLeaf key value else (false, s.view leaf)) = out
    at run neat₁ leafy₁
  split at run
  · exact ((keeps_logKeyRecord _ txid leaf true wantBefore).bind fun _ => .pure _) _ _ _ run neat₁
  · obtain ⟨_, t, grown, run⟩ := bind_ok.mp run
    have neat₂ : Neat q t := by
      rcases onlyIf_ok.mp grown with ⟨-, grown⟩ | ⟨-, rfl⟩
      · exact removeGrown_neat leafy₁ neat₁ grown
      · exact neat₁
    have rest : Keeps (Neat q) (do
        if ← withNode leaf (·.insertLeaf key value) then
          logKeyRecord (.put leaf key value before) txid leaf true wantBefore
          onlyIf (!found) (addToNumKeys 1)
          return before
        else
          putSplitting key value txid wantBefore before found leaf ancestors
          return before) := by
      refine (keeps_withNode leaf fun _ packed => Page.insertLeaf_packed packed).bind fun _ => .ite ?_ ?_
      · exact (keeps_logKeyRecord _ txid leaf true wantBefore).bind fun _ =>
          (keeps_onlyIf (keeps_addToNumKeys 1)).bind fun _ => .pure _
      · exact (keeps_putSplitting key value txid wantBefore before found leaf ancestors).bind
          fun _ => .pure _
    exact rest t b s' run neat₂

theorem keeps_putAtLeaf (key value : Bytes) (txid : TxId) (wantBefore : Bool) (leaf : PageId) :
    Keeps (Neat q) (putAtLeaf key value txid wantBefore leaf) := by
  refine (keeps_getPage leaf).bind fun node => ?_
  generalize node.findKeyIndex key = find
  obtain ⟨index, found⟩ := find
  refine .ite ?_ ?_
  · exact (keeps_withNode leaf fun _ packed => Page.updateLeaf_packed packed).bind fun _ => .ite
      ((keeps_logKeyRecord _ txid leaf true wantBefore).bind fun _ => .pure _) (.pure _)
  · exact (keeps_withNode leaf fun _ packed => Page.insertLeaf_packed packed).bind fun _ => .ite
      ((keeps_logKeyRecord _ txid leaf true wantBefore).bind fun _ =>
        (keeps_addToNumKeys 1).bind fun _ => .pure _) (.pure _)

theorem keeps_isEmpty : Keeps (Neat q) isEmpty := Keeps.get.bind fun _ => .pure _

theorem keeps_treePut (key value : Bytes) (txid : TxId) (wantBefore : Bool) :
    Keeps (Neat q) (treePut key value txid wantBefore) := by
  refine keeps_failIf.bind fun _ => .bind ?_ fun done => ?_
  · exact keeps_isEmpty.bind fun _ => .ite (.pure _)
      ((keeps_findLeaf keeps_fetchPage key).bind fun leaf => keeps_putAtLeaf key value txid wantBefore leaf)
  · cases done with
    | some before => exact .pure _
    | none =>
      refine keeps_isEmpty.bind fun _ => .ite ((keeps_putFirst key value txid).bind fun _ => .pure _) ?_
      refine Keeps.get.bind fun _ =>
        (keeps_descendPath keeps_fetchPage key _ _).bind_of fun stack t known neat b s' run => ?_
      obtain ⟨t', path⟩ := known
      exact putHeld_neat (descendPath_isLeaf path).2 neat run

theorem keeps_treeDelete (key : Bytes) (txid : TxId) (wantBefore : Bool) :
    Keeps (Neat q) (treeDelete key txid wantBefore) := by
  refine keeps_isEmpty.bind fun _ => keeps_failIf.bind fun _ => (keeps_findLeaf keeps_fetchPage key).bind_of
    fun leaf t known neat b s' run => ?_
  obtain ⟨t', find⟩ := known
  have leafy := findLeaf_isLeaf find
  unfold deleteAtLeaf at run
  rw [bind_of_ok (getPage_run leaf)] at run
  generalize (t.view leaf).findKeyIndex key = place at run
  obtain ⟨index, found⟩ := place
  simp only [bind_ok, failIf_ok, withNode_run] at run
  obtain ⟨_, _, ⟨-, rfl⟩, flag, t₁, put, _, _, ⟨-, rfl⟩, _, t₂, log, _, t₃, count, ret⟩ := run
  cases put
  have neat₁ : Neat q (t.putPage leaf ((t.view leaf).deleteAt index).2) :=
    neat.putPage (Page.deleteAt_packed leafy)
  have neat₂ := keeps_logKeyRecord _ txid leaf true wantBefore _ _ _ log neat₁
  exact (pure_ok.mp ret).2 ▸ keeps_addToNumKeys (-1) _ _ _ count neat₂

end

end PagerDB

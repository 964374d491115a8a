import PagerDB.BTree.OrderedMap
import PagerDB.BTree.Packed
import PagerDB.Lib.Keeps
import PagerDB.Wal.LogSpec

/-! Leaf pages stay tidy (keys ascending, every byte accounted for) through every Put and Delete,
whether or not it fails on its way. A split that fails half way leaves a tree that lost its shape,
but each of its pages is one that the node operations have built. What the calls log about keys is
therefore no larger than a page. -/
namespace PagerDB

open KeepsLib SortedLib Store

namespace Page

def Tidy (p : Page) : Prop :=
  ∀ prev next recs, p.body = .leaf prev next recs →
    (recs.map Prod.fst).Pairwise (· < ·) ∧ p.Accounted

variable {p : Page}

theorem tidy_of_not_leaf (other : ∀ prev next recs, p.body ≠ .leaf prev next recs) : p.Tidy :=
  fun prev next recs body => absurd body (other prev next recs)

theorem tidy_init_leaf (id prev next : PageId) : (init id (.leaf prev next [])).Tidy := by
  intro prev' next' recs body
  cases body
  constructor
  · exact List.Pairwise.nil
  · exact init_accounted id prev next

theorem tidy_internal (id r : PageId) (lsn : Lsn) (top dead : Nat) (es : List (Bytes × PageId)) :
    Tidy ⟨id, lsn, top, dead, .internal r es⟩ := tidy_of_not_leaf nofun

theorem tidy_zeroed : zeroed.Tidy := tidy_of_not_leaf nofun

theorem Tidy.stamp (tidy : p.Tidy) (lsn : Lsn) : (p.stamp lsn).Tidy := tidy

theorem Tidy.setPrevLeaf (tidy : p.Tidy) (prev : PageId) : (p.setPrevLeaf prev).Tidy := by
  unfold Page.setPrevLeaf
  cases hb : p.body with
  | leaf prev' next recs =>
    obtain ⟨asc, total, le⟩ := tidy prev' next recs hb
    intro prev'' next' recs' body
    cases body
    constructor
    · exact asc
    · constructor
      · simpa [liveBytes, hb] using total
      · simpa [freeSpaceStart, numSlots, hb] using le
  | _ => exact tidy

theorem Tidy.insertLeaf (tidy : p.Tidy) (key value : Bytes) : (p.insertLeaf key value).2.Tidy := by
  cases hb : p.body with
  | leaf prev next recs =>
    obtain ⟨asc, acc⟩ := tidy prev next recs hb
    cases run : p.insertLeaf key value with
    | mk flag p' =>
      cases flag with
      | true =>
        obtain ⟨lo, hi, rfl, below, above, body, -, -, account⟩ := insertLeaf_true hb asc run
        intro prev' next' recs' body'
        cases body.symm.trans body'
        constructor
        · exact ascending_insert asc below above
        · exact account acc
      | false =>
        intro prev' next' recs' body'
        rw [insertLeaf_refused hb run] at body' ⊢
        rw [ensureFit_body, hb] at body'
        cases body'
        exact ⟨asc, ensureFit_accounted _ acc⟩
  | _ =>
    have refused : p.insertLeaf key value = (false, p) := by simp [Page.insertLeaf, isLeaf, hb]
    rw [refused]
    exact tidy

theorem Tidy.updateLeaf (tidy : p.Tidy) (key value : Bytes) : (p.updateLeaf key value).2.Tidy := by
  cases run : p.updateLeaf key value with
  | mk flag p' =>
    cases flag with
    | false =>
      rw [updateLeaf_false run]
      exact tidy
    | true =>
      cases hb : p.body with
      | leaf prev next recs =>
        obtain ⟨asc, acc⟩ := tidy prev next recs hb
        obtain ⟨lo, old, hi, rfl, below, above, body, -, -, account⟩ := updateLeaf_true hb asc run
        intro prev' next' recs' body'
        cases body.symm.trans body'
        constructor
        · simpa using asc
        · exact account acc
      | _ => simp [Page.updateLeaf, hb] at run

theorem Tidy.deleteAt (tidy : p.Tidy) (index : Nat) : (p.deleteAt index).2.Tidy := by
  cases hb : p.body with
  | leaf prev next recs =>
    by_cases inside : index < recs.length
    · obtain ⟨asc, acc⟩ := tidy prev next recs hb
      obtain ⟨lo, r, hi, rfl, rfl⟩ : ∃ lo r hi, recs = lo ++ r :: hi ∧ index = lo.length := by
        refine ⟨recs.take index, recs[index], recs.drop (index + 1), by simp, ?_⟩
        simp
        omega
      rw [deleteAt_cut hb]
      intro prev' next' recs' body'
      cases body'
      constructor
      · refine asc.sublist (List.Sublist.map _ ?_)
        simp
      · exact delete_accounted hb acc
    · have refused : p.deleteAt index = (false, p) := by
        simp [Page.deleteAt, hb]
        omega
      rw [refused]
      exact tidy
  | internal r es =>
    simp only [Page.deleteAt, hb]
    split
    · exact tidy
    · exact tidy_internal _ _ _ _ _ _
  | _ =>
    have refused : p.deleteAt index = (false, p) := by simp [Page.deleteAt, hb]
    rw [refused]
    exact tidy

theorem Tidy.insertInternal (tidy : p.Tidy) (key : Bytes) (child : PageId) :
    (p.insertInternal key child).2.Tidy := by
  cases hb : p.body with
  | internal r es =>
    have kept := p.ensureFit_body (kSlotEntrySize + 6 + key.length)
    simp only [Page.insertInternal, hb]
    generalize p.ensureFit (kSlotEntrySize + 6 + key.length) = fit at *
    refine tidy_of_not_leaf fun prev next recs => ?_
    split
    · rw [kept, hb]
      dsimp only
      split
      · nofun
      · rw [kept, hb]
        nofun
    · rw [kept, hb]
      nofun
  | _ =>
    have refused : p.insertInternal key child = (false, p) := by simp [Page.insertInternal, hb]
    rw [refused]
    exact tidy

theorem Tidy.insertInternalAfterSplit (tidy : p.Tidy) (key : Bytes) (left right : PageId) :
    (p.insertInternalAfterSplit key left right).2.Tidy := by
  unfold Page.insertInternalAfterSplit
  split
  · split
    · dsimp only
      split
      · exact tidy
      · exact tidy_internal _ _ _ _ _ _
    · exact tidy
  · exact tidy

/- What a tidy leaf holds is no larger than a page. -/

theorem Tidy.rec_le (tidy : p.Tidy) {r : Bytes × Bytes} (mem : r ∈ p.recs) :
    r.1.length + r.2.length ≤ kPageSize := by
  cases hb : p.body with
  | leaf prev next recs =>
    obtain ⟨-, total, start⟩ := tidy prev next recs hb
    have inside : r ∈ recs := by simpa [Page.recs, hb] using mem
    obtain ⟨lo, hi, rfl⟩ := List.append_of_mem inside
    rw [leaf_liveBytes hb, List.map_append, List.map_cons, List.sum_append, List.sum_cons,
      leafRecordBytes] at total
    omega
  | _ => simp [Page.recs, hb] at mem

theorem Tidy.value_le (tidy : p.Tidy) (index : Nat) : (p.getValueAt index).length ≤ kPageSize := by
  unfold Page.getValueAt
  rw [List.getD_eq_getElem?_getD]
  cases at_ : p.recs[index]? with
  | some r =>
    have bound := tidy.rec_le (List.mem_of_getElem? at_)
    dsimp only [Option.getD]
    omega
  | none => exact Nat.zero_le _

theorem Tidy.before_le (tidy : p.Tidy) (wanted : Bool) (index : Nat) :
    ∀ b ∈ (if wanted then some (p.getValueAt index) else none : Option Bytes), b.length ≤ 65534 := by
  intro b mem
  cases wanted with
  | true =>
    obtain rfl := Option.some.inj mem
    exact (tidy.value_le index).trans (by decide)
  | false => cases mem

theorem Tidy.found_le (tidy : p.Tidy) (leaf : p.isLeaf = true) {key : Bytes}
    (found : (p.findKeyIndex key).2 = true) : key.length ≤ kPageSize := by
  obtain ⟨prev, next, recs, hb⟩ := isLeaf_cases leaf
  obtain ⟨asc, -⟩ := tidy prev next recs hb
  rcases findKeyIndex_leaf_cases hb asc key with ⟨lo, old, hi, rfl, -⟩ | ⟨lo, hi, rfl, -, -, find⟩
  · have held : (key, old) ∈ p.recs := by simp [Page.recs, hb]
    exact (Nat.le_add_right _ _).trans (tidy.rec_le held)
  · rw [find] at found
    cases found

end Page

structure Store.Tidy (s : Store) : Prop where
  cache : ∀ pid f, s.cache pid = some f → f.page.Tidy
  disk : ∀ pid p, s.disk pid = some p → p.Tidy

abbrev Tidies {α : Type} (x : M α) : Prop := KeepsAlways Store.Tidy x

/-- The 16-bit lengths of a record hold those of its fields, and a before-image is no longer than the
sentinel of an absent one allows. -/
def LogBody.Encodable : LogBody → Prop
  | .put _ key value before =>
    key.length ≤ 65535 ∧ value.length ≤ 65535 ∧ ∀ b ∈ before, b.length ≤ 65534
  | .delete _ key before => key.length ≤ 65535 ∧ ∀ b ∈ before, b.length ≤ 65534
  | .pageImage .. => kPageSize ≤ 65535
  | _ => True

/-- Tidy pages, and a log in which every record but some old ones is encodable. -/
structure Store.Logged (old : List LogRecord) (s : Store) : Prop where
  tidy : s.Tidy
  small : ∀ w, s.wal = some w → ∀ r ∈ recordsOf w.chunks, r ∈ old ∨ r.body.Encodable

abbrev Logs {α : Type} (old : List LogRecord) (x : M α) : Prop := KeepsAlways (Store.Logged old) x

variable {s s' : Store}

theorem Store.Tidy.view (tidy : s.Tidy) (pid : PageId) : (s.view pid).Tidy := by
  unfold Store.view
  cases cached : s.cache pid with
  | some f => exact tidy.cache pid f cached
  | none =>
    cases stored : s.disk pid with
    | some p => exact tidy.disk pid p stored
    | none => exact Page.tidy_zeroed

theorem Store.Tidy.setFrame (tidy : s.Tidy) {f : Frame} (new : f.page.Tidy) (pid : PageId) :
    (s.setFrame pid f).Tidy := by
  constructor
  · intro q g cached
    by_cases e : q = pid
    · simp only [Store.setFrame, e, if_true, Option.some.injEq] at cached
      exact cached ▸ new
    · simp only [Store.setFrame, e, if_false] at cached
      exact tidy.cache q g cached
  · exact tidy.disk

theorem Store.Tidy.setDisk (tidy : s.Tidy) {p : Page} (new : p.Tidy) (pid : PageId) :
    (s.setDisk pid (some p)).Tidy := by
  constructor
  · exact tidy.cache
  · intro q p' stored
    by_cases e : q = pid
    · simp only [Store.setDisk, e, if_true, Option.some.injEq] at stored
      exact stored ▸ new
    · simp only [Store.setDisk, e, if_false] at stored
      exact tidy.disk q p' stored

theorem Store.Tidy.logged (tidy : s.Tidy) : ∃ old, s.Logged old :=
  ⟨s.wal.elim [] fun w => recordsOf w.chunks, tidy, fun w is r mem => .inl (by simpa [is] using mem)⟩

variable {old : List LogRecord}

theorem Store.Logged.same (logged : s.Logged old) (tidy : s'.Tidy) (wal : s'.wal = s.wal) : s'.Logged old :=
  ⟨tidy, wal ▸ logged.small⟩

theorem Store.Logged.append (logged : s.Logged old) {w w' : LogWriter} {r : LogRecord} (is : s.wal = some w)
    (chunks : w'.chunks = w.chunks ++ [.record r]) (small : r.body.Encodable) (tidy : s'.Tidy)
    (wal : s'.wal = some w') : s'.Logged old := by
  refine ⟨tidy, fun v is' q mem => ?_⟩
  cases wal.symm.trans is'
  rw [chunks, recordsOf_append, recordsOf_singleton, List.mem_append] at mem
  rcases mem with mem | mem
  · exact logged.small w is q mem
  · rw [List.mem_singleton.mp mem]
    exact .inr small

/- Primitives. -/

section Primitives

variable {α : Type}

theorem logs_modify {f : Store → Store} (cache : ∀ s, (f s).cache = s.cache)
    (disk : ∀ s, (f s).disk = s.disk) (wal : ∀ s, (f s).wal = s.wal) : Logs old (modify f) := by
  apply KeepsAlways.modify
  intro s logged
  refine logged.same ⟨?_, ?_⟩ (wal s)
  · rw [cache]
    exact logged.tidy.cache
  · rw [disk]
    exact logged.tidy.disk

theorem logs_failIf (c : Prop) [Decidable c] (e : Failure) : Logs old (failIf c e) :=
  KeepsAlways.ite (.throw e) (.pure ())

theorem logs_onlyIf (c : Bool) {x : M Unit} (keep : Logs old x) : Logs old (onlyIf c x) :=
  KeepsAlways.ite keep (.pure ())

theorem logs_ioPoint : Logs old ioPoint := by
  intro s logged
  unfold ioPoint
  rcases s.io with _ | ⟨_ | fault, rest⟩
  · exact logged
  · exact logged.same ⟨logged.tidy.cache, logged.tidy.disk⟩ rfl
  · exact logged.same ⟨logged.tidy.cache, logged.tidy.disk⟩ rfl

theorem logs_getPage {pid : PageId} {f : Page → M α} (next : ∀ p, p.Tidy → Logs old (f p)) :
    Logs old (getPage pid >>= f) := by
  refine KeepsAlways.bind_of (R := Page.Tidy) (fun _ logged => logged) ?_ next
  intro s p s' logged run
  cases run
  exact logged.tidy.view pid

theorem logs_setPage (pid : PageId) {p : Page} (new : p.Tidy) : Logs old (setPage pid p) := by
  intro s logged
  exact logged.same (logged.tidy.setFrame new pid) rfl

theorem logs_markDirty (pid : PageId) : Logs old (markDirty pid) := by
  intro s logged
  exact logged.same (logged.tidy.setFrame (logged.tidy.view pid) pid) rfl

theorem logs_withNode (pid : PageId) {f : Page → Bool × Page}
    (keep : ∀ p, p.Tidy → (f p).2.Tidy) : Logs old (withNode pid f) := by
  apply logs_getPage
  intro p tidy
  exact (logs_setPage pid (keep p tidy)).bind fun _ => .pure _

theorem logs_readPage (pid : PageId) : Logs old (readPage pid) := by
  refine KeepsAlways.get.bind fun s => (logs_failIf _ _).bind fun _ => (logs_failIf _ _).bind fun _ =>
    logs_ioPoint.bind fun _ => ?_
  cases s.disk pid with
  | some page => exact .pure page
  | none => exact .throw _

theorem readPage_tidy {pid : PageId} {p : Page} (tidy : s.Tidy) (run : readPage pid s = .ok p s') :
    p.Tidy := tidy.disk pid p (readPage_ok run).1

theorem logs_fetchPage (pid : PageId) : Logs old (fetchPage pid) := by
  refine KeepsAlways.get.bind fun s => ?_
  cases s.cache pid with
  | some f => exact .pure ()
  | none =>
    refine logs_ioPoint.bind fun _ => (logs_readPage pid).bind_of (R := Page.Tidy) ?_ ?_
    · intro s p s' logged run
      exact readPage_tidy logged.tidy run
    · intro p new
      exact .modify fun s logged => logged.same (logged.tidy.setFrame new pid) rfl

theorem logs_allocatePage : Logs old allocatePage := by
  refine KeepsAlways.get.bind fun s => KeepsAlways.ite ?_ ?_
  · refine (logs_readPage _).bind fun page => ?_
    cases page.body with
    | free next =>
      refine logs_ioPoint.bind fun _ => KeepsAlways.bind (.modify fun t logged => ?_) fun _ => .pure _
      have recycled := logged.tidy.setDisk Page.tidy_zeroed s.metaPage.freeListHead
      exact logged.same ⟨recycled.cache, recycled.disk⟩ rfl
    | _ => exact .throw _
  · refine logs_ioPoint.bind fun _ => (logs_failIf _ _).bind fun _ =>
      KeepsAlways.bind (.modify fun t logged => ?_) fun _ => .pure _
    have extended := logged.tidy.setDisk Page.tidy_zeroed s.metaPage.numPages
    exact logged.same ⟨extended.cache, extended.disk⟩ rfl

theorem logs_newPage : Logs old newPage := by
  refine logs_ioPoint.bind fun _ => logs_allocatePage.bind fun pid => KeepsAlways.bind ?_ fun _ => .pure pid
  exact .modify fun _ logged => logged.same (logged.tidy.setFrame Page.tidy_zeroed pid) rfl

end Primitives

/- The log. -/

section Logging

variable (txid : TxId) (opEnd : Bool) {body : LogBody} (pid : PageId)

theorem logs_appendRecord (small : body.Encodable) : Logs old (appendRecord txid opEnd body) := by
  intro s logged
  unfold appendRecord
  rw [bind_of_ok get_run]
  cases wal : s.wal with
  | none => exact logged
  | some w =>
    have chunks : (w.append txid opEnd body).chunks = w.chunks ++
      [.record ⟨w.endLsn, txid, opEnd, body⟩] := by
      simp [LogWriter.append, LogWriter.chunks]
    exact logged.append wal chunks small ⟨logged.tidy.cache, logged.tidy.disk⟩ rfl

theorem logs_stamp (lsn : Lsn) : Logs old (getPage pid >>= fun page => setPage pid (page.stamp lsn)) :=
  logs_getPage fun _ tidy => logs_setPage pid (tidy.stamp lsn)

theorem logs_logPageImage : Logs old (logPageImage pid txid opEnd) := by
  refine (logs_markDirty pid).bind fun _ => ?_
  intro s logged
  rw [bind_of_ok get_run]
  cases wal : s.wal with
  | none => exact logged
  | some w =>
    have chunks : (w.appendPageImage pid (s.view pid) txid opEnd).chunks =
        w.chunks ++ [.record ⟨w.endLsn, txid, opEnd, .pageImage pid ((s.view pid).stamp w.endLsn)⟩] :=
      w.logged_chunks txid opEnd (.pageImage pid (s.view pid))
    have stamped : (s.putPage pid ((s.view pid).stamp w.endLsn)).Tidy :=
      logged.tidy.setFrame ((logged.tidy.view pid).stamp _) pid
    have small : (LogBody.pageImage pid ((s.view pid).stamp w.endLsn)).Encodable :=
      show kPageSize ≤ 65535 by decide
    exact logged.append wal chunks small ⟨stamped.cache, stamped.disk⟩ rfl

theorem logs_logPageEvent (small : body.Encodable) : Logs old (logPageEvent body txid opEnd) :=
  (logs_appendRecord txid opEnd small).bind fun _ => .pure ()

theorem logs_allocation (page : PageId) : Logs old (logPageEvent (.allocPage page) txid opEnd) :=
  logs_logPageEvent txid opEnd trivial

theorem logs_rootChange (page : PageId) : Logs old (logPageEvent (.rootChange page) txid opEnd) :=
  logs_logPageEvent txid opEnd trivial

theorem logs_logDelta (small : body.Encodable) : Logs old (logDelta body txid pid opEnd) := by
  refine (logs_appendRecord txid opEnd small).bind fun lsn => ?_
  cases lsn with
  | none => exact .pure ()
  | some lsn => exact logs_stamp pid lsn

theorem logs_logKeyRecord (needsUndo : Bool) (small : body.Encodable) :
    Logs old (logKeyRecord body txid pid opEnd needsUndo) := by
  refine (logs_markDirty pid).bind fun _ => KeepsAlways.get.bind fun s => ?_
  cases s.wal with
  | none => exact .pure ()
  | some w =>
    refine KeepsAlways.ite ?_ (logs_logDelta txid opEnd pid small)
    exact (logs_logPageImage txid _ pid).bind fun _ =>
      KeepsAlways.ite (logs_logDelta txid opEnd pid small) (.pure ())

end Logging

/- The calls. -/

section Calls

variable {key value : Bytes} {txid : TxId} {wantBefore : Bool}

theorem logs_descend (fuel : Nat) (pid : PageId) : Logs old (descend key fuel pid) := by
  induction fuel generalizing pid with
  | zero => exact .throw _
  | succ fuel ih =>
    refine (logs_fetchPage pid).bind fun _ => logs_getPage fun page _ => ?_
    exact KeepsAlways.ite (.pure pid) ((logs_failIf _ _).bind fun _ => ih _)

theorem logs_findLeaf : Logs old (findLeaf key) :=
  KeepsAlways.get.bind fun _ => logs_descend _ _

theorem logs_descendPath (fuel : Nat) (pid : PageId) : Logs old (descendPath key fuel pid) := by
  induction fuel generalizing pid with
  | zero => exact .throw _
  | succ fuel ih =>
    refine (logs_fetchPage pid).bind fun _ => logs_getPage fun page _ => ?_
    exact KeepsAlways.ite (.pure _)
      ((logs_failIf _ _).bind fun _ => (ih _).bind fun _ => .pure _)

theorem logs_addToNumKeys (delta : Int) : Logs old (addToNumKeys delta) :=
  logs_modify (fun _ => rfl) (fun _ => rfl) fun _ => rfl

theorem logs_setRootPageId (pid : PageId) : Logs old (setRootPageId pid) :=
  logs_modify (fun _ => rfl) (fun _ => rfl) fun _ => rfl

theorem logs_isEmpty : Logs old isEmpty := KeepsAlways.get.bind fun _ => .pure _

theorem logs_treeDelete : Logs old (treeDelete key txid wantBefore) := by
  refine logs_isEmpty.bind fun _ => (logs_failIf _ _).bind fun _ => logs_findLeaf.bind_at ?_
  intro s leaf t _ find logged
  have leafy := findLeaf_isLeaf find
  have tidy := logged.tidy.view leaf
  unfold deleteAtLeaf
  rw [bind_of_ok (getPage_run leaf)]
  dsimp only
  by_cases found : ((t.view leaf).findKeyIndex key).2 = true
  · rw [bind_of_ok (failIf_of_not (by simp [found]))]
    have small : (LogBody.delete leaf key (if wantBefore then
        some ((t.view leaf).getValueAt ((t.view leaf).findKeyIndex key).1) else none)).Encodable :=
      ⟨(tidy.found_le leafy found).trans (by decide), tidy.before_le _ _⟩
    refine KeepsAlways.bind (logs_withNode leaf fun p tidy => tidy.deleteAt _) (fun _ => ?_) t logged
    exact (logs_failIf _ _).bind fun _ => (logs_logKeyRecord _ _ _ _ small).bind fun _ =>
      (logs_addToNumKeys _).bind fun _ => .pure _
  · rw [bind_of_error (failIf_of (by simp [found]))]
    exact logged

theorem logs_insertLeaf (pid : PageId) (k v : Bytes) : Logs old (withNode pid (·.insertLeaf k v)) :=
  logs_withNode pid fun _ tidy => tidy.insertLeaf k v

theorem logs_rebuildLeaf (pid : PageId) (overflow : String) (recs : List (Bytes × Bytes)) :
    Logs old (rebuildLeaf pid overflow recs) := by
  induction recs with
  | nil => exact .pure ()
  | cons r recs ih =>
    exact (logs_insertLeaf pid _ _).bind fun _ => (logs_failIf _ _).bind fun _ => ih

theorem logs_rebuildInternal (pid : PageId) (overflow : String) (es : List (Bytes × PageId)) :
    Logs old (rebuildInternal pid overflow es) := by
  induction es with
  | nil => exact .pure ()
  | cons e es ih =>
    refine (logs_withNode pid fun _ tidy => tidy.insertInternal _ _).bind fun _ => ?_
    exact (logs_failIf _ _).bind fun _ => ih

theorem logs_relinkSibling (oldNext new : PageId) : Logs old (relinkSibling oldNext new txid) := by
  refine (logs_fetchPage _).bind fun _ => logs_getPage fun page tidy => ?_
  exact (logs_setPage _ (tidy.setPrevLeaf new)).bind fun _ => logs_logPageImage _ _ _

theorem logs_splitLeaf (pid : PageId) : Logs old (splitLeaf pid txid) := by
  refine logs_getPage fun node _ => logs_newPage.bind fun new => ?_
  refine (logs_allocation _ _ _).bind fun _ => ?_
  refine (logs_setPage _ (Page.tidy_init_leaf _ _ _)).bind fun _ => (logs_rebuildLeaf _ _ _).bind fun _ => ?_
  refine (logs_logPageImage _ _ _).bind fun _ => ?_
  refine (logs_setPage _ (Page.tidy_init_leaf _ _ _)).bind fun _ => (logs_rebuildLeaf _ _ _).bind fun _ => ?_
  refine (logs_logPageImage _ _ _).bind fun _ => ?_
  exact (logs_onlyIf _ (logs_relinkSibling _ _)).bind fun _ => .pure _

theorem logs_splitInternal (pid : PageId) : Logs old (splitInternal pid txid) := by
  refine logs_getPage fun node _ => logs_newPage.bind fun new => ?_
  refine (logs_allocation _ _ _).bind fun _ => (logs_failIf _ _).bind fun _ => ?_
  refine (logs_setPage _ (Page.tidy_internal _ _ _ _ _ _)).bind fun _ => ?_
  refine (logs_rebuildInternal _ _ _).bind fun _ => (logs_logPageImage _ _ _).bind fun _ => ?_
  refine (logs_setPage _ (Page.tidy_internal _ _ _ _ _ _)).bind fun _ => ?_
  exact (logs_rebuildInternal _ _ _).bind fun _ => (logs_logPageImage _ _ _).bind fun _ => .pure _

theorem logs_createNewRoot (splitKey : Bytes) (left right : PageId) :
    Logs old (createNewRoot splitKey left right txid) := by
  refine logs_newPage.bind fun root => (logs_allocation _ _ _).bind fun _ => ?_
  refine (logs_setPage _ (Page.tidy_internal _ _ _ _ _ _)).bind fun _ => ?_
  refine (logs_withNode root fun _ tidy => tidy.insertInternal _ _).bind fun _ => ?_
  refine (logs_failIf _ _).bind fun _ => logs_getPage fun page _ => ?_
  refine (logs_setPage _ (Page.tidy_internal _ _ _ _ _ _)).bind fun _ => ?_
  refine (logs_logPageImage _ _ _).bind fun _ => (logs_rootChange _ _ _).bind fun _ => ?_
  exact logs_setRootPageId root

theorem logs_insertIntoHalf (k newKey : Bytes) (left right parent new : PageId) :
    Logs old (insertIntoHalf txid k newKey left right parent new) := by
  refine KeepsAlways.ite ?_ ?_
  all_goals
    refine (logs_withNode _ fun _ tidy => tidy.insertInternalAfterSplit _ _ _).bind fun _ => ?_
    exact (logs_failIf _ _).bind fun _ => logs_logPageImage _ _ _

theorem logs_propagate (ancestors : List PageId) (k : Bytes) (left right : PageId) :
    Logs old (propagate txid ancestors k left right) := by
  induction ancestors generalizing k left right with
  | nil => exact logs_createNewRoot k left right
  | cons parent rest ih =>
    refine (logs_withNode _ fun _ tidy => tidy.insertInternalAfterSplit _ _ _).bind fun _ => ?_
    refine KeepsAlways.ite (logs_logPageImage _ _ _) ?_
    exact (logs_splitInternal _).bind fun _ => (logs_insertIntoHalf _ _ _ _ _ _).bind fun _ => ih _ _ _

theorem putRecord_small {page : PageId} {before : Option Bytes} (size : key.length + value.length ≤ kPageSize)
    (short : ∀ b ∈ before, b.length ≤ 65534) : (LogBody.put page key value before).Encodable := by
  have page : kPageSize ≤ 65535 := by decide
  refine ⟨?_, ?_, short⟩
  · omega
  · omega

theorem logs_insertSplit {before : Option Bytes} (size : key.length + value.length ≤ kPageSize)
    (short : ∀ b ∈ before, b.length ≤ 65534) (splitKey : Bytes) (leaf new : PageId) :
    Logs old (insertSplit key value txid wantBefore before splitKey leaf new) := by
  refine KeepsAlways.ite ?_ ?_
  all_goals
    refine (logs_insertLeaf _ _ _).bind fun _ => (logs_failIf _ _).bind fun _ => ?_
    exact logs_logKeyRecord _ _ _ _ (putRecord_small size short)

theorem logs_putSplitting {before : Option Bytes} (size : key.length + value.length ≤ kPageSize)
    (short : ∀ b ∈ before, b.length ≤ 65534) (replacing : Bool) (leaf : PageId) (ancestors : List PageId) :
    Logs old (putSplitting key value txid wantBefore before replacing leaf ancestors) := by
  refine (logs_splitLeaf leaf).bind fun _ => (logs_insertSplit size short _ _ _).bind fun _ => ?_
  exact (logs_onlyIf _ (logs_addToNumKeys 1)).bind fun _ => logs_propagate _ _ _ _

theorem logs_putFirst : Logs old (putFirst key value txid) := by
  refine logs_newPage.bind fun root => (logs_setPage _ (Page.tidy_init_leaf _ _ _)).bind fun _ => ?_
  refine (logs_insertLeaf _ _ _).bind fun _ => (logs_failIf _ _).bind fun _ => ?_
  refine (logs_allocation _ _ _).bind fun _ => (logs_logPageImage _ _ _).bind fun _ => ?_
  refine (logs_rootChange _ _ _).bind fun _ => (logs_setRootPageId root).bind fun _ => ?_
  exact logs_addToNumKeys 1

theorem logs_putHeld (size : key.length + value.length ≤ kPageSize) (leaf : PageId)
    (ancestors : List PageId) :
    Logs old (putHeld key value txid wantBefore leaf ancestors) := by
  refine logs_getPage fun node tidy => (logs_withNode leaf fun p tidy => ?_).bind fun _ => ?_
  · split
    · exact tidy.updateLeaf key value
    · exact tidy
  · have short := tidy.before_le (wantBefore && (node.findKeyIndex key).2) (node.findKeyIndex key).1
    refine KeepsAlways.ite ((logs_logKeyRecord _ _ _ _ (putRecord_small size short)).bind fun _ => .pure _) ?_
    refine (logs_onlyIf _ ?_).bind fun _ => (logs_insertLeaf _ _ _).bind fun _ => ?_
    · refine (logs_withNode leaf fun p tidy => tidy.deleteAt _).bind fun _ => ?_
      exact (logs_failIf _ _).bind fun _ => logs_markDirty leaf
    · refine KeepsAlways.ite ?_ ((logs_putSplitting size short _ _ _).bind fun _ => .pure _)
      refine (logs_logKeyRecord _ _ _ _ (putRecord_small size short)).bind fun _ => ?_
      exact (logs_onlyIf _ (logs_addToNumKeys 1)).bind fun _ => .pure _

theorem logs_putPessimistic (size : key.length + value.length ≤ kPageSize) :
    Logs old (putPessimistic key value txid wantBefore) := by
  refine logs_isEmpty.bind fun _ => KeepsAlways.ite (logs_putFirst.bind fun _ => .pure _) ?_
  exact KeepsAlways.get.bind fun _ => (logs_descendPath _ _).bind fun _ => logs_putHeld size _ _

theorem logs_putOptimistic (size : key.length + value.length ≤ kPageSize) :
    Logs old (putOptimistic key value txid wantBefore) := by
  refine logs_isEmpty.bind fun _ => KeepsAlways.ite (.pure none) (logs_findLeaf.bind fun leaf => ?_)
  refine logs_getPage fun node tidy => ?_
  have short := tidy.before_le (wantBefore && (node.findKeyIndex key).2) (node.findKeyIndex key).1
  refine KeepsAlways.ite ?_ ?_
  · refine (logs_withNode leaf fun p tidy => tidy.updateLeaf key value).bind fun _ => ?_
    exact KeepsAlways.ite ((logs_logKeyRecord _ _ _ _ (putRecord_small size short)).bind fun _ =>
      .pure _) (.pure none)
  · refine (logs_insertLeaf _ _ _).bind fun _ => KeepsAlways.ite ?_ (.pure none)
    refine (logs_logKeyRecord _ _ _ _ (putRecord_small size short)).bind fun _ => ?_
    exact (logs_addToNumKeys 1).bind fun _ => .pure _

theorem logs_treePut : Logs old (treePut key value txid wantBefore) := by
  refine (logs_failIf _ _).bind_at fun s _ t _ admitted logged => ?_
  obtain ⟨small, rfl⟩ := failIf_ok.mp admitted
  have size : key.length + value.length ≤ kPageSize := by
    simp only [kMaxLeafRecordBytes, kPageSize] at small ⊢
    omega
  refine KeepsAlways.bind (logs_putOptimistic size) (fun out => ?_) _ logged
  cases out with
  | some before => exact .pure before
  | none => exact logs_putPessimistic size

theorem logs_perform (c : Call) (txid : TxId) (wantBefore : Bool) : Logs old (c.perform txid wantBefore) := by
  cases c with
  | put key value => exact logs_treePut
  | delete key => exact logs_treeDelete

theorem tidies_findLeaf : Tidies (findLeaf key) := by
  intro s tidy
  obtain ⟨old, logged⟩ := tidy.logged
  have after := @logs_findLeaf old key s logged
  split at after
  · exact after.tidy
  · exact after.tidy

end Calls

/-- One step of a run that goes on after a call has failed. -/
def callStep (s : Store) : Event → Option Store
  | .call c txid wantBefore io =>
    match c.perform txid wantBefore (s.facing io) with
    | .ok _ s' => some s'
    | .error _ s' => some s'
  | .evict pid => s.evict pid

theorem create_tidy (vol : Volume) (wal : Option LogWriter) : (create vol wal).Tidy :=
  ⟨nofun, nofun⟩

theorem Store.Logged.step (logged : s.Logged old) {ev : Event} (next : callStep s ev = some s') :
    s'.Logged old := by
  cases ev with
  | call c txid wantBefore io =>
    have facing : (s.facing io).Logged old := logged.same ⟨logged.tidy.cache, logged.tidy.disk⟩ rfl
    have after := logs_perform c txid wantBefore (s.facing io) facing
    unfold callStep at next
    dsimp only at next
    split at next
    · rename_i run
      rw [run] at after
      exact Option.some.inj next ▸ after
    · rename_i run
      rw [run] at after
      exact Option.some.inj next ▸ after
  | evict pid =>
    simp only [callStep, Store.evict] at next
    cases cached : s.cache pid with
    | none => simp [cached] at next
    | some f =>
      simp only [cached, Option.ite_none_right_eq_some, Option.some.injEq] at next
      obtain ⟨-, rfl⟩ := next
      have written := logged.tidy.setDisk (logged.tidy.cache pid f cached) pid
      refine logged.same ⟨fun q g kept => ?_, written.disk⟩ rfl
      simp only [Option.ite_none_left_eq_some] at kept
      exact logged.tidy.cache q g kept.2

theorem Store.Tidy.step (tidy : s.Tidy) {ev : Event} (next : callStep s ev = some s') : s'.Tidy := by
  obtain ⟨old, logged⟩ := tidy.logged
  exact (logged.step next).tidy

end PagerDB

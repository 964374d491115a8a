import Mathlib.Order.MinMax
import PagerDB.BTree.NodeSpec
import PagerDB.Db.FullPage
import PagerDB.Storage.Resident

/-! Redo. What a record does to the pages of a database, of which an unreadable one has no version: a
page older than the record takes its change and its LSN, any other one stays as it is. -/
namespace PagerDB

namespace Page

/-- `RedoPut` on a leaf: in place, or removed and inserted again when the value outgrew its slot. -/
def redoPut (p : Page) (key value : Bytes) : Bool × Page :=
  let (index, found) := p.findKeyIndex key
  if found then
    let (updated, q) := p.updateLeaf key value
    if updated then (true, q)
    else
      let (removed, q) := q.deleteAt index
      if removed then q.insertLeaf key value else (false, q)
  else p.insertLeaf key value

def redoDelete (p : Page) (key : Bytes) : Bool × Page :=
  let (index, found) := p.findKeyIndex key
  if found then p.deleteAt index else (true, p)

variable {p q : Page} {key value : Bytes} {prev next : PageId} {lo hi recs : List (Bytes × Bytes)}

theorem redoPut_again (body : p.body = .leaf prev next (lo ++ (key, value) :: hi))
    (asc : ((lo ++ (key, value) :: hi).map Prod.fst).Pairwise (· < ·))
    (below : ∀ r ∈ lo, r.1 < key) (above : ∀ r ∈ hi, key < r.1) : p.redoPut key value = (true, p) := by
  have find : p.findKeyIndex key = (lo.length, true) := by
    rw [findKeyIndex_leaf body asc below]
    · simp
    · intro r mem
      rcases List.mem_cons.mp mem with rfl | rest
      · exact le_refl _
      · exact (above r rest).le
  have get : (lo ++ (key, value) :: hi).getD lo.length ([], []) = (key, value) := by simp
  have update : p.updateLeaf key value = (true, p) := by
    simp only [updateLeaf, body, find, get, if_true, SortedLib.set_cut, le_refl, Nat.sub_self,
      Nat.add_zero]
    rw [← body]
  simp only [redoPut, find, update, if_true]

theorem redoDelete_again (body : p.body = .leaf prev next (lo ++ hi))
    (asc : ((lo ++ hi).map Prod.fst).Pairwise (· < ·)) (below : ∀ r ∈ lo, r.1 < key)
    (above : ∀ r ∈ hi, key < r.1) : p.redoDelete key = (true, p) := by
  have find : p.findKeyIndex key = (lo.length, false) := by
    rw [findKeyIndex_leaf body asc below fun r mem => (above r mem).le]
    cases hi with
    | nil => rfl
    | cons r hi => simp [(above r (by simp)).ne']
  simp only [redoDelete, find, Bool.false_eq_true, if_false]

/-- A leaf that has taken the record, and stays as it is at the next redo. -/
def TookPut (p : Page) (key value : Bytes) (q : Page) : Prop :=
  p.redoPut key value = (true, q) ∧ ∀ lsn, (q.stamp lsn).redoPut key value = (true, q.stamp lsn)

theorem insertLeaf_took (body : p.body = .leaf prev next recs)
    (asc : (recs.map Prod.fst).Pairwise (· < ·)) (insert : p.insertLeaf key value = (true, q)) :
    p.TookPut key value q := by
  obtain ⟨lo, hi, rfl, below, above, body', -, -, -⟩ := insertLeaf_true body asc insert
  have find : p.findKeyIndex key = (lo.length, false) := by
    rw [findKeyIndex_leaf body asc below fun r mem => (above r mem).le]
    cases hi with
    | nil => rfl
    | cons r hi => simp [(above r (by simp)).ne']
  refine ⟨?_, fun lsn => redoPut_again body' (SortedLib.ascending_insert asc below above) below above⟩
  simp only [redoPut, find, insert, Bool.false_eq_true, if_false]

theorem updateLeaf_took (body : p.body = .leaf prev next recs)
    (asc : (recs.map Prod.fst).Pairwise (· < ·)) (update : p.updateLeaf key value = (true, q)) :
    p.TookPut key value q := by
  obtain ⟨lo, old, hi, rfl, below, above, body', -, -, -⟩ := updateLeaf_true body asc update
  have find : p.findKeyIndex key = (lo.length, true) := by
    rw [findKeyIndex_leaf body asc below]
    · simp
    · intro r mem
      rcases List.mem_cons.mp mem with rfl | rest
      · exact le_refl _
      · exact (above r rest).le
  have asc' : ((lo ++ (key, value) :: hi).map Prod.fst).Pairwise (· < ·) := by simpa using asc
  refine ⟨?_, fun lsn => redoPut_again body' asc' below above⟩
  simp only [redoPut, find, update, if_true]

theorem deleteAt_redoes {old : Bytes} (body : p.body = .leaf prev next (lo ++ (key, old) :: hi))
    (asc : ((lo ++ (key, old) :: hi).map Prod.fst).Pairwise (· < ·))
    (find : p.findKeyIndex key = (lo.length, true)) (below : ∀ r ∈ lo, r.1 < key)
    (above : ∀ r ∈ hi, key < r.1) :
    p.redoDelete key = p.deleteAt lo.length ∧ ∀ lsn,
      ((p.deleteAt lo.length).2.stamp lsn).redoDelete key =
        (true, (p.deleteAt lo.length).2.stamp lsn) := by
  have removed := deleteAt_cut body
  refine ⟨by simp only [redoDelete, find, if_true], fun lsn => ?_⟩
  rw [removed]
  exact redoDelete_again (p := stamp { p with
    deadBytes := p.deadBytes + leafRecordBytes (key, old)
    body := .leaf prev next (lo ++ hi) } lsn) rfl (asc.sublist (by simp)) below above

end Page

def LogBody.Redoes (body : LogBody) (p q : Page) : Prop :=
  match body with
  | .put _ key value _ => p.redoPut key value = (true, q)
  | .delete _ key _ => p.redoDelete key = (true, q)
  | _ => False

/- Records. -/

/-- What recovery rebuilds: a version of each page that can be read, where the tree begins and how
many pages there are. -/
@[ext] structure Shape where
  pages : PageId → Option Page
  root : PageId
  numPages : PageId

def Store.shape (s : Store) : Shape := ⟨s.version, s.metaPage.rootPageId, s.metaPage.numPages⟩

namespace Shape

def extended (x : Shape) (pid : PageId) : Shape :=
  { x with
    pages := fun p => if x.numPages ≤ p ∧ p ≤ pid then some .zeroed else x.pages p
    numPages := max x.numPages (pid + 1) }

def set (x : Shape) (pid : PageId) (page : Page) : Shape :=
  { x with pages := Function.update x.pages pid (some page) }

def Holds (x : Shape) (pid : PageId) : Prop := kFirstDataPage ≤ pid ∧ pid < x.numPages

instance (x : Shape) (pid : PageId) : Decidable (x.Holds pid) := inferInstanceAs (Decidable (_ ∧ _))

/-- The page is read and, if it is older than the record, changed and stamped. -/
def edit (x : Shape) (pid : PageId) (lsn : Lsn) (change : Page → Bool × Page) : Option Shape :=
  if x.Holds pid then
    match x.pages pid with
    | none => none
    | some page =>
      if page.pageLsn < lsn then
        if (change page).1 then some (x.set pid ((change page).2.stamp lsn)) else none
      else some x
  else none

/-- An unreadable page is healed; a page that is as new as the image stays. -/
def restore (x : Shape) (pid : PageId) (lsn : Lsn) (image : Page) : Option Shape :=
  if x.Holds pid then
    match x.pages pid with
    | none => some (x.set pid image)
    | some page => if page.pageLsn < lsn then some (x.set pid image) else some x
  else none

/-- `none` when the record cannot be applied. -/
def redo (x : Shape) (r : LogRecord) : Option Shape :=
  match r.body with
  | .allocPage p => some (x.extended p)
  | .pageImage p image => (x.extended p).restore p r.lsn image
  | .put p key value _ => x.edit p r.lsn (·.redoPut key value)
  | .delete p key _ => x.edit p r.lsn (·.redoDelete key)
  | .rootChange p => some { x with root := p }
  | _ => some x

/-- The page can be read and is older than the LSN; pages past the end of the file are blank. -/
def behind (x : Shape) (p : PageId) (lsn : Lsn) : Bool := ((x.extended p).pages p).any (·.pageLsn < lsn)

def applies (x : Shape) (r : LogRecord) : Bool :=
  match r.body with
  | .pageImage p _ => x.behind p r.lsn || ((x.extended p).pages p).isNone
  | .put p .. | .delete p .. => x.behind p r.lsn
  | .rootChange _ => true
  | _ => false

def redoAll : List LogRecord → Shape → Option Shape
  | [], x => some x
  | r :: rs, x => (x.redo r).bind (redoAll rs)

theorem redoAll_append (rs ts : List LogRecord) (x : Shape) :
    redoAll (rs ++ ts) x = (redoAll rs x).bind (redoAll ts) := by
  induction rs generalizing x with
  | nil => rfl
  | cons r rs ih =>
    simp only [List.cons_append, redoAll]
    cases x.redo r with
    | none => rfl
    | some y => exact ih y

theorem redoAll_snoc {rs : List LogRecord} {r : LogRecord} {x y z : Shape}
    (first : redoAll rs x = some y) (last : y.redo r = some z) : redoAll (rs ++ [r]) x = some z := by
  simp [redoAll_append, first, redoAll, last]

end Shape

def LogRecord.Stamped (r : LogRecord) : Prop :=
  ∀ p page, r.body = .pageImage p page → page.pageLsn = r.lsn

namespace Shape

variable {x y : Shape} {p pid : PageId} {r : LogRecord} {lsn : Lsn}

def Before (x : Shape) (lsn : Lsn) : Prop :=
  ∀ p page, p < x.numPages → x.pages p = some page → page.pageLsn < lsn

theorem extended_of_lt (lt : pid < x.numPages) : x.extended pid = x := by
  have same : ∀ p, (if x.numPages ≤ p ∧ p ≤ pid then some Page.zeroed else x.pages p) = x.pages p :=
    fun p => if_neg fun both => absurd (both.1.trans both.2) (not_le.mpr lt)
  simp only [extended, same, max_eq_left (Nat.succ_le_of_lt lt)]

theorem extended_old (old : p < x.numPages) : (x.extended pid).pages p = x.pages p :=
  if_neg fun both => absurd old (not_lt.mpr both.1)

theorem extended_new (new : x.numPages ≤ p) (lt : p < (x.extended pid).numPages) :
    (x.extended pid).pages p = some .zeroed := by
  refine if_pos ⟨new, ?_⟩
  rcases lt_max_iff.mp lt with lt | lt
  · exact absurd lt (not_lt.mpr new)
  · exact Nat.le_of_lt_succ lt

theorem extended_extended (q : PageId) : ((x.extended q).extended pid).pages pid =
    (x.extended pid).pages pid := by
  by_cases old : pid < x.numPages
  · rw [extended_old (old.trans_le (le_max_left _ _)), extended_old old, extended_old old]
  · have new := not_lt.mp old
    have last : pid < (x.extended pid).numPages := Nat.lt_of_succ_le (le_max_right _ _)
    rw [extended_new new last]
    by_cases within : pid < (x.extended q).numPages
    · rw [extended_old within, extended_new new within]
    · exact extended_new (not_lt.mp within) (Nat.lt_of_succ_le (le_max_right _ _))

theorem extended_twice (le : x.numPages ≤ pid) : (x.extended x.numPages).extended pid = x.extended pid := by
  have pages : ∀ p, ((x.extended x.numPages).extended pid).pages p = (x.extended pid).pages p := by
    intro p
    have grown : (x.extended x.numPages).numPages = x.numPages + 1 := max_eq_right (Nat.le_succ _)
    by_cases past : x.numPages + 1 ≤ p
    · simp only [extended, max_eq_right (Nat.le_succ x.numPages), past, (Nat.le_succ _).trans past,
        not_le.mpr (Nat.lt_of_succ_le past), and_false, true_and, if_false]
    · have within : p ≤ x.numPages := Nat.le_of_lt_succ (not_le.mp past)
      simp only [extended, max_eq_right (Nat.le_succ x.numPages), past, within, within.trans le, and_true,
        if_false]
  have numPages : ((x.extended x.numPages).extended pid).numPages = (x.extended pid).numPages := by
    simp only [extended, max_eq_right (Nat.le_succ x.numPages), max_eq_right (Nat.succ_le_succ le),
      max_eq_right (le.trans (Nat.le_succ _))]
  exact Shape.ext (funext pages) rfl numPages

@[simp] theorem set_set (x : Shape) (pid : PageId) (page page' : Page) :
    (x.set pid page).set pid page' = x.set pid page' := by
  simp only [set, Function.update_idem]

theorem set_same {page : Page} (here : x.pages pid = some page) : x.set pid page = x := by
  rw [set, ← here, Function.update_eq_self]

@[simp] theorem set_pages_self (x : Shape) (pid : PageId) (page : Page) :
    (x.set pid page).pages pid = some page := Function.update_self _ _ _

theorem set_pages_of_ne {page : Page} (ne : p ≠ pid) : (x.set pid page).pages p = x.pages p :=
  Function.update_of_ne ne _ _

theorem edit_of_older {page q : Page} {change : Page → Bool × Page} (holds : x.Holds pid)
    (here : x.pages pid = some page) (older : page.pageLsn < lsn) (changed : change page = (true, q)) :
    x.edit pid lsn change = some (x.set pid (q.stamp lsn)) := by
  simp only [edit, holds, here, older, changed, if_true]

theorem edit_of_newer {page : Page} {change : Page → Bool × Page} (holds : x.Holds pid)
    (here : x.pages pid = some page) (newer : lsn ≤ page.pageLsn) : x.edit pid lsn change = some x := by
  simp only [edit, holds, here, not_lt.mpr newer, if_true, if_false]

theorem restore_of_newer {page image : Page} (holds : x.Holds pid) (here : x.pages pid = some page)
    (newer : lsn ≤ page.pageLsn) : x.restore pid lsn image = some x := by
  simp only [restore, holds, here, not_lt.mpr newer, if_true, if_false]

theorem restore_of_older {image : Page} (holds : x.Holds pid)
    (older : ∀ page, x.pages pid = some page → page.pageLsn < lsn) :
    x.restore pid lsn image = some (x.set pid image) := by
  cases here : x.pages pid with
  | none => simp only [restore, holds, here, if_true]
  | some page => simp only [restore, holds, here, older page here, if_true]

theorem edit_cases {change : Page → Bool × Page} (run : x.edit pid lsn change = some y) :
    ∃ page, x.pages pid = some page ∧ x.Holds pid ∧ (y = x ∧ lsn ≤ page.pageLsn ∨
      page.pageLsn < lsn ∧ (change page).1 = true ∧ y = x.set pid ((change page).2.stamp lsn)) := by
  obtain ⟨holds, run⟩ := Option.ite_none_right_eq_some.mp run
  cases here : x.pages pid with
  | none =>
    rw [here] at run
    cases run
  | some page =>
    rw [here] at run
    refine ⟨page, rfl, holds, ?_⟩
    by_cases older : page.pageLsn < lsn
    · simp only [older, if_true] at run
      obtain ⟨done, eq⟩ := Option.ite_none_right_eq_some.mp run
      exact .inr ⟨older, done, (Option.some.inj eq).symm⟩
    · simp only [older, if_false] at run
      exact .inl ⟨(Option.some.inj run).symm, not_lt.mp older⟩

theorem restore_cases {image : Page} (run : x.restore pid lsn image = some y) :
    x.Holds pid ∧ ((∃ page, x.pages pid = some page ∧ lsn ≤ page.pageLsn ∧ y = x) ∨
      (∀ page, x.pages pid = some page → page.pageLsn < lsn) ∧ y = x.set pid image) := by
  obtain ⟨holds, run⟩ := Option.ite_none_right_eq_some.mp run
  refine ⟨holds, ?_⟩
  cases here : x.pages pid with
  | none =>
    rw [here] at run
    exact .inr ⟨nofun, (Option.some.inj run).symm⟩
  | some page =>
    rw [here] at run
    by_cases older : page.pageLsn < lsn
    · simp only [older, if_true] at run
      refine .inr ⟨fun q same => ?_, (Option.some.inj run).symm⟩
      exact Option.some.inj same ▸ older
    · simp only [older, if_false] at run
      exact .inl ⟨page, rfl, not_lt.mp older, (Option.some.inj run).symm⟩

theorem behind_of_holds {page : Page} (lt : pid < x.numPages) (here : x.pages pid = some page) :
    x.behind pid lsn = decide (page.pageLsn < lsn) := by
  rw [behind, extended_of_lt lt, here]
  rfl

theorem redo_idle (run : x.redo r = some y) (idle : x.applies r = false) : y = x ∨ ∃ q, y = x.extended q := by
  unfold redo at run
  unfold applies at idle
  have edits : ∀ {p : PageId} {change : Page → Bool × Page}, x.edit p r.lsn change = some y →
      x.behind p r.lsn = false → y = x := by
    intro p change run idle
    obtain ⟨page, here, holds, ⟨rfl, -⟩ | ⟨older, -⟩⟩ := edit_cases run
    · rfl
    · rw [behind_of_holds holds.2 here, decide_eq_true older] at idle
      cases idle
  cases body : r.body with
  | allocPage p =>
    rw [body] at run
    exact .inr ⟨p, (Option.some.inj run).symm⟩
  | pageImage p image =>
    rw [body] at run idle
    obtain ⟨current, readable⟩ := Bool.or_eq_false_iff.mp idle
    obtain ⟨holds, ⟨page, -, -, rfl⟩ | ⟨older, -⟩⟩ := restore_cases run
    · exact .inr ⟨p, rfl⟩
    · cases here : (x.extended p).pages p with
      | none =>
        rw [here] at readable
        cases readable
      | some page =>
        rw [behind, here, Option.any_some, decide_eq_true (older page here)] at current
        cases current
  | put p key value before =>
    rw [body] at run idle
    exact .inl (edits run idle)
  | delete p key before =>
    rw [body] at run idle
    exact .inl (edits run idle)
  | rootChange p =>
    rw [body] at idle
    cases idle
  | _ =>
    rw [body] at run
    exact .inl (Option.some.inj run).symm

theorem applies_after_idle (run : x.redo r = some y) (idle : x.applies r = false) (q : LogRecord) :
    y.applies q = x.applies q := by
  rcases redo_idle run idle with rfl | ⟨p, rfl⟩
  · rfl
  · unfold applies behind
    cases q.body with
    | pageImage _ _ | put _ _ _ _ | delete _ _ _ => simp only [extended_extended]
    | _ => rfl

theorem restore_numPages {image : Page} (run : x.restore pid lsn image = some y) :
    y.numPages = x.numPages := by
  obtain ⟨-, ⟨page, -, -, rfl⟩ | ⟨-, rfl⟩⟩ := restore_cases run
  · rfl
  · rfl

theorem edit_numPages {change : Page → Bool × Page} (run : x.edit pid lsn change = some y) :
    y.numPages = x.numPages := by
  obtain ⟨page, -, -, ⟨rfl, -⟩ | ⟨-, -, rfl⟩⟩ := edit_cases run
  · rfl
  · rfl

theorem redo_grows (run : x.redo r = some y) : x.numPages ≤ y.numPages := by
  unfold redo at run
  split at run
  · cases run
    exact le_max_left _ _
  · rw [restore_numPages run]
    exact le_max_left _ _
  · exact (edit_numPages run).ge
  · exact (edit_numPages run).ge
  · cases run
    exact le_refl _
  · cases run
    exact le_refl _

theorem redoAll_grows {rs : List LogRecord} (run : redoAll rs x = some y) : x.numPages ≤ y.numPages := by
  induction rs generalizing x with
  | nil => exact (congrArg Shape.numPages (Option.some.inj run)).le
  | cons r rs ih =>
    obtain ⟨x₁, first, rest⟩ := Option.bind_eq_some_iff.mp run
    exact (redo_grows first).trans (ih rest)

theorem Before.set {page : Page} (before : x.Before lsn) (older : page.pageLsn < lsn) (pid : PageId) :
    (x.set pid page).Before lsn := by
  intro p q lt here
  by_cases same : p = pid
  · subst same
    obtain rfl := Option.some.inj ((set_pages_self x p page).symm.trans here)
    exact older
  · exact before p q lt ((set_pages_of_ne same).symm.trans here)

theorem Before.extended (before : x.Before lsn) (pos : 0 < lsn) (pid : PageId) :
    (x.extended pid).Before lsn := by
  intro p q lt here
  by_cases old : p < x.numPages
  · exact before p q old ((extended_old old).symm.trans here)
  · obtain rfl := Option.some.inj ((extended_new (not_lt.mp old) lt).symm.trans here)
    exact pos

theorem Before.mono {lsn' : Lsn} (before : x.Before lsn) (le : lsn ≤ lsn') : x.Before lsn' :=
  fun p q lt here => (before p q lt here).trans_le le

end Shape

end PagerDB

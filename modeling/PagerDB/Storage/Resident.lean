import PagerDB.Storage.Run

/-! What the pool's calls do, in full, and what that says about frames: they hold data pages of the
file. A page can be read where it has a version, in a frame or in the file. -/
namespace PagerDB

open Store

namespace Store

def Holds (s : Store) (pid : PageId) : Prop := kFirstDataPage ≤ pid ∧ pid < s.metaPage.numPages

theorem Holds.mono {s s' : Store} {pid : PageId} (holds : s.Holds pid)
    (le : s.metaPage.numPages ≤ s'.metaPage.numPages) : s'.Holds pid := ⟨holds.1, holds.2.trans_le le⟩

/-- The page as the pool or the file has it. -/
def version (s : Store) (pid : PageId) : Option Page :=
  match s.cache pid with
  | some f => some f.page
  | none => s.disk pid

theorem view_eq_version (s : Store) (pid : PageId) : s.view pid = (s.version pid).getD .zeroed := by
  unfold version view
  cases s.cache pid with
  | some f => rfl
  | none => rfl

theorem view_of_version {s : Store} {pid : PageId} {page : Page} (here : s.version pid = some page) :
    s.view pid = page := by
  rw [view_eq_version, here]
  rfl

theorem version_setFrame (s : Store) (pid p : PageId) (f : Frame) :
    (s.setFrame pid f).version p = if p = pid then some f.page else s.version p := by
  by_cases h : p = pid
  · simp [version, setFrame, h]
  · simp [version, setFrame, h]

theorem version_putPage (s : Store) (pid p : PageId) (page : Page) :
    (s.putPage pid page).version p = if p = pid then some page else s.version p :=
  s.version_setFrame pid p _

/-- A clean frame is as its page in the file. -/
def Coherent (s : Store) : Prop := ∀ p f, s.cache p = some f → f.dirty = false → s.disk p = some f.page

theorem isDirty_eq {s : Store} {pid : PageId} {f : Frame} (here : s.cache pid = some f) :
    s.isDirty pid = f.dirty := by
  simp [isDirty, here]

@[simp] theorem isDirty_dirtied (s : Store) (pid : PageId) : (s.dirtied pid).isDirty pid = true := by
  simp [isDirty, dirtied, setFrame]

@[simp] theorem isDirty_putPage (s : Store) (pid p : PageId) (page : Page) :
    (s.putPage pid page).isDirty p = s.isDirty p := by
  by_cases same : p = pid
  · simp [isDirty, putPage, setFrame, same]
  · simp [isDirty, putPage, setFrame, same]

theorem version_of_leaf {s : Store} {pid : PageId} (leaf : (s.view pid).isLeaf = true) :
    s.version pid = some (s.view pid) := by
  unfold view at leaf ⊢
  unfold version
  cases frame : s.cache pid with
  | some f => rfl
  | none =>
    cases disk : s.disk pid with
    | some page => rfl
    | none =>
      rw [frame, disk] at leaf
      cases leaf

end Store

section Pool

variable {s s' : Store} {pid : PageId} {u : Unit}

theorem ioPoint_eq (run : ioPoint s = .ok u s') : ∃ io, s' = { s with io := io } := by
  unfold ioPoint at run
  split at run
  · cases run
    exact ⟨s.io, rfl⟩
  · rename_i rest _
    cases run
    exact ⟨rest, rfl⟩
  · cases run

theorem readPage_eq {page : Page} (run : readPage pid s = .ok page s') :
    kFirstDataPage ≤ pid ∧ pid < s.metaPage.numPages ∧ s.disk pid = some page ∧
      ∃ io, s' = { s with io := io } := by
  simp only [readPage, bind_ok, get_run, failIf_ok] at run
  obtain ⟨_, _, ⟨rfl, rfl⟩, _, _, ⟨lo, rfl⟩, _, _, ⟨hi, rfl⟩, _, t, io, run⟩ := run
  obtain ⟨rest, rfl⟩ := ioPoint_eq io
  cases disk : s.disk pid with
  | none =>
    rw [disk] at run
    cases run
  | some q =>
    rw [disk] at run
    obtain ⟨rfl, rfl⟩ := pure_ok.mp run
    exact ⟨not_lt.mp lo, not_le.mp hi, rfl, rest, rfl⟩

/-- A hit changes nothing; a miss brings the page in from the file. -/
theorem fetchPage_eq (run : fetchPage pid s = .ok u s') :
    (∃ f, s.cache pid = some f ∧ s' = s) ∨
    ∃ page io, s.cache pid = none ∧ kFirstDataPage ≤ pid ∧ pid < s.metaPage.numPages ∧
      s.disk pid = some page ∧ s' = { s with io := io }.setFrame pid ⟨page, false⟩ := by
  simp only [fetchPage, bind_ok, get_run] at run
  obtain ⟨_, _, ⟨rfl, rfl⟩, run⟩ := run
  cases hit : s.cache pid with
  | some f =>
    rw [hit] at run
    obtain ⟨-, rfl⟩ := pure_ok.mp run
    exact .inl ⟨f, rfl, rfl⟩
  | none =>
    rw [hit] at run
    simp only [bind_ok, modify_run] at run
    obtain ⟨_, t, first, page, t', read, eq⟩ := run
    obtain ⟨io, rfl⟩ := ioPoint_eq first
    obtain ⟨lo, hi, disk, rest, rfl⟩ := readPage_eq read
    cases eq
    exact .inr ⟨page, rest, rfl, lo, hi, disk, rfl⟩

theorem fetchPage_wal (run : fetchPage pid s = .ok u s') : s'.wal = s.wal := by
  rcases fetchPage_eq run with ⟨f, -, rfl⟩ | ⟨page, io, -, -, -, -, rfl⟩
  · rfl
  · rfl

theorem allocatePage_eq {new : PageId} (free : s.metaPage.freeListHead = kInvalidPageId)
    (run : allocatePage s = .ok new s') : new = s.metaPage.numPages ∧ new < s.vol.maxPages ∧
      ∃ io, s' = { { s with io := io }.setDisk new (some .zeroed) with
        filePages := max s.filePages (new + 1)
        metaPage := { s.metaPage with numPages := new + 1 } } := by
  simp only [allocatePage, bind_ok, get_run] at run
  obtain ⟨_, _, ⟨rfl, rfl⟩, run⟩ := run
  simp only [free, ne_eq, not_true, if_false, bind_ok, failIf_ok, modify_run, pure_ok] at run
  obtain ⟨_, t, first, _, _, ⟨room, rfl⟩, _, v, grown, rfl, rfl⟩ := run
  obtain ⟨io, rfl⟩ := ioPoint_eq first
  cases grown
  exact ⟨rfl, not_le.mp room, io, rfl⟩

theorem newPage_eq {new : PageId} (free : s.metaPage.freeListHead = kInvalidPageId)
    (run : newPage s = .ok new s') : new = s.metaPage.numPages ∧ new < s.vol.maxPages ∧
      ∃ io, s' = { { s with io := io }.setDisk new (some .zeroed) with
        filePages := max s.filePages (new + 1)
        metaPage := { s.metaPage with numPages := new + 1 } }.setFrame new ⟨.zeroed, false⟩ := by
  simp only [newPage, bind_ok, modify_run] at run
  obtain ⟨_, t, first, q, t', alloc, _, t'', mod, ret⟩ := run
  obtain ⟨rfl, rfl⟩ := pure_ok.mp ret
  cases mod
  obtain ⟨io, rfl⟩ := ioPoint_eq first
  obtain ⟨fresh, room, rest, rfl⟩ := allocatePage_eq (s := { s with io := io }) free alloc
  exact ⟨fresh, room, rest, rfl⟩

/- A call that fails leaves the store as it was, but for the faults that it has met. -/

variable {e : Failure}

theorem ioPoint_faulted (run : ioPoint s = .error e s') : ∃ io, s' = { s with io := io } := by
  unfold ioPoint at run
  split at run
  · cases run
  · cases run
  · rename_i rest _
    cases run
    exact ⟨rest, rfl⟩

theorem readPage_faulted (run : readPage pid s = .error e s') : ∃ io, s' = { s with io := io } := by
  unfold readPage at run
  rw [bind_of_ok get_run] at run
  rcases bind_error.mp run with low | ⟨_, _, low, run⟩
  · obtain ⟨-, -, rfl⟩ := failIf_error.mp low
    exact ⟨s.io, rfl⟩
  obtain ⟨-, rfl⟩ := failIf_ok.mp low
  rcases bind_error.mp run with high | ⟨_, _, high, run⟩
  · obtain ⟨-, -, rfl⟩ := failIf_error.mp high
    exact ⟨s.io, rfl⟩
  obtain ⟨-, rfl⟩ := failIf_ok.mp high
  rcases bind_error.mp run with fault | ⟨_, t, passed, run⟩
  · exact ioPoint_faulted fault
  obtain ⟨io, rfl⟩ := ioPoint_eq passed
  cases disk : s.disk pid with
  | none =>
    rw [disk] at run
    cases run
    exact ⟨io, rfl⟩
  | some page =>
    rw [disk] at run
    cases run

theorem fetchPage_faulted (run : fetchPage pid s = .error e s') : ∃ io, s' = { s with io := io } := by
  unfold fetchPage at run
  rw [bind_of_ok get_run] at run
  cases hit : s.cache pid with
  | some f =>
    rw [hit] at run
    cases run
  | none =>
    rw [hit] at run
    rcases bind_error.mp run with fault | ⟨_, t, passed, run⟩
    · exact ioPoint_faulted fault
    obtain ⟨io, rfl⟩ := ioPoint_eq passed
    rcases bind_error.mp run with read | ⟨_, t, -, run⟩
    · obtain ⟨rest, rfl⟩ := readPage_faulted read
      exact ⟨rest, rfl⟩
    · cases run

theorem allocatePage_faulted (free : s.metaPage.freeListHead = kInvalidPageId)
    (run : allocatePage s = .error e s') : ∃ io, s' = { s with io := io } := by
  unfold allocatePage at run
  rw [bind_of_ok get_run] at run
  simp only [free, ne_eq, not_true, if_false] at run
  rcases bind_error.mp run with fault | ⟨_, t, passed, run⟩
  · exact ioPoint_faulted fault
  obtain ⟨io, rfl⟩ := ioPoint_eq passed
  rcases bind_error.mp run with full | ⟨_, _, room, run⟩
  · obtain ⟨-, -, rfl⟩ := failIf_error.mp full
    exact ⟨io, rfl⟩
  · cases run

theorem newPage_faulted (free : s.metaPage.freeListHead = kInvalidPageId)
    (run : newPage s = .error e s') : ∃ io, s' = { s with io := io } := by
  unfold newPage at run
  rcases bind_error.mp run with fault | ⟨_, t, passed, run⟩
  · exact ioPoint_faulted fault
  obtain ⟨io, rfl⟩ := ioPoint_eq passed
  rcases bind_error.mp run with alloc | ⟨_, t, -, run⟩
  · obtain ⟨rest, rfl⟩ := allocatePage_faulted (s := { s with io := io }) free alloc
    exact ⟨rest, rfl⟩
  · cases run

end Pool

/- Frames. -/

structure Store.Resident (s : Store) : Prop where
  free : s.metaPage.freeListHead = kInvalidPageId
  first : kFirstDataPage ≤ s.metaPage.numPages
  frames : ∀ p f, s.cache p = some f → s.Holds p

namespace Store.Resident

variable {s s' : Store} {pid : PageId}

theorem setFrame (resident : s.Resident) (holds : s.Holds pid) (f : Frame) :
    (s.setFrame pid f).Resident := by
  refine ⟨resident.free, resident.first, fun p g here => ?_⟩
  by_cases same : p = pid
  · exact same ▸ holds
  · simp only [Store.setFrame, same, if_false] at here
    exact resident.frames p g here

theorem fetch {u : Unit} (resident : s.Resident) (run : fetchPage pid s = .ok u s') :
    s'.Resident ∧ s'.Holds pid ∧ s'.version = s.version ∧ ∃ f, s'.cache pid = some f := by
  rcases fetchPage_eq run with ⟨f, hit, rfl⟩ | ⟨page, io, miss, lo, hi, disk, rfl⟩
  · exact ⟨resident, resident.frames pid f hit, rfl, f, hit⟩
  · have same : Store.Resident { s with io := io } := ⟨resident.free, resident.first, resident.frames⟩
    refine ⟨same.setFrame ⟨lo, hi⟩ _, ⟨lo, hi⟩, funext fun p => ?_, ⟨page, false⟩, by simp [Store.setFrame]⟩
    rw [Store.version_setFrame]
    split
    · rename_i here
      rw [here, Store.version, miss, disk]
    · rfl

theorem newPage {new : PageId} (resident : s.Resident) (run : newPage s = .ok new s') :
    s'.Resident ∧ new = s.metaPage.numPages ∧ s'.metaPage = { s.metaPage with numPages := new + 1 } ∧
      s'.version = Function.update s.version new (some .zeroed) := by
  obtain ⟨fresh, -, io, rfl⟩ := newPage_eq resident.free run
  refine ⟨⟨resident.free, ?_, fun p f here => ?_⟩, fresh, rfl, funext fun p => ?_⟩
  · exact resident.first.trans (fresh ▸ Nat.le_succ _)
  · by_cases same : p = new
    · exact ⟨resident.first.trans (fresh.symm.trans same.symm).le, same ▸ Nat.lt_succ_self new⟩
    · simp only [Store.setFrame, Store.setDisk, same, if_false] at here
      obtain ⟨lo, hi⟩ := resident.frames p f here
      exact ⟨lo, hi.trans (fresh ▸ Nat.lt_succ_self _)⟩
  · rw [Store.version_setFrame, Function.update_apply]
    split
    · rfl
    · rename_i other
      simp [Store.version, Store.setDisk, other]

end Store.Resident


end PagerDB

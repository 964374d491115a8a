import PagerDB.Storage.Transparency

/-! The books of the buffer pool: every frame is spare or holds a page, and its pins, its latch and
its place in the replacer are what the guards make them. So a call finds a frame while there are
fewer guards than frames, and a page that no guard holds is free to be latched. -/
namespace PagerDB.Buffer

open MachineLib MemoryLib

/-- The guards of a mode on a frame. A pin without a latch is a guard of mode `kNone`. -/
def holders (owners : List Guard) (f : FrameId) (mode : LatchMode) : Nat :=
  owners.countP fun g => g.frame = f ∧ g.mode = mode

structure Counted (frame : Frame) (r : LruReplacer) (owners : List Guard) (f : FrameId) : Prop where
  pins : frame.pinCount = holders owners f .kNone + holders owners f .kShared + holders owners f .kExclusive
  readers : frame.readers = holders owners f .kShared
  writer : frame.writer = true → 0 < holders owners f .kExclusive
  flag : ∀ e, (f, e) ∈ r → (e = true ↔ frame.pinCount = 0)

/-- The first `n` frames are spare or hold a page, the page of nobody else. -/
structure Books (n : Nat) (s : Pool) (owners : List Guard) (spare : List FrameId) : Prop where
  apart : spare.Nodup
  vacant : ∀ f ∈ spare, ∀ p, (p, f) ∉ s.pageTable
  keys : (s.pageTable.map Prod.fst).Nodup
  pages : ∀ p f, (p, f) ∈ s.pageTable → (s.frames f).pageId = p ∧ p < s.numPages
  placed : ∀ f < n, f ∈ spare ∨ ∃ p, (p, f) ∈ s.pageTable
  listed : ∀ f, (∃ e, (f, e) ∈ s.replacer) ↔ ∃ p, (p, f) ∈ s.pageTable
  owned : ∀ g ∈ owners, (g.pageId, g.frame) ∈ s.pageTable
  counted : ∀ f, Counted (s.frames f) s.replacer owners f
  list : s.freeListHead = kInvalidPageId

def Pool.owners (s : Pool) : List Guard := s.guards.map Prod.snd

/-- Between calls: the guards in variables are all there are. -/
def Balanced (n : Nat) (s : Pool) : Prop := Books n s s.owners s.freeFrames

def Pool.pinned (s : Pool) (n : Nat) : List FrameId :=
  (List.range n).filter fun f => 0 < (s.frames f).pinCount

variable {n : Nat} {s t : Pool} {owners owners' : List Guard} {spare : List FrameId} {f : FrameId}
    {p : PageId}
  {g : Guard} {mode : LatchMode} {io : Faults} {frame : Frame} {r : LruReplacer}

/- Counting guards. -/

@[simp] theorem holders_nil (f : FrameId) (mode : LatchMode) : holders [] f mode = 0 := rfl

@[simp] theorem holders_cons (g : Guard) (owners : List Guard) (f : FrameId) (mode : LatchMode) :
    holders (g :: owners) f mode = holders owners f mode + if g.frame = f ∧ g.mode = mode then 1 else 0 := by
  simp [holders, List.countP_cons]

theorem holders_perm (perm : owners.Perm owners') (f : FrameId) (mode : LatchMode) :
    holders owners' f mode = holders owners f mode := perm.countP_eq _ |>.symm

theorem holders_all (owners : List Guard) (f : FrameId) : (owners.countP fun g => g.frame = f) =
    holders owners f .kNone + holders owners f .kShared + holders owners f .kExclusive := by
  induction owners with
  | nil => rfl
  | cons g owners ih =>
    obtain ⟨h, p, mode⟩ := g
    rw [List.countP_cons, ih]
    by_cases same : h = f
    · cases mode <;> simp [same] <;> omega
    · simp [same]

theorem holders_none (out : ∀ g ∈ owners, g.frame ≠ f) (mode : LatchMode) : holders owners f mode = 0 := by
  refine List.countP_eq_zero.mpr fun g mem => ?_
  simp [out g mem]

theorem Counted.pinned (counted : Counted frame r owners f) (pinned : frame.pinCount ≠ 0) :
    ∃ g ∈ owners, g.frame = f := by
  by_contra none
  have out : ∀ g ∈ owners, g.frame ≠ f := fun g mem here => none ⟨g, mem, here⟩
  apply pinned
  rw [counted.pins, holders_none out, holders_none out, holders_none out]

theorem Counted.idle (counted : Counted frame r owners f) (idle : frame.pinCount = 0) :
    ∀ g ∈ owners, g.frame ≠ f := by
  rintro g mem rfl
  have some : 0 < holders owners g.frame g.mode := List.countP_pos_iff.mpr ⟨g, mem, by simp⟩
  have pins := counted.pins
  cases mode : g.mode <;> rw [mode] at some <;> omega

theorem Counted.free (counted : Counted frame r owners f) (out : ∀ g ∈ owners, g.frame ≠ f) :
    frame.pinCount = 0 ∧ frame.readers = 0 ∧ frame.writer = false := by
  refine ⟨?_, ?_, ?_⟩
  · rw [counted.pins, holders_none out, holders_none out, holders_none out]
  · rw [counted.readers, holders_none out]
  · by_contra writer
    have some := counted.writer (by simpa using writer)
    rw [holders_none out] at some
    exact absurd some (lt_irrefl 0)

theorem Counted.same {frame' : Frame} {r' : LruReplacer} (counted : Counted frame r owners f)
    (pins : frame'.pinCount = frame.pinCount) (latch : frame'.readers = frame.readers ∧
      frame'.writer = frame.writer)
    (owners : ∀ mode, holders owners' f mode = holders owners f mode)
    (entries : ∀ e, (f, e) ∈ r' → (f, e) ∈ r) : Counted frame' r' owners' f := by
  constructor
  · rw [pins, owners, owners, owners]
    exact counted.pins
  · rw [latch.1, owners]
    exact counted.readers
  · rw [latch.2, owners]
    exact counted.writer
  · intro e mem
    rw [pins]
    exact counted.flag e (entries e mem)

/- The replacer. -/

namespace LruReplacer

variable {h : FrameId} {e b : Bool}

theorem mem_setEvictable_iff : (h, e) ∈ setEvictable r f b ↔
    if h = f then e = b ∧ ∃ e, (f, e) ∈ r else (h, e) ∈ r := by
  constructor
  · intro mem
    rcases mem_setEvictable mem with ⟨rfl, rfl, some⟩ | ⟨other, mem⟩
    · simpa using some
    · rwa [if_neg other]
  · intro here
    split at here
    · rename_i same
      obtain ⟨rfl, e', mem⟩ := here
      exact List.mem_map.mpr ⟨(f, e'), mem, by simp [same]⟩
    · rename_i other
      exact List.mem_map.mpr ⟨(h, e), here, by simp [other]⟩

theorem mem_recordAccess_other (other : h ≠ f) : (h, e) ∈ recordAccess r f ↔ (h, e) ∈ r := by
  unfold recordAccess remove
  split
  · simp [other]
  · simp [other]

theorem recordAccess_self : ∃ e, (f, e) ∈ recordAccess r f := by
  unfold recordAccess
  split
  · rename_i e _
    exact ⟨e, by simp⟩
  · exact ⟨false, by simp⟩

theorem mem_accessed : (h, e) ∈ setEvictable (recordAccess r f) f b ↔ if h = f then e = b else
    (h, e) ∈ r := by
  rw [mem_setEvictable_iff]
  split
  · exact and_iff_left recordAccess_self
  · rename_i other
    exact mem_recordAccess_other other

theorem evict_none (none : evict r = none) (f : FrameId) : (f, true) ∉ r := by
  unfold evict at none
  split at none
  · cases none
  · rename_i out
    intro mem
    have := List.find?_eq_none.mp out (f, true) mem
    simp at this

end LruReplacer

namespace Books

theorem frame_unique (books : Books n s owners spare) {h : FrameId} (here : (p, f) ∈ s.pageTable)
    (there : (p, h) ∈ s.pageTable) : f = h :=
  congrArg Prod.snd (List.inj_on_of_nodup_map books.keys here there rfl)

theorem page_unique (books : Books n s owners spare) {q : PageId} (here : (p, f) ∈ s.pageTable)
    (there : (q, f) ∈ s.pageTable) : p = q :=
  (books.pages p f here).1.symm.trans (books.pages q f there).1

theorem unheld (books : Books n s owners spare)
    (out : ∀ q, (q, f) ∈ s.pageTable → ∀ g ∈ owners, g.pageId ≠ q) :
    ∀ g ∈ owners, g.frame ≠ f := by
  rintro g mem rfl
  exact out g.pageId (books.owned g mem) g mem rfl

theorem perm (books : Books n s owners spare) (perm : owners.Perm owners') : Books n s owners' spare :=
  { books with
    owned := fun g mem => books.owned g (perm.mem_iff.mpr mem)
    counted := fun f => (books.counted f).same rfl ⟨rfl, rfl⟩ (holders_perm perm f) fun _ mem => mem }

theorem revise (books : Books n s owners spare) (table : t.pageTable = s.pageTable)
    (ids : ∀ f, (t.frames f).pageId = (s.frames f).pageId) (more : s.numPages ≤ t.numPages)
    (list : t.freeListHead = s.freeListHead) (listed : ∀ f, (∃ e, (f, e) ∈ t.replacer) ↔
      ∃ e, (f, e) ∈ s.replacer)
    (owned : ∀ g ∈ owners', (g.pageId, g.frame) ∈ s.pageTable)
    (counted : ∀ f, Counted (t.frames f) t.replacer owners' f) : Books n t owners' spare := by
  constructor
  · exact books.apart
  · rw [table]
    exact books.vacant
  · rw [table]
    exact books.keys
  · intro p f mem
    rw [table] at mem
    rw [ids]
    obtain ⟨named, high⟩ := books.pages p f mem
    exact ⟨named, high.trans_le more⟩
  · rw [table]
    exact books.placed
  · intro f
    rw [listed, table]
    exact books.listed f
  · rw [table]
    exact owned
  · exact counted
  · rw [list]
    exact books.list

theorem recount (books : Books n s owners spare) (id : frame.pageId = (s.frames f).pageId)
    (owned : ∀ g ∈ owners', (g.pageId, g.frame) ∈ s.pageTable) (counted : Counted frame r owners' f)
    (others : ∀ h, h ≠ f → ∀ mode, holders owners' h mode = holders owners h mode)
    (entries : ∀ h e, h ≠ f → ((h, e) ∈ r ↔ (h, e) ∈ s.replacer))
    (here : (∃ e, (f, e) ∈ r) ↔ ∃ e, (f, e) ∈ s.replacer) :
    Books n { s.setFrame f frame with replacer := r } owners' spare := by
  refine books.revise rfl ?_ le_rfl rfl ?_ owned ?_
  · intro h
    dsimp only
    rw [frames_setFrame]
    split
    · rename_i same
      rw [same, id]
    · rfl
  · intro h
    by_cases same : h = f
    · rw [same]
      exact here
    · exact exists_congr fun e => entries h e same
  · intro h
    dsimp only
    rw [frames_setFrame]
    split
    · rename_i same
      rw [same]
      exact counted
    · rename_i other
      exact (books.counted h).same rfl ⟨rfl, rfl⟩ (others h other) fun e => (entries h e other).mp

end Books

/-- Two pools whose frames hold the same pages, with the same pins and latches. -/
structure Alike (s t : Pool) : Prop where
  table : t.pageTable = s.pageTable
  guards : t.guards = s.guards
  numPages : t.numPages = s.numPages
  list : t.freeListHead = s.freeListHead
  ids : ∀ f, (t.frames f).pageId = (s.frames f).pageId
  pins : ∀ f, (t.frames f).pinCount = (s.frames f).pinCount
  latches : ∀ f, (t.frames f).readers = (s.frames f).readers ∧ (t.frames f).writer = (s.frames f).writer

theorem Alike.refl (s : Pool) : Alike s s :=
  ⟨rfl, rfl, rfl, rfl, fun _ => rfl, fun _ => rfl, fun _ => ⟨rfl, rfl⟩⟩

theorem alike_edit (s : Pool) (f : FrameId) (m : Memory) (b : Bool) :
    Alike s (s.setFrame f { s.frames f with page := m, dirty := b }) := by
  refine ⟨rfl, rfl, rfl, rfl, fun h => ?_, fun h => ?_, fun h => ?_⟩
  all_goals
    rw [frames_setFrame]
    split
    · rename_i same
      simp [same]
    · simp

theorem Alike.setDisk (alike : Alike s t) (p : PageId) (m : Memory) : Alike s (t.setDisk p m) :=
  ⟨alike.table, alike.guards, alike.numPages, alike.list, alike.ids, alike.pins, alike.latches⟩

theorem Alike.unuse (alike : Alike s t) (f : FrameId) : Alike s (t.unuse f) :=
  ⟨alike.table, alike.guards, alike.numPages, alike.list, alike.ids, alike.pins, alike.latches⟩

theorem checkId_steady {e : Status} (failed : s.checkId p = some e) : e.code ≠ .busy := by
  unfold Pool.checkId at failed
  split at failed
  · obtain rfl := Option.some.inj failed
    nofun
  · split at failed
    · obtain rfl := Option.some.inj failed
      nofun
    · cases failed

theorem alike_writeBack (s : Pool) (f : FrameId) (io : Faults) :
    Alike s (s.writeBack f io).2 ∧ (s.writeBack f io).2.replacer = s.replacer ∧
      (s.writeBack f io).2.freeFrames = s.freeFrames := by
  unfold Pool.writeBack Pool.writePage
  cases s.enforceWalRule f io with
  | some e => exact ⟨.refl s, rfl, rfl⟩
  | none =>
    dsimp only
    cases s.checkId (s.frames f).pageId with
    | some e => exact ⟨alike_edit s f _ _, rfl, rfl⟩
    | none =>
      dsimp only
      cases io.write (s.frames f).pageId with
      | some fault => exact ⟨(alike_edit s f _ _).setDisk _ _, rfl, rfl⟩
      | none => exact ⟨(alike_edit s f _ _).setDisk _ _, rfl, rfl⟩

/-- Failures of the disk and of the log say something else than Busy. -/
structure Faults.Steady (io : Faults) : Prop where
  read : ∀ p e m, io.read p = some (e, m) → e.code ≠ .busy
  write : ∀ p e m, io.write p = some (e, m) → e.code ≠ .busy
  log : ∀ p e, io.log p = some e → e.code ≠ .busy

theorem Faults.none_steady : Faults.none.Steady := ⟨nofun, nofun, nofun⟩

theorem writeBack_steady {e : Status} (steady : io.Steady) (failed : (s.writeBack f io).1 = some e) :
    e.code ≠ .busy := by
  unfold Pool.writeBack at failed
  cases log : s.enforceWalRule f io with
  | some e' =>
    rw [log] at failed
    obtain rfl := Option.some.inj failed
    unfold Pool.enforceWalRule at log
    split at log
    · cases log
    · split at log
      · cases log
      · exact steady.log _ _ log
  | none =>
    rw [log] at failed
    unfold Pool.writePage at failed
    cases check : s.checkId (s.frames f).pageId with
    | some e' =>
      rw [check] at failed
      obtain rfl := Option.some.inj failed
      exact checkId_steady check
    | none =>
      rw [check] at failed
      dsimp only at failed
      cases fault : io.write (s.frames f).pageId with
      | some r =>
        rw [fault] at failed
        obtain rfl := Option.some.inj failed
        exact steady.write _ _ _ fault
      | none =>
        rw [fault] at failed
        cases failed

theorem evictFrame_cases {victim : FrameId} (found : s.replacer.evict = some (victim, r)) (io : Faults) :
    ∃ t, Alike s t ∧ t.freeFrames = s.freeFrames ∧ t.replacer = r ∧
      ((∃ e, s.evictFrame io = (.error e, t.putBack victim) ∧ (io.Steady → e.code ≠ .busy)) ∨
        s.evictFrame io = (.ok victim, t.detach victim)) := by
  have without : Alike s { s with replacer := r } := { Alike.refl s with }
  simp only [Pool.evictFrame, found]
  by_cases dirty : (s.frames victim).dirty = true
  · by_cases unlatched : (s.frames victim).tryLock = true
    · obtain ⟨alike, entries, free⟩ := alike_writeBack { s with replacer := r } victim io
      have steady := @writeBack_steady { s with replacer := r } victim io
      simp only [dirty, unlatched, if_true]
      generalize Pool.writeBack { s with replacer := r } victim io = back at alike entries free steady ⊢
      obtain ⟨result, t⟩ := back
      refine ⟨t, { alike with }, free, entries, ?_⟩
      cases result with
      | some e => exact .inl ⟨e, rfl, fun io => steady io rfl⟩
      | none => exact .inr rfl
    · rw [if_pos dirty, if_neg unlatched]
      exact ⟨_, without, rfl, rfl, .inl ⟨_, rfl, fun _ => nofun⟩⟩
  · rw [if_neg dirty]
    exact ⟨_, without, rfl, rfl, .inr rfl⟩

theorem Books.alike (books : Books n s owners spare) (alike : Alike s t)
    (entries : t.replacer = s.replacer) : Books n t owners spare := by
  refine books.revise alike.table alike.ids alike.numPages.ge alike.list ?_ books.owned ?_
  · intro f
    rw [entries]
  · intro f
    rw [entries]
    exact (books.counted f).same (alike.pins f) (alike.latches f) (fun _ => rfl) fun _ mem => mem

/- Pins and latches. -/

namespace Books

theorem pin (books : Books n s owners spare) (here : (p, f) ∈ s.pageTable)
    (entries : ∀ h e, (h, e) ∈ r ↔ if h = f then e = false else (h, e) ∈ s.replacer) :
    Books n { s.setFrame f { s.frames f with pinCount := (s.frames f).pinCount + 1 } with replacer := r }
      (⟨f, p, .kNone⟩ :: owners) spare := by
  have before := books.counted f
  refine books.recount rfl ?_ ?_ ?_ ?_ ?_
  · intro g mem
    rcases List.mem_cons.mp mem with rfl | mem
    · exact here
    · exact books.owned g mem
  · constructor
    · have pins := before.pins
      simp only [holders_cons, reduceCtorEq, and_false, and_self, if_true, if_false]
      omega
    · simpa using before.readers
    · simpa using before.writer
    · intro e mem
      have flag := (entries f e).mp mem
      simp only [if_true] at flag
      simp [flag]
  · intro h other mode
    simp [Ne.symm other]
  · intro h e other
    rw [entries, if_neg other]
  · refine iff_of_true ⟨false, ?_⟩ ((books.listed f).mpr ⟨p, here⟩)
    rw [entries, if_pos rfl]

theorem lock (books : Books n s (⟨f, p, .kNone⟩ :: owners) spare)
    (locked : (s.frames f).lock mode = some frame) :
    Books n (s.setFrame f frame) (⟨f, p, mode⟩ :: owners) spare := by
  have before := books.counted f
  have pins := before.pins
  have readers := before.readers
  have writer := before.writer
  simp only [holders_cons, reduceCtorEq, and_false, and_self, if_true, if_false, Nat.add_zero]
    at pins readers writer
  have owned : ∀ g ∈ (⟨f, p, mode⟩ : Guard) :: owners, (g.pageId, g.frame) ∈ s.pageTable := by
    intro g mem
    rcases List.mem_cons.mp mem with rfl | mem
    · exact books.owned ⟨f, p, .kNone⟩ List.mem_cons_self
    · exact books.owned g (List.mem_cons_of_mem _ mem)
  have others : ∀ h, h ≠ f → ∀ m, holders (⟨f, p, mode⟩ :: owners) h m =
    holders (⟨f, p, .kNone⟩ :: owners) h m := by
    intro h other m
    simp [Ne.symm other]
  have latched : frame.pageId = (s.frames f).pageId ∧
    Counted frame s.replacer (⟨f, p, mode⟩ :: owners) f := by
    cases mode with
    | kNone =>
      obtain rfl := Option.some.inj locked
      exact ⟨rfl, before⟩
    | kShared =>
      simp only [Frame.lock] at locked
      split at locked
      · cases locked
      · obtain rfl := Option.some.inj locked
        refine ⟨rfl, ?_, ?_, ?_, before.flag⟩
        · simp only [holders_cons, reduceCtorEq, and_false, and_self, if_true, if_false]
          omega
        · simp [readers]
        · simpa using writer
    | kExclusive =>
      simp only [Frame.lock] at locked
      split at locked
      · obtain rfl := Option.some.inj locked
        refine ⟨rfl, ?_, ?_, ?_, before.flag⟩
        · simp only [holders_cons, reduceCtorEq, and_false, and_self, if_true, if_false]
          omega
        · simpa using readers
        · simp
      · cases locked
  exact books.recount latched.1 owned latched.2 others (fun _ _ _ => Iff.rfl) Iff.rfl

theorem release (books : Books n s (g :: owners) spare) :
    Books n (s.releaseGuard g.frame g.mode) owners spare := by
  obtain ⟨f, p, mode⟩ := g
  have before := books.counted f
  have here : (p, f) ∈ s.pageTable := books.owned ⟨f, p, mode⟩ List.mem_cons_self
  have pins := before.pins
  have readers := before.readers
  have writer := before.writer
  -- the last pin makes the frame evictable; before that it was not
  have flag : ∀ e,
    (f, e) ∈ (if (s.frames f).pinCount - 1 = 0 then s.replacer.setEvictable f true else s.replacer) →
      (e = true ↔ (s.frames f).pinCount - 1 = 0) := by
    intro e mem
    split at mem
    · rename_i last
      rw [LruReplacer.mem_setEvictable_iff, if_pos rfl] at mem
      exact iff_of_true mem.1 last
    · rename_i more
      have flag := before.flag e mem
      refine ⟨fun yes => ?_, fun no => absurd no more⟩
      rw [flag.mp yes]
  have owned : ∀ g ∈ owners, (g.pageId, g.frame) ∈ s.pageTable := fun g mem =>
    books.owned g (List.mem_cons_of_mem _ mem)
  have others : ∀ h, h ≠ f → ∀ m, holders owners h m = holders (⟨f, p, mode⟩ :: owners) h m := by
    intro h other m
    simp [Ne.symm other]
  have entries : ∀ h e, h ≠ f →
    ((h, e) ∈ (if (s.frames f).pinCount - 1 = 0 then s.replacer.setEvictable f true
      else s.replacer) ↔ (h, e) ∈ s.replacer) := by
    intro h e other
    split
    · rw [LruReplacer.mem_setEvictable_iff, if_neg other]
    · exact Iff.rfl
  have stays : (∃ e, (f, e) ∈ (if (s.frames f).pinCount - 1 = 0 then s.replacer.setEvictable f true
      else s.replacer)) ↔ ∃ e, (f, e) ∈ s.replacer := by
    split
    · simp [LruReplacer.mem_setEvictable_iff]
    · exact Iff.rfl
  cases mode with
  | kNone =>
    simp only [holders_cons, reduceCtorEq, and_false, and_self, if_true, if_false, Nat.add_zero]
      at pins readers writer
    refine books.recount rfl owned ⟨?_, readers, writer, flag⟩ others entries stays
    simp only [Frame.unlock]
    omega
  | kShared =>
    simp only [holders_cons, reduceCtorEq, and_false, and_self, if_true, if_false, Nat.add_zero]
      at pins readers writer
    refine books.recount rfl owned ⟨?_, ?_, writer, flag⟩ others entries stays
    · simp only [Frame.unlock]
      omega
    · simp only [Frame.unlock]
      omega
  | kExclusive =>
    simp only [holders_cons, reduceCtorEq, and_false, and_self, if_true, if_false, Nat.add_zero]
      at pins readers
    refine books.recount rfl owned ⟨?_, readers, nofun, flag⟩ others entries stays
    simp only [Frame.unlock]
    omega

theorem handOut (books : Books n s (⟨f, p, .kNone⟩ :: owners) spare) :
    match s.handOut f p mode with
    | some (g, t) => g = ⟨f, p, mode⟩ ∧ Books n t (g :: owners) spare ∧ t.freeFrames = s.freeFrames ∧
        t.guards = s.guards ∧ t.numPages = s.numPages
    | none => ∃ g ∈ owners, g.frame = f := by
  unfold Pool.handOut
  cases locked : (s.frames f).lock mode with
  | some frame => exact ⟨rfl, books.lock locked, rfl, rfl, rfl⟩
  | none =>
    by_contra out
    have out' : ∀ g ∈ owners, g.frame ≠ f := fun g mem here => out ⟨g, mem, here⟩
    have readers := (books.counted f).readers
    have writer := (books.counted f).writer
    simp only [holders_cons, reduceCtorEq, and_false, if_false, Nat.add_zero, holders_none out',
      lt_irrefl, imp_false,
      Bool.not_eq_true] at readers writer
    cases mode <;> simp [Frame.lock, Frame.tryLock, readers, writer] at locked

end Books

/- Acquiring a frame. -/

structure Kin (s t : Pool) : Prop where
  table : ∀ p f, (p, f) ∈ t.pageTable → (p, f) ∈ s.pageTable
  guards : t.guards = s.guards
  numPages : t.numPages = s.numPages

theorem Kin.lookup (kin : Kin s t) (gone : s.pageTable.lookup p = none) : t.pageTable.lookup p = none :=
  Shrunk.lookup ⟨kin.table, kin.guards, kin.numPages⟩ gone

namespace Books

theorem detach (books : Books n s owners spare) (here : (p, f) ∈ s.pageTable)
    (out : ∀ g ∈ owners, g.frame ≠ f)
    (alike : Alike s t) (entries : ∀ h e, (h, e) ∈ t.replacer ↔ (h, e) ∈ s.replacer ∧ h ≠ f) :
    Books n (t.detach f) owners (f :: spare) := by
  have id : (t.frames f).pageId = p := (alike.ids f).trans (books.pages p f here).1
  have table : ∀ q h, (q, h) ∈ (t.detach f).pageTable ↔ (q, h) ∈ s.pageTable ∧ q ≠ p := by
    intro q h
    simp [Pool.detach, id, alike.table]
  have frames : ∀ h, h ≠ f → (t.detach f).frames h = t.frames h := fun h other =>
    (frames_setFrame t f h _).trans (if_neg other)
  have apart : ∀ q h, (q, h) ∈ s.pageTable → q ≠ p → h ≠ f := fun q h mem other same =>
    other (books.page_unique (same ▸ mem) here)
  constructor
  · refine List.nodup_cons.mpr ⟨fun mem => ?_, books.apart⟩
    exact books.vacant f mem p here
  · intro h mem q stays
    obtain ⟨old, other⟩ := (table q h).mp stays
    rcases List.mem_cons.mp mem with same | mem
    · exact apart q h old other same
    · exact books.vacant h mem q old
  · have keys := books.keys
    rw [← alike.table] at keys
    exact keys.sublist (List.Sublist.map _ List.filter_sublist)
  · intro q h mem
    obtain ⟨mem', other⟩ := (table q h).mp mem
    obtain ⟨named, high⟩ := books.pages q h mem'
    rw [frames h (apart q h mem' other), alike.ids]
    exact ⟨named, high.trans_eq alike.numPages.symm⟩
  · intro h lt
    rcases books.placed h lt with mem | ⟨q, mem⟩
    · exact .inl (List.mem_cons_of_mem _ mem)
    · by_cases same : h = f
      · exact .inl (same ▸ List.mem_cons_self)
      · exact .inr ⟨q, (table q h).mpr ⟨mem, fun e => same (books.frame_unique (e ▸ mem) here)⟩⟩
  · intro h
    constructor
    · rintro ⟨e, mem⟩
      obtain ⟨mem, other⟩ := (entries h e).mp mem
      obtain ⟨q, mem⟩ := (books.listed h).mp ⟨e, mem⟩
      exact ⟨q, (table q h).mpr ⟨mem, fun e => other (books.frame_unique (e ▸ mem) here)⟩⟩
    · rintro ⟨q, mem⟩
      obtain ⟨mem, other⟩ := (table q h).mp mem
      obtain ⟨e, mem'⟩ := (books.listed h).mpr ⟨q, mem⟩
      exact ⟨e, (entries h e).mpr ⟨mem', apart q h mem other⟩⟩
  · intro g mem
    refine (table _ _).mpr ⟨books.owned g mem, fun same => out g mem ?_⟩
    exact books.frame_unique (same ▸ books.owned g mem) here
  · intro h
    have entries' : ∀ e, (h, e) ∈ (t.detach f).replacer → (h, e) ∈ s.replacer :=
      fun e mem => ((entries h e).mp mem).1
    by_cases same : h = f
    · subst same
      have frame : (t.detach h).frames h = { t.frames h with pageId := kInvalidPageId } :=
        (frames_setFrame t h h _).trans (if_pos rfl)
      rw [frame]
      exact (books.counted h).same (alike.pins h) (alike.latches h) (fun _ => rfl) entries'
    · rw [frames h same]
      exact (books.counted h).same (alike.pins h) (alike.latches h) (fun _ => rfl) entries'
  · exact alike.list.trans books.list

theorem putBack (books : Books n s owners spare) (here : (p, f) ∈ s.pageTable)
    (idle : (s.frames f).pinCount = 0)
    (alike : Alike s t) (entries : ∀ h e, (h, e) ∈ t.replacer ↔ (h, e) ∈ s.replacer ∧ h ≠ f) :
    Books n (t.putBack f) owners spare := by
  have mem : ∀ h e, (h, e) ∈ (t.putBack f).replacer ↔ if h = f then e = true else (h, e) ∈ s.replacer := by
    intro h e
    rw [Pool.putBack, LruReplacer.mem_accessed]
    split
    · exact Iff.rfl
    · rename_i other
      exact (entries h e).trans (and_iff_left other)
  refine books.revise alike.table alike.ids alike.numPages.ge alike.list ?_ books.owned ?_
  · intro h
    by_cases same : h = f
    · subst same
      refine iff_of_true ⟨true, ?_⟩ ((books.listed h).mpr ⟨p, here⟩)
      rw [mem, if_pos rfl]
    · refine exists_congr fun e => ?_
      rw [mem, if_neg same]
  · intro h
    by_cases same : h = f
    · subst same
      have before := books.counted h
      refine ⟨(alike.pins h).trans before.pins, (alike.latches h).1.trans before.readers, ?_, ?_⟩
      · intro writer
        exact before.writer ((alike.latches h).2.symm.trans writer)
      · intro e listed
        rw [mem, if_pos rfl] at listed
        exact iff_of_true listed ((alike.pins h).trans idle)
    · refine (books.counted h).same (alike.pins h) (alike.latches h) (fun _ => rfl) fun e listed => ?_
      rwa [mem, if_neg same] at listed

theorem crowded (books : Books n s owners []) (none : s.replacer.evict = none) : n ≤ owners.length := by
  have taken : List.range n ⊆ owners.map Guard.frame := by
    intro f mem
    obtain ⟨p, here⟩ := (books.placed f (List.mem_range.mp mem)).resolve_left (List.not_mem_nil)
    obtain ⟨e, listed⟩ := (books.listed f).mpr ⟨p, here⟩
    have flag := (books.counted f).flag e listed
    have pinned : (s.frames f).pinCount ≠ 0 := by
      intro idle
      rw [flag.mpr idle] at listed
      exact LruReplacer.evict_none none f listed
    obtain ⟨g, owner, rfl⟩ := (books.counted f).pinned pinned
    exact List.mem_map_of_mem owner
  have short := (List.subperm_of_subset List.nodup_range taken).length_le
  rwa [List.length_range, List.length_map] at short

theorem evict (books : Books n s owners []) (io : Faults) : Kin s (s.evictFrame io).2 ∧
    (s.evictFrame io).2.freeFrames = s.freeFrames ∧
    match s.evictFrame io with
    | (.ok f, t) => Books n t owners [f]
    | (.error e, t) => Books n t owners [] ∧ (io = .none → e.code = .busy → n ≤ owners.length) := by
  cases out : s.replacer.evict with
  | none =>
    rw [Pool.evictFrame, out]
    exact ⟨⟨fun _ _ mem => mem, rfl, rfl⟩, rfl, books, fun _ _ => books.crowded out⟩
  | some found =>
    obtain ⟨victim, r⟩ := found
    obtain ⟨listed, rest⟩ := LruReplacer.evict_spec out
    obtain ⟨p, here⟩ := (books.listed victim).mp ⟨true, listed⟩
    have idle := ((books.counted victim).flag true listed).mp rfl
    obtain ⟨t, alike, free, rfl, ⟨e, run, steady⟩ | run⟩ := evictFrame_cases out io
    · rw [run]
      refine ⟨⟨fun q h mem => alike.table ▸ mem, alike.guards, alike.numPages⟩, free,
        books.putBack here idle alike rest, ?_⟩
      rintro rfl busy
      exact absurd busy (steady Faults.none_steady)
    · rw [run]
      refine ⟨⟨fun q h mem => ?_, alike.guards, alike.numPages⟩, free,
        books.detach here ((books.counted victim).idle idle) alike rest⟩
      rw [← alike.table]
      exact (List.mem_filter.mp mem).1

theorem acquire (books : Books n s owners s.freeFrames) (io : Faults) : Kin s (s.acquireFrameLocked io).2 ∧
    match s.acquireFrameLocked io with
    | (.ok f, t) => Books n t owners (f :: t.freeFrames)
    | (.error e, t) => Books n t owners t.freeFrames ∧ (io = .none → e.code = .busy → n ≤ owners.length) := by
  unfold Pool.acquireFrameLocked
  cases stack : s.freeFrames with
  | cons f rest =>
    rw [stack] at books
    exact ⟨⟨fun _ _ mem => mem, rfl, rfl⟩, books.alike { Alike.refl s with } rfl⟩
  | nil =>
    rw [stack] at books
    obtain ⟨kin, free, rest⟩ := books.evict io
    refine ⟨kin, ?_⟩
    dsimp only
    generalize s.evictFrame io = out at free rest ⊢
    obtain ⟨result, t⟩ := out
    rw [stack] at free
    cases result with
    | ok f =>
      change Books n t owners (f :: t.freeFrames)
      rw [show t.freeFrames = [] from free]
      exact rest
    | error e =>
      change Books n t owners t.freeFrames ∧ _
      rw [show t.freeFrames = [] from free]
      exact rest

theorem install (books : Books n s owners (f :: spare)) (gone : s.pageTable.lookup p = none)
    (high : p < s.numPages) (m : Memory) : Books n (s.install f p m) (⟨f, p, .kNone⟩ :: owners) spare := by
  have table : (s.install f p m).pageTable = (p, f) :: s.pageTable := by
    unfold Pool.install
    dsimp only
    rw [gone]
    rfl
  have fresh : ∀ h, (p, h) ∉ s.pageTable := by
    intro h mem
    exact absurd (List.lookup_eq_none_iff.mp gone (p, h) mem) (by simp)
  have frames : ∀ h, (s.install f p m).frames h = if h = f then
      { s.frames f with page := m, pageId := p, pinCount := 1, dirty := false } else s.frames h :=
    fun h => frames_setFrame s f h _
  have entries : ∀ h e, (h, e) ∈ (s.install f p m).replacer ↔
    if h = f then e = false else (h, e) ∈ s.replacer :=
    fun h e => LruReplacer.mem_accessed
  obtain ⟨out, apart⟩ := List.nodup_cons.mp books.apart
  have apart' : ∀ q h, (q, h) ∈ s.pageTable → h ≠ f := fun q h mem same =>
    books.vacant f List.mem_cons_self q (same ▸ mem)
  have unheld : ∀ g ∈ owners, g.frame ≠ f := fun g mem => apart' _ _ (books.owned g mem)
  constructor
  · exact apart
  · intro h mem q stays
    rw [table] at stays
    rcases List.mem_cons.mp stays with same | stays
    · obtain ⟨-, rfl⟩ := Prod.mk.inj same
      exact out mem
    · exact books.vacant h (List.mem_cons_of_mem _ mem) q stays
  · rw [table, List.map_cons, List.nodup_cons]
    refine ⟨fun mem => ?_, books.keys⟩
    obtain ⟨⟨q, h⟩, mem, same⟩ := List.mem_map.mp mem
    dsimp only at same
    exact fresh h (same ▸ mem)
  · intro q h mem
    rw [table] at mem
    rcases List.mem_cons.mp mem with same | mem
    · obtain ⟨rfl, rfl⟩ := Prod.mk.inj same
      rw [frames, if_pos rfl]
      exact ⟨rfl, high⟩
    · rw [frames, if_neg (apart' q h mem)]
      exact books.pages q h mem
  · intro h lt
    rw [table]
    rcases books.placed h lt with mem | ⟨q, mem⟩
    · rcases List.mem_cons.mp mem with rfl | mem
      · exact .inr ⟨p, List.mem_cons_self⟩
      · exact .inl mem
    · exact .inr ⟨q, List.mem_cons_of_mem _ mem⟩
  · intro h
    rw [table]
    by_cases same : h = f
    · subst same
      refine iff_of_true ⟨false, ?_⟩ ⟨p, List.mem_cons_self⟩
      rw [entries, if_pos rfl]
    · have before := books.listed h
      simpa [entries, same] using before
  · intro g mem
    rw [table]
    rcases List.mem_cons.mp mem with rfl | mem
    · exact List.mem_cons_self
    · exact List.mem_cons_of_mem _ (books.owned g mem)
  · intro h
    rw [frames]
    by_cases same : h = f
    · subst same
      obtain ⟨-, readers, writer⟩ := (books.counted h).free unheld
      rw [if_pos rfl]
      refine ⟨?_, ?_, ?_, ?_⟩
      · simp [holders_none unheld]
      · simp [holders_none unheld, readers]
      · simp [writer]
      · intro e mem
        rw [entries, if_pos rfl] at mem
        simp [mem]
    · rw [if_neg same]
      refine (books.counted h).same rfl ⟨rfl, rfl⟩ (fun mode => ?_) fun e mem => ?_
      · simp [Ne.symm same]
      · rwa [entries, if_neg same] at mem
  · exact books.list

/- Handing out pages. -/

end Books

theorem readPage_steady {out : Memory} {e : Status} (steady : io.Steady)
    (failed : (s.readPage p out io).1 = some e) : e.code ≠ .busy := by
  unfold Pool.readPage at failed
  split at failed
  · rename_i check
    obtain rfl := Option.some.inj failed
    exact checkId_steady check
  · split at failed
    · rename_i fault
      obtain rfl := Option.some.inj failed
      exact steady.read _ _ _ fault
    · split at failed
      · obtain rfl := Option.some.inj failed
        nofun
      · cases failed

/-- A call for a guard gives one, of the page and with the pages there are then, or fails, with Busy only
when there are as many guards as frames. -/
def Answered (n : Nat) (s : Pool) (owners : List Guard) (io : Faults) (p pages : PageId) (blocked : Prop) :
    Option (Except Status Guard × Pool) → Prop
  | some (.ok g, t) => Books n t (g :: owners) t.freeFrames ∧ t.guards = s.guards ∧ g.pageId = p ∧
      t.numPages = pages
  | some (.error e, t) => Books n t owners t.freeFrames ∧ t.guards = s.guards ∧
      (io = .none → e.code = .busy → n ≤ owners.length)
  | none => blocked

namespace Books

theorem pinPage (books : Books n s owners s.freeFrames) (p : PageId) (io : Faults) :
    match s.pinPage p io with
    | (.ok f, t) => Books n t (⟨f, p, .kNone⟩ :: owners) t.freeFrames ∧ t.guards = s.guards ∧
        t.numPages = s.numPages
    | (.error e, t) => Books n t owners t.freeFrames ∧ t.guards = s.guards ∧
        (io = .none → e.code = .busy → n ≤ owners.length) := by
  unfold Pool.pinPage
  cases hit : s.pageTable.lookup p with
  | some f =>
    refine ⟨books.pin (lookup_mem hit) fun h e => ?_, rfl, rfl⟩
    exact LruReplacer.mem_accessed
  | none =>
    obtain ⟨kin, after⟩ := books.acquire io
    generalize s.acquireFrameLocked io = out at kin after ⊢
    obtain ⟨result, t⟩ := out
    cases result with
    | error e => exact ⟨after.1, kin.guards, after.2⟩
    | ok f =>
      dsimp only at kin after ⊢
      cases read : t.readPage p (t.frames f).page io with
      | mk failed m =>
        cases failed with
        | some e =>
          refine ⟨after.alike ((alike_edit t f m _).unuse f) rfl, kin.guards, ?_⟩
          rintro rfl busy
          exact absurd busy (readPage_steady Faults.none_steady (congrArg Prod.fst read))
        | none =>
          obtain ⟨high, -⟩ := readPage_ok read
          exact ⟨after.install (kin.lookup hit) high m, kin.guards, kin.numPages⟩

theorem fetch (books : Books n s owners s.freeFrames) (p : PageId) (mode : LatchMode) (io : Faults) :
    Answered n s owners io p s.numPages (∃ g ∈ owners, g.pageId = p) (s.fetchPageInternal p mode io) := by
  have pinned := books.pinPage p io
  unfold Pool.fetchPageInternal
  generalize s.pinPage p io = out at pinned ⊢
  obtain ⟨result, t⟩ := out
  cases result with
  | error e => exact pinned
  | ok f =>
    obtain ⟨after, guards, pages⟩ := pinned
    have latched := @handOut _ _ _ _ _ _ mode after
    dsimp only
    generalize t.handOut f p mode = out at latched ⊢
    cases out with
    | some r =>
      obtain ⟨g, u⟩ := r
      obtain ⟨rfl, after', free, guards', pages'⟩ := latched
      refine ⟨?_, guards'.trans guards, rfl, pages'.trans pages⟩
      rw [free]
      exact after'
    | none =>
      obtain ⟨g, mem, rfl⟩ := latched
      refine ⟨g, mem, ?_⟩
      exact after.page_unique (after.owned g (List.mem_cons_of_mem _ mem)) (after.owned _ List.mem_cons_self)

theorem newPage (books : Books n s owners s.freeFrames) (io : Faults) :
    Answered n s owners io s.numPages (s.numPages + 1) False (s.newPage io) := by
  obtain ⟨kin, after⟩ := books.acquire io
  unfold Pool.newPage
  generalize s.acquireFrameLocked io = out at kin after ⊢
  obtain ⟨result, t⟩ := out
  cases result with
  | error e => exact ⟨after.1, kin.guards, after.2⟩
  | ok f =>
    dsimp only at kin after ⊢
    unfold Pool.allocatePage
    rw [if_neg (not_not.mpr after.list)]
    cases fault : io.write t.numPages with
    | some found =>
      refine ⟨after.alike (((Alike.refl t).setDisk _ found.2).unuse f) rfl, kin.guards, ?_⟩
      rintro rfl
      cases fault
    | none =>
      dsimp only
      have fresh : t.pageTable.lookup t.numPages = none := by
        cases found : t.pageTable.lookup t.numPages with
        | none => rfl
        | some h => exact absurd (after.pages _ h (lookup_mem found)).2 (lt_irrefl _)
      have grown : Books n { t.setDisk t.numPages zeroPage with numPages := t.numPages + 1 } owners
          (f :: t.freeFrames) :=
        after.revise rfl (fun _ => rfl) (Nat.le_succ _) rfl (fun _ => Iff.rfl) after.owned after.counted
      have installed := grown.install (p := t.numPages) fresh (Nat.lt_succ_self _) zeroPage
      have latched := @handOut _ _ _ _ _ _ .kExclusive installed
      rw [kin.numPages] at latched ⊢
      generalize Pool.handOut _ f s.numPages .kExclusive = out at latched ⊢
      cases out with
      | some r =>
        obtain ⟨g, u⟩ := r
        obtain ⟨rfl, after', free, guards, pages⟩ := latched
        refine ⟨?_, guards.trans kin.guards, rfl, pages⟩
        rw [free]
        exact after'
      | none =>
        obtain ⟨g, mem, same⟩ := latched
        exact after.vacant f List.mem_cons_self g.pageId (same ▸ after.owned g mem)

end Books

/- Calls. -/

theorem owners_split {x : GuardVar} (found : s.guards.lookup x = some g) :
    s.owners.Perm (g :: (s.guards.eraseP (·.1 = x)).map Prod.snd) := by
  obtain ⟨lo, hi, split, erased⟩ := lookup_split found
  rw [erased, Pool.owners, split, List.map_append, List.map_cons, List.map_append]
  exact List.perm_middle

namespace Books

theorem drop (loose : List Guard) (books : Books n s (loose ++ s.owners) s.freeFrames) (x : GuardVar) :
    Books n (s.drop x) (loose ++ (s.drop x).owners) (s.drop x).freeFrames := by
  unfold Pool.drop
  cases found : s.guards.lookup x with
  | none => exact books
  | some g =>
    have perm := ((owners_split found).append_left loose).trans List.perm_middle
    have released := (books.perm perm).release
    exact released.revise rfl (fun _ => rfl) le_rfl rfl (fun _ => Iff.rfl) released.owned released.counted

theorem assign (books : Books n s (g :: s.owners) s.freeFrames) (x : GuardVar) :
    Balanced n (s.assign x g) := by
  have after := Books.drop [g] books x
  exact after.revise rfl (fun _ => rfl) le_rfl rfl (fun _ => Iff.rfl) after.owned after.counted

theorem flushFrame {out : Option Status × Pool} (books : Books n s (⟨f, p, .kNone⟩ :: owners) spare)
    (run : s.flushFrame f io = some out) :
    Books n out.2 owners spare ∧ out.2.guards = s.guards ∧ out.2.freeFrames = s.freeFrames := by
  unfold Pool.flushFrame at run
  split at run
  · split at run
    · cases run
    · obtain ⟨alike, entries, free⟩ := alike_writeBack s f io
      generalize s.writeBack f io = back at alike entries free run
      obtain ⟨result, t⟩ := back
      obtain rfl := Option.some.inj run
      exact ⟨(books.alike alike entries).release, alike.guards, free⟩
  · obtain rfl := Option.some.inj run
    exact ⟨books.release, rfl, rfl⟩

theorem flushLoop {loose : List Guard} {result : Option Status} {out : Option Status × Pool}
    (books : Books n s (loose ++ owners) spare) (plain : ∀ g ∈ loose, g.mode = .kNone)
    (run : Pool.flushLoop io (loose.map Guard.frame) result s = some out) :
    Books n out.2 owners spare ∧ out.2.guards = s.guards ∧ out.2.freeFrames = s.freeFrames := by
  induction loose generalizing s result with
  | nil =>
    obtain rfl := Option.some.inj run
    exact ⟨books, rfl, rfl⟩
  | cons g rest ih =>
    obtain ⟨f, p, mode⟩ := g
    obtain rfl : mode = .kNone := plain _ List.mem_cons_self
    have plain' : ∀ g ∈ rest, g.mode = .kNone := fun g mem => plain g (List.mem_cons_of_mem _ mem)
    cases result with
    | some e =>
      obtain ⟨last, guards, free⟩ := ih books.release plain' run
      exact ⟨last, guards, free⟩
    | none =>
      obtain ⟨⟨result, t⟩, first, later⟩ := Option.bind_eq_some_iff.mp run
      obtain ⟨after, guards, free⟩ := books.flushFrame first
      obtain ⟨last, guards', free'⟩ := ih after plain' later
      exact ⟨last, guards'.trans guards, free'.trans free⟩

theorem pinned (books : Books n s owners spare) (here : (p, f) ∈ s.pageTable) :
    Books n (s.pin f) (⟨f, p, .kNone⟩ :: owners) spare := by
  refine books.pin here fun h e => ?_
  have listed := (books.listed f).mpr ⟨p, here⟩
  rw [LruReplacer.mem_setEvictable_iff]
  simp only [listed, and_true]

theorem pinAll {order : List FrameId} (books : Books n s owners spare)
    (here : ∀ f ∈ order, ∃ p, (p, f) ∈ s.pageTable) :
    ∃ loose, loose.map Guard.frame = order ∧ (∀ g ∈ loose, g.mode = .kNone) ∧
      Books n (order.foldl Pool.pin s) (loose ++ owners) spare ∧
      (order.foldl Pool.pin s).guards = s.guards ∧ (order.foldl Pool.pin s).freeFrames = s.freeFrames := by
  induction order generalizing s owners with
  | nil => exact ⟨[], rfl, nofun, books, rfl, rfl⟩
  | cons f rest ih =>
    obtain ⟨p, mem⟩ := here f List.mem_cons_self
    obtain ⟨loose, frames, plain, after, guards, free⟩ :=
      ih (books.pinned mem) fun g mem => here g (List.mem_cons_of_mem _ mem)
    refine ⟨⟨f, p, .kNone⟩ :: loose, ?_, ?_, after.perm List.perm_middle, guards, free⟩
    · rw [List.map_cons, frames]
    · intro g mem
      rcases List.mem_cons.mp mem with rfl | mem
      · rfl
      · exact plain g mem

end Books

namespace Balanced

theorem store {p pages : PageId} {blocked : Prop} {out : Except Status Guard × Pool}
    (answered : Answered n s s.owners io p pages blocked (some out)) (x : GuardVar) : Balanced n
      (store x out) := by
  obtain ⟨result, t⟩ := out
  cases result with
  | error e =>
    obtain ⟨books, guards, -⟩ := answered
    change Books n t t.owners t.freeFrames
    rwa [Pool.owners, guards]
  | ok g =>
    obtain ⟨books, guards, -⟩ := answered
    refine Books.assign ?_ x
    rwa [Pool.owners, guards]

theorem move (books : Balanced n s) (x y : GuardVar) : Balanced n (s.move x y) := by
  unfold Pool.move
  split
  · exact books
  · cases found : s.guards.lookup y with
    | none => exact Books.drop [] books x
    | some g =>
      have loose := Books.perm books (owners_split found)
      refine Books.assign ?_ x
      exact loose.revise rfl (fun _ => rfl) le_rfl rfl (fun _ => Iff.rfl) loose.owned loose.counted

theorem flushPage {out : Option Status × Pool} (books : Balanced n s) (run : s.flushPage p io = some out) :
    Balanced n out.2 := by
  unfold Pool.flushPage at run
  cases found : s.pageTable.lookup p with
  | none =>
    rw [found] at run
    obtain rfl := Option.some.inj run
    exact books
  | some f =>
    rw [found] at run
    obtain ⟨after, guards, free⟩ := (Books.pinned books (lookup_mem found)).flushFrame run
    rw [Balanced, Pool.owners, guards, free]
    exact after

theorem flushAll {order : List FrameId} {out : Option Status × Pool} (books : Balanced n s)
    (run : s.flushAll order io = some out) : Balanced n out.2 := by
  unfold Pool.flushAll at run
  split at run
  · rename_i perm
    have resident : ∀ f ∈ order, ∃ p, (p, f) ∈ s.pageTable := by
      intro f mem
      obtain ⟨⟨p, h⟩, mem', rfl⟩ := List.mem_map.mp ((List.isPerm_iff.mp perm).mem_iff.mp mem)
      exact ⟨p, mem'⟩
    obtain ⟨loose, rfl, plain, pinned, guards, free⟩ := Books.pinAll books resident
    obtain ⟨after, guards', free'⟩ := pinned.flushLoop plain run
    rw [Balanced, Pool.owners, guards', free', guards, free]
    exact after
  · cases run

theorem step {c : Left} {u : State} {e : Event} (books : Balanced n s)
    (next : Buffer.step (s, c) e = some u) :
    Balanced n u.1 := by
  cases e with
  | fetch x p mode io =>
    obtain ⟨out, run, rfl⟩ := Option.map_eq_some_iff.mp next
    have answered := Books.fetch books p mode io
    rw [run] at answered
    exact store answered x
  | newPage x io =>
    obtain ⟨out, run, rfl⟩ := Option.map_eq_some_iff.mp next
    have answered := Books.newPage books io
    rw [run] at answered
    exact store answered x
  | mutate x page =>
    obtain ⟨g, -, rfl⟩ := Option.map_eq_some_iff.mp next
    exact Books.alike books (alike_edit s g.frame page _) rfl
  | markDirty x =>
    obtain ⟨g, -, rfl⟩ := Option.map_eq_some_iff.mp next
    exact Books.alike books (alike_edit s g.frame _ true) rfl
  | move x y =>
    obtain rfl := Option.some.inj next
    exact books.move x y
  | drop x =>
    obtain rfl := Option.some.inj next
    exact Books.drop [] books x
  | flushPage p io =>
    obtain ⟨out, run, rfl⟩ := Option.map_eq_some_iff.mp next
    exact books.flushPage run
  | flushAll order io =>
    obtain ⟨out, run, rfl⟩ := Option.map_eq_some_iff.mp next
    exact books.flushAll run

end Balanced

def poolSize (numFrames : Nat) : Nat := if numFrames < kMinFrames then kMinFrames else numFrames

variable {numFrames : Nat} {wal verifyChecksums : Bool} {disk : PageId → Memory} {numPages : PageId}

theorem create_balanced : Balanced (poolSize numFrames)
    (.create numFrames wal verifyChecksums disk numPages) where
  apart := List.nodup_range
  vacant _ _ := nofun
  keys := List.nodup_nil
  pages := nofun
  placed _ lt := .inl (List.mem_range.mpr lt)
  listed _ := iff_of_false nofun nofun
  owned := nofun
  counted _ := ⟨rfl, rfl, nofun, nofun⟩
  list := rfl

/-- Over every sequence of calls and every pattern of failures. -/
theorem always_balanced (left : Left) (events : List Event) :
    EveryState step (fun u => Balanced (poolSize numFrames) u.1)
      (.create numFrames wal verifyChecksums disk numPages, left) events :=
  everyState_invariant (fun _ _ _ books next => Balanced.step books next) create_balanced

theorem Books.pinned_le (books : Books n s owners spare) : (s.pinned n).length ≤ owners.length := by
  have taken : s.pinned n ⊆ owners.map Guard.frame := by
    intro f mem
    have pinned : 0 < (s.frames f).pinCount := of_decide_eq_true (List.mem_filter.mp mem).2
    obtain ⟨g, owner, rfl⟩ := (books.counted f).pinned pinned.ne'
    exact List.mem_map_of_mem owner
  have short := (List.subperm_of_subset (List.nodup_range.filter _) taken).length_le
  rwa [List.length_map] at short

/- Guards named by their pages. -/

namespace Pool

def keep (s : Pool) (pages : List PageId) : Pool :=
  (s.guards.map Prod.fst).foldl (fun t x => if x ∈ pages then t else t.drop x) s

end Pool

/-- One guard for each of these pages. -/
structure Seated (n : Nat) (s : Pool) (pages : List PageId) : Prop where
  books : Balanced n s
  named : ∀ x g, (x, g) ∈ s.guards → g.pageId = x
  once : (s.guards.map Prod.fst).Nodup
  held : ∀ x, x ∈ s.guards.map Prod.fst ↔ x ∈ pages

theorem drop_guards (x : GuardVar) (once : (s.guards.map Prod.fst).Nodup) :
    (s.drop x).guards = s.guards.filter (·.1 ≠ x) ∧ (s.drop x).numPages = s.numPages := by
  unfold Pool.drop
  cases found : s.guards.lookup x with
  | none =>
    have out : ∀ e ∈ s.guards, e.1 ≠ x := by
      rintro ⟨y, g⟩ mem rfl
      have := List.lookup_eq_none_iff.mp found (y, g) mem
      simp at this
    exact ⟨(List.filter_eq_self.mpr fun e mem => decide_eq_true (out e mem)).symm, rfl⟩
  | some g =>
    obtain ⟨lo, hi, split, erased⟩ := lookup_split found
    refine ⟨?_, rfl⟩
    change s.guards.eraseP (·.1 = x) = _
    rw [split, List.map_append, List.map_cons, List.nodup_middle, List.nodup_cons, ← List.map_append] at once
    have out : ∀ e ∈ lo ++ hi, e.1 ≠ x := by
      intro e mem same
      have other : e.1 ∈ (lo ++ hi).map Prod.fst := List.mem_map_of_mem mem
      exact once.1 (same ▸ other)
    have rest : (lo ++ hi).filter (·.1 ≠ x) = lo ++ hi :=
      List.filter_eq_self.mpr fun e mem => decide_eq_true (out e mem)
    rw [erased, split, List.filter_append, List.filter_cons_of_neg (by simp), ← List.filter_append, rest]

namespace Seated

variable {pages pages' : List PageId}

theorem congr (seated : Seated n s pages) (same : ∀ x, x ∈ pages ↔ x ∈ pages') : Seated n s pages' :=
  ⟨seated.books, seated.named, seated.once, fun x => (seated.held x).trans (same x)⟩

theorem owners_le (seated : Seated n s pages) : s.owners.length ≤ pages.length := by
  have sub : s.guards.map Prod.fst ⊆ pages := fun x mem => (seated.held x).mp mem
  have short := (List.subperm_of_subset seated.once sub).length_le
  rwa [List.length_map, ← List.length_map (f := Prod.snd)] at short

theorem pinned_le (seated : Seated n s pages) : (s.pinned n).length ≤ pages.length :=
  (Books.pinned_le seated.books).trans seated.owners_le

theorem unheld (seated : Seated n s pages) (out : p ∉ pages) : ∀ g ∈ s.owners, g.pageId ≠ p := by
  rintro g mem rfl
  obtain ⟨⟨x, h⟩, owner, rfl⟩ := List.mem_map.mp mem
  apply out
  rw [seated.named x h owner]
  exact (seated.held x).mp (List.mem_map_of_mem owner)

theorem drop (seated : Seated n s pages) (x : GuardVar) :
    Seated n (s.drop x) (pages.filter (· ≠ x)) ∧ (s.drop x).numPages = s.numPages := by
  obtain ⟨guards, pages⟩ := drop_guards x seated.once
  refine ⟨⟨Books.drop [] seated.books x, ?_, ?_, ?_⟩, pages⟩
  · intro y g mem
    rw [guards] at mem
    exact seated.named y g (List.mem_of_mem_filter mem)
  · rw [guards]
    exact seated.once.sublist (List.filter_sublist.map _)
  · intro y
    rw [guards]
    simp [← seated.held y, and_comm]

theorem keep_each (seated : Seated n s pages) (xs : List GuardVar) :
    Seated n (xs.foldl (fun t x => if x ∈ pages' then t else t.drop x) s)
        (pages.filter fun p => p ∈ pages' ∨ p ∉ xs) ∧
      (xs.foldl (fun t x => if x ∈ pages' then t else t.drop x) s).numPages = s.numPages := by
  induction xs generalizing s pages with
  | nil => exact ⟨seated.congr (by simp), rfl⟩
  | cons x xs ih =>
    rw [List.foldl_cons]
    by_cases stays : x ∈ pages'
    · rw [if_pos stays]
      obtain ⟨rest, count⟩ := ih seated
      refine ⟨rest.congr fun y => ?_, count⟩
      by_cases same : y = x <;> simp [same, stays]
    · rw [if_neg stays]
      obtain ⟨dropped, count⟩ := seated.drop x
      obtain ⟨rest, count'⟩ := ih dropped
      refine ⟨rest.congr fun y => ?_, count'.trans count⟩
      by_cases same : y = x <;> simp [same, stays]

theorem keep (seated : Seated n s pages) (sub : pages' ⊆ pages) :
    Seated n (s.keep pages') pages' ∧ (s.keep pages').numPages = s.numPages := by
  obtain ⟨after, count⟩ := seated.keep_each (s.guards.map Prod.fst)
  refine ⟨after.congr fun x => ?_, count⟩
  simp only [List.mem_filter, decide_eq_true_eq, seated.held]
  exact ⟨fun both => both.2.resolve_right (not_not.mpr both.1), fun mem => ⟨sub mem, .inl mem⟩⟩

theorem assign (seated : Seated n s pages) (books : Books n t (g :: s.owners) t.freeFrames)
    (guards : t.guards = s.guards) (out : g.pageId ∉ pages) :
    Seated n (t.assign g.pageId g) (pages ++ [g.pageId]) ∧ (t.assign g.pageId g).numPages = t.numPages := by
  have fresh : g.pageId ∉ s.guards.map Prod.fst := fun mem => out ((seated.held _).mp mem)
  have alone : t.drop g.pageId = t := by
    unfold Pool.drop
    rw [guards]
    cases found : s.guards.lookup g.pageId with
    | none => rfl
    | some h =>
      obtain ⟨lo, hi, split, -⟩ := lookup_split found
      exact absurd (by simp [split]) fresh
  have taken : (t.assign g.pageId g).guards = (g.pageId, g) :: s.guards := by
    rw [Pool.assign, alone, guards]
  refine ⟨⟨Books.assign ?_ g.pageId, ?_, ?_, ?_⟩, ?_⟩
  · rwa [Pool.owners, guards]
  · intro x h mem
    rw [taken] at mem
    rcases List.mem_cons.mp mem with same | mem
    · obtain ⟨rfl, rfl⟩ := Prod.mk.inj same
      rfl
    · exact seated.named x h mem
  · rw [taken]
    exact List.nodup_cons.mpr ⟨fresh, seated.once⟩
  · intro x
    rw [taken, List.map_cons, List.mem_cons, seated.held, List.mem_append, List.mem_singleton, or_comm]
  · rw [Pool.assign, alone]

end Seated

end PagerDB.Buffer

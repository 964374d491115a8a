import PagerDB.Storage.BufferPool

/-! The buffer pool is transparent: whatever is resident, evicted, written back or fails to be, a guard
sees what the holders of guards last left in its page. -/
namespace PagerDB.Buffer

open MachineLib MemoryLib LittleEndian

/-- Equal up to the checksum field, which is stamped in place before a write. -/
def Same (m m' : Memory) : Prop := ∀ a, a < 28 ∨ 32 ≤ a → m a = m' a

/-- What guard holders left: the contents of every page, and the pages that were changed and not yet
marked dirty. -/
structure Left where
  contents : PageId → Memory
  unmarked : PageId → Bool

inductive Event where
  | fetch (x : GuardVar) (p : PageId) (mode : LatchMode) (io : Faults)
  | newPage (x : GuardVar) (io : Faults)
  | mutate (x : GuardVar) (page : Memory)
  | markDirty (x : GuardVar)
  | move (x y : GuardVar)
  | drop (x : GuardVar)
  | flushPage (p : PageId) (io : Faults)
  | flushAll (order : List FrameId) (io : Faults)

abbrev State := Pool × Left

def store (x : GuardVar) : Except Status Guard × Pool → Pool
  | (.ok g, s) => s.assign x g
  | (.error _, s) => s

def freshened (c : Left) : Except Status Guard → Left
  | .ok g => { c with contents := Function.update c.contents g.pageId zeroPage }
  | .error _ => c

def step (s : State) : Event → Option State
  | .fetch x p mode io => (s.1.fetchPageInternal p mode io).map fun r => (store x r, s.2)
  | .newPage x io => (s.1.newPage io).map fun r => (store x r, freshened s.2 r.1)
  | .mutate x page => (s.1.guards.lookup x).map fun g => (s.1.setPage g page,
      ⟨Function.update s.2.contents g.pageId page, Function.update s.2.unmarked g.pageId true⟩)
  | .markDirty x => (s.1.guards.lookup x).map fun g =>
      (s.1.markDirty g, { s.2 with unmarked := Function.update s.2.unmarked g.pageId false })
  | .move x y => some (s.1.move x y, s.2)
  | .drop x => some (s.1.drop x, s.2)
  | .flushPage p io => (s.1.flushPage p io).map fun r => (r.2, s.2)
  | .flushAll order io => (s.1.flushAll order io).map fun r => (r.2, s.2)

/-- A page that was changed keeps a guard until it is marked dirty. -/
def Marked (s : State) : Prop :=
  ∀ p, s.2.unmarked p = true → ∃ x g, (x, g) ∈ s.1.guards ∧ g.pageId = p

structure Transparent (s : State) : Prop where
  fetched : ∀ p mode io g t, s.1.fetchPageInternal p mode io = some (.ok g, t) →
    g.pageId = p ∧ Same (t.frames g.frame).page (s.2.contents p)
  fresh : ∀ io g t, s.1.newPage io = some (.ok g, t) → (t.frames g.frame).page = zeroPage
  held : ∀ x g, (x, g) ∈ s.1.guards → Same (s.1.frames g.frame).page (s.2.contents g.pageId)
  shared : ∀ x g y h, (x, g) ∈ s.1.guards → (y, h) ∈ s.1.guards → g.pageId = h.pageId →
    g.frame = h.frame
  flushed : ∀ order io t, s.1.flushAll order io = some (none, t) →
    ∀ p < s.1.numPages, s.2.unmarked p = false → Same (t.disk p) (s.2.contents p)

/-- The bookkeeping of the pool; `held` are pins that no guard accounts for. -/
structure Inv (s : Pool) (c : Left) (held : List FrameId) : Prop where
  free : s.freeFrames.Nodup
  unused : ∀ f ∈ s.freeFrames, (∀ p, (p, f) ∉ s.pageTable) ∧ (∀ e, (f, e) ∉ s.replacer) ∧
    (s.frames f).pinCount = 0
  keys : (s.pageTable.map Prod.fst).Nodup
  pages : ∀ p f, (p, f) ∈ s.pageTable →
    (s.frames f).pageId = p ∧ p < s.numPages
  guards : ∀ x g, (x, g) ∈ s.guards → (g.pageId, g.frame) ∈ s.pageTable
  pins : ∀ f, (s.frames f).pinCount = s.guards.countP (·.2.frame = f) + held.count f
  evictable : ∀ f, (f, true) ∈ s.replacer → (s.frames f).pinCount = 0
  tracked : ∀ f e, (f, e) ∈ s.replacer → ∃ p, (p, f) ∈ s.pageTable
  resident : ∀ p f, (p, f) ∈ s.pageTable → Same (s.frames f).page (c.contents p) ∧
    ((s.frames f).dirty = false → c.unmarked p = false → Same (s.disk p) (c.contents p))
  absent : ∀ p < s.numPages, (∀ f, (p, f) ∉ s.pageTable) → Same (s.disk p) (c.contents p)
  list : s.freeListHead = kInvalidPageId

variable {s t : Pool} {c c' : Left} {held : List FrameId} {f : FrameId} {p : PageId} {io : Faults}

theorem Same.refl (m : Memory) : Same m m := fun _ _ => rfl

theorem Same.trans {m m' m'' : Memory} (h : Same m m') (h' : Same m' m'') : Same m m'' :=
  fun a out => (h a out).trans (h' a out)

theorem same_stampChecksum (m : Memory) : Same (stampChecksum m) m := fun a out =>
  write_apart (by simpa using out)

/- The replacer. -/

namespace LruReplacer

variable {r r' : LruReplacer} {g : FrameId} {e : Bool}

theorem mem_setEvictable {b : Bool} (mem : (g, e) ∈ setEvictable r f b) :
    g = f ∧ e = b ∧ (∃ e', (f, e') ∈ r) ∨ g ≠ f ∧ (g, e) ∈ r := by
  obtain ⟨⟨g', e'⟩, mem', eq⟩ := List.mem_map.mp mem
  by_cases same : g' = f
  · subst same
    simp only [if_true, Prod.mk.injEq] at eq
    exact .inl ⟨eq.1.symm, eq.2.symm, e', mem'⟩
  · simp only [same, if_false, Prod.mk.injEq] at eq
    obtain ⟨rfl, rfl⟩ := eq
    exact .inr ⟨same, mem'⟩

theorem mem_recordAccess (mem : (g, e) ∈ recordAccess r f) : (g, e) ∈ r ∨ g = f := by
  unfold recordAccess remove at mem
  split at mem
  · rcases List.mem_append.mp mem with old | new
    · exact .inl (List.mem_filter.mp old).1
    · simp only [List.mem_singleton, Prod.mk.injEq] at new
      exact .inr new.1
  · rcases List.mem_append.mp mem with old | new
    · exact .inl old
    · simp only [List.mem_singleton, Prod.mk.injEq] at new
      exact .inr new.1

theorem evict_spec (out : evict r = some (f, r')) :
    (f, true) ∈ r ∧ ∀ g e, (g, e) ∈ r' ↔ (g, e) ∈ r ∧ g ≠ f := by
  unfold evict at out
  split at out
  · rename_i g e found
    obtain ⟨rfl, rfl⟩ := Prod.mk.inj (Option.some.inj out)
    have flag := List.find?_some found
    have mem := List.mem_of_find?_eq_some found
    dsimp only at flag
    subst flag
    refine ⟨mem, fun g e => ?_⟩
    simp [remove]
  · cases out

end LruReplacer

/- Frames. -/

theorem setDisk_self (s : Pool) (p : PageId) : s.setDisk p (s.disk p) = s := by
  rw [Pool.setDisk, Function.update_eq_self]

theorem disk_setDisk (s : Pool) (p q : PageId) (m : Memory) :
    (s.setDisk p m).disk q = if q = p then m else s.disk q := Function.update_apply _ _ _ _

theorem frames_setFrame (s : Pool) (f g : FrameId) (frame : Frame) :
    (s.setFrame f frame).frames g = if g = f then frame else s.frames g := Function.update_apply _ _ _ _

namespace Inv

theorem frame_unique (inv : Inv s c held) {g : FrameId} (here : (p, f) ∈ s.pageTable)
    (there : (p, g) ∈ s.pageTable) : f = g :=
  congrArg Prod.snd (List.inj_on_of_nodup_map inv.keys here there rfl)

theorem page_unique (inv : Inv s c held) {q : PageId} (here : (p, f) ∈ s.pageTable)
    (there : (q, f) ∈ s.pageTable) : p = q :=
  (inv.pages p f here).1.symm.trans (inv.pages q f there).1

theorem edit (inv : Inv s c held) (here : (p, f) ∈ s.pageTable) {frame : Frame} {m : Memory}
    (id : frame.pageId = (s.frames f).pageId) (pins : frame.pinCount = (s.frames f).pinCount)
    (others : ∀ q, q ≠ p → c'.contents q = c.contents q ∧ c'.unmarked q = c.unmarked q)
    (page : Same frame.page (c'.contents p))
    (clean : frame.dirty = false → c'.unmarked p = false → Same m (c'.contents p)) :
    Inv ((s.setDisk p m).setFrame f frame) c' held := by
  have pin : ∀ g, (((s.setDisk p m).setFrame f frame).frames g).pinCount = (s.frames g).pinCount := by
    intro g
    rw [frames_setFrame]
    split
    · rename_i same
      rw [same, pins]
    · rfl
  constructor
  · exact inv.free
  · intro g mem
    rw [pin]
    exact inv.unused g mem
  · exact inv.keys
  · intro q g mem
    obtain ⟨named, range⟩ := inv.pages q g mem
    refine ⟨?_, range⟩
    rw [frames_setFrame]
    split
    · rename_i same
      rw [id, ← same, named]
    · exact named
  · exact inv.guards
  · intro g
    rw [pin]
    exact inv.pins g
  · intro g mem
    rw [pin]
    exact inv.evictable g mem
  · exact inv.tracked
  · intro q g mem
    rw [frames_setFrame]
    split
    · rename_i same
      subst same
      obtain rfl := inv.page_unique here mem
      refine ⟨page, fun isClean marked => ?_⟩
      change Same ((s.setDisk p m).disk p) _
      rw [disk_setDisk, if_pos rfl]
      exact clean isClean marked
    · rename_i ne
      have other : q ≠ p := fun same => ne (inv.frame_unique (same ▸ mem) here)
      obtain ⟨contents, unmarked⟩ := others q other
      rw [contents, unmarked]
      change _ ∧ (_ → _ → Same ((s.setDisk p m).disk q) _)
      rw [disk_setDisk, if_neg other]
      exact inv.resident q g mem
  · intro q range gone
    have other : q ≠ p := fun same => gone f (same ▸ here)
    rw [(others q other).1]
    change Same ((s.setDisk p m).disk q) _
    rw [disk_setDisk, if_neg other]
    exact inv.absent q range gone
  · exact inv.list

theorem repin (inv : Inv s c held) {frame : Frame} {held' : List FrameId} {replacer : LruReplacer}
    (same : frame.page = (s.frames f).page ∧ frame.pageId = (s.frames f).pageId ∧
      frame.dirty = (s.frames f).dirty)
    (here : (p, f) ∈ s.pageTable)
    (pins : frame.pinCount = s.guards.countP (·.2.frame = f) + held'.count f)
    (count : ∀ g, g ≠ f → held'.count g = held.count g)
    (evictable : (f, true) ∈ replacer → frame.pinCount = 0)
    (entries : ∀ g e, g ≠ f → (g, e) ∈ replacer → (g, e) ∈ s.replacer) :
    Inv { s.setFrame f frame with replacer := replacer } c held' := by
  obtain ⟨page, id, dirty⟩ := same
  constructor
  · exact inv.free
  · intro g mem
    obtain ⟨gone, untracked, none⟩ := inv.unused g mem
    have other : g ≠ f := fun same => gone p (same ▸ here)
    refine ⟨gone, fun e mem' => untracked e (entries g e other mem'), ?_⟩
    dsimp only
    rw [frames_setFrame, if_neg other]
    exact none
  · exact inv.keys
  · intro q g mem
    obtain ⟨named, range⟩ := inv.pages q g mem
    refine ⟨?_, range⟩
    dsimp only
    rw [frames_setFrame]
    split
    · rename_i same
      rw [id, ← same, named]
    · exact named
  · exact inv.guards
  · intro g
    dsimp only
    rw [frames_setFrame]
    split
    · rename_i same
      rw [same]
      exact pins
    · rename_i other
      rw [count g other]
      exact inv.pins g
  · intro g mem
    dsimp only
    rw [frames_setFrame]
    split
    · rename_i same
      exact evictable (same ▸ mem)
    · rename_i other
      exact inv.evictable g (entries g _ other mem)
  · intro g e mem
    by_cases same : g = f
    · exact ⟨p, same ▸ here⟩
    · exact inv.tracked g e (entries g e same mem)
  · intro q g mem
    dsimp only
    rw [frames_setFrame]
    split
    · rename_i same
      rw [page, dirty, ← same]
      exact inv.resident q g mem
    · exact inv.resident q g mem
  · exact inv.absent
  · exact inv.list

theorem pin (inv : Inv s c held) (here : (p, f) ∈ s.pageTable) {r : LruReplacer}
    (entries : ∀ g e, g ≠ f → (g, e) ∈ r → (g, e) ∈ s.replacer) :
    Inv ({ s with replacer := r }.pin f) c (f :: held) := by
  refine inv.repin ⟨rfl, rfl, rfl⟩ here ?_ ?_ ?_ ?_
  · dsimp only
    rw [inv.pins f, List.count_cons_self]
    omega
  · intro g other
    rw [List.count_cons_of_ne other.symm]
  · intro mem
    rcases LruReplacer.mem_setEvictable mem with ⟨-, no, -⟩ | ⟨other, -⟩
    · cases no
    · exact absurd rfl other
  · intro g e other mem
    rcases LruReplacer.mem_setEvictable mem with ⟨same, -⟩ | ⟨-, mem'⟩
    · exact absurd same other
    · exact entries g e other mem'

theorem release (inv : Inv s c (f :: held)) (here : (p, f) ∈ s.pageTable) (mode : LatchMode) :
    Inv (s.releaseGuard f mode) c held := by
  have pins := inv.pins f
  rw [List.count_cons_self] at pins
  have unlocked : ((s.frames f).unlock mode).page = (s.frames f).page ∧
      ((s.frames f).unlock mode).pageId = (s.frames f).pageId ∧
      ((s.frames f).unlock mode).dirty = (s.frames f).dirty ∧
      ((s.frames f).unlock mode).pinCount = (s.frames f).pinCount := by
    cases mode <;> exact ⟨rfl, rfl, rfl, rfl⟩
  obtain ⟨page, id, dirty, count⟩ := unlocked
  have others : ∀ g, g ≠ f → held.count g = (f :: held).count g := fun g other =>
    (List.count_cons_of_ne other.symm).symm
  refine inv.repin ⟨page, id, dirty⟩ here ?_ others ?_ ?_
  · dsimp only
    omega
  · intro mem
    split at mem
    · assumption
    · have := inv.evictable f mem
      omega
  · intro g e other mem
    split at mem
    · rcases LruReplacer.mem_setEvictable mem with ⟨same, -⟩ | ⟨-, mem'⟩
      · exact absurd same other
      · exact mem'
    · exact mem

theorem retrack (inv : Inv s c held) (here : (p, f) ∈ s.pageTable) {r : LruReplacer}
    (evictable : (f, true) ∈ r → (s.frames f).pinCount = 0)
    (entries : ∀ g e, g ≠ f → (g, e) ∈ r → (g, e) ∈ s.replacer) :
    Inv { s with replacer := r } c held := by
  have whole := inv.repin ⟨rfl, rfl, rfl⟩ here (inv.pins f) (fun _ _ => rfl) evictable entries
  rwa [Pool.setFrame, Function.update_eq_self] at whole

end Inv

/- Write-back. -/

structure Kept (s t : Pool) : Prop where
  table : t.pageTable = s.pageTable
  guards : t.guards = s.guards
  numPages : t.numPages = s.numPages
  freeFrames : t.freeFrames = s.freeFrames
  replacer : t.replacer = s.replacer
  pinCount : ∀ g, (t.frames g).pinCount = (s.frames g).pinCount
  clean : ∀ g, (s.frames g).dirty = false → (t.frames g).dirty = false

theorem Inv.writeBack (inv : Inv s c held) (here : (p, f) ∈ s.pageTable)
    (dirty : (s.frames f).dirty = true) :
    Inv (s.writeBack f io).2 c held ∧ Kept s (s.writeBack f io).2 ∧
      ((s.writeBack f io).1 = none → ((s.writeBack f io).2.frames f).dirty = false) := by
  have id := (inv.pages p f here).1
  have page := (inv.resident p f here).1
  have stamped : Same (stampChecksum (s.frames f).page) (c.contents p) :=
    (same_stampChecksum _).trans page
  have frame : ∀ (m m' : Memory) (b : Bool) (g : FrameId),
      (((s.setDisk p m).setFrame f { s.frames f with page := m', dirty := b }).frames g).pinCount =
        (s.frames g).pinCount ∧
      ((s.frames g).dirty = false →
        (((s.setDisk p m).setFrame f { s.frames f with page := m', dirty := b }).frames g).dirty =
          false) := by
    intro m m' b g
    rw [frames_setFrame]
    split
    · rename_i same
      rw [same]
      refine ⟨rfl, fun clean => ?_⟩
      rw [dirty] at clean
      cases clean
    · exact ⟨rfl, fun clean => clean⟩
  unfold Pool.writeBack Pool.writePage
  rw [id]
  cases s.enforceWalRule f io with
  | some e => exact ⟨inv, ⟨rfl, rfl, rfl, rfl, rfl, fun _ => rfl, fun _ clean => clean⟩, nofun⟩
  | none =>
    dsimp only
    cases s.checkId p with
    | some e =>
      have same : s.setFrame f { s.frames f with page := (s.frames f).page } = s := by
        rw [Pool.setFrame, Function.update_eq_self]
      dsimp only
      rw [same]
      exact ⟨inv, ⟨rfl, rfl, rfl, rfl, rfl, fun _ => rfl, fun _ clean => clean⟩, nofun⟩
    | none =>
      dsimp only
      cases io.write p with
      | some fault =>
        obtain ⟨e, junk⟩ := fault
        refine ⟨inv.edit here rfl rfl (fun _ _ => ⟨rfl, rfl⟩) stamped ?_, ?_, nofun⟩
        · intro clean
          exact absurd (dirty.symm.trans clean) (by decide)
        · have same := frame junk (stampChecksum (s.frames f).page) (s.frames f).dirty
          exact ⟨rfl, rfl, rfl, rfl, rfl, fun g => (same g).1, fun g => (same g).2⟩
      | none =>
        have same := frame (stampChecksum (s.frames f).page) (stampChecksum (s.frames f).page) false
        refine ⟨inv.edit here rfl rfl (fun _ _ => ⟨rfl, rfl⟩) stamped fun _ _ => stamped,
          ⟨rfl, rfl, rfl, rfl, rfl, fun g => (same g).1, fun g => (same g).2⟩, ?_⟩
        intro _
        rw [frames_setFrame, if_pos rfl]

/- Acquiring a frame. -/

structure Vacant (s : Pool) (f : FrameId) : Prop where
  free : f ∉ s.freeFrames
  table : ∀ p, (p, f) ∉ s.pageTable
  replacer : ∀ e, (f, e) ∉ s.replacer
  pinCount : (s.frames f).pinCount = 0

theorem Inv.no_guard (inv : Inv s c held) (idle : (s.frames f).pinCount = 0) {x : GuardVar} {g : Guard}
    (mem : (x, g) ∈ s.guards) : g.frame ≠ f := by
  intro same
  have pins := inv.pins f
  have none : s.guards.countP (·.2.frame = f) = 0 := by omega
  exact List.countP_eq_zero.mp none (x, g) mem (by simpa using same)

theorem Inv.detach (inv : Inv s c held) (here : (p, f) ∈ s.pageTable)
    (idle : (s.frames f).pinCount = 0) (untracked : ∀ e, (f, e) ∉ s.replacer)
    (clean : (s.frames f).dirty = false) (marked : c.unmarked p = false) :
    Inv (s.detach f) c held ∧ Vacant (s.detach f) f := by
  have id := (inv.pages p f here).1
  have table : ∀ q g, (q, g) ∈ (s.detach f).pageTable ↔ (q, g) ∈ s.pageTable ∧ q ≠ p := by
    intro q g
    simp [Pool.detach, id]
  have frame : ∀ g, g ≠ f → (s.detach f).frames g = s.frames g := fun g other =>
    (frames_setFrame s f g _).trans (if_neg other)
  have pin : ∀ g, ((s.detach f).frames g).pinCount = (s.frames g).pinCount := by
    intro g
    by_cases same : g = f
    · rw [same]
      change ((s.setFrame f _).frames f).pinCount = _
      rw [frames_setFrame, if_pos rfl]
    · rw [frame g same]
  have apart : ∀ q g, (q, g) ∈ s.pageTable → q ≠ p → g ≠ f := fun q g mem other same =>
    other (inv.page_unique (same ▸ mem) here)
  refine ⟨⟨inv.free, ?_, ?_, ?_, ?_, ?_, ?_, ?_, ?_, ?_, inv.list⟩, ?_, ?_, untracked, ?_⟩
  · intro g mem
    obtain ⟨gone, rest, none⟩ := inv.unused g mem
    exact ⟨fun q mem' => gone q ((table q g).mp mem').1, rest, (pin g).trans none⟩
  · exact inv.keys.sublist (List.Sublist.map _ List.filter_sublist)
  · intro q g mem
    obtain ⟨mem', other⟩ := (table q g).mp mem
    rw [frame g (apart q g mem' other)]
    exact inv.pages q g mem'
  · intro x g mem
    have mem' := inv.guards x g mem
    refine (table _ _).mpr ⟨mem', fun same => ?_⟩
    exact inv.no_guard idle mem (inv.frame_unique (same ▸ mem') here)
  · intro g
    rw [pin]
    exact inv.pins g
  · intro g mem
    rw [pin]
    exact inv.evictable g mem
  · intro g e mem
    obtain ⟨q, mem'⟩ := inv.tracked g e mem
    refine ⟨q, (table q g).mpr ⟨mem', fun same => ?_⟩⟩
    exact untracked e (inv.frame_unique here (same ▸ mem') ▸ mem)
  · intro q g mem
    obtain ⟨mem', other⟩ := (table q g).mp mem
    rw [frame g (apart q g mem' other)]
    exact inv.resident q g mem'
  · intro q range gone
    by_cases same : q = p
    · rw [same]
      exact (inv.resident p f here).2 clean marked
    · exact inv.absent q range fun g mem => gone g ((table q g).mpr ⟨mem, same⟩)
  · intro mem
    exact (inv.unused f mem).1 p here
  · intro q mem
    obtain ⟨mem', other⟩ := (table q f).mp mem
    exact apart q f mem' other rfl
  · exact (pin f).trans idle

structure Shrunk (s t : Pool) : Prop where
  table : ∀ p f, (p, f) ∈ t.pageTable → (p, f) ∈ s.pageTable
  guards : t.guards = s.guards
  numPages : t.numPages = s.numPages

theorem Inv.evict (inv : Inv s c held) (marked : Marked (s, c)) :
    Shrunk s (s.evictFrame io).2 ∧ Inv (s.evictFrame io).2 c held ∧
      ∀ f, (s.evictFrame io).1 = .ok f → Vacant (s.evictFrame io).2 f := by
  unfold Pool.evictFrame
  cases out : s.replacer.evict with
  | none => exact ⟨⟨fun _ _ mem => mem, rfl, rfl⟩, inv, nofun⟩
  | some found =>
    obtain ⟨victim, r⟩ := found
    obtain ⟨mem, rest⟩ := LruReplacer.evict_spec out
    have idle := inv.evictable victim mem
    obtain ⟨p, here⟩ := inv.tracked victim true mem
    have untracked : ∀ e, (victim, e) ∉ r := fun e mem => ((rest victim e).mp mem).2 rfl
    have without : Inv { s with replacer := r } c held :=
      inv.retrack here (fun _ => idle) fun g e _ mem => ((rest g e).mp mem).1
    -- without a guard the page has no change that is not marked
    have settled : c.unmarked p = false := by
      cases owed : c.unmarked p with
      | false => rfl
      | true =>
        obtain ⟨x, g, mem', rfl⟩ := marked p owed
        exact absurd (inv.frame_unique (inv.guards x g mem') here) (inv.no_guard idle mem')
    have again : ∀ {t : Pool}, Inv t c held → (p, victim) ∈ t.pageTable →
        (t.frames victim).pinCount = 0 → Inv (t.putBack victim) c held := by
      intro t inv' here' idle'
      refine inv'.retrack here' (fun _ => idle') ?_
      intro g e other mem
      rcases LruReplacer.mem_setEvictable mem with ⟨same, -⟩ | ⟨-, mem⟩
      · exact absurd same other
      · exact (LruReplacer.mem_recordAccess mem).resolve_right other
    dsimp only
    split
    · rename_i dirty
      split
      · obtain ⟨after, kept, clean⟩ := @Inv.writeBack _ _ _ _ _ io without here dirty
        generalize Pool.writeBack { s with replacer := r } victim io = back at after kept clean ⊢
        obtain ⟨result, t⟩ := back
        have here' : (p, victim) ∈ t.pageTable := by rw [kept.table]; exact here
        have idle' : (t.frames victim).pinCount = 0 := (kept.pinCount victim).trans idle
        cases result with
        | some e =>
          refine ⟨⟨?_, kept.guards, kept.numPages⟩, again after here' idle', nofun⟩
          intro q g mem
          exact kept.table ▸ mem
        | none =>
          obtain ⟨gone, vacant⟩ := after.detach here' idle' (by rw [kept.replacer]; exact untracked)
            (clean rfl) settled
          refine ⟨⟨?_, kept.guards, kept.numPages⟩, gone, ?_⟩
          · intro q g mem
            exact kept.table ▸ (List.mem_filter.mp mem).1
          · intro g taken
            obtain rfl := Except.ok.inj taken
            exact vacant
      · exact ⟨⟨fun _ _ mem => mem, rfl, rfl⟩, again without here idle, nofun⟩
    · rename_i clean
      obtain ⟨gone, vacant⟩ := without.detach here idle untracked (by simpa using clean) settled
      refine ⟨⟨?_, rfl, rfl⟩, gone, ?_⟩
      · intro q g mem
        exact (List.mem_filter.mp mem).1
      · intro g taken
        obtain rfl := Except.ok.inj taken
        exact vacant

theorem Inv.acquire (inv : Inv s c held) (marked : Marked (s, c)) :
    Shrunk s (s.acquireFrameLocked io).2 ∧ Inv (s.acquireFrameLocked io).2 c held ∧
      ∀ f, (s.acquireFrameLocked io).1 = .ok f → Vacant (s.acquireFrameLocked io).2 f := by
  unfold Pool.acquireFrameLocked
  cases stack : s.freeFrames with
  | cons f rest =>
    have nodup := inv.free
    rw [stack, List.nodup_cons] at nodup
    refine ⟨⟨fun _ _ mem => mem, rfl, rfl⟩, ?_, ?_⟩
    · exact { inv with
        free := nodup.2
        unused := fun g mem => inv.unused g (by rw [stack]; exact List.mem_cons_of_mem _ mem) }
    · intro g taken
      obtain rfl := Except.ok.inj taken
      obtain ⟨gone, untracked, none⟩ := inv.unused f (by rw [stack]; exact List.mem_cons_self)
      exact ⟨nodup.1, gone, untracked, none⟩
  | nil => exact inv.evict marked

theorem Inv.scribble (inv : Inv s c held) (vac : Vacant s f) (m : Memory) :
    Inv (s.setFrame f { s.frames f with page := m }) c held ∧
      Vacant (s.setFrame f { s.frames f with page := m }) f := by
  have pin : ∀ g, ((s.setFrame f { s.frames f with page := m }).frames g).pinCount =
      (s.frames g).pinCount := by
    intro g
    rw [frames_setFrame]
    split
    · rename_i same
      rw [same]
    · rfl
  have frame : ∀ q g, (q, g) ∈ s.pageTable →
      (s.setFrame f { s.frames f with page := m }).frames g = s.frames g := by
    intro q g mem
    rw [frames_setFrame, if_neg fun same : g = f => vac.table q (same ▸ mem)]
  refine ⟨⟨inv.free, ?_, inv.keys, ?_, inv.guards, ?_, ?_, inv.tracked, ?_, inv.absent, inv.list⟩,
    vac.free, vac.table, vac.replacer, (pin f).trans vac.pinCount⟩
  · intro g mem
    rw [pin]
    exact inv.unused g mem
  · intro q g mem
    rw [frame q g mem]
    exact inv.pages q g mem
  · intro g
    rw [pin]
    exact inv.pins g
  · intro g mem
    rw [pin]
    exact inv.evictable g mem
  · intro q g mem
    rw [frame q g mem]
    exact inv.resident q g mem

theorem Inv.unuse (inv : Inv s c held) (vac : Vacant s f) : Inv (s.unuse f) c held :=
  { inv with
    free := List.nodup_cons.mpr ⟨vac.free, inv.free⟩
    unused := by
      intro g mem
      rcases List.mem_cons.mp mem with rfl | mem
      · exact ⟨vac.table, vac.replacer, vac.pinCount⟩
      · exact inv.unused g mem }

theorem Inv.install (inv : Inv s c held) (vac : Vacant s f) (gone : s.pageTable.lookup p = none)
    (high : p < s.numPages) {m : Memory} (page : Same m (c.contents p))
    (disk : Same (s.disk p) (c.contents p)) :
    Inv (s.install f p m) c (f :: held) ∧ (p, f) ∈ (s.install f p m).pageTable := by
  have table : (s.install f p m).pageTable = (p, f) :: s.pageTable := by
    unfold Pool.install
    dsimp only
    rw [gone]
    rfl
  have fresh : ∀ g, (p, g) ∉ s.pageTable := by
    intro g mem
    exact absurd (List.lookup_eq_none_iff.mp gone (p, g) mem) (by simp)
  have frame : ∀ g, (s.install f p m).frames g = if g = f then
      { s.frames f with page := m, pageId := p, pinCount := 1, dirty := false } else s.frames g :=
    fun g => frames_setFrame s f g _
  have entry : ∀ g e, (g, e) ∈ (s.install f p m).replacer → g ≠ f → (g, e) ∈ s.replacer := by
    intro g e mem other
    rcases LruReplacer.mem_setEvictable mem with ⟨same, -⟩ | ⟨-, mem⟩
    · exact absurd same other
    · exact (LruReplacer.mem_recordAccess mem).resolve_right other
  have apart : ∀ q g, (q, g) ∈ s.pageTable → g ≠ f := fun q g mem same => vac.table q (same ▸ mem)
  refine ⟨⟨inv.free, ?_, ?_, ?_, ?_, ?_, ?_, ?_, ?_, ?_, inv.list⟩, ?_⟩
  · intro g mem
    obtain ⟨out, untracked, none⟩ := inv.unused g mem
    have other : g ≠ f := fun same => vac.free (same ▸ mem)
    refine ⟨?_, fun e mem' => untracked e (entry g e mem' other), ?_⟩
    · intro q mem'
      rw [table] at mem'
      rcases List.mem_cons.mp mem' with same | mem'
      · exact other (congrArg Prod.snd same)
      · exact out q mem'
    · rw [frame, if_neg other]
      exact none
  · rw [table, List.map_cons, List.nodup_cons]
    refine ⟨fun mem => ?_, inv.keys⟩
    obtain ⟨⟨q, g⟩, mem', same⟩ := List.mem_map.mp mem
    dsimp only at same
    exact fresh g (same ▸ mem')
  · intro q g mem
    rw [table] at mem
    rcases List.mem_cons.mp mem with same | mem
    · obtain ⟨rfl, rfl⟩ := Prod.mk.inj same
      rw [frame, if_pos rfl]
      exact ⟨rfl, high⟩
    · rw [frame, if_neg (apart q g mem)]
      exact inv.pages q g mem
  · intro x g mem
    rw [table]
    exact List.mem_cons_of_mem _ (inv.guards x g mem)
  · intro g
    have pins := inv.pins g
    rw [frame]
    change _ = s.guards.countP _ + _
    by_cases same : g = f
    · rw [if_pos same, same, List.count_cons_self]
      rw [same, vac.pinCount] at pins
      dsimp only
      omega
    · rw [if_neg same, List.count_cons_of_ne (Ne.symm same)]
      exact pins
  · intro g mem
    by_cases same : g = f
    · rcases LruReplacer.mem_setEvictable mem with ⟨-, no, -⟩ | ⟨other, -⟩
      · cases no
      · exact absurd same other
    · rw [frame, if_neg same]
      exact inv.evictable g (entry g _ mem same)
  · intro g e mem
    rw [table]
    by_cases same : g = f
    · exact ⟨p, same ▸ List.mem_cons_self⟩
    · obtain ⟨q, mem'⟩ := inv.tracked g e (entry g e mem same)
      exact ⟨q, List.mem_cons_of_mem _ mem'⟩
  · intro q g mem
    rw [table] at mem
    rcases List.mem_cons.mp mem with same | mem
    · obtain ⟨rfl, rfl⟩ := Prod.mk.inj same
      rw [frame, if_pos rfl]
      exact ⟨page, fun _ _ => disk⟩
    · rw [frame, if_neg (apart q g mem)]
      exact inv.resident q g mem
  · intro q range out
    rw [table] at out
    exact inv.absent q range fun g mem => out g (List.mem_cons_of_mem _ mem)
  · rw [table]
    exact List.mem_cons_self

/- Pages. -/

theorem readPage_ok {out m : Memory} (ok : s.readPage p out io = (none, m)) :
    p < s.numPages ∧ m = s.disk p := by
  unfold Pool.readPage Pool.checkId at ok
  split at ok
  · cases ok
  · rename_i check
    constructor
    · split at check
      · cases check
      · split at check
        · cases check
        · rename_i high
          exact Nat.not_le.mp high
    · split at ok
      · cases ok
      · split at ok
        · cases ok
        · exact (Prod.mk.inj ok).2.symm

theorem Inv.beyond (inv : Inv s c held) (m : Memory) : Inv (s.setDisk s.numPages m) c held := by
  have disk : ∀ q, q < s.numPages → (s.setDisk s.numPages m).disk q = s.disk q := by
    intro q range
    rw [disk_setDisk, if_neg (Nat.ne_of_lt range)]
  exact { inv with
    resident := by
      intro q g mem
      rw [disk q (inv.pages q g mem).2]
      exact inv.resident q g mem
    absent := by
      intro q range gone
      rw [disk q range]
      exact inv.absent q range gone }

theorem Inv.extend (inv : Inv s c held) :
    Inv { s.setDisk s.numPages zeroPage with numPages := s.numPages + 1 }
      { c with contents := Function.update c.contents s.numPages zeroPage } held := by
  have old : ∀ q, q < s.numPages → (s.setDisk s.numPages zeroPage).disk q = s.disk q ∧
      Function.update c.contents s.numPages zeroPage q = c.contents q := by
    intro q range
    rw [disk_setDisk, if_neg (Nat.ne_of_lt range), Function.update_of_ne (Nat.ne_of_lt range)]
    exact ⟨rfl, rfl⟩
  exact { inv with
    pages := by
      intro q g mem
      obtain ⟨id, high⟩ := inv.pages q g mem
      exact ⟨id, Nat.lt_succ_of_lt high⟩
    resident := by
      intro q g mem
      obtain ⟨disk, contents⟩ := old q (inv.pages q g mem).2
      dsimp only
      rw [disk, contents]
      exact inv.resident q g mem
    absent := by
      intro q range gone
      dsimp only
      rcases Nat.lt_succ_iff_lt_or_eq.mp range with old' | rfl
      · obtain ⟨disk, contents⟩ := old q old'
        rw [disk, contents]
        exact inv.absent q old' gone
      · rw [disk_setDisk, if_pos rfl, Function.update_self]
        exact Same.refl _ }

/- Guards. -/

theorem Inv.perm {held' : List FrameId} (inv : Inv s c held) (perm : held.Perm held') : Inv s c held' :=
  { inv with pins := fun f => by rw [← perm.count_eq]; exact inv.pins f }

theorem Inv.handOut (inv : Inv s c held) (here : (p, f) ∈ s.pageTable) {mode : LatchMode} {g : Guard}
    (out : s.handOut f p mode = some (g, t)) :
    Inv t c held ∧ t.pageTable = s.pageTable ∧ t.guards = s.guards ∧ g = ⟨f, p, mode⟩ ∧
      (t.frames f).page = (s.frames f).page := by
  obtain ⟨frame, locked, eq⟩ := Option.map_eq_some_iff.mp out
  obtain ⟨rfl, rfl⟩ := Prod.mk.inj eq
  have same : frame.page = (s.frames f).page ∧ frame.pageId = (s.frames f).pageId ∧
      frame.dirty = (s.frames f).dirty ∧ frame.pinCount = (s.frames f).pinCount := by
    cases mode with
    | kNone =>
      obtain rfl := Option.some.inj locked
      exact ⟨rfl, rfl, rfl, rfl⟩
    | kShared =>
      simp only [Frame.lock] at locked
      split at locked
      · cases locked
      · obtain rfl := Option.some.inj locked
        exact ⟨rfl, rfl, rfl, rfl⟩
    | kExclusive =>
      simp only [Frame.lock] at locked
      split at locked
      · obtain rfl := Option.some.inj locked
        exact ⟨rfl, rfl, rfl, rfl⟩
      · cases locked
  obtain ⟨page, id, dirty, pins⟩ := same
  obtain ⟨sees, clean⟩ := inv.resident p f here
  have after := @Inv.edit _ _ c _ _ _ inv here frame (s.disk p) id pins (fun _ _ => ⟨rfl, rfl⟩)
    (page ▸ sees) (dirty ▸ clean)
  rw [setDisk_self] at after
  refine ⟨after, rfl, rfl, rfl, ?_⟩
  rw [frames_setFrame, if_pos rfl]
  exact page

theorem Inv.addGuard (inv : Inv s c (f :: held)) (here : (p, f) ∈ s.pageTable) (x : GuardVar)
    (mode : LatchMode) : Inv { s with guards := (x, ⟨f, p, mode⟩) :: s.guards } c held :=
  { inv with
    guards := by
      intro y g mem
      rcases List.mem_cons.mp mem with same | mem
      · obtain ⟨-, rfl⟩ := Prod.mk.inj same
        exact here
      · exact inv.guards y g mem
    pins := by
      intro g
      have pins := inv.pins g
      dsimp only
      rw [List.countP_cons]
      by_cases same : f = g
      · subst same
        rw [List.count_cons_self] at pins
        simp only [decide_true, if_true]
        omega
      · rw [List.count_cons_of_ne same] at pins
        simp only [same, decide_false, Bool.false_eq_true, if_false]
        omega }

theorem lookup_split {l : List (GuardVar × Guard)} {x : GuardVar} {g : Guard}
    (found : l.lookup x = some g) :
    ∃ lo hi, l = lo ++ (x, g) :: hi ∧ l.eraseP (·.1 = x) = lo ++ hi := by
  induction l with
  | nil => cases found
  | cons e l ih =>
    obtain ⟨y, h⟩ := e
    by_cases same : x = y
    · subst same
      simp only [List.lookup_cons_self, Option.some.injEq] at found
      subst found
      exact ⟨[], l, rfl, by simp⟩
    · rw [List.lookup_cons, beq_false_of_ne same] at found
      obtain ⟨lo, hi, rfl, erased⟩ := ih found
      refine ⟨(y, h) :: lo, hi, rfl, ?_⟩
      rw [List.eraseP_cons_of_neg (by simpa using Ne.symm same), erased]
      rfl

theorem Inv.removeGuard (inv : Inv s c held) {x : GuardVar} {g : Guard}
    (found : s.guards.lookup x = some g) :
    Inv { s with guards := s.guards.eraseP (·.1 = x) } c (g.frame :: held) ∧
      (g.pageId, g.frame) ∈ s.pageTable := by
  obtain ⟨lo, hi, split, erased⟩ := lookup_split found
  have mem : (x, g) ∈ s.guards := by simp [split]
  refine ⟨{ inv with guards := ?_, pins := ?_ }, inv.guards x g mem⟩
  · intro y h mem'
    exact inv.guards y h (List.eraseP_sublist.subset mem')
  · intro f
    have pins := inv.pins f
    rw [split, List.countP_append, List.countP_cons] at pins
    dsimp only
    rw [erased, List.countP_append]
    by_cases same : g.frame = f
    · subst same
      rw [List.count_cons_self]
      simp only [decide_true, if_true] at pins
      omega
    · rw [List.count_cons_of_ne same]
      simp only [same, decide_false, Bool.false_eq_true, if_false] at pins
      omega

theorem Inv.drop (inv : Inv s c held) (x : GuardVar) :
    Inv (s.drop x) c held ∧ (s.drop x).pageTable = s.pageTable := by
  unfold Pool.drop
  cases found : s.guards.lookup x with
  | none => exact ⟨inv, rfl⟩
  | some g =>
    obtain ⟨without, here⟩ := inv.removeGuard found
    exact ⟨without.release here g.mode, rfl⟩

theorem Inv.assign {g : Guard} (inv : Inv s c [g.frame]) (here : (g.pageId, g.frame) ∈ s.pageTable)
    (x : GuardVar) : Inv (s.assign x g) c [] := by
  obtain ⟨after, table⟩ := inv.drop x
  exact after.addGuard (table ▸ here) x g.mode

theorem Inv.move (inv : Inv s c []) (x y : GuardVar) : Inv (s.move x y) c [] := by
  unfold Pool.move
  split
  · exact inv
  · cases found : s.guards.lookup y with
    | none => exact (inv.drop x).1
    | some g =>
      obtain ⟨without, here⟩ := inv.removeGuard found
      exact without.assign here x

/- Fetching. -/

theorem lookup_mem {l : List (PageId × FrameId)} (found : l.lookup p = some f) : (p, f) ∈ l := by
  induction l with
  | nil => cases found
  | cons e l ih =>
    obtain ⟨q, g⟩ := e
    by_cases same : p = q
    · subst same
      simp only [List.lookup_cons_self, Option.some.injEq] at found
      subst found
      exact List.mem_cons_self
    · rw [List.lookup_cons, beq_false_of_ne same] at found
      exact List.mem_cons_of_mem _ (ih found)

theorem Shrunk.lookup (shrunk : Shrunk s t) (gone : s.pageTable.lookup p = none) :
    t.pageTable.lookup p = none := by
  cases found : t.pageTable.lookup p with
  | none => rfl
  | some g =>
    have := List.lookup_eq_none_iff.mp gone (p, g) (shrunk.table p g (lookup_mem found))
    simp at this

theorem Inv.pinPage (inv : Inv s c []) (marked : Marked (s, c)) :
    match s.pinPage p io with
    | (.error _, t) => Inv t c []
    | (.ok f, t) => Inv t c [f] ∧ (p, f) ∈ t.pageTable := by
  unfold Pool.pinPage
  cases hit : s.pageTable.lookup p with
  | some f =>
    have here := lookup_mem hit
    refine ⟨inv.pin here fun g e other mem => ?_, here⟩
    exact (LruReplacer.mem_recordAccess mem).resolve_right other
  | none =>
    obtain ⟨shrunk, after, vacant⟩ := @Inv.acquire _ _ _ io inv marked
    generalize s.acquireFrameLocked io = out at shrunk after vacant ⊢
    obtain ⟨result, t⟩ := out
    cases result with
    | error e => exact after
    | ok f =>
      have vac := vacant f rfl
      dsimp only at shrunk after vac ⊢
      cases read : t.readPage p (t.frames f).page io with
      | mk failed m =>
        cases failed with
        | some e =>
          obtain ⟨scribbled, vac'⟩ := after.scribble vac m
          exact scribbled.unuse vac'
        | none =>
          obtain ⟨high, rfl⟩ := readPage_ok read
          have gone := shrunk.lookup hit
          have disk := after.absent p high fun g mem => by
            have := List.lookup_eq_none_iff.mp gone (p, g) mem
            simp at this
          exact after.install vac gone high disk disk

/-- A call that hands out a guard keeps the books; the guard's own pin is not in them yet. -/
def Handed (c : Left) : Except Status Guard × Pool → Prop
  | (.error _, t) => Inv t c []
  | (.ok g, t) => Inv t c [g.frame] ∧ (g.pageId, g.frame) ∈ t.pageTable

theorem Handed.store {out : Except Status Guard × Pool} (handed : Handed c out) (x : GuardVar) :
    Inv (store x out) c [] := by
  obtain ⟨result, t⟩ := out
  cases result with
  | error e => exact handed
  | ok g => exact handed.1.assign handed.2 x

theorem Inv.fetch {mode : LatchMode} {out : Except Status Guard × Pool} (inv : Inv s c [])
    (marked : Marked (s, c)) (run : s.fetchPageInternal p mode io = some out) :
    Handed c out ∧ ∀ g, out.1 = .ok g → g.pageId = p := by
  have pinned := @Inv.pinPage _ _ p io inv marked
  unfold Pool.fetchPageInternal at run
  generalize s.pinPage p io = pins at pinned run
  obtain ⟨result, u⟩ := pins
  cases result with
  | error e =>
    obtain rfl := Option.some.inj run
    exact ⟨pinned, nofun⟩
  | ok f =>
    obtain ⟨after, here⟩ := pinned
    obtain ⟨⟨g, v⟩, latch, rfl⟩ := Option.map_eq_some_iff.mp run
    obtain ⟨latched, table, -, rfl, -⟩ := after.handOut here latch
    refine ⟨⟨latched, table ▸ here⟩, ?_⟩
    intro g same
    obtain rfl := Except.ok.inj same
    rfl

theorem Inv.newPage {out : Except Status Guard × Pool} (inv : Inv s c []) (marked : Marked (s, c))
    (run : s.newPage io = some out) :
    Handed (freshened c out.1) out ∧ ∀ g, out.1 = .ok g → (out.2.frames g.frame).page = zeroPage := by
  obtain ⟨shrunk, after, vacant⟩ := @Inv.acquire _ _ _ io inv marked
  unfold Pool.newPage at run
  generalize s.acquireFrameLocked io = frame at shrunk after vacant run
  obtain ⟨result, u⟩ := frame
  cases result with
  | error e =>
    obtain rfl := Option.some.inj run
    exact ⟨after, nofun⟩
  | ok f =>
    have vac := vacant f rfl
    dsimp only at after vac run
    unfold Pool.allocatePage at run
    rw [if_neg (not_not.mpr after.list)] at run
    cases fault : io.write u.numPages with
    | some found =>
      obtain ⟨e, junk⟩ := found
      rw [fault] at run
      obtain rfl := Option.some.inj run
      refine ⟨(after.beyond junk).unuse ?_, nofun⟩
      exact ⟨vac.free, vac.table, vac.replacer, vac.pinCount⟩
    | none =>
      rw [fault] at run
      obtain ⟨⟨g, v⟩, latch, rfl⟩ := Option.map_eq_some_iff.mp run
      have gone : u.pageTable.lookup u.numPages = none := by
        cases found : u.pageTable.lookup u.numPages with
        | none => rfl
        | some g => exact absurd (after.pages _ g (lookup_mem found)).2 (lt_irrefl _)
      have page : Same zeroPage (Function.update c.contents u.numPages zeroPage u.numPages) := by
        rw [Function.update_self]
        exact Same.refl _
      have disk : Same ((u.setDisk u.numPages zeroPage).disk u.numPages)
          (Function.update c.contents u.numPages zeroPage u.numPages) := by
        rw [disk_setDisk, if_pos rfl]
        exact page
      obtain ⟨installed, here⟩ := after.extend.install
        ⟨vac.free, vac.table, vac.replacer, vac.pinCount⟩ gone (Nat.lt_succ_self _) page disk
      obtain ⟨latched, table, -, rfl, page⟩ := installed.handOut here latch
      refine ⟨⟨latched, table ▸ here⟩, ?_⟩
      intro g same
      obtain rfl := Except.ok.inj same
      rw [page]
      unfold Pool.install
      dsimp only
      rw [frames_setFrame, if_pos rfl]

/- Flushing. -/

structure Flushed (s t : Pool) : Prop where
  table : t.pageTable = s.pageTable
  numPages : t.numPages = s.numPages
  clean : ∀ g, (s.frames g).dirty = false → (t.frames g).dirty = false

theorem Flushed.trans {u : Pool} (h : Flushed s t) (h' : Flushed t u) : Flushed s u :=
  ⟨h'.table.trans h.table, h'.numPages.trans h.numPages, fun g clean => h'.clean g (h.clean g clean)⟩

theorem releaseGuard_flushed (s : Pool) (f : FrameId) : Flushed s (s.releaseGuard f .kNone) := by
  refine ⟨rfl, rfl, ?_⟩
  intro g clean
  change ((s.setFrame f _).frames g).dirty = false
  rw [frames_setFrame]
  split
  · rename_i same
    rw [same] at clean
    exact clean
  · exact clean

theorem Inv.flushFrame {out : Option Status × Pool} (inv : Inv s c (f :: held))
    (here : (p, f) ∈ s.pageTable) (run : s.flushFrame f io = some out) :
    Inv out.2 c held ∧ Flushed s out.2 ∧ (out.1 = none → (out.2.frames f).dirty = false) := by
  unfold Pool.flushFrame at run
  split at run
  · rename_i dirty
    split at run
    · cases run
    · obtain ⟨after, kept, clean⟩ := @Inv.writeBack _ _ _ _ _ io inv here dirty
      generalize s.writeBack f io = back at after kept clean run
      obtain ⟨result, t⟩ := back
      obtain rfl := Option.some.inj run
      have released := releaseGuard_flushed t f
      refine ⟨after.release (kept.table ▸ here) .kNone, ?_, fun ok => released.clean f (clean ok)⟩
      exact Flushed.trans ⟨kept.table, kept.numPages, kept.clean⟩ released
  · rename_i clean
    obtain rfl := Option.some.inj run
    have released := releaseGuard_flushed s f
    exact ⟨inv.release here .kNone, released, fun _ => released.clean f (by simpa using clean)⟩

theorem Inv.flushPage {out : Option Status × Pool} (inv : Inv s c [])
    (run : s.flushPage p io = some out) : Inv out.2 c [] := by
  unfold Pool.flushPage at run
  cases found : s.pageTable.lookup p with
  | none =>
    rw [found] at run
    obtain rfl := Option.some.inj run
    exact inv
  | some f =>
    rw [found] at run
    have here := lookup_mem found
    exact ((inv.pin here fun _ _ _ mem => mem).flushFrame here run).1

theorem Inv.flushLoop {order : List FrameId} {result : Option Status} {out : Option Status × Pool}
    (inv : Inv s c order) (here : ∀ f ∈ order, ∃ p, (p, f) ∈ s.pageTable)
    (run : Pool.flushLoop io order result s = some out) :
    Inv out.2 c [] ∧ Flushed s out.2 ∧
      (out.1 = none → result = none ∧ ∀ f ∈ order, (out.2.frames f).dirty = false) := by
  induction order generalizing s result with
  | nil =>
    obtain rfl := Option.some.inj run
    exact ⟨inv, ⟨rfl, rfl, fun _ clean => clean⟩, fun ok => ⟨ok, nofun⟩⟩
  | cons f rest ih =>
    obtain ⟨p, mem⟩ := here f List.mem_cons_self
    cases result with
    | some e =>
      have released := releaseGuard_flushed s f
      obtain ⟨after, flushed, ok⟩ := ih (inv.release mem .kNone)
        (fun g mem => here g (List.mem_cons_of_mem _ mem)) run
      refine ⟨after, released.trans flushed, fun done => ?_⟩
      exact absurd (ok done).1 nofun
    | none =>
      obtain ⟨⟨result, t⟩, first, later⟩ := Option.bind_eq_some_iff.mp run
      obtain ⟨after, flushed, clean⟩ := inv.flushFrame mem first
      obtain ⟨last, flushed', ok⟩ := ih after
        (fun g mem => by rw [flushed.table]; exact here g (List.mem_cons_of_mem _ mem)) later
      refine ⟨last, flushed.trans flushed', fun done => ⟨rfl, ?_⟩⟩
      obtain ⟨fine, all⟩ := ok done
      intro g mem
      rcases List.mem_cons.mp mem with rfl | mem
      · exact flushed'.clean g (clean fine)
      · exact all g mem

theorem Inv.pinAll {order : List FrameId} (inv : Inv s c held)
    (here : ∀ f ∈ order, ∃ p, (p, f) ∈ s.pageTable) :
    Inv (order.foldl Pool.pin s) c (order ++ held) ∧
      (order.foldl Pool.pin s).pageTable = s.pageTable ∧
      (order.foldl Pool.pin s).numPages = s.numPages := by
  induction order generalizing s held with
  | nil => exact ⟨inv, rfl, rfl⟩
  | cons f rest ih =>
    obtain ⟨p, mem⟩ := here f List.mem_cons_self
    obtain ⟨after, table, size⟩ := ih (inv.pin mem fun _ _ _ mem => mem)
      (fun g mem => here g (List.mem_cons_of_mem _ mem))
    exact ⟨after.perm List.perm_middle, table, size⟩

theorem Inv.flushAll {order : List FrameId} {out : Option Status × Pool} (inv : Inv s c [])
    (run : s.flushAll order io = some out) :
    Inv out.2 c [] ∧ (out.1 = none → ∀ p < s.numPages, c.unmarked p = false →
      Same (out.2.disk p) (c.contents p)) := by
  unfold Pool.flushAll at run
  split at run
  · rename_i perm
    have perm := List.isPerm_iff.mp perm
    have listed : ∀ f, f ∈ order ↔ ∃ p, (p, f) ∈ s.pageTable := by
      intro f
      rw [perm.mem_iff]
      simp
    obtain ⟨pinned, table, size⟩ := inv.pinAll fun f mem => (listed f).mp mem
    rw [List.append_nil] at pinned
    obtain ⟨after, flushed, clean⟩ := pinned.flushLoop
      (fun f mem => by rw [table]; exact (listed f).mp mem) run
    refine ⟨after, fun ok p range marked => ?_⟩
    have table' : out.2.pageTable = s.pageTable := flushed.table.trans table
    by_cases res : ∃ f, (p, f) ∈ s.pageTable
    · obtain ⟨f, mem⟩ := res
      exact (after.resident p f (table' ▸ mem)).2 ((clean ok).2 f ((listed f).mpr ⟨p, mem⟩)) marked
    · refine after.absent p (by rw [flushed.numPages, size]; exact range) fun f mem => ?_
      exact res ⟨f, table' ▸ mem⟩
  · cases run

/- Runs. -/

theorem Inv.transparent (inv : Inv s c []) (marked : Marked (s, c)) : Transparent (s, c) := by
  constructor
  · intro p mode io g t run
    obtain ⟨⟨after, here⟩, named⟩ := inv.fetch marked run
    obtain rfl := named g rfl
    exact ⟨rfl, (after.resident _ _ here).1⟩
  · intro io g t run
    exact (inv.newPage marked run).2 g rfl
  · intro x g mem
    exact (inv.resident _ _ (inv.guards x g mem)).1
  · intro x g y h mem mem' same
    have here := inv.guards x g mem
    rw [same] at here
    exact inv.frame_unique here (inv.guards y h mem')
  · intro order io t run p range settled
    exact (inv.flushAll run).2 rfl p range settled

theorem Inv.step {u : State} {e : Event} (inv : Inv s c []) (marked : Marked (s, c))
    (next : Buffer.step (s, c) e = some u) : Inv u.1 u.2 [] := by
  cases e with
  | fetch x p mode io =>
    obtain ⟨out, run, rfl⟩ := Option.map_eq_some_iff.mp next
    exact (inv.fetch marked run).1.store x
  | newPage x io =>
    obtain ⟨out, run, rfl⟩ := Option.map_eq_some_iff.mp next
    exact (inv.newPage marked run).1.store x
  | mutate x page =>
    obtain ⟨g, found, rfl⟩ := Option.map_eq_some_iff.mp next
    have here := (inv.removeGuard found).2
    have after := @Inv.edit _ _ ⟨Function.update c.contents g.pageId page,
      Function.update c.unmarked g.pageId true⟩ _ _ _ inv here { s.frames g.frame with page := page }
      (s.disk g.pageId) rfl rfl ?_ ?_ ?_
    · rw [setDisk_self] at after
      exact after
    · intro q other
      exact ⟨Function.update_of_ne other _ _, Function.update_of_ne other _ _⟩
    · dsimp only
      rw [Function.update_self]
      exact Same.refl _
    · intro _ owed
      dsimp only at owed
      rw [Function.update_self] at owed
      cases owed
  | markDirty x =>
    obtain ⟨g, found, rfl⟩ := Option.map_eq_some_iff.mp next
    have here := (inv.removeGuard found).2
    have after := @Inv.edit _ _ ⟨c.contents, Function.update c.unmarked g.pageId false⟩ _ _ _ inv here
      { s.frames g.frame with dirty := true } (s.disk g.pageId) rfl rfl
      (fun q other => ⟨rfl, Function.update_of_ne other _ _⟩) (inv.resident _ _ here).1 nofun
    rw [setDisk_self] at after
    exact after
  | move x y =>
    obtain rfl := Option.some.inj next
    exact inv.move x y
  | drop x =>
    obtain rfl := Option.some.inj next
    exact (inv.drop x).1
  | flushPage p io =>
    obtain ⟨out, run, rfl⟩ := Option.map_eq_some_iff.mp next
    exact inv.flushPage run
  | flushAll order io =>
    obtain ⟨out, run, rfl⟩ := Option.map_eq_some_iff.mp next
    exact (inv.flushAll run).1

theorem create_inv (numFrames : Nat) (wal verifyChecksums : Bool) (disk : PageId → Memory)
    (numPages : PageId) :
    Inv (.create numFrames wal verifyChecksums disk numPages) ⟨disk, fun _ => false⟩ [] where
  free := List.nodup_range
  unused _ _ := ⟨nofun, nofun, rfl⟩
  keys := List.nodup_nil
  pages := nofun
  guards := nofun
  pins _ := rfl
  evictable := nofun
  tracked := nofun
  resident := nofun
  absent _ _ _ := Same.refl _
  list := rfl

/-- Over every sequence of calls and every pattern of failures, as long as changed pages are marked
dirty before their guards are gone. -/
theorem buffer_pool_transparent (numFrames : Nat) (wal verifyChecksums : Bool) (disk : PageId → Memory)
    (numPages : PageId) (events : List Event)
    (marked : EveryState step Marked
      (.create numFrames wal verifyChecksums disk numPages, ⟨disk, fun _ => false⟩) events) :
    EveryState step Transparent
      (.create numFrames wal verifyChecksums disk numPages, ⟨disk, fun _ => false⟩) events := by
  have both := marked.along (I := fun u => Inv u.1 u.2 [])
    (fun _ _ _ inv marked next => inv.step marked next)
    (create_inv numFrames wal verifyChecksums disk numPages)
  exact both.imp fun _ ⟨inv, marked⟩ => inv.transparent marked

def misstamped : Memory := write zeroPage 28 (encode 4 (computeChecksum zeroPage + 1))

def fourFrames : State := (.create 4 false false (fun _ => zeroPage) 2, ⟨fun _ => zeroPage, fun _ => false⟩)

/-- Page 2 is created, changed, marked, released and written out. -/
def writeOut : List Event :=
  [.newPage 0 .none, .mutate 0 misstamped, .markDirty 0, .drop 0, .flushPage 2 .none]

theorem marked_of_settled {s : State} (settled : ∀ p, s.2.unmarked p = false) : Marked s := by
  intro p owed
  rw [settled p] at owed
  cases owed

theorem writeOut_marked : EveryState step Marked fourFrames writeOut := by
  have again : ∀ p, Function.update (Function.update (fun _ : PageId => false) 2 true) 2 false p = false := by
    intro p
    by_cases same : p = 2
    · rw [same, Function.update_self]
    · rw [Function.update_of_ne same, Function.update_of_ne same]
  refine ⟨marked_of_settled fun _ => rfl, fun t ht => ?_⟩
  obtain rfl := Option.some.inj ht
  refine ⟨marked_of_settled fun _ => rfl, fun t ht => ?_⟩
  obtain rfl := Option.some.inj ht
  refine ⟨?_, fun t ht => ?_⟩
  · intro p owed
    by_cases same : p = 2
    · exact ⟨0, ⟨0, 2, .kExclusive⟩, List.mem_cons_self, same.symm⟩
    · change Function.update (fun _ : PageId => false) 2 true p = true at owed
      rw [Function.update_of_ne same] at owed
      cases owed
  obtain rfl := Option.some.inj ht
  refine ⟨marked_of_settled again, fun t ht => ?_⟩
  obtain rfl := Option.some.inj ht
  refine ⟨marked_of_settled again, fun t ht => ?_⟩
  obtain rfl := Option.some.inj ht
  exact marked_of_settled again

theorem computeChecksum_misstamped : computeChecksum misstamped = computeChecksum zeroPage := by
  unfold computeChecksum misstamped
  rw [read_write_apart (by simp), read_write_apart (by simp)]

theorem flush_stamps_checksum : EveryState step Marked fourFrames writeOut ∧
    ∃ t g u, run step fourFrames writeOut = some t ∧
      t.1.fetchPageInternal 2 .kNone .none = some (.ok g, u) ∧
      (u.frames g.frame).page ≠ t.2.contents 2 := by
  refine ⟨writeOut_marked, _, _, _, rfl, rfl, ?_⟩
  change stampChecksum misstamped ≠ misstamped
  intro same
  have field : decode (read (stampChecksum misstamped) 28 4) = decode (read misstamped 28 4) := by
    rw [same]
  have own : decode (read (stampChecksum misstamped) 28 4) = computeChecksum zeroPage := by
    have := read_write_self misstamped 28 (encode 4 (computeChecksum misstamped))
    rw [length_encode] at this
    rw [stampChecksum, this, computeChecksum_misstamped]
    exact decode_encode_of_lt (UInt32.toNat_lt _)
  have other : decode (read misstamped 28 4) = (computeChecksum zeroPage + 1) % 256 ^ 4 := by
    have := read_write_self zeroPage 28 (encode 4 (computeChecksum zeroPage + 1))
    rw [length_encode] at this
    rw [misstamped, this, decode_encode]
  have small : computeChecksum zeroPage < 2 ^ 32 := UInt32.toNat_lt _
  rw [own, other] at field
  omega

theorem transparent_after_writeOut : EveryState step Marked fourFrames writeOut ∧
    ∃ t, run step fourFrames writeOut = some t ∧ Transparent t :=
  ⟨writeOut_marked, _, rfl,
    (buffer_pool_transparent 4 false false (fun _ => zeroPage) 2 writeOut writeOut_marked).last rfl⟩

end PagerDB.Buffer

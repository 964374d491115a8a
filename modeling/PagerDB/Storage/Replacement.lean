import PagerDB.Lib.Recency
import PagerDB.Storage.FrameBooks

/-! Which frames are free, resident or pinned, and which one is evicted. The pager's free list is empty, as
in every file that the program writes. -/
namespace PagerDB.Buffer

open MachineLib MemoryLib RecencyLib

def Pool.victim (s : Pool) : Option FrameId :=
  if s.freeFrames = [] then s.replacer.evict.map Prod.fst else none

/-- The frame whose access a call records: the one it hands out, or a victim that it puts back. -/
def accessed (s : Pool) : Event → Option FrameId
  | .fetch _ p _ io =>
    match s.pageTable.lookup p with
    | some f => some f
    | none =>
      match s.acquireFrameLocked io with
      | (.error _, _) => s.victim
      | (.ok f, t) => if (t.readPage p (t.frames f).page io).1.isNone then some f else none
  | .newPage _ io =>
    match s.acquireFrameLocked io with
    | (.error _, _) => s.victim
    | (.ok f, t) =>
      match (t.allocatePage io).1 with
      | .ok _ => some f
      | .error _ => none
  | _ => none

abbrev Logged := State × List FrameId

def loggedStep (u : Logged) (e : Event) : Option Logged :=
  (step u.1 e).map fun t => (t, (accessed u.1.1 e).toList ++ u.2)

structure Accounted (n : Nat) (s : Pool) : Prop where
  once : s.freeFrames.Nodup
  frames : ∀ f, (f ∈ s.freeFrames ∨ ∃ p, (p, f) ∈ s.pageTable) ↔ f < n
  apart : ∀ f ∈ s.freeFrames, ∀ p, (p, f) ∉ s.pageTable
  pages : (s.pageTable.map Prod.fst).Nodup
  slots : (s.pageTable.map Prod.snd).Nodup
  named : ∀ p f, (p, f) ∈ s.pageTable → (s.frames f).pageId = p
  tracked : (s.replacer.map Prod.fst).Nodup ∧ ∀ f, f ∈ s.replacer.map Prod.fst ↔ ∃ p, (p, f) ∈ s.pageTable
  evictable : ∀ f e, (f, e) ∈ s.replacer → (e = true ↔ (s.frames f).pinCount = 0)
  pins : ∀ f, (s.frames f).pinCount = s.guards.countP fun x => x.2.frame = f
  held : ∀ x g, (x, g) ∈ s.guards → (g.pageId, g.frame) ∈ s.pageTable

def AllPinned (n : Nat) (s : Pool) : Prop := ∀ f < n, 0 < (s.frames f).pinCount

def ReportsBusy (out : Option (Except Status Guard × Pool)) : Prop :=
  ∃ e t, out = some (.error e, t) ∧ e.code = .busy

/-- Nobody pins the frame, and every other such frame was accessed after it. -/
structure Oldest (n : Nat) (s : Pool) (log : List FrameId) (f : FrameId) : Prop where
  idle : (s.frames f).pinCount = 0
  logged : f ∈ log
  oldest : ∀ h < n, h ≠ f → (s.frames h).pinCount = 0 → log.idxOf h < log.idxOf f

structure Replaces (n : Nat) (u : Logged) : Prop where
  fetch : ∀ p mode io, io.Steady → u.1.1.pageTable.lookup p = none →
    (ReportsBusy (u.1.1.fetchPageInternal p mode io) ↔ AllPinned n u.1.1)
  newPage : ∀ io, io.Steady → (ReportsBusy (u.1.1.newPage io) ↔ AllPinned n u.1.1)
  chosen : ∀ f, u.1.1.victim = some f → Oldest n u.1.1 u.2 f
  evicted : ∀ e t p f, loggedStep u e = some t → (p, f) ∈ u.1.1.pageTable → (∀ h, (p, h) ∉ t.1.1.pageTable) →
    Oldest n u.1.1 u.2 f

variable {n : Nat} {s t u : Pool} {f : FrameId} {p : PageId} {io : Faults} {e : Event} {out : Option FrameId}
  {mode : LatchMode} {x : GuardVar}

/- The order of the replacer. -/

def Pool.order (s : Pool) : List FrameId := s.replacer.map Prod.fst

namespace LruReplacer

variable {r r' : LruReplacer}

theorem order_setEvictable (r : LruReplacer) (f : FrameId) (b : Bool) :
    (setEvictable r f b).map Prod.fst = r.map Prod.fst := by
  rw [setEvictable, List.map_map]
  refine List.map_congr_left fun e _ => ?_
  by_cases same : e.1 = f <;> simp [same]

theorem order_remove (r : LruReplacer) (f : FrameId) :
    (remove r f).map Prod.fst = (r.map Prod.fst).filter (· ≠ f) := by
  rw [remove, List.filter_map]
  rfl

theorem order_recordAccess (r : LruReplacer) (f : FrameId) :
    (recordAccess r f).map Prod.fst = (r.map Prod.fst).filter (· ≠ f) ++ [f] := by
  unfold recordAccess
  split
  · rw [List.map_append, order_remove]
    rfl
  · rename_i absent
    have other : ∀ g ∈ r.map Prod.fst, decide (g ≠ f) = true := by
      intro g mem
      obtain ⟨e, listed, rfl⟩ := List.mem_map.mp mem
      refine decide_eq_true fun same => ?_
      exact absurd (List.lookup_eq_none_iff.mp absent e listed) (by simp [same])
    rw [List.map_append, List.filter_eq_self.mpr other]
    rfl

theorem evict_cut (found : evict r = some (f, r')) :
    r' = remove r f ∧ ∃ lo hi, r = lo ++ (f, true) :: hi ∧ ∀ e ∈ lo, e.2 = false := by
  unfold evict at found
  split at found
  · rename_i g b first
    obtain ⟨rfl, rfl⟩ := Prod.mk.inj (Option.some.inj found)
    obtain ⟨flag, lo, hi, cut, before⟩ := List.find?_eq_some_iff_append.mp first
    dsimp only at flag
    subst flag
    exact ⟨rfl, lo, hi, cut, fun e mem => by simpa using before e mem⟩
  · cases found

end LruReplacer

structure Rests (s t : Pool) : Prop where
  free : t.freeFrames = s.freeFrames
  table : t.pageTable = s.pageTable
  order : t.order = s.order

namespace Rests

theorem refl (s : Pool) : Rests s s := ⟨rfl, rfl, rfl⟩

theorem trans (first : Rests s t) (second : Rests t u) : Rests s u :=
  ⟨second.free.trans first.free, second.table.trans first.table, second.order.trans first.order⟩

theorem pin (s : Pool) (f : FrameId) : Rests s (s.pin f) :=
  ⟨rfl, rfl, LruReplacer.order_setEvictable _ _ _⟩

theorem pinAll (order : List FrameId) (s : Pool) : Rests s (order.foldl Pool.pin s) := by
  induction order generalizing s with
  | nil => exact refl s
  | cons f rest ih => exact (pin s f).trans (ih _)

theorem releaseGuard (s : Pool) (f : FrameId) (mode : LatchMode) : Rests s (s.releaseGuard f mode) := by
  refine ⟨rfl, rfl, ?_⟩
  unfold Pool.order Pool.releaseGuard
  dsimp only
  split
  · exact LruReplacer.order_setEvictable _ _ _
  · rfl

theorem writeBack (s : Pool) (f : FrameId) (io : Faults) : Rests s (s.writeBack f io).2 := by
  obtain ⟨alike, entries, free⟩ := alike_writeBack s f io
  exact ⟨free, alike.table, congrArg (List.map Prod.fst) entries⟩

theorem drop (s : Pool) (x : GuardVar) : Rests s (s.drop x) := by
  unfold Pool.drop
  split
  · exact refl s
  · rename_i g _
    obtain ⟨free, table, order⟩ := releaseGuard s g.frame g.mode
    exact ⟨free, table, order⟩

theorem assign (s : Pool) (x : GuardVar) (g : Guard) : Rests s (s.assign x g) := by
  obtain ⟨free, table, order⟩ := drop s x
  exact ⟨free, table, order⟩

theorem move (s : Pool) (x y : GuardVar) : Rests s (s.move x y) := by
  unfold Pool.move
  split
  · exact refl s
  · split
    · exact drop s x
    · rename_i g _
      exact Rests.trans (t := { s with guards := s.guards.eraseP (·.1 = y) }) ⟨rfl, rfl, rfl⟩ (assign _ x g)

theorem store (x : GuardVar) (out : Except Status Guard × Pool) : Rests out.2 (store x out) := by
  obtain ⟨result, t⟩ := out
  cases result with
  | ok g => exact assign t x g
  | error e => exact refl t

theorem flushFrame {out : Option Status × Pool} (run : s.flushFrame f io = some out) : Rests s out.2 := by
  unfold Pool.flushFrame at run
  split at run
  · split at run
    · cases run
    · obtain rfl := Option.some.inj run
      exact (writeBack s f io).trans (releaseGuard _ f .kNone)
  · obtain rfl := Option.some.inj run
    exact releaseGuard s f .kNone

theorem flushLoop {order : List FrameId} {result : Option Status} {out : Option Status × Pool}
    (run : Pool.flushLoop io order result s = some out) : Rests s out.2 := by
  induction order generalizing s result with
  | nil =>
    obtain rfl := Option.some.inj run
    exact refl s
  | cons f rest ih =>
    cases result with
    | some e => exact (releaseGuard s f .kNone).trans (ih run)
    | none =>
      obtain ⟨r, first, later⟩ := Option.bind_eq_some_iff.mp run
      exact (flushFrame first).trans (ih later)

theorem flushPage {out : Option Status × Pool} (run : s.flushPage p io = some out) : Rests s out.2 := by
  unfold Pool.flushPage at run
  split at run
  · obtain rfl := Option.some.inj run
    exact refl s
  · rename_i f _
    exact (pin s f).trans (flushFrame run)

theorem flushAll {order : List FrameId} {out : Option Status × Pool} (run : s.flushAll order io = some out) :
    Rests s out.2 := by
  obtain ⟨-, run⟩ := Option.ite_none_right_eq_some.mp run
  exact (pinAll order s).trans (flushLoop run)

theorem handOut {r : Guard × Pool} (run : s.handOut f p mode = some r) : Rests s r.2 := by
  obtain ⟨frame, -, rfl⟩ := Option.map_eq_some_iff.mp run
  exact ⟨rfl, rfl, rfl⟩

theorem allocatePage (s : Pool) (io : Faults) : Rests s (s.allocatePage io).2 := by
  unfold Pool.allocatePage
  split
  · dsimp only
    split
    · exact refl s
    · split
      · exact refl s
      · split <;> exact ⟨rfl, rfl, rfl⟩
  · split <;> exact ⟨rfl, rfl, rfl⟩

end Rests

/- Frames that move. -/

/-- Frames come from where they were; the accessed one, if any, is last now; only the victim's page goes. -/
structure Shift (s t : Pool) (out : Option FrameId) : Prop where
  order : ∃ kept, kept.Sublist s.order ∧ t.order = out.elim kept fun f => kept.filter (· ≠ f) ++ [f]
  frames : ∀ h, (h ∈ t.freeFrames ∨ ∃ p, (p, h) ∈ t.pageTable) → h ∈ s.freeFrames ∨ ∃ p, (p, h) ∈ s.pageTable
  gone : ∀ p h, (p, h) ∈ s.pageTable → (p, h) ∈ t.pageTable ∨ s.victim = some h

theorem Rests.shift (rests : Rests s t) : Shift s t none := by
  refine ⟨⟨t.order, rests.order ▸ List.Sublist.refl _, rfl⟩, ?_, ?_⟩
  · intro h here
    rwa [rests.free, rests.table] at here
  · intro p h here
    exact .inl (rests.table ▸ here)

theorem Shift.rests (shift : Shift s t out) (rests : Rests t u) : Shift s u out := by
  obtain ⟨order, frames, gone⟩ := shift
  refine ⟨?_, ?_, ?_⟩
  · rw [rests.order]
    exact order
  · intro h here
    rw [rests.free, rests.table] at here
    exact frames h here
  · rw [rests.table]
    exact gone

structure Takes (s t : Pool) (f : FrameId) : Prop where
  order : t.order.Sublist s.order
  free : t.freeFrames ⊆ s.freeFrames
  table : t.pageTable ⊆ s.pageTable
  given : f ∈ s.freeFrames ∨ ∃ p, (p, f) ∈ s.pageTable
  gone : ∀ p h, (p, h) ∈ s.pageTable → (p, h) ∈ t.pageTable ∨ s.victim = some h

theorem Takes.rests (takes : Takes s t f) (rests : Rests t u) : Takes s u f := by
  obtain ⟨order, free, table, given, gone⟩ := takes
  refine ⟨?_, ?_, ?_, given, ?_⟩
  · rw [rests.order]
    exact order
  · rw [rests.free]
    exact free
  · rw [rests.table]
    exact table
  · rw [rests.table]
    exact gone

theorem Takes.unuse (takes : Takes s t f) : Shift s (t.unuse f) none := by
  refine ⟨⟨t.order, takes.order, rfl⟩, ?_, takes.gone⟩
  rintro h (free | ⟨p, here⟩)
  · rcases List.mem_cons.mp free with rfl | free
    · exact takes.given
    · exact .inl (takes.free free)
  · exact .inr ⟨p, takes.table here⟩

theorem Takes.install (takes : Takes s t f) (p : PageId) (m : Memory) :
    Shift s (t.install f p m) (some f) := by
  have more : ∀ e ∈ (t.install f p m).pageTable, e = (p, f) ∨ e ∈ t.pageTable := by
    intro e mem
    unfold Pool.install at mem
    dsimp only at mem
    split at mem
    · exact .inr mem
    · exact List.mem_cons.mp mem
  have kept : ∀ e ∈ t.pageTable, e ∈ (t.install f p m).pageTable := by
    intro e mem
    unfold Pool.install
    dsimp only
    split
    · exact mem
    · exact List.mem_cons_of_mem _ mem
  refine ⟨⟨t.order, takes.order, ?_⟩, ?_, ?_⟩
  · exact (LruReplacer.order_setEvictable _ _ _).trans (LruReplacer.order_recordAccess _ _)
  · rintro h (free | ⟨q, here⟩)
    · exact .inl (takes.free free)
    · rcases more _ here with same | here
      · obtain ⟨-, rfl⟩ := Prod.mk.inj same
        exact takes.given
      · exact .inr ⟨q, takes.table here⟩
  · exact fun q h here => (takes.gone q h here).imp_left (kept _)

section

variable (books : Balanced n s)

include books

theorem detach_gone (here : (p, f) ∈ s.pageTable) (alike : Alike s t) (victim : s.victim = some f) :
    ∀ q h, (q, h) ∈ s.pageTable → (q, h) ∈ (t.detach f).pageTable ∨ s.victim = some h := by
  intro q h mem
  have id : (t.frames f).pageId = p := (alike.ids f).trans (books.pages p f here).1
  by_cases same : q = p
  · right
    subst same
    rw [victim, Books.frame_unique books mem here]
  · left
    rw [Pool.detach, alike.table, id]
    exact List.mem_filter.mpr ⟨mem, decide_eq_true same⟩

theorem acquire_shift (io : Faults) :
    match s.acquireFrameLocked io with
    | (.ok f, t) => Takes s t f
    | (.error _, t) => Shift s t s.victim := by
  unfold Pool.acquireFrameLocked
  cases stack : s.freeFrames with
  | cons f rest =>
    refine ⟨List.Sublist.refl _, ?_, List.Subset.refl _, .inl (stack ▸ List.mem_cons_self),
      fun _ _ mem => .inl mem⟩
    rw [stack]
    exact List.subset_cons_self f rest
  | nil =>
    cases found : s.replacer.evict with
    | none =>
      have none : s.victim = none := by rw [Pool.victim, if_pos stack, found]; rfl
      simp only [Pool.evictFrame, found, none]
      exact (Rests.refl s).shift
    | some entry =>
      obtain ⟨victim, r⟩ := entry
      have chosen : s.victim = some victim := by rw [Pool.victim, if_pos stack, found]; rfl
      obtain ⟨listed, -⟩ := LruReplacer.evict_spec found
      obtain ⟨p, here⟩ := (books.listed victim).mp ⟨true, listed⟩
      obtain ⟨t, alike, free, entries, ⟨e, run, -⟩ | run⟩ := evictFrame_cases found io
      all_goals
        have less : t.order.Sublist s.order := by
          rw [Pool.order, entries, (LruReplacer.evict_cut found).1]
          exact (List.filter_sublist (p := fun e : FrameId × Bool => e.1 ≠ victim)).map Prod.fst
        simp only [run, chosen]
      · refine ⟨⟨t.order, less, ?_⟩, ?_, ?_⟩
        · exact (LruReplacer.order_setEvictable _ _ _).trans (LruReplacer.order_recordAccess _ _)
        · intro h here
          rw [← free, ← alike.table]
          exact here
        · exact fun q h mem => .inl (alike.table ▸ mem)
      · refine ⟨less, ?_, ?_, .inr ⟨p, here⟩, detach_gone books here alike chosen⟩
        · rw [← free]
          exact List.Subset.refl _
        · rw [← alike.table]
          exact fun e mem => (List.mem_filter.mp mem).1

theorem fetch_shift {out : Except Status Guard × Pool} (x : GuardVar)
    (run : s.fetchPageInternal p mode io = some out) : Shift s out.2 (accessed s (.fetch x p mode io)) := by
  unfold Pool.fetchPageInternal Pool.pinPage at run
  unfold accessed
  cases hit : s.pageTable.lookup p with
  | some f =>
    simp only [hit] at run ⊢
    obtain ⟨r, handed, rfl⟩ := Option.map_eq_some_iff.mp run
    refine Shift.rests ?_ (Rests.handOut handed)
    refine ⟨⟨s.order, List.Sublist.refl _, ?_⟩, fun h here => here, fun q h mem => .inl mem⟩
    exact (LruReplacer.order_setEvictable _ _ _).trans (LruReplacer.order_recordAccess _ _)
  | none =>
    have acquired := acquire_shift books io
    simp only [hit] at run ⊢
    generalize s.acquireFrameLocked io = got at acquired run ⊢
    obtain ⟨result, t⟩ := got
    cases result with
    | error e =>
      obtain rfl := Option.some.inj run
      exact acquired
    | ok f =>
      dsimp only at acquired run ⊢
      cases read : t.readPage p (t.frames f).page io with
      | mk failed m =>
        cases failed with
        | some e =>
          rw [read] at run
          obtain rfl := Option.some.inj run
          exact (acquired.rests (u := t.setFrame f _) ⟨rfl, rfl, rfl⟩).unuse
        | none =>
          rw [read] at run
          obtain ⟨r, handed, rfl⟩ := Option.map_eq_some_iff.mp run
          exact (acquired.install p m).rests (Rests.handOut handed)

theorem newPage_shift {out : Except Status Guard × Pool} (x : GuardVar) (run : s.newPage io = some out) :
    Shift s out.2 (accessed s (.newPage x io)) := by
  have acquired := acquire_shift books io
  unfold Pool.newPage at run
  unfold accessed
  dsimp only
  generalize s.acquireFrameLocked io = got at acquired run ⊢
  obtain ⟨result, t⟩ := got
  cases result with
  | error e =>
    obtain rfl := Option.some.inj run
    exact acquired
  | ok f =>
    dsimp only at acquired run ⊢
    have rests := Rests.allocatePage t io
    generalize t.allocatePage io = alloc at rests run ⊢
    obtain ⟨result, u⟩ := alloc
    cases result with
    | error e =>
      obtain rfl := Option.some.inj run
      exact (acquired.rests rests).unuse
    | ok p =>
      obtain ⟨r, handed, rfl⟩ := Option.map_eq_some_iff.mp run
      exact ((acquired.rests rests).install p zeroPage).rests (Rests.handOut handed)

theorem step_shift {c : Left} {u : State} (next : step (s, c) e = some u) : Shift s u.1 (accessed s e) := by
  cases e with
  | fetch x p mode io =>
    obtain ⟨out, run, rfl⟩ := Option.map_eq_some_iff.mp next
    exact (fetch_shift books x run).rests (Rests.store x out)
  | newPage x io =>
    obtain ⟨out, run, rfl⟩ := Option.map_eq_some_iff.mp next
    exact (newPage_shift books x run).rests (Rests.store x out)
  | mutate x page | markDirty x =>
    obtain ⟨g, -, rfl⟩ := Option.map_eq_some_iff.mp next
    exact Rests.shift ⟨rfl, rfl, rfl⟩
  | move x y =>
    obtain rfl := Option.some.inj next
    exact (Rests.move s x y).shift
  | drop x =>
    obtain rfl := Option.some.inj next
    exact (Rests.drop s x).shift
  | flushPage p io =>
    obtain ⟨out, run, rfl⟩ := Option.map_eq_some_iff.mp next
    exact (Rests.flushPage run).shift
  | flushAll order io =>
    obtain ⟨out, run, rfl⟩ := Option.map_eq_some_iff.mp next
    exact (Rests.flushAll run).shift

end

/- The invariant. -/

structure Ledger (n : Nat) (u : Logged) : Prop where
  books : Balanced n u.1.1
  ranged : ∀ f, (f ∈ u.1.1.freeFrames ∨ ∃ p, (p, f) ∈ u.1.1.pageTable) → f < n
  recent : Recent u.2 u.1.1.order

namespace Ledger

variable {u v : Logged}

theorem step (ledger : Ledger n u) (next : loggedStep u e = some v) : Ledger n v := by
  obtain ⟨⟨s, c⟩, log⟩ := u
  obtain ⟨books, ranged, recent⟩ := ledger
  obtain ⟨t, run, rfl⟩ := Option.map_eq_some_iff.mp next
  obtain ⟨⟨kept, sub, order⟩, frames, -⟩ := step_shift books run
  refine ⟨Balanced.step books run, fun f here => ranged f (frames f here), ?_⟩
  dsimp only at order ⊢
  rw [order]
  cases accessed s e with
  | none => exact recent.sublist sub
  | some f => exact (recent.sublist sub).use f

theorem accounted (ledger : Ledger n u) : Accounted n u.1.1 := by
  obtain ⟨⟨s, c⟩, log⟩ := u
  obtain ⟨books, ranged, recent⟩ := ledger
  have entries : ∀ f, f ∈ s.replacer.map Prod.fst ↔ ∃ e, (f, e) ∈ s.replacer := by simp
  constructor
  · exact books.apart
  · exact fun f => ⟨ranged f, fun lt => books.placed f lt⟩
  · exact books.vacant
  · exact books.keys
  · refine List.Nodup.map_on ?_ (List.Nodup.of_map _ books.keys)
    rintro ⟨p, f⟩ here ⟨q, h⟩ there same
    obtain rfl : f = h := same
    rw [Books.page_unique books here there]
  · exact fun p f here => (books.pages p f here).1
  · exact ⟨recent.nodup, fun f => (entries f).trans (books.listed f)⟩
  · exact fun f e here => (books.counted f).flag e here
  · intro f
    rw [(books.counted f).pins, ← holders_all, Pool.owners, List.countP_map]
    rfl
  · exact fun x g here => books.owned g (List.mem_map_of_mem here)

theorem unpinned (ledger : Ledger n u) (lt : f < n) (idle : (u.1.1.frames f).pinCount = 0) :
    f ∈ u.1.1.freeFrames ∨ (f, true) ∈ u.1.1.replacer := by
  refine (ledger.books.placed f lt).imp_right fun resident => ?_
  obtain ⟨e, listed⟩ := (ledger.books.listed f).mpr resident
  have flag := ((ledger.books.counted f).flag e listed).mpr idle
  exact flag ▸ listed

theorem oldest (ledger : Ledger n u) (chosen : u.1.1.victim = some f) : Oldest n u.1.1 u.2 f := by
  obtain ⟨full, chosen⟩ := Option.ite_none_right_eq_some.mp chosen
  obtain ⟨⟨g, r⟩, found, rfl⟩ := Option.map_eq_some_iff.mp chosen
  obtain ⟨-, lo, hi, cut, before⟩ := LruReplacer.evict_cut found
  have order : u.1.1.order = lo.map Prod.fst ++ g :: hi.map Prod.fst := by
    rw [Pool.order, cut, List.map_append]
    rfl
  have recent := ledger.recent
  rw [order] at recent
  have flag := (ledger.books.counted g).flag true (cut ▸ List.mem_append_right _ List.mem_cons_self)
  refine ⟨flag.mp rfl, recent.used g (List.mem_append_right _ List.mem_cons_self), fun h lt other idle => ?_⟩
  rcases ledger.unpinned lt idle with free | listed
  · rw [full] at free
    cases free
  · rw [cut] at listed
    rcases List.mem_append.mp listed with mem | mem
    · cases before _ mem
    · rcases List.mem_cons.mp mem with same | mem
      · exact absurd (congrArg Prod.fst same) other
      · exact recent.later (List.mem_map_of_mem mem)

theorem acquire_busy (ledger : Ledger n u) (steady : io.Steady) :
    (∃ e t, u.1.1.acquireFrameLocked io = (.error e, t) ∧ e.code = .busy) ↔ AllPinned n u.1.1 := by
  obtain ⟨⟨s, c⟩, log⟩ := u
  have books := ledger.books
  dsimp only at books ⊢
  constructor
  · rintro ⟨e, t, run, busy⟩ f lt
    refine Nat.pos_of_ne_zero fun idle => ?_
    unfold Pool.acquireFrameLocked at run
    rcases ledger.unpinned lt idle with free | listed
    · cases stack : s.freeFrames with
      | nil =>
        rw [stack] at free
        cases free
      | cons =>
        rw [stack] at run
        cases run
    · cases stack : s.freeFrames with
      | cons =>
        rw [stack] at run
        cases run
      | nil =>
        rw [stack] at run
        cases found : s.replacer.evict with
        | none => exact LruReplacer.evict_none found f listed
        | some entry =>
          obtain ⟨u, -, -, -, ⟨e', run', code⟩ | run'⟩ := evictFrame_cases found io
          · cases run'.symm.trans run
            exact code steady busy
          · cases run'.symm.trans run
  · intro pinned
    have empty : s.freeFrames = [] := by
      refine List.eq_nil_iff_forall_not_mem.mpr fun f free => ?_
      have taken := pinned f (ledger.ranged f (.inl free))
      obtain ⟨g, owner, rfl⟩ := (books.counted f).pinned taken.ne'
      exact books.vacant _ free _ (books.owned g owner)
    have none : s.replacer.evict = none := by
      cases found : s.replacer.evict with
      | none => rfl
      | some entry =>
        obtain ⟨f, r⟩ := entry
        obtain ⟨listed, -⟩ := LruReplacer.evict_spec found
        have taken := pinned f (ledger.ranged f (.inr ((books.listed f).mp ⟨true, listed⟩)))
        exact absurd (((books.counted f).flag true listed).mp rfl) taken.ne'
    refine ⟨.Busy "All buffer pool frames are pinned", s, ?_, rfl⟩
    simp only [Pool.acquireFrameLocked, empty, Pool.evictFrame, none]

theorem fetch_busy (ledger : Ledger n u) (steady : io.Steady) (absent : u.1.1.pageTable.lookup p = none) :
    ReportsBusy (u.1.1.fetchPageInternal p mode io) ↔ AllPinned n u.1.1 := by
  rw [← ledger.acquire_busy steady]
  unfold Pool.fetchPageInternal Pool.pinPage
  rw [absent]
  dsimp only
  generalize u.1.1.acquireFrameLocked io = got
  obtain ⟨result, t⟩ := got
  cases result with
  | error e =>
    constructor
    · rintro ⟨e', t', run, busy⟩
      cases run
      exact ⟨_, _, rfl, busy⟩
    · rintro ⟨e', t', run, busy⟩
      cases run
      exact ⟨_, _, rfl, busy⟩
  | ok f =>
    refine iff_of_false ?_ nofun
    rintro ⟨e, t', run, busy⟩
    dsimp only at run
    cases read : t.readPage p (t.frames f).page io with
    | mk failed m =>
      rw [read] at run
      cases failed with
      | some e' =>
        cases run
        exact readPage_steady steady (congrArg Prod.fst read) busy
      | none =>
        obtain ⟨r, -, run⟩ := Option.map_eq_some_iff.mp run
        cases run

theorem newPage_busy (ledger : Ledger n u) (steady : io.Steady) :
    ReportsBusy (u.1.1.newPage io) ↔ AllPinned n u.1.1 := by
  rw [← ledger.acquire_busy steady]
  obtain ⟨-, acquired⟩ := Books.acquire ledger.books io
  unfold Pool.newPage
  generalize u.1.1.acquireFrameLocked io = got at acquired ⊢
  obtain ⟨result, t⟩ := got
  cases result with
  | error e =>
    constructor
    · rintro ⟨e', t', run, busy⟩
      cases run
      exact ⟨_, _, rfl, busy⟩
    · rintro ⟨e', t', run, busy⟩
      cases run
      exact ⟨_, _, rfl, busy⟩
  | ok f =>
    refine iff_of_false ?_ nofun
    rintro ⟨e, t', run, busy⟩
    dsimp only at acquired run
    unfold Pool.allocatePage at run
    rw [if_neg (not_not.mpr acquired.list)] at run
    cases fault : io.write t.numPages with
    | some r =>
      rw [fault] at run
      cases run
      exact steady.write _ _ _ fault busy
    | none =>
      rw [fault] at run
      obtain ⟨r, -, run⟩ := Option.map_eq_some_iff.mp run
      cases run

theorem replaces (ledger : Ledger n u) : Replaces n u where
  fetch _ _ _ steady absent := ledger.fetch_busy steady absent
  newPage _ steady := ledger.newPage_busy steady
  chosen _ := ledger.oldest
  evicted e t p f next here gone := by
    obtain ⟨⟨s, c⟩, log⟩ := u
    obtain ⟨t, run, rfl⟩ := Option.map_eq_some_iff.mp next
    rcases (step_shift ledger.books run).gone p f here with stays | chosen
    · exact absurd stays (gone f)
    · exact ledger.oldest chosen

end Ledger

/-- In every state that calls lead to, whatever fails in them. -/
theorem frames_accounted (numFrames : Nat) (wal verifyChecksums : Bool) (disk : PageId → Memory)
    (numPages : PageId)
    (left : Left) (events : List Event) :
    EveryState loggedStep (fun u => Accounted (poolSize numFrames) u.1.1 ∧ Replaces (poolSize numFrames) u)
      ((.create numFrames wal verifyChecksums disk numPages, left), []) events := by
  have start : Ledger (poolSize numFrames) ((.create numFrames wal verifyChecksums disk numPages,
    left), []) := by
    refine ⟨create_balanced, ?_, .nil⟩
    rintro f (free | ⟨p, here⟩)
    · exact List.mem_range.mp free
    · cases here
  have always : EveryState loggedStep (Ledger (poolSize numFrames)) _ events :=
    everyState_invariant (fun _ _ _ ledger next => Ledger.step ledger next) start
  exact always.imp fun u ledger => ⟨ledger.accounted, ledger.replaces⟩

end PagerDB.Buffer

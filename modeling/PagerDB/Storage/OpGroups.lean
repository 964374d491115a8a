import PagerDB.Storage.Pool

/-! Why a page reaches `data.db` only behind the whole groups that name it. An operation
is in order when it holds every page it names until the op-end record and lets no page
go without a stamp; many such operations keep the log's groups apart. -/
namespace PagerDB

open MachineLib

/- What an operation may do with a page it holds. -/

inductive Hold where
  /-- As it was when the latch was taken. -/
  | taken
  /-- Fresh or cleared, with an image to come. -/
  | raw
  /-- Marked dirty, with a stamp to come. -/
  | pending
  | sealed
  deriving DecidableEq, Repr

namespace Step

def allowed : Step → Option Hold → Prop
  | latch .., _ | newPage _, _ => True
  | init _, h | markDirty _, h => h ≠ none
  | logEvent .., h | logDelta .., h => h ≠ none ∧ h ≠ some .taken
  | stamp _, h | logImage .., h => h = some .pending ∨ h = some .sealed
  | drop _, h => h = none ∨ h = some .taken ∨ h = some .sealed

def possible : Step → Option Hold → Prop
  | latch _ .exclusive, h | newPage _, h => h = none
  | _, _ => True

def holdAfter : Step → Option Hold → Option Hold
  | latch _ .shared, h | logEvent .., h | logDelta .., h => h
  | latch _ .exclusive, _ => some .taken
  | newPage _, _ | init _, _ => some .raw
  | stamp _, _ | logImage .., _ => some .sealed
  | markDirty _, _ => some .pending
  | drop _, _ => none

/-- The pages the group has named since its last op-end record. -/
def openedAfter : Step → List PageId → List PageId
  | logEvent p e, l | logDelta p e, l | logImage p e, l => if e then [] else p :: l
  | _, l => l

def mayRelease : Step → List PageId → Prop
  | drop p, l => p ∉ l
  | _, _ => True

end Step

structure Ctx where
  held : PageId → Option Hold
  opened : List PageId

namespace Ctx

def idle : Ctx := ⟨fun _ => none, []⟩

def after (c : Ctx) (x : Step) : Ctx :=
  ⟨Function.update c.held x.page (x.holdAfter (c.held x.page)), x.openedAfter c.opened⟩

def allows (c : Ctx) (x : Step) : Prop :=
  x.allowed (c.held x.page) ∧ (c.held x.page ≠ none → x.mayRelease c.opened)

end Ctx

/-- The steps are all in order from the context on, and the context they end in
satisfies the postcondition. -/
def Plays : List Step → (Ctx → Prop) → Ctx → Prop
  | [], post, c => post c
  | x :: rest, post, c => x.possible (c.held x.page) → c.allows x ∧ Plays rest post (c.after x)

theorem plays_append {a b : List Step} {post : Ctx → Prop} {c : Ctx} :
    Plays (a ++ b) post c ↔ Plays a (Plays b post) c := by
  induction a generalizing c with
  | nil => rfl
  | cons x a ih => simp only [List.cons_append, Plays, ih]

theorem Plays.imp {prog : List Step} {post post' : Ctx → Prop} {c : Ctx} (h : Plays prog post c)
    (weaker : ∀ c, post c → post' c) : Plays prog post' c := by
  induction prog generalizing c with
  | nil => exact weaker c h
  | cons x rest ih => exact fun poss => ⟨(h poss).1, ih (h poss).2⟩

/- One page. -/

/-- Nothing is in progress: a logged page has its LSN, and a clean frame is what the
disk has. -/
def Cell.Settled (c : Cell) (logged : Prop) : Prop :=
  (logged → c.slot.stamped = true) ∧ (c.slot.dirty = false → c.disk = c.slot.stamped)

def Hold.Means (c : Cell) (logged : Prop) : Hold → Prop
  | taken => c.Settled logged
  | pending => c.slot.dirty = true
  | raw => True
  | sealed => c.slot.stamped = true ∧ c.slot.dirty = true

def Fits (t : TxId) (c : Cell) (logged : Prop) : Option Hold → Prop
  | none => c.exclusive ≠ some t
  | some h => c.exclusive = some t ∧ h.Means c logged

theorem Fits.named {t : TxId} {c : Cell} {logged logged' : Prop} {h : Option Hold}
    (f : Fits t c logged h) (held : h ≠ none ∧ h ≠ some .taken) : Fits t c logged' h := by
  obtain ⟨h, rfl⟩ := Option.ne_none_iff_exists'.mp held.1
  cases h with
  | taken => exact absurd rfl held.2
  | pending => exact f
  | raw => exact f
  | sealed => exact f

theorem Fits.stamped {t : TxId} {c : Cell} {logged logged' : Prop} {h : Option Hold}
    (f : Fits t c logged h) (marked : h = some .pending ∨ h = some .sealed) :
    Fits t (c.setStamped true) logged' (some .sealed) := by
  rcases marked with rfl | rfl
  · exact ⟨f.1, rfl, f.2⟩
  · exact ⟨f.1, rfl, f.2.2⟩

structure Cell.Ok (c : Cell) (logged : Prop) : Prop where
  settled : c.exclusive = none → c.Settled logged
  writing : .latched ∈ c.writeBacks ∨ .enforced ∈ c.writeBacks → c.exclusive = none

structure Cell.Alike (c c' : Cell) : Prop where
  exclusive : c'.exclusive = c.exclusive
  slot : c'.slot = c.slot
  disk : c'.disk = c.disk

namespace Cell

variable {c c' : Cell} {t u : TxId} {x : Step} {h : Option Hold} {logged : Prop}

@[simp] theorem slot_setStamped (c : Cell) (b : Bool) : (c.setStamped b).slot = ⟨b, c.slot.dirty⟩ := rfl

@[simp] theorem slot_setDirty (c : Cell) (b : Bool) : (c.setDirty b).slot = ⟨c.slot.stamped, b⟩ := rfl

theorem Alike.refl (c : Cell) : Alike c c := ⟨rfl, rfl, rfl⟩

theorem Alike.settled (same : Alike c c') (s : c.Settled logged) : c'.Settled logged := by
  unfold Settled at s ⊢
  rw [same.slot, same.disk]
  exact s

theorem Alike.fits (same : Alike c c') (f : Fits t c logged h) : Fits t c' logged h := by
  cases h with
  | none => exact fun e => f (same.exclusive ▸ e)
  | some h =>
    refine ⟨same.exclusive.trans f.1, ?_⟩
    have means := f.2
    cases h <;> simp only [Hold.Means, Settled, same.slot, same.disk] at means ⊢ <;> exact means

theorem Ok.idle_of_free (free : c.latchFree = true) :
    c.exclusive = none ∧ ¬ (.latched ∈ c.writeBacks ∨ .enforced ∈ c.writeBacks) := by
  simp only [latchFree, decide_eq_true_eq] at free
  exact ⟨free.1, fun w => w.elim free.2.2.1 free.2.2.2⟩

theorem fits_advance (f : Fits t c logged h) (ok : c.Ok logged) (poss : x.possible h)
    (allow : x.allowed h) (run : c.advance t x = some c') :
    Fits t c' (logged ∨ x.entries t ≠ []) (x.holdAfter h) := by
  cases x with
  | latch p mode =>
    cases mode with
    | shared =>
      simp only [advance, Option.ite_none_right_eq_some, Option.some.injEq] at run
      obtain ⟨free, rfl⟩ := run
      simp only [Step.holdAfter, Step.entries, ne_eq, not_true, or_false]
      exact Alike.fits ⟨rfl, rfl, rfl⟩ f
    | exclusive =>
      simp only [advance, Option.ite_none_right_eq_some, Option.some.injEq] at run
      obtain ⟨free, rfl⟩ := run
      have settled := ok.settled (Ok.idle_of_free free).1
      refine ⟨rfl, ?_⟩
      simpa [Hold.Means, Step.entries, Settled, slot] using settled
  | newPage p =>
    simp only [advance, Option.ite_none_right_eq_some, Option.some.injEq] at run
    obtain ⟨free, rfl⟩ := run
    exact ⟨rfl, trivial⟩
  | init p =>
    cases run
    obtain ⟨h, rfl⟩ := Option.ne_none_iff_exists'.mp allow
    exact ⟨f.1, trivial⟩
  | logEvent p e =>
    cases run
    exact f.named allow
  | logDelta p e =>
    cases run
    exact f.named allow
  | stamp p =>
    cases run
    exact f.stamped allow
  | logImage p e =>
    cases run
    exact f.stamped allow
  | markDirty p =>
    cases run
    obtain ⟨h, rfl⟩ := Option.ne_none_iff_exists'.mp allow
    exact ⟨f.1, rfl⟩
  | drop p =>
    cases run
    by_cases mine : c.exclusive = some t
    · simp [mine, Step.holdAfter, Fits]
    · simp [mine, Step.holdAfter, Fits]

/-- What a step does to the latch of its page: the holder goes on or lets go, a free
latch is taken, or the step is a reader's. -/
inductive Turn (t : TxId) (h : Option Hold) (names : Prop) (c c' : Cell) : Prop where
  | goesOn (mine : c.exclusive = some t) (still : c'.exclusive = some t)
      (wb : c'.writeBacks = c.writeBacks)
  | letsGo (mine : c.exclusive = some t) (rest : c' = { c with exclusive := none })
      (done : h = some .taken ∨ h = some .sealed) (silent : ¬ names)
  | takes (free : c.latchFree = true) (mine : c'.exclusive = some t)
      (wb : c'.writeBacks = c.writeBacks) (silent : ¬ names)
  | reads (other : c.exclusive ≠ some t) (same : Alike c c')
      (wb : c'.writeBacks = c.writeBacks) (silent : ¬ names)

theorem turn_of_advance (f : Fits t c logged h) (allow : x.allowed h)
    (run : c.advance t x = some c') : Turn t h (x.entries t ≠ []) c c' := by
  have held : h ≠ none → c.exclusive = some t := by
    intro ne
    obtain ⟨h, rfl⟩ := Option.ne_none_iff_exists'.mp ne
    exact f.1
  have marked : h = some .pending ∨ h = some .sealed → c.exclusive = some t := by
    rintro (rfl | rfl) <;> exact f.1
  cases x with
  | latch p mode =>
    cases mode with
    | shared =>
      simp only [advance, Option.ite_none_right_eq_some, Option.some.injEq] at run
      obtain ⟨free, rfl⟩ := run
      exact .reads (by simp [free]) ⟨rfl, rfl, rfl⟩ rfl (by simp [Step.entries])
    | exclusive =>
      simp only [advance, Option.ite_none_right_eq_some, Option.some.injEq] at run
      obtain ⟨free, rfl⟩ := run
      exact .takes free rfl rfl (by simp [Step.entries])
  | newPage p =>
    simp only [advance, Option.ite_none_right_eq_some, Option.some.injEq] at run
    obtain ⟨free, rfl⟩ := run
    exact .takes free rfl rfl (by simp [Step.entries])
  | init p =>
    cases run
    exact .goesOn (held allow) (held allow) rfl
  | logEvent p e =>
    cases run
    exact .goesOn (held allow.1) (held allow.1) rfl
  | logDelta p e =>
    cases run
    exact .goesOn (held allow.1) (held allow.1) rfl
  | stamp p =>
    cases run
    exact .goesOn (marked allow) (marked allow) rfl
  | logImage p e =>
    cases run
    exact .goesOn (marked allow) (marked allow) rfl
  | markDirty p =>
    cases run
    exact .goesOn (held allow) (held allow) rfl
  | drop p =>
    cases run
    by_cases mine : c.exclusive = some t
    · rw [if_pos mine]
      refine .letsGo mine rfl ?_ (by simp [Step.entries])
      rcases allow with rfl | done
      · exact absurd mine f
      · exact done
    · rw [if_neg mine]
      exact .reads mine ⟨rfl, rfl, rfl⟩ rfl (by simp [Step.entries])

theorem possible_of_advance (f : Fits t c logged h) (run : c.advance t x = some c') :
    x.possible h := by
  have unheld : c.latchFree = true → h = none := by
    intro free
    cases h with
    | none => rfl
    | some h =>
      have none := (Ok.idle_of_free free).1
      rw [f.1] at none
      cases none
  cases x with
  | latch p mode =>
    cases mode with
    | shared => trivial
    | exclusive =>
      simp only [advance, Option.ite_none_right_eq_some] at run
      exact unheld run.1
  | newPage p =>
    simp only [advance, Option.ite_none_right_eq_some] at run
    exact unheld run.1
  | _ => trivial

variable {names : Prop}

theorem Turn.mine (turn : Turn t h names c c') (n : names) : c.exclusive = some t := by
  cases turn with
  | goesOn mine still wb => exact mine
  | letsGo mine rest done silent => exact mine
  | takes free mine wb silent => exact absurd n silent
  | reads other same wb silent => exact absurd n silent

theorem Turn.writeBacks (turn : Turn t h names c c') : c'.writeBacks = c.writeBacks := by
  cases turn with
  | goesOn mine still wb => exact wb
  | letsGo mine rest done silent => rw [rest]
  | takes free mine wb silent => exact wb
  | reads other same wb silent => exact wb

theorem settled_of_done (f : Fits t c logged h) (done : h = some .taken ∨ h = some .sealed) :
    c.Settled logged := by
  rcases done with rfl | rfl
  · exact f.2
  · obtain ⟨stamped, dirty⟩ := f.2
    exact ⟨fun _ => stamped, fun clean => by simp [dirty] at clean⟩

theorem Turn.ok (turn : Turn t h names c c') (f : Fits t c logged h) (ok : c.Ok logged) :
    c'.Ok (logged ∨ names) := by
  cases turn with
  | goesOn mine still wb =>
    refine ⟨fun free => by simp [still] at free, fun w => ?_⟩
    have free := ok.writing (wb ▸ w)
    simp [mine] at free
  | letsGo mine rest done silent =>
    subst rest
    have settled := settled_of_done f done
    refine ⟨fun _ => ?_, fun _ => rfl⟩
    simp only [silent, or_false]
    exact settled
  | takes free mine wb silent =>
    exact ⟨fun none => by simp [mine] at none, fun w => absurd (wb ▸ w) (Ok.idle_of_free free).2⟩
  | reads other same wb silent =>
    refine ⟨fun none => ?_, fun w => same.exclusive.trans (ok.writing (wb ▸ w))⟩
    simpa [silent] using same.settled (ok.settled (same.exclusive ▸ none))

theorem Turn.fits_other (turn : Turn t h names c c') (ne : u ≠ t) {k : Option Hold}
    (f : Fits u c logged k) : Fits u c' (logged ∨ names) k := by
  have excl : c.exclusive = some t → ∀ {c'' : Cell}, (c''.exclusive = some t ∨ c''.exclusive = none) →
      Fits u c'' (logged ∨ names) k := by
    intro mine c'' after
    cases k with
    | none =>
      intro theirs
      rcases after with a | a <;> rw [a] at theirs
      · exact ne (Option.some.inj theirs).symm
      · cases theirs
    | some k => exact absurd (Option.some.inj (f.1.symm.trans mine)) ne
  cases turn with
  | goesOn mine still wb => exact excl mine (.inl still)
  | letsGo mine rest done silent => exact excl mine (.inr (by rw [rest]))
  | takes free mine wb silent =>
    cases k with
    | none => exact fun theirs => ne (Option.some.inj (theirs.symm.trans mine))
    | some k =>
      have none := (Ok.idle_of_free free).1
      rw [f.1] at none
      cases none
  | reads other same wb silent => simpa [silent] using same.fits f

end Cell

/- All operations together. -/

def Logged (log : List Entry) (p : PageId) : Prop := ∃ e ∈ log, e.page = some p

/-- The context is the operation's: its latches, its pages and its open group. -/
structure Tracks (s : PoolState) (t : TxId) (c : Ctx) : Prop where
  fits : ∀ p, Fits t (s.pages p) (Logged s.log p) (c.held p)
  opened : ∀ p ∈ openPages t s.log, p ∈ c.opened
  within : ∀ p ∈ c.opened, c.held p ≠ none

structure PoolState.Inv (s : PoolState) : Prop where
  ops : ∀ t, ∃ c, Tracks s t c ∧ Plays ((s.ops t).getD []) (· = Ctx.idle) c
  running : ∀ t, s.ops t ≠ none → t ∈ s.running
  cells : ∀ p, (s.pages p).Ok (Logged s.log p)
  covered : ∀ p, .enforced ∈ (s.pages p).writeBacks → Covered s p
  unshared : Unshared s.log
  durable : s.durable ≤ s.log.length

theorem Tracks.held {s : PoolState} {t : TxId} {c : Ctx} (tr : Tracks s t c) {p : PageId}
    (h : c.held p ≠ none) : (s.pages p).exclusive = some t := by
  obtain ⟨k, eq⟩ := Option.ne_none_iff_exists'.mp h
  have fits := tr.fits p
  rw [eq] at fits
  exact fits.1

section Covered

variable {s s' : PoolState} {p : PageId}

theorem Covered.flushed (h : Covered s p) (log : s'.log = s.log) (le : s.durable ≤ s'.durable) :
    Covered s' p := by
  intro i e here page
  rw [log] at here
  obtain ⟨lt, j, f, ij, jd, at_, same, ends⟩ := h i e here page
  exact ⟨lt.trans_le le, j, f, ij, jd.trans_le le, log ▸ at_, same, ends⟩

theorem Covered.appended (h : Covered s p) {es : List Entry} (log : s'.log = s.log ++ es)
    (durable : s'.durable = s.durable) (elsewhere : ∀ e ∈ es, e.page ≠ some p) : Covered s' p := by
  intro i e here page
  rw [log, List.getElem?_append] at here
  split at here
  · obtain ⟨lt, j, f, ij, jd, at_, same, ends⟩ := h i e here page
    refine ⟨durable ▸ lt, j, f, ij, durable ▸ jd, ?_, same, ends⟩
    rw [log, List.getElem?_append_left (List.getElem?_eq_some_iff.mp at_).1, at_]
  · exact absurd page (elsewhere e (List.mem_of_getElem? here))

end Covered

theorem logged_append {log es : List Entry} {p : PageId} :
    Logged (log ++ es) p ↔ Logged log p ∨ Logged es p := by
  simp [Logged, or_and_right, exists_or]

namespace PoolState

variable {s s' : PoolState} {t u : TxId} {p : PageId} {x : Step}

theorem Inv.owner (inv : s.Inv) (h : p ∈ openPages t s.log) : (s.pages p).exclusive = some t := by
  obtain ⟨c, tr, -⟩ := inv.ops t
  exact tr.held (tr.within p (tr.opened p h))

theorem Inv.closed (inv : s.Inv) (free : (s.pages p).exclusive = none) (t : TxId) :
    p ∉ openPages t s.log := by
  intro h
  have mine := inv.owner h
  rw [free] at mine
  cases mine

theorem logged_entries (x : Step) (t : TxId) (q : PageId) :
    Logged (x.entries t) q ↔ q = x.page ∧ x.entries t ≠ [] := by
  cases x <;> simp [Step.entries, Logged, Step.page, eq_comm]

theorem entries_page {e : Entry} (h : e ∈ x.entries t) : e.page = some x.page ∧ e.txid = t := by
  cases x <;> simp_all [Step.entries, Step.page]

theorem openPages_own (log : List Entry) (t : TxId) (x : Step) :
    openPages t (log ++ x.entries t) = x.openedAfter (openPages t log) := by
  cases x <;> simp [Step.entries, Step.openedAfter, openPages_append]

theorem openPages_other (log : List Entry) (x : Step) (ne : u ≠ t) :
    openPages u (log ++ x.entries t) = openPages u log := by
  cases x <;> simp [Step.entries, openPages_append, ne.symm]

theorem openedAfter_mono {a b : List PageId} (sub : ∀ p ∈ a, p ∈ b) :
    ∀ p ∈ x.openedAfter a, p ∈ x.openedAfter b := by
  cases x <;> grind [Step.openedAfter]

theorem mem_openedAfter {l : List PageId} (h : p ∈ x.openedAfter l) :
    p ∈ l ∨ p = x.page ∧ x.entries t ≠ [] := by
  cases x <;> grind [Step.openedAfter, Step.page, Step.entries]

theorem held_of_names {h : Option Hold} (allow : x.allowed h) (names : x.entries t ≠ []) :
    h ≠ none := by
  cases x with
  | logEvent p e => exact allow.1
  | logDelta p e => exact allow.1
  | logImage p e => rcases allow with rfl | rfl <;> simp
  | _ => exact absurd rfl names

theorem holdAfter_ne_none {h : Option Hold} {l : List PageId} (held : h ≠ none)
    (release : x.mayRelease l) (named : x.page ∈ l ∨ x.entries t ≠ []) : x.holdAfter h ≠ none := by
  cases x with
  | latch p mode => cases mode <;> simp [Step.holdAfter, held]
  | drop p => exact absurd (named.resolve_right (by simp [Step.entries])) release
  | _ => simp [Step.holdAfter, held]

theorem within_after {c : Ctx} (within : ∀ p ∈ c.opened, c.held p ≠ none) (allow : c.allows x) :
    ∀ p ∈ (c.after x).opened, (c.after x).held p ≠ none := by
  intro q h
  rcases mem_openedAfter (t := 0) h with named | ⟨rfl, names⟩
  · by_cases eq : q = x.page
    · subst eq
      have held := within x.page named
      simpa [Ctx.after] using holdAfter_ne_none (t := 0) held (allow.2 held) (.inl named)
    · simpa [Ctx.after, eq] using within q named
  · have held := held_of_names allow.1 names
    simpa [Ctx.after] using holdAfter_ne_none held (allow.2 held) (.inr names)

theorem advance_eq (run : s.advance t x = some s') : ∃ c, (s.pages x.page).advance t x = some c ∧
    s'.pages = Function.update s.pages x.page c ∧ s'.log = s.log ++ x.entries t ∧
    s'.ops = s.ops ∧ s'.running = s.running ∧ s'.durable = s.durable := by
  unfold advance at run
  split at run
  · obtain ⟨c, cell, rfl⟩ := Option.map_eq_some_iff.mp run
    exact ⟨c, cell, rfl, rfl, rfl, rfl, rfl⟩
  · cases run

theorem Inv.advance_own {c : Ctx} (inv : s.Inv) (tr : Tracks s t c)
    (poss : x.possible (c.held x.page)) (allow : c.allows x) (run : s.advance t x = some s') :
    Tracks s' t (c.after x) := by
  obtain ⟨cell, step, pages, log, -⟩ := advance_eq run
  refine ⟨fun p => ?_, fun p h => ?_, within_after tr.within allow⟩
  · rw [pages, log]
    by_cases eq : p = x.page
    · subst eq
      have fits := Cell.fits_advance (tr.fits x.page) (inv.cells x.page) poss allow.1 step
      simpa [Ctx.after, logged_append, logged_entries] using fits
    · simpa [Ctx.after, eq, logged_append, logged_entries] using tr.fits p
  · rw [log, openPages_own] at h
    exact openedAfter_mono tr.opened p h

theorem Inv.advance_rest {c : Ctx} (inv : s.Inv) (tr : Tracks s t c) (allow : c.allows x)
    (run : s.advance t x = some s') :
    (∀ u d, u ≠ t → Tracks s u d → Tracks s' u d) ∧
      (∀ p, (s'.pages p).Ok (Logged s'.log p)) ∧
      (∀ p, .enforced ∈ (s'.pages p).writeBacks → Covered s' p) ∧ Unshared s'.log := by
  obtain ⟨cell, step, pages, log, -, -, durable⟩ := advance_eq run
  have turn := Cell.turn_of_advance (tr.fits x.page) allow.1 step
  refine ⟨fun u d ne other => ⟨fun p => ?_, fun p h => ?_, other.within⟩, fun p => ?_,
    fun p h => ?_, ?_⟩
  · rw [pages, log]
    by_cases eq : p = x.page
    · subst eq
      simpa [logged_append, logged_entries] using turn.fits_other ne (other.fits x.page)
    · simpa [eq, logged_append, logged_entries] using other.fits p
  · rw [log, openPages_other _ _ ne] at h
    exact other.opened p h
  · rw [pages, log]
    by_cases eq : p = x.page
    · subst eq
      simpa [logged_append, logged_entries] using turn.ok (tr.fits x.page) (inv.cells x.page)
    · simpa [eq, logged_append, logged_entries] using inv.cells p
  · have before : .enforced ∈ (s.pages p).writeBacks := by
      rw [pages] at h
      by_cases eq : p = x.page
      · subst eq
        rw [Function.update_self, turn.writeBacks] at h
        exact h
      · rwa [Function.update_of_ne eq] at h
    refine (inv.covered p before).appended log durable fun e he page => ?_
    -- a named page is held by the operation, so no flusher has its latch
    obtain ⟨at_, -⟩ := entries_page he
    obtain rfl : x.page = p := Option.some.inj (at_.symm.trans page)
    have mine := turn.mine (List.ne_nil_of_mem he)
    rw [(inv.cells x.page).writing (.inr before)] at mine
    cases mine
  · rw [log]
    cases names : x.entries t with
    | nil => simpa using inv.unshared
    | cons e es =>
      have es_nil : es = [] := by cases x <;> simp_all [Step.entries]
      subst es_nil
      obtain ⟨at_, rfl⟩ := entries_page (x := x) (t := t) (e := e) (by simp [names])
      refine inv.unshared.append fun p u page isOpen => ?_
      obtain rfl : x.page = p := Option.some.inj (at_.symm.trans page)
      have mine := turn.mine (by simp [names])
      exact Option.some.inj (mine.symm.trans (inv.owner isOpen))

theorem Tracks.of_eq {c : Ctx} (tr : Tracks s t c) (pages : s'.pages = s.pages)
    (log : s'.log = s.log) : Tracks s' t c :=
  ⟨fun p => by rw [pages, log]; exact tr.fits p, fun p h => tr.opened p (log ▸ h), tr.within⟩

theorem Inv.stepped {rest : List Step} (inv : s.Inv) (op : s.ops t = some (x :: rest))
    (run : s.advance t x = some s') : (s'.setOp t (some rest)).Inv := by
  obtain ⟨c, tr, plays⟩ := inv.ops t
  obtain ⟨cell, step, pages, log, ops, running, durable⟩ := advance_eq run
  rw [op, Option.getD_some] at plays
  have poss : x.possible (c.held x.page) := Cell.possible_of_advance (tr.fits x.page) step
  obtain ⟨allow, plays⟩ := plays poss
  obtain ⟨others, cells, covered, unshared⟩ := inv.advance_rest tr allow run
  refine ⟨fun u => ?_, fun u h => ?_, cells, covered, unshared, ?_⟩
  · by_cases eq : u = t
    · subst eq
      exact ⟨c.after x, Tracks.of_eq (inv.advance_own tr poss allow run) rfl rfl,
        by simpa [setOp] using plays⟩
    · obtain ⟨d, trd, playsd⟩ := inv.ops u
      exact ⟨d, Tracks.of_eq (others u d eq trd) rfl rfl, by simpa [setOp, eq, ops] using playsd⟩
  · change u ∈ s'.running
    rw [running]
    refine inv.running u fun none => h ?_
    have ne : u ≠ t := by
      rintro rfl
      simp [op] at none
    simp [setOp, ne, ops, none]
  · change s'.durable ≤ s'.log.length
    rw [durable, log, List.length_append]
    exact inv.durable.trans (Nat.le_add_right _ _)

theorem Inv.celled (inv : s.Inv) (c : Cell) (state : s' = { s.setCell p c with durable := s'.durable })
    (excl : c.exclusive = (s.pages p).exclusive)
    (same : (s.pages p).exclusive = none ∨ (s.pages p).Alike c) (ok : c.Ok (Logged s.log p))
    (durable : s.durable ≤ s'.durable) (length : s'.durable ≤ s.log.length)
    (covered : .enforced ∈ c.writeBacks → Covered s' p) : s'.Inv := by
  have pages : s'.pages = Function.update s.pages p c := by rw [state]; rfl
  have log : s'.log = s.log := by rw [state]; rfl
  have ops : s'.ops = s.ops := by rw [state]; rfl
  have running : s'.running = s.running := by rw [state]; rfl
  refine ⟨fun t => ?_, fun t h => ?_, fun q => ?_, fun q h => ?_, log ▸ inv.unshared, log ▸ length⟩
  · obtain ⟨d, tr, plays⟩ := inv.ops t
    refine ⟨d, ⟨fun q => ?_, fun q h => tr.opened q (log ▸ h), tr.within⟩, ops ▸ plays⟩
    rw [pages, log]
    by_cases eq : q = p
    · subst eq
      rw [Function.update_self]
      rcases same with free | same
      · have fits := tr.fits q
        cases held : d.held q with
        | none => simp [Fits, excl, free]
        | some h =>
          rw [held] at fits
          have mine := fits.1
          rw [free] at mine
          cases mine
      · exact same.fits (tr.fits q)
    · rw [Function.update_of_ne eq]
      exact tr.fits q
  · rw [running]
    exact inv.running t (ops ▸ h)
  · rw [pages, log]
    by_cases eq : q = p
    · subst eq
      rwa [Function.update_self]
    · rw [Function.update_of_ne eq]
      exact inv.cells q
  · by_cases eq : q = p
    · subst eq
      rw [pages, Function.update_self] at h
      exact covered h
    · rw [pages, Function.update_of_ne eq] at h
      exact (inv.covered q h).flushed log durable

theorem Inv.started {prog : List Step} (inv : s.Inv) (free : s.ops t = none)
    (plays : Plays prog (· = Ctx.idle) Ctx.idle) :
    ({ s.setOp t (some prog) with running := t :: s.running } : PoolState).Inv := by
  refine ⟨fun u => ?_, fun u h => ?_, inv.cells, inv.covered, inv.unshared, inv.durable⟩
  · obtain ⟨c, tr, rest⟩ := inv.ops u
    refine ⟨c, Tracks.of_eq tr rfl rfl, ?_⟩
    by_cases eq : u = t
    · subst eq
      rw [free] at rest
      obtain rfl : c = Ctx.idle := rest
      simpa [setOp] using plays
    · simpa [setOp, eq] using rest
  · by_cases eq : u = t
    · simp [eq]
    · exact List.mem_cons_of_mem _ (inv.running u (by simpa [setOp, eq] using h))

theorem Inv.finished (inv : s.Inv) (op : s.ops t = some []) :
    ({ s.setOp t none with running := s.running.filter fun u => decide (u ≠ t) } : PoolState).Inv := by
  refine ⟨fun u => ?_, fun u h => ?_, inv.cells, inv.covered, inv.unshared, inv.durable⟩
  · obtain ⟨c, tr, rest⟩ := inv.ops u
    refine ⟨c, Tracks.of_eq tr rfl rfl, ?_⟩
    by_cases eq : u = t
    · subst eq
      rw [op] at rest
      simpa [setOp] using rest
    · simpa [setOp, eq] using rest
  · have ne : u ≠ t := by
      rintro rfl
      simp [setOp] at h
    simpa [ne] using inv.running u (by simpa [setOp, ne] using h)

theorem Inv.marked (inv : s.Inv) :
    ({ s with log := s.log ++ [⟨t, none, true⟩] } : PoolState).Inv := by
  have logged : ∀ p, Logged (s.log ++ [⟨t, none, true⟩]) p ↔ Logged s.log p := by
    intro p
    simp [Logged]
  refine ⟨fun u => ?_, inv.running, fun p => ?_, fun p h => ?_, ?_, ?_⟩
  · obtain ⟨c, tr, rest⟩ := inv.ops u
    refine ⟨c, ⟨fun p => ?_, fun p h => tr.opened p ?_, tr.within⟩, rest⟩
    · simpa only [logged] using tr.fits p
    · rw [openPages_append] at h
      split at h
      · simp at h
      · exact h
  · simpa only [logged] using inv.cells p
  · exact (inv.covered p h).appended rfl rfl (by simp)
  · exact inv.unshared.append (by simp)
  · exact inv.durable.trans (by simp)

theorem Inv.flushed (inv : s.Inv) : ({ s with durable := s.log.length } : PoolState).Inv := by
  refine ⟨fun u => ?_, inv.running, inv.cells, fun p h => ?_, inv.unshared, le_rfl⟩
  · obtain ⟨c, tr, rest⟩ := inv.ops u
    exact ⟨c, Tracks.of_eq tr rfl rfl, rest⟩
  · exact (inv.covered p h).flushed rfl inv.durable

theorem Inv.truncated (inv : s.Inv) (quiet : s.running = []) :
    ({ s with log := [], durable := 0 } : PoolState).Inv := by
  have idle : ∀ t, s.ops t = none := by
    intro t
    by_contra h
    simpa [quiet] using inv.running t h
  have unlogged : ∀ p, ¬ Logged [] p := by simp [Logged]
  refine ⟨fun t => ?_, inv.running, fun p => ?_, fun p _ i e here => ?_, ?_, le_rfl⟩
  · obtain ⟨c, tr, rest⟩ := inv.ops t
    rw [idle t] at rest
    obtain rfl : c = Ctx.idle := rest
    refine ⟨Ctx.idle, ⟨fun p => tr.fits p, fun p h => ?_, tr.within⟩, ?_⟩
    · simp [openPages] at h
    · simp [idle t, Plays]
  · have ok := inv.cells p
    exact ⟨fun free => ⟨fun h => absurd h (unlogged p), (ok.settled free).2⟩, ok.writing⟩
  · simp at here
  · intro i k a b p _ here
    simp at here

theorem Inv.covered_enforce (inv : s.Inv) (latched : .latched ∈ (s.pages p).writeBacks) :
    Covered (s.enforce p) p := by
  have free := (inv.cells p).writing (.inl latched)
  intro i e here page
  have logged : Logged s.log p := ⟨e, List.mem_of_getElem? here, page⟩
  have stamped := ((inv.cells p).settled free).1 logged
  obtain ⟨j, f, le, at_, same, ends⟩ := ended_of_closed here page (inv.closed free e.txid)
  have all : (s.enforce p).durable = s.log.length := by simp [enforce, stamped]
  rw [all]
  exact ⟨(List.getElem?_eq_some_iff.mp here).1, j, f, le, (List.getElem?_eq_some_iff.mp at_).1, at_,
    same, ends⟩

theorem mem_move {c : Cell} {a b w : WriteBack} (h : w ∈ (c.move a b).writeBacks) :
    w = b ∨ w ∈ c.writeBacks := by
  rcases List.mem_cons.mp h with rfl | h
  · exact .inl rfl
  · exact .inr (List.mem_of_mem_erase h)

theorem Inv.looked (inv : s.Inv) : (s.setCell p
    { s.pages p with writeBacks := .seen :: (s.pages p).writeBacks }).Inv := by
  have ok := inv.cells p
  refine inv.celled { s.pages p with writeBacks := .seen :: (s.pages p).writeBacks } rfl rfl
    (.inr ⟨rfl, rfl, rfl⟩) ⟨ok.settled, fun w => ok.writing ?_⟩ le_rfl inv.durable fun h => ?_
  · simpa using w
  · exact (inv.covered p (by simpa using h)).flushed rfl le_rfl

theorem Inv.grabbed (inv : s.Inv) (free : (s.pages p).exclusive = none) :
    (s.setCell p ((s.pages p).move .seen .latched)).Inv := by
  refine inv.celled ((s.pages p).move .seen .latched) rfl rfl (.inl free)
    ⟨(inv.cells p).settled, fun _ => free⟩ le_rfl inv.durable fun h => ?_
  rcases mem_move h with bad | old
  · cases bad
  · exact (inv.covered p old).flushed rfl le_rfl

theorem Inv.enforced (inv : s.Inv) (latched : .latched ∈ (s.pages p).writeBacks) :
    (s.enforce p).Inv := by
  have free := (inv.cells p).writing (.inl latched)
  refine inv.celled ((s.pages p).move .latched .enforced) rfl rfl (.inl free)
    ⟨(inv.cells p).settled, fun _ => free⟩ ?_ ?_ fun _ => inv.covered_enforce latched
  · simp only [enforce]
    split
    · exact inv.durable
    · exact le_rfl
  · simp only [enforce]
    split
    · exact le_rfl
    · exact inv.durable

theorem Inv.written (inv : s.Inv) (ready : .enforced ∈ (s.pages p).writeBacks) :
    (s.setCell p (s.pages p).writeOut).Inv := by
  have ok := inv.cells p
  have free := ok.writing (.inr ready)
  refine inv.celled (s.pages p).writeOut rfl rfl (.inl free)
    ⟨fun _ => ⟨fun h => ?_, fun _ => rfl⟩, fun _ => free⟩ le_rfl inv.durable fun h => ?_
  · exact (ok.settled free).1 h
  · exact (inv.covered p ready).flushed rfl le_rfl

theorem Inv.evicted (inv : s.Inv) (clean : (s.pages p).slot.dirty = false)
    (unpinned : (s.pages p).pinned = false) :
    (s.setCell p { s.pages p with frame := none }).Inv := by
  have ok := inv.cells p
  obtain ⟨free, -, unwritten⟩ : (s.pages p).exclusive = none ∧ (s.pages p).shared = [] ∧
      (s.pages p).writeBacks = [] := by simpa [Cell.pinned] using unpinned
  obtain ⟨stamped, disk⟩ := ok.settled free
  refine inv.celled { s.pages p with frame := none } rfl rfl (.inl free)
    ⟨fun _ => ⟨fun h => ?_, fun _ => rfl⟩, fun _ => free⟩ le_rfl inv.durable fun h => ?_
  · exact (disk clean).trans (stamped h)
  · simp [unwritten] at h

theorem next_inv {ω : Type} {steps : ω → List Step}
    (orderly : ∀ o, Plays (steps o) (· = Ctx.idle) Ctx.idle) {e : PoolEvent ω} (inv : s.Inv)
    (run : s.next steps e = some s') : s'.Inv := by
  cases e with
  | start t o =>
    simp only [next, Option.ite_none_right_eq_some, Option.some.injEq] at run
    obtain ⟨free, rfl⟩ := run
    exact inv.started free (orderly o)
  | step t =>
    simp only [next] at run
    cases op : s.ops t with
    | none => simp [op] at run
    | some prog =>
      cases prog with
      | nil =>
        simp only [op, Option.some.injEq] at run
        exact run ▸ inv.finished op
      | cons x rest =>
        simp only [op] at run
        obtain ⟨s₁, step, rfl⟩ := Option.map_eq_some_iff.mp run
        exact inv.stepped op step
  | marker t =>
    simp only [next, Option.ite_none_right_eq_some, Option.some.injEq] at run
    exact run.2 ▸ inv.marked
  | look p =>
    simp only [next, Option.ite_none_right_eq_some, Option.some.injEq] at run
    exact run.2 ▸ inv.looked
  | grab p =>
    simp only [next, Option.ite_none_right_eq_some, Option.some.injEq] at run
    exact run.2 ▸ inv.grabbed run.1.2
  | enforceWalRule p =>
    simp only [next, Option.ite_none_right_eq_some, Option.some.injEq] at run
    exact run.2 ▸ inv.enforced run.1
  | writePage p =>
    simp only [next, Option.ite_none_right_eq_some, Option.some.injEq] at run
    exact run.2 ▸ inv.written run.1
  | evict p =>
    simp only [next, Option.ite_none_left_eq_some, not_or, Bool.not_eq_true, Option.some.injEq] at run
    exact run.2 ▸ inv.evicted run.1.1 run.1.2
  | flush =>
    simp only [next, Option.some.injEq] at run
    exact run ▸ inv.flushed
  | truncate =>
    simp only [next, Option.ite_none_right_eq_some, Option.some.injEq] at run
    exact run.2 ▸ inv.truncated run.1

theorem ofDisk_inv (disk : PageId → Bool) (numPages : PageId) : (ofDisk disk numPages).Inv := by
  refine ⟨fun t => ⟨Ctx.idle, ⟨fun p => ?_, fun p h => ?_, fun p h => ?_⟩, rfl⟩, fun t h => absurd rfl h,
    fun p => ⟨fun _ => ⟨fun h => ?_, fun _ => rfl⟩, fun _ => rfl⟩, fun p h => ?_, ?_, le_rfl⟩
  · simp [ofDisk, Cell.ofDisk, Ctx.idle, Fits]
  · simp [ofDisk, openPages] at h
  · simp [Ctx.idle] at h
  · simp [ofDisk, Logged] at h
  · simp [ofDisk, Cell.ofDisk] at h
  · intro i k a b p _ here
    simp [ofDisk] at here

end PoolState

end PagerDB

import PagerDB.BTree.LatchOrder
import PagerDB.Storage.FrameBooks

/-! A Put alone at its work, with the guards it has from the buffer pool. It holds its path, the
sibling and the new pages of a split, which is at most two pages a level and two more; it never asks
for a page it holds, so a pool with that many frames always has one for it. -/
namespace PagerDB.Crab

open SortedLib Store MachineLib

def asked : LatchMode → Buffer.LatchMode
  | .shared => .kShared
  | .exclusive => .kExclusive

/-- What a step takes from the pool before it goes on. -/
inductive Take where
  | nothing
  | fetch (p : PageId) (mode : Buffer.LatchMode)
  | newPage

namespace Take

def pages (s : Store) : Take → List PageId
  | nothing => []
  | fetch p _ => [p]
  | newPage => [s.metaPage.numPages]

def allots : Take → Nat
  | newPage => 1
  | _ => 0

end Take

/-- `SplitLeaf`, `SplitInternal`, `CreateNewRoot` and the first record call `NewPage`. -/
def Op.take (op : Op) (s : Store) (pc : Pc) : Take :=
  match pc with
  | .slowRooted => if s.metaPage.rootPageId = kInvalidPageId then .newPage else .nothing
  | .held _ leaf =>
    match op with
    | .put key value txid wantBefore =>
      match putHeldLeaf key value txid wantBefore leaf s with
      | .ok r _ => if r.absorbed then .nothing else .newPage
      | .error .. => .nothing
    | _ => .nothing
  | .climb _ [] .. => .newPage
  | .climb _ (parent :: _) key left right =>
    if ((s.view parent).insertInternalAfterSplit key left right).1 then .nothing else .newPage
  | pc =>
    match need op s pc with
    | .page p mode => .fetch p (asked mode)
    | _ => .nothing

def Pc.pins : Pc → List PageId
  | crab _ node => [node]
  | pc => pc.exclusives

/-- The call, before and after it takes what its next step needs, or back at its caller. Guards are
named by their pages. -/
inductive Solo where
  | wants (σ : State) (pool : Buffer.Pool)
  | has (σ : State) (pool : Buffer.Pool)
  | returned (answer : Answer) (pool : Buffer.Pool)
  | refused (e : Status) (pool : Buffer.Pool)
  /-- Anything else failed. -/
  | failed (pool : Buffer.Pool)

inductive Turn where
  | take (io : Buffer.Faults)
  | act
  | evict (pid : PageId)

namespace Solo

def pool : Solo → Buffer.Pool
  | wants _ pool | has _ pool | returned _ pool | refused _ pool | failed pool => pool

def ended : Solo → Bool
  | returned .. | refused .. | failed _ => true
  | _ => false

def seated (σ : State) : Except Status Buffer.Guard × Buffer.Pool → Solo
  | (.ok g, pool) => .has σ (pool.assign g.pageId g)
  | (.error e, pool) => .refused e (pool.keep [])

def next : Solo → Turn → Option Solo
  | wants σ pool, .take io =>
    match (σ.task 0).op.take σ.store (σ.task 0).pc with
    | .nothing => some (.has σ pool)
    | .fetch p mode => (pool.fetchPageInternal p mode io).map (seated σ)
    | .newPage => (pool.newPage io).map (seated σ)
  | wants σ pool, .evict pid => (σ.step (.evict pid)).map (wants · pool)
  | has σ pool, .act =>
    match σ.step (.step 0) with
    | none => some (.failed (pool.keep []))
    | some σ' =>
      match (σ'.task 0).pc with
      | .done answer => some (.returned answer (pool.keep []))
      | pc => some (.wants σ' (pool.keep pc.pins))
  | _, _ => none

end Solo

/-- The levels from the root to the leaves. -/
def Deep (s : Store) (d : Nat) : Prop :=
  s.metaPage.rootPageId = kInvalidPageId ∧ d = 0 ∨ ∃ h, Tree s h ∧ d = h + 1

structure Solo.Fits (n d : Nat) (δ : Solo) : Prop where
  budget : (δ.pool.pinned n).length ≤ 2 * d + 2
  once : ∀ σ pool p mode, δ = .wants σ pool → (σ.task 0).op.take σ.store (σ.task 0).pc = .fetch p mode →
    ∀ x g, (x, g) ∈ pool.guards → g.pageId ≠ p
  unblocked : ∀ σ pool io, δ = .wants σ pool → (δ.next (.take io)).isSome
  found : 2 * d + 2 ≤ n → ∀ e pool, δ.next (.take .none) = some (.refused e pool) → e.code ≠ .busy
  released : δ.ended = true → δ.pool.pinned n = []

variable {σ : State} {g : Ghost} {op : Op} {s s' : Store} {pc pc' : Pc} {point : Bool} {d h n : Nat}
    {p : PageId}
  {key : Bytes}

/- What a step takes. -/

theorem take_of_need {mode : LatchMode} (needs : need op s pc = .page p mode) :
    op.take s pc = .fetch p (asked mode) := by
  cases pc with
  | slowRooted | held | climb => cases needs
  | _ =>
    simp only [Op.take, needs]

theorem Moves.take_fresh (m : Moves op s pc pc' point s') (fresh : pc'.fresh = some p) :
    op.take s pc = .newPage := by
  cases m with
  | split run full =>
    simp only [Op.take, run, full, Bool.false_eq_true, if_false]
  | tear full =>
    simp only [Op.take, full, Bool.false_eq_true, if_false]
  | _ => cases fresh

theorem Moves.take_allots (m : Moves op s pc pc' point s') : (op.take s pc).allots = pc.allots pc' := by
  cases m with
  | seed empty =>
    simp only [Op.take, empty, if_true]
    rfl
  | descend put some =>
    simp only [Op.take, some, if_false]
    rfl
  | absorb run done =>
    simp only [Op.take, run, done, if_true]
    rfl
  | split run full =>
    simp only [Op.take, run, full, Bool.false_eq_true, if_false]
    rfl
  | graft insert =>
    simp only [Op.take, insert, if_true]
    rfl
  | tear full =>
    simp only [Op.take, full, Bool.false_eq_true, if_false]
    rfl
  | root => rfl
  | _ =>
    simp only [Op.take]
    split <;> rfl

theorem mem_pins (op : Op) : p ∈ pc.pins ↔ (Task.mk op pc).pageMode p ≠ none := by
  cases pc with
  | crab => simp [Pc.pins, Task.pageMode]
  | _ => simp [Pc.pins, Task.pageMode]

theorem Moves.pins (m : Moves op s pc pc' point s')
    (fresh : ∀ p, pc'.fresh = some p → p = s.metaPage.numPages) :
    pc'.pins ⊆ pc.pins ++ (op.take s pc).pages s := by
  intro p mem
  have held := (mem_pins op).mp mem
  rcases m.pageLatch p with none | same | ⟨mode, needs, -⟩ | new
  · exact absurd none held
  · refine List.mem_append_left _ ((mem_pins op).mpr ?_)
    rwa [← same]
  · rw [take_of_need needs]
    exact List.mem_append_right _ List.mem_cons_self
  · rw [m.take_fresh new, fresh p new]
    exact List.mem_append_right _ List.mem_cons_self

/- The depth. -/

def Ghost.depth (g : Ghost) : Nat := if g.row = [] then 0 else g.height + 1

theorem Standing.depth (st : Standing g) : g.depth = g.height + 1 := if_neg st.row_ne_nil

theorem height_le {h' : Nat} (tree : Tree s h) (tree' : Tree s h') : h' ≤ h := by
  by_contra above
  have nodes := level_nodes tree'.inner (not_le.mp above)
  have some := List.exists_mem_of_ne_nil _ (leavesOf_ne_nil tree.inner (by simp [Store.top]))
  obtain ⟨l, mem⟩ := some
  obtain ⟨prev, next, recs, leaf⟩ := tree.row.isLeaf mem
  obtain ⟨r, es, node⟩ := nodes l mem
  cases leaf.symm.trans node

theorem Deep.depth (deep : Deep s d) (backed : Backed g s) (tree : g.Empty ∨ Standing g)
    (agree : s.bodies = g.bodies) : g.depth = d := by
  rcases tree with empty | st
  · have none : s.metaPage.rootPageId = kInvalidPageId := backed.root.trans empty.2.1
    rcases deep with ⟨-, rfl⟩ | ⟨h, tree, -⟩
    · exact if_pos empty.1
    · exact absurd none (tree.root_ne backed.sound)
  · rcases deep with ⟨none, -⟩ | ⟨h, tree, rfl⟩
    · exact absurd none (backed.root_ne st)
    · have tree' := (st.tree backed agree).1
      rw [st.depth, Nat.le_antisymm (height_le tree tree') (height_le tree' tree)]

/- No page twice. -/

theorem need_of_take {mode : Buffer.LatchMode} (take : op.take s pc = .fetch p mode) :
    ∃ mode', need op s pc = .page p mode' := by
  cases pc with
  | slowRooted =>
    simp only [Op.take] at take
    split at take <;> cases take
  | held =>
    simp only [Op.take] at take
    split at take
    · split at take
      · split at take <;> cases take
      · cases take
    · cases take
  | climb sp rest =>
    cases rest with
    | nil => cases take
    | cons =>
      simp only [Op.take] at take
      split at take <;> cases take
  | _ =>
    simp only [Op.take] at take
    split at take
    · rename_i q mode' needs
      obtain ⟨rfl, -⟩ := Take.fetch.inj take
      exact ⟨mode', needs⟩
    · cases take

theorem Inv.once {mode : Buffer.LatchMode} (inv : Inv σ g)
    (take : (σ.task 0).op.take σ.store (σ.task 0).pc = .fetch p mode) : p ∉ (σ.task 0).pc.pins := by
  intro mem
  obtain ⟨mode', needs⟩ := need_of_take take
  rcases inv.below needs ((mem_pins _).mp mem) with lt | relinking
  · exact lt_irrefl _ lt
  · refine (inv.relinked rfl relinking needs).2 ?_
    obtain ⟨sp, cut, at_⟩ := Pc.relinking_cases relinking
    rw [at_] at mem ⊢
    exact mem

/- The budget. -/

def Pc.Within (d : Nat) : Pc → Prop
  | path stack _ => stack.length + 1 ≤ d
  | held ancestors _ => ancestors.length + 1 = d
  | right sp _ | relink sp _ => sp.ancestors.length + 1 = d ∧ sp.opGuards = []
  | place sp _ => sp.ancestors.length + 1 = d ∧ sp.opGuards.length ≤ 1
  | climb sp rest .. => sp.ancestors.length + 1 = d ∧ sp.opGuards.length + rest.length ≤ d + 1
  | innerRight sp rest .. | innerPlace sp rest .. =>
    sp.ancestors.length + 1 = d ∧ sp.opGuards.length + rest.length ≤ d
  | unwind pages _ leaf _ => pages.length + leaf.length ≤ 2 * d + 1
  | _ => True

theorem Take.pages_length (take : Take) (s : Store) : (take.pages s).length ≤ 1 := by
  cases take <;> simp [Take.pages]

/-- The peak is the new root above a path that was split all the way up. -/
theorem Pc.Within.pins (within : pc.Within d) (op : Op) (s : Store) :
    (pc.pins ++ (op.take s pc).pages s).length ≤ 2 * d + 2 := by
  have one := (op.take s pc).pages_length s
  rw [List.length_append]
  cases pc with
  | path stack node | held stack node =>
    simp only [Pc.Within, Pc.pins, Pc.exclusives, List.length_cons] at within ⊢
    omega
  | right sp cut | relink sp cut =>
    obtain ⟨path, none⟩ := within
    simp only [Pc.pins, Pc.exclusives, Pc.guards, none, List.nil_append, List.length_cons, List.length_append,
      List.length_reverse, List.length_nil]
    omega
  | place sp cut | innerRight sp rest key left right parent cut | innerPlace sp rest key left right parent cut =>
    obtain ⟨path, some⟩ := within
    simp only [Pc.pins, Pc.exclusives, Pc.guards, List.length_cons, List.length_append, List.length_reverse,
      List.length_nil]
    omega
  | climb sp rest =>
    obtain ⟨path, some⟩ := within
    simp only [Pc.pins, Pc.exclusives, Pc.guards, List.length_cons, List.length_append, List.length_reverse,
      List.length_nil]
    omega
  | unwind pages root leaf =>
    simp only [Pc.Within, Pc.pins, Pc.exclusives, List.length_append] at within ⊢
    omega
  | _ =>
    simp only [Pc.pins, Pc.exclusives, List.length_cons, List.length_nil]
    omega

theorem Moves.within (m : Moves op s pc pc' point s') (within : pc.Within d)
    (path : ∀ stack node, pc' = .path stack node → stack.length + 1 ≤ d)
    (held : ∀ ancestors leaf, pc' = .held ancestors leaf → ancestors.length + 1 = d) : pc'.Within d := by
  cases m with
  | descend | down => exact path _ _ rfl
  | arrive => exact held _ _ rfl
  | absorb =>
    simp only [Pc.Within, List.length_reverse, List.length_cons, List.length_nil] at within ⊢
    omega
  | seed => exact Nat.zero_le _
  | split => exact ⟨within, rfl⟩
  | right => exact within
  | last => exact ⟨within.1, within.2 ▸ Nat.zero_le _⟩
  | relink => exact ⟨within.1, le_rfl⟩
  | place =>
    obtain ⟨path, sibling⟩ := within
    refine ⟨path, ?_⟩
    simp only [List.length_append, List.length_cons, List.length_nil]
    omega
  | root | graft =>
    obtain ⟨path, some⟩ := within
    simp only [Pc.Within, Pc.guards, List.length_append, List.length_reverse, List.length_cons,
      List.length_nil]
    omega
  | tear =>
    obtain ⟨path, some⟩ := within
    simp only [List.length_cons] at some
    exact ⟨path, by omega⟩
  | innerRight => exact within
  | innerPlace =>
    obtain ⟨path, some⟩ := within
    refine ⟨path, ?_⟩
    simp only [List.length_append, List.length_cons, List.length_nil]
    omega
  | drop =>
    simp only [Pc.Within, List.length_cons] at within ⊢
    omega
  | unbar => exact within
  | dropLeaf =>
    simp only [Pc.Within, List.length_cons] at within ⊢
    omega
  | _ => trivial

/- The call among the tree's states. -/

structure Alone (σ : State) (d : Nat) (g : Ghost) : Prop where
  inv : Inv σ g
  put : (σ.task 0).op.isPut = true
  depth : (σ.task 0).pc.answered = none → g.depth = d
  within : (σ.task 0).pc.Within d

theorem Alone.start {m : RefMap} (models : Models s m) (deep : Deep s d) (put : op.isPut = true) :
    ∃ g, Alone ((State.init s m).invoked op) d g := by
  obtain ⟨g, inv⟩ := Inv.init models
  have depth := deep.depth inv.grounded.backed inv.grounded.tree (inv.grounded.settled fun _ => rfl).1
  have next : (State.init s m).step (.invoke op) = some ((State.init s m).invoked op) := rfl
  obtain ⟨g', inv', grew⟩ := inv.step next
  obtain rfl := grew.calm rfl
  exact ⟨g', inv', put, fun _ => depth, trivial⟩

theorem Alone.evicted {σ' : State} {pid : PageId} (alone : Alone σ d g)
    (next : σ.step (.evict pid) = some σ') :
    Alone σ' d g ∧ σ'.task = σ.task ∧ σ'.store.metaPage = σ.store.metaPage := by
  obtain ⟨g', inv', grew⟩ := alone.inv.step next
  rcases State.step_cases next with ⟨op, no, -⟩ | ⟨i, s, pc, point, no, -⟩ | ⟨pid, s, -, evict, rfl⟩
  · cases no
  · cases no
  · obtain rfl := grew.calm rfl
    exact ⟨⟨inv', alone.put, alone.depth, alone.within⟩, rfl, (evict_same evict).metaPage⟩

theorem Alone.stepped {σ' : State} (alone : Alone σ d g) (next : σ.step (.step 0) = some σ') :
    (∃ g', Alone σ' d g') ∧
      (σ'.task 0).pc.pins ⊆ (σ.task 0).pc.pins ++ ((σ.task 0).op.take σ.store (σ.task 0).pc).pages σ.store ∧
      σ'.store.metaPage.numPages =
        σ.store.metaPage.numPages + ((σ.task 0).op.take σ.store (σ.task 0).pc).allots := by
  obtain ⟨g', inv', grew⟩ := alone.inv.step next
  rcases State.step_cases next with ⟨op, no, -⟩ | ⟨i, s, pc, point, eq, -, ready, m, rfl⟩ | ⟨pid, s, no, -⟩
  · cases no
  · cases eq
    obtain ⟨-, fresh, grows, -⟩ := advance alone.inv.grounded alone.inv.latches rfl ready m
    have new : ∀ p, pc.fresh = some p → p = σ.store.metaPage.numPages := by
      intro p taken
      have range := fresh p taken
      have one := m.take_allots
      rw [m.take_fresh taken] at one
      rw [grows, ← one] at range
      exact Nat.le_antisymm (Nat.le_of_lt_succ range.2) range.1
    have depth : pc.answered = none → g'.depth = d := by
      intro open_
      have shape := m.answered
      cases point with
      | true => exact absurd open_ shape.2.2
      | false =>
        obtain rfl := grew.calm rfl
        exact alone.depth (shape ▸ open_)
    have knows := inv'.grounded.knows 0
    have tall : ∀ some : g'.row ≠ [], pc.answered = none → g'.height + 1 = d := fun some open_ =>
      (inv'.grounded.standing some).depth.symm.trans (depth open_)
    rw [State.moved_self] at knows ⊢
    refine ⟨⟨g', inv', ?_, ?_, ?_⟩, m.pins new, ?_⟩
    · rw [State.moved_self]
      exact alone.put
    · rw [State.moved_self]
      exact depth
    · rw [State.moved_self]
      refine m.within alone.within ?_ ?_
      · rintro stack node rfl
        exact (Nat.succ_le_succ knows.2).trans_eq (tall knows.1.1 rfl)
      · rintro ancestors leaf rfl
        rw [knows.2]
        exact tall knows.1.1 rfl
    · rw [m.take_allots]
      exact grows
  · cases no

/- The call and its guards. -/

def Solo.Good (n d : Nat) : Solo → Prop
  | wants σ pool => (∃ g, Alone σ d g) ∧ Buffer.Seated n pool (σ.task 0).pc.pins ∧
      pool.numPages = σ.store.metaPage.numPages
  | has σ pool => (∃ g, Alone σ d g) ∧
      Buffer.Seated n pool ((σ.task 0).pc.pins ++ ((σ.task 0).op.take σ.store (σ.task 0).pc).pages σ.store) ∧
      pool.numPages = σ.store.metaPage.numPages + ((σ.task 0).op.take σ.store (σ.task 0).pc).allots
  | returned _ pool | refused _ pool | failed pool => Buffer.Seated n pool []

theorem Alone.asks {pool : Buffer.Pool} (alone : Alone σ d g)
    (seated : Buffer.Seated n pool (σ.task 0).pc.pins)
    (count : pool.numPages = σ.store.metaPage.numPages) (io : Buffer.Faults) :
    (σ.task 0).op.take σ.store (σ.task 0).pc = .nothing ∨
      ∃ p call, (Solo.wants σ pool).next (.take io) = call.map (Solo.seated σ) ∧
        Buffer.Answered n pool pool.owners io p (σ.store.metaPage.numPages +
          ((σ.task 0).op.take σ.store (σ.task 0).pc).allots) False call ∧
        ((σ.task 0).op.take σ.store (σ.task 0).pc).pages σ.store = [p] ∧ p ∉ (σ.task 0).pc.pins := by
  simp only [Solo.next]
  cases take : (σ.task 0).op.take σ.store (σ.task 0).pc with
  | nothing => exact .inl rfl
  | fetch p mode =>
    have once := alone.inv.once take
    have answered := Buffer.Books.fetch seated.books p mode io
    refine .inr ⟨p, pool.fetchPageInternal p mode io, rfl, ?_, rfl, once⟩
    rw [count] at answered
    generalize pool.fetchPageInternal p mode io = call at answered
    cases call with
    | some out =>
      obtain ⟨result, t⟩ := out
      cases result <;> exact answered
    | none =>
      obtain ⟨g, owner, same⟩ := answered
      exact seated.unheld once g owner same
  | newPage =>
    have answered := Buffer.Books.newPage seated.books io
    rw [count] at answered
    refine .inr ⟨σ.store.metaPage.numPages, pool.newPage io, rfl, answered, rfl, fun mem => ?_⟩
    exact lt_irrefl _ (alone.inv.latches.range 0 _ ((mem_pins _).mp mem))

theorem seated_good {pool : Buffer.Pool} {io : Buffer.Faults} {out : Except Status Buffer.Guard × Buffer.Pool}
    (alone : ∃ g, Alone σ d g) (seated : Buffer.Seated n pool (σ.task 0).pc.pins)
    (answered : Buffer.Answered n pool pool.owners io p (σ.store.metaPage.numPages +
      ((σ.task 0).op.take σ.store (σ.task 0).pc).allots) False (some out))
    (pages : ((σ.task 0).op.take σ.store (σ.task 0).pc).pages σ.store = [p]) (once : p ∉ (σ.task 0).pc.pins) :
    (Solo.seated σ out).Good n d := by
  obtain ⟨result, t⟩ := out
  cases result with
  | ok g =>
    obtain ⟨books, guards, rfl, count⟩ := answered
    obtain ⟨after, same⟩ := seated.assign books guards once
    refine ⟨alone, ?_, same.trans count⟩
    rw [pages]
    exact after
  | error e =>
    obtain ⟨books, guards, -⟩ := answered
    have left : Buffer.Seated n t (σ.task 0).pc.pins := by
      obtain ⟨-, named, once, held⟩ := seated
      rw [← guards] at named once held
      refine ⟨?_, named, once, held⟩
      rwa [Buffer.Balanced, Buffer.Pool.owners, guards]
    exact (left.keep (List.nil_subset _)).1

theorem Solo.Good.next {δ δ' : Solo} {turn : Turn} (good : δ.Good n d) (next : δ.next turn = some δ') :
    δ'.Good n d := by
  cases δ with
  | wants σ pool =>
    obtain ⟨⟨g, alone⟩, seated, count⟩ := good
    cases turn with
    | take io =>
      rcases alone.asks seated count io with none | ⟨p, call, eq, answered, pages, once⟩
      · simp only [Solo.next, none] at next
        cases next
        refine ⟨⟨g, alone⟩, ?_, ?_⟩
        · rw [none, Take.pages, List.append_nil]
          exact seated
        · rw [none]
          exact count
      · rw [eq] at next
        obtain ⟨out, rfl, rfl⟩ := Option.map_eq_some_iff.mp next
        exact seated_good ⟨g, alone⟩ seated answered pages once
    | evict pid =>
      obtain ⟨σ', step, rfl⟩ := Option.map_eq_some_iff.mp next
      obtain ⟨alone', task, page⟩ := alone.evicted step
      refine ⟨⟨g, alone'⟩, ?_, ?_⟩
      · rw [task]
        exact seated
      · rw [page]
        exact count
    | act => cases next
  | has σ pool =>
    obtain ⟨⟨g, alone⟩, seated, count⟩ := good
    cases turn with
    | act =>
      simp only [Solo.next] at next
      cases step : σ.step (.step 0) with
      | none =>
        rw [step] at next
        cases next
        exact (seated.keep (List.nil_subset _)).1
      | some σ' =>
        rw [step] at next
        obtain ⟨alone', pins, pages⟩ := alone.stepped step
        dsimp only at next
        split at next
        · cases next
          exact (seated.keep (List.nil_subset _)).1
        · cases next
          obtain ⟨kept, same⟩ := seated.keep pins
          exact ⟨alone', kept, (same.trans count).trans pages.symm⟩
    | take | evict => cases next
  | returned | refused | failed => cases next

theorem Solo.Good.fits {δ : Solo} (good : δ.Good n d) : δ.Fits n d := by
  cases δ with
  | wants σ pool =>
    obtain ⟨⟨g, alone⟩, seated, count⟩ := good
    have budget := alone.within.pins (σ.task 0).op σ.store
    rw [List.length_append] at budget
    constructor
    · have pinned := seated.pinned_le
      change (pool.pinned n).length ≤ _
      omega
    · rintro _ _ p mode ⟨⟩ take x h mem
      refine seated.unheld (alone.inv.once take) h ?_
      exact List.mem_map_of_mem (f := Prod.snd) mem
    · rintro _ _ io ⟨⟩
      rcases alone.asks seated count io with none | ⟨p, call, eq, answered, -⟩
      · simp only [Solo.next, none, Option.isSome_some]
      · rw [eq]
        cases call with
        | some out => rfl
        | none => exact answered.elim
    · intro room e pool' refused busy
      rcases alone.asks seated count .none with none | ⟨p, call, eq, answered, pages, -⟩
      · simp only [Solo.next, none] at refused
        cases refused
      · rw [eq] at refused
        obtain ⟨⟨result, t⟩, rfl, same⟩ := Option.map_eq_some_iff.mp refused
        cases result with
        | ok => cases same
        | error e' =>
          cases same
          have full := answered.2.2 rfl busy
          have held := seated.owners_le
          rw [pages] at budget
          simp only [List.length_cons, List.length_nil] at budget
          omega
    · exact nofun
  | has σ pool =>
    obtain ⟨⟨g, alone⟩, seated, -⟩ := good
    refine ⟨?_, nofun, nofun, nofun, nofun⟩
    exact seated.pinned_le.trans (alone.within.pins (σ.task 0).op σ.store)
  | returned answer pool | refused e pool | failed pool =>
    have none : pool.pinned n = [] := List.length_eq_zero_iff.mp (Nat.le_zero.mp good.pinned_le)
    refine ⟨?_, nofun, nofun, nofun, fun _ => none⟩
    change (pool.pinned n).length ≤ _
    simp [none]

variable {numFrames : Nat} {wal verifyChecksums : Bool} {disk : PageId → MemoryLib.Memory} {numPages : PageId}
  {left left' : Buffer.Left} {pool : Buffer.Pool}

/-- A Put into a tree of depth `d` pins at most `2 * d + 2` frames at a time and fetches no page it
holds; with
as many frames and no I/O error the pool is never busy for it; when it has returned nothing is pinned. The
pool is any that its calls lead to, on the tree's file and with no guard out. -/
theorem put_pin_budget {m : RefMap} (models : Models s m) (deep : Deep s d) (history : List Buffer.Event)
    (reached : run Buffer.step (.create numFrames wal verifyChecksums disk numPages, left) history =
      some (pool, left'))
    (rest : pool.guards = []) (file : pool.numPages = s.metaPage.numPages) (key value : Bytes) (txid : TxId)
    (wantBefore : Bool) (turns : List Turn) :
    EveryState Solo.next (Solo.Fits (Buffer.poolSize numFrames) d)
      (.wants ((State.init s m).invoked (.put key value txid wantBefore)) pool) turns := by
  have books := (Buffer.always_balanced left history).last reached
  have seated : Buffer.Seated (Buffer.poolSize numFrames) pool [] := by
    refine ⟨books, ?_, ?_, ?_⟩
    · rw [rest]
      nofun
    · rw [rest]
      exact List.nodup_nil
    · intro x
      rw [rest]
      exact Iff.rfl
  have start : Solo.Good (Buffer.poolSize numFrames) d
      (.wants ((State.init s m).invoked (.put key value txid wantBefore)) pool) :=
    ⟨Alone.start models deep rfl, seated, file⟩
  exact (everyState_invariant (fun _ _ _ good next => good.next next) start).imp fun _ good => good.fits

theorem deep_leaf {m : RefMap} (models : Models s m) (some : m ≠ fun _ => none)
    (leaf : (s.view s.metaPage.rootPageId).isLeaf = true) : Deep s 1 := by
  obtain ⟨entries, rep, agree⟩ := models
  rcases rep.tree with ⟨-, rfl⟩ | ⟨h, tree, -⟩
  · exact absurd (funext fun key => (agree key).symm) some
  · cases h with
    | zero => exact .inr ⟨0, tree, rfl⟩
    | succ h =>
      obtain ⟨r, es, node⟩ := tree.inner.1 _ List.mem_cons_self
      have body : (s.view s.metaPage.rootPageId).body = .internal r es := node
      simp [Page.isLeaf, body] at leaf

def twoRecords : List PagerDB.Event :=
  [.call (.put [1] (List.replicate 2000 7)) 1 false [], .call (.put [2] (List.replicate 2000 7)) 1 false []]

/-- The third record splits the root: a sibling and a new root, with two of the four frames at the most. -/
theorem put_pin_budget_split : ∃ s m, run treeStep
    (create ⟨80, by decide⟩ none, fun _ => none) twoRecords = some (s, m) ∧
    let start : Solo := .wants ((State.init s m).invoked (.put [3] (List.replicate 100 7) 1 true))
      (.create 1 false false (fun _ _ => 0) s.metaPage.numPages)
    let turns := (List.replicate 18 [Turn.take .none, Turn.act]).flatten
    (run Solo.next start turns).map (fun δ => (δ.ended, δ.pool.numPages)) =
      some (true, s.metaPage.numPages + 2) ∧
      EveryState Solo.next (Solo.Fits 4 1) start turns := by
  have decided : (run treeStep (create ⟨80, by decide⟩ none, fun _ => none) twoRecords).map (fun x =>
      ((x.1.view x.1.metaPage.rootPageId).isLeaf, (x.2 [1]).isSome, (run Solo.next
        (.wants ((State.init x.1 x.2).invoked (.put [3] (List.replicate 100 7) 1 true))
          (.create 1 false false (fun _ _ => 0) x.1.metaPage.numPages))
        (List.replicate 18 [Turn.take .none, Turn.act]).flatten).map (fun δ => (δ.ended, δ.pool.numPages)) ==
          some (true, x.1.metaPage.numPages + 2))) = some (true, true, true) := by
    decide +kernel
  obtain ⟨⟨s, m⟩, puts, eq⟩ := Option.map_eq_some_iff.mp decided
  simp only [Prod.mk.injEq, beq_iff_eq] at eq
  obtain ⟨leaf, holds, ended⟩ := eq
  have models : Models s m :=
    run_invariant (I := fun x : Store × RefMap => Models x.1 x.2) (fun _ _ _ models step =>
      treeStep_models models step)
      (create_models _ _) puts
  have deep : Deep s 1 := deep_leaf models (fun empty => by rw [empty] at holds; cases holds) leaf
  let pool : Buffer.Pool := .create 1 false false (fun _ _ => 0) s.metaPage.numPages
  let left : Buffer.Left := ⟨fun _ _ => 0, fun _ => false⟩
  have reached : run Buffer.step (pool, left) [] = some (pool, left) := rfl
  exact ⟨s, m, puts, ended, put_pin_budget models deep [] reached rfl rfl [3] _ 1 true _⟩

end PagerDB.Crab

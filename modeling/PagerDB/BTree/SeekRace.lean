import PagerDB.BTree.CursorWalk

/-! `Seek` beside other calls. It finds the leaf, computes the lower bound and copies the leaf under three
separate latches, and carries only a page id and an index from one to the next. -/
namespace PagerDB.Crab

open SortedLib Store MachineLib

/- The observer. -/

structure Survey where
  state : State
  /-- The keys present ever since the call came in. -/
  stable : Bytes → Bool

def Survey.init (s : Store) (m : RefMap) : Survey := ⟨.init s m, fun key => (m key).isSome⟩

def Survey.after (w : Survey) (i : Nat) (σ : State) : Survey :=
  ⟨σ, fun key => (decide (w.state.next ≤ i) || w.stable key) && σ.present key⟩

def survey (i : Nat) (w : Survey) (e : Event) : Option Survey := (w.state.step e).map (w.after i)

/-- The scan to `endKey` is over: the cursor is invalid or has come to a key that is not shown. -/
def Pc.scanned (endKey : Bytes) : Pc → Prop
  | .exhausted _ => True
  | .walk _ _ seen => ∃ r ∈ seen, endKey ≠ [] ∧ endKey ≤ r.1
  | _ => False

/-- What `Seek` and a scan behind it promise, for thread `i`. -/
structure SeekRight (w : Survey) (i : Nat) (start : Bytes) : Prop where
  /-- Where the cursor is positioned when it is returned. -/
  positioned : ∀ page index, (w.state.task i).pc = .walk page index [] → index < page.numSlots →
    start ≤ page.getKey index ∧ ∀ key, start ≤ key → w.stable key = true → page.getKey index ≤ key
  invalid : (w.state.task i).pc = .exhausted [] → ∀ key, start ≤ key → w.stable key = false
  inside : ∀ endKey callback, ∀ r ∈ shown endKey callback (w.state.task i).pc.seen,
    start ≤ r.1 ∧ (endKey ≠ [] → r.1 < endKey)
  whole : ∀ endKey, (w.state.task i).pc.scanned endKey → ∀ key, start ≤ key → (endKey ≠ [] → key < endKey) →
    w.stable key = true → key ∈ (shown endKey (fun _ _ => true) (w.state.task i).pc.seen).map Prod.fst

def SeeksRight (i : Nat) (w : Survey) : Prop :=
  ∀ start, (w.state.task i).op = .seek start → SeekRight w i start

/- What the other calls must leave alone. -/

def State.splitting (σ : State) : Bool := decide (∃ j < σ.next, (σ.task j).pc.splitting = true)

/-- `FindLeaf` would find this leaf now; asked while no Put is in the middle of a split. -/
def State.finds (σ : State) (start : Bytes) (leaf : PageId) : Bool :=
  σ.splitting ||
    match findLeaf start (σ.store.facing []) with
    | .ok found _ => found = leaf
    | .error .. => false

def Event.isStep (i : Nat) : Event → Bool
  | .step j => j = i
  | _ => false

/-- What the Seek of thread `i` carries still stands: its leaf, and when it copies that leaf its index. -/
def Stands (i : Nat) (w : Survey) (e : Event) : Prop :=
  match (w.state.task i).op, (w.state.task i).pc with
  | .seek start, .found leaf => w.state.finds start leaf = true
  | .seek start, .bounded leaf index => w.state.finds start leaf = true ∧
    (e.isStep i = true → index = (w.state.store.view leaf).lowerBound start)
  | _, _ => True

instance (i : Nat) (w : Survey) (e : Event) : Decidable (Stands i w e) := by
  unfold Stands
  split <;> infer_instance

variable {σ : State} {g : Ghost} {i : Nat} {leaf : PageId} {page : Page} {start : Bytes}
    {row row' : List Link}
  {recs : List (Bytes × Bytes)} {bound : Option Bytes} {w : Survey} {index : Nat} {seen : List
    (Bytes × Bytes)}

theorem Inv.finds (inv : Inv σ g) (some : g.row ≠ []) (still : ∀ j, (σ.task j).pc.splitting = false)
    (finds : σ.finds start leaf = true) : Reaches g.row start leaf := by
  have st := inv.grounded.standing some
  obtain ⟨agree, -⟩ := inv.grounded.settled still
  obtain ⟨tree, leaves⟩ := st.tree inv.grounded.backed agree
  have none : σ.splitting = false := by
    simp [State.splitting, still]
  rw [State.finds, none, Bool.false_or] at finds
  split at finds
  · rename_i found t run
    have tree' : Tree (σ.store.facing []) g.height :=
      ⟨tree.inner, tree.nodup, tree.range, tree.row, tree.accounted⟩
    obtain ⟨-, pre, x, post, loc, rfl⟩ := findLeaf_ok tree' run
    obtain rfl := of_decide_eq_true finds
    refine ⟨pre, x.1, post, ?_⟩
    rw [← leaves]
    exact loc
  · cases finds

theorem Reaches.copy (reaches : Reaches g.row start leaf) (st : Standing g) {m : RefMap}
    (entries : ∀ key, g.entries.lookup key = m key) (body : page.body = g.bodies leaf) :
    ∃ recs bound, Copy g.row page recs bound ∧ (∃ b, Shows m b recs bound ∧ b ≤ start) ∧
      ∀ u ∈ bound, start < u := by
  obtain ⟨pre, b, post, row, le, lt⟩ := reaches
  have mem : (b, leaf) ∈ g.row := by simp [row]
  obtain ⟨recs, bound, copy, shows⟩ := st.copy entries mem body
  refine ⟨recs, bound, copy, ⟨b, shows, le⟩, fun u hu => ?_⟩
  obtain ⟨-, right⟩ := copy
  cases hu
  -- the sibling's bound is above the leaf's, so it lies behind the leaf
  have after := (shows.upper u rfl).1
  rw [row] at right
  have asc := st.leaves.asc
  rw [row] at asc
  rcases List.mem_append.mp right with left | rest
  · exact absurd (asc_lt asc left (List.mem_cons_self ..)) after.asymm
  · rcases List.mem_cons.mp rest with here | right
    · cases here
      exact absurd after (lt_irrefl _)
    · exact lt _ right

theorem Shows.lowerBound {m : RefMap} {b : Bytes} {prev next : PageId} (shows : Shows m b recs bound)
    (body : page.body = .leaf prev next recs) (start : Bytes) :
    (∀ r ∈ recs.take (page.lowerBound start), r.1 < start) ∧
      ∀ r ∈ recs.drop (page.lowerBound start), start ≤ r.1 := by
  obtain ⟨lo, hi, rfl, below, above⟩ := ascending_cut shows.asc start
  have index : page.lowerBound start = lo.length := by
    rw [Page.lowerBound, Page.findKeyIndex_leaf body shows.asc below above]
  rw [index, List.take_left, List.drop_left]
  exact ⟨below, above⟩

/- The invariant. -/

def Survey.wants (w : Survey) (start key : Bytes) : Prop := start ≤ key ∧ w.stable key = true

def Seeks (row : List Link) (still : Prop) (w : Survey) (start : Bytes) : Pc → Prop
  | .found leaf | .bounded leaf _ => Reaches row start leaf ∨ still
  | .walk page index seen => ∃ recs bound copied,
    Walking row page (seen ++ recs.drop index) recs bound copied (w.wants start) ∧
      (∀ r ∈ seen ++ recs.drop index, start ≤ r.1) ∧ ∀ u ∈ bound, start < u
  | .exhausted seen => (seen.map Prod.fst).Pairwise (· < ·) ∧ (∀ r ∈ seen, start ≤ r.1) ∧
    ∀ key, w.wants start key → key ∈ seen.map Prod.fst
  | _ => True

section

variable {still : Prop} {w' : Survey} {pc before : Pc}

theorem Seeks.mono (seeks : Seeks row still w start pc)
    (less : ∀ key, w'.stable key = true → w.stable key = true) :
    Seeks row still w' start pc := by
  cases pc with
  | walk page index seen =>
    obtain ⟨recs, bound, copied, walking, inside, right⟩ := seeks
    exact ⟨recs, bound, copied, walking.mono fun key want => ⟨want.1, less key want.2⟩, inside, right⟩
  | exhausted seen =>
    obtain ⟨asc, inside, covers⟩ := seeks
    exact ⟨asc, inside, fun key want => covers key ⟨want.1, less key want.2⟩⟩
  | _ => exact seeks

theorem Seeks.grew {g' : Ghost} {τ : State} (seeks : Seeks g.row False w start pc) (grew : Grew g g' τ σ) :
    Seeks g'.row (∀ j, (σ.task j).pc.splitting = false) w start pc := by
  cases pc with
  | found leaf | bounded leaf =>
    rcases grew.still with eq | still
    · exact .inl (eq ▸ seeks.resolve_right id)
    · exact .inr still
  | walk page index seen =>
    obtain ⟨recs, bound, copied, walking, inside, right⟩ := seeks
    exact ⟨recs, bound, copied, walking.sublist grew.row, inside, right⟩
  | _ => exact seeks

theorem Seeks.stands {e : Event} (seeks : Seeks g.row (∀ j, (w.state.task j).pc.splitting = false) w start pc)
    (inv : Inv w.state g) (task : w.state.task i = ⟨.seek start, pc⟩) (stands : Stands i w e) :
    Seeks g.row False w start pc := by
  have knows := inv.grounded.knows i
  unfold Stands at stands
  rw [task] at knows stands
  cases pc with
  | found leaf =>
    obtain ⟨b, mem, -⟩ := knows
    exact .inl (seeks.elim id fun still => inv.finds (List.ne_nil_of_mem mem) still stands)
  | bounded leaf =>
    obtain ⟨b, mem, -⟩ := knows
    exact .inl (seeks.elim id fun still => inv.finds (List.ne_nil_of_mem mem) still stands.1)
  | _ => exact seeks

theorem Seeks.own {point : Bool} {s : Store} (seeks : Seeks g.row False w start before) (inv : Inv w.state g)
    (task : w.state.task i = ⟨.seek start, before⟩)
    (ready : w.state.available i (need (.seek start) w.state.store before) = true)
    (stands : Stands i w (.step i)) (m : Moves (.seek start) w.state.store before pc point s)
    (present : ∀ key, w'.stable key = true → (w.state.moved i s pc point).map key ≠ none)
    (less : ∀ key, w'.stable key = true → w.stable key = true) : Seeks g.row False w' start pc := by
  cases m with
  | barren empty =>
    refine ⟨List.Pairwise.nil, nofun, fun key want => ?_⟩
    exact absurd (inv.grounded.barren empty key) (present key want.2)
  | found isLeaf =>
    obtain ⟨-, -, ⟨-, reaches⟩ | ⟨inner, -⟩⟩ := Advanced.crab inv.grounded inv.latches task
    · exact .inl reaches
    · cases inner.symm.trans isLeaf
  | bound => exact .inl (seeks.resolve_right id)
  | @copy _ _ _ leaf index cursor same =>
    have reaches : Reaches g.row start leaf := seeks.resolve_right id
    have agree := inv.grounded.agree_free task inv.latches rfl ready
    have st : Standing g := by
      obtain ⟨pre, b, post, loc⟩ := reaches
      exact inv.grounded.standing (by simp [loc.eq])
    obtain ⟨recs, bound, copy, ⟨b, shows, le⟩, right⟩ :=
      reaches.copy st inv.grounded.entries ((congrFun same.bodies _).trans agree)
    unfold Stands at stands
    rw [task] at stands
    obtain rfl := stands.2 (decide_eq_true rfl)
    obtain ⟨prev, body⟩ := copy.leaf
    have body' : (w.state.store.view leaf).body = .leaf prev (s.view leaf).getNextLeaf recs :=
      (congrFun same.bodies leaf).symm.trans body
    obtain ⟨below, above⟩ := shows.lowerBound body' start
    refine ⟨recs, bound, w.state.map, shows.starts copy _ fun key want => ?_, above, right⟩
    refine ⟨le.trans want.1, present key want.2, fun passed => ?_⟩
    obtain ⟨r, hr, rfl⟩ := List.mem_map.mp passed
    exact absurd want.1 (not_le.mpr (below r hr))
  | @yield _ _ page index seen cursor more =>
    obtain ⟨recs, bound, copied, walking, inside, right⟩ := seeks
    have shown := walking.shown_yield more
    refine ⟨recs, bound, copied, ?_, ?_, right⟩
    · rw [shown]
      exact walking.mono fun key want => ⟨want.1, less key want.2⟩
    · rw [shown]
      exact inside
  | @exhaust _ _ page index seen cursor done last =>
    obtain ⟨recs, bound, copied, walking, inside, right⟩ := seeks
    have shown := walking.shown_spent done
    rw [shown] at walking inside
    obtain rfl : bound = none := walking.copy.none_of_last last fun u mem =>
      ((inv.grounded.backed.range _ (Ghost.row_ids mem)).2.trans_le inv.grounded.backed.sound.limit).ne
    refine ⟨walking.asc, inside, fun key want => ?_⟩
    exact (walking.covers key ⟨want.1, less key want.2⟩).resolve_right nofun
  | @hop _ _ _ page index seen cursor done next same =>
    obtain ⟨recs, bound, copied, walking, inside, right⟩ := seeks
    have shown := walking.shown_spent done
    rw [shown] at walking inside
    have waits : need (.seek start) w.state.store (.walk page index seen) = .page page.getNextLeaf .shared :=
      if_neg (not_or.mpr ⟨not_lt.mpr done, next⟩)
    rw [waits] at ready
    have agree := inv.grounded.agree_free task inv.latches rfl ready
    obtain ⟨u, rfl, mem⟩ := walking.copy.some_of_next next
    have st : Standing g := inv.grounded.standing (List.ne_nil_of_mem mem)
    obtain ⟨recs', bound', copy', shows⟩ := st.copy inv.grounded.entries mem
      ((congrFun same.bodies _).trans agree)
    have from_ : start < u := right u rfl
    refine ⟨recs', bound', w.state.map, shows.follows copy' walking.asc (walking.below u rfl) ?_, ?_, ?_⟩
    · rintro key ⟨le, stays⟩
      refine ⟨present key stays, (walking.covers key ⟨le, less key stays⟩).imp_right ?_⟩
      rintro ⟨v, hv, le⟩
      cases hv
      exact le
    · intro r hr
      rcases List.mem_append.mp hr with old | new
      · exact inside r old
      · exact from_.le.trans (shows.lower r new)
    · exact fun v hv => from_.trans (shows.upper v hv).1
  | _ => trivial

end

/- Runs. -/

structure Surveyed (w : Survey) (i : Nat) (g : Ghost) : Prop where
  inv : Inv w.state g
  present : ∀ key, w.stable key = true → w.state.map key ≠ none
  seeks : ∀ start, (w.state.task i).op = .seek start →
    Seeks g.row (∀ j, (w.state.task j).pc.splitting = false) w start (w.state.task i).pc

theorem Survey.after_present (key : Bytes) (stays : (w.after i σ).stable key = true) : σ.map key ≠ none :=
  Option.isSome_iff_ne_none.mp (Bool.and_eq_true .. ▸ stays).2

theorem Survey.after_less (called : i < w.state.next) (key : Bytes)
    (stays : (w.after i σ).stable key = true) :
    w.stable key = true := by
  have before := (Bool.and_eq_true .. ▸ stays).1
  rwa [decide_eq_false (not_le.mpr called), Bool.false_or] at before

theorem Surveyed.other {g' : Ghost} {e : Event} (sv : Surveyed w i g) (stands : Stands i w e) (inv : Inv σ g')
    (grew : Grew g g' w.state σ) (same : σ.task i = w.state.task i) : Surveyed (w.after i σ) i g' := by
  refine ⟨inv, Survey.after_present, fun start op => ?_⟩
  change (σ.task i).op = _ at op
  change Seeks _ _ _ _ (σ.task i).pc
  rw [same] at op ⊢
  by_cases called : i < w.state.next
  · have task : w.state.task i = ⟨.seek start, (w.state.task i).pc⟩ := by rw [← op]
    exact (((sv.seeks start op).stands sv.inv task stands).mono (Survey.after_less called)).grew grew
  · rw [sv.inv.latches.idle i (not_lt.mp called)]
    trivial

theorem Surveyed.step {w' : Survey} {e : Event} (sv : Surveyed w i g) (stands : Stands i w e)
    (next : survey i w e = some w') : ∃ g', Surveyed w' i g' := by
  obtain ⟨σ, step, rfl⟩ := Option.map_eq_some_iff.mp next
  obtain ⟨g', inv', grew⟩ := sv.inv.step step
  refine ⟨g', ?_⟩
  cases e with
  | invoke op =>
    cases step
    by_cases here : i = w.state.next
    · refine ⟨inv', Survey.after_present, fun start _ => ?_⟩
      change Seeks _ _ _ _ ((w.state.invoked op).task i).pc
      rw [here, State.invoked_self]
      trivial
    · exact sv.other stands inv' grew (State.invoked_other here)
  | evict pid =>
    simp only [State.step] at step
    split at step
    · obtain ⟨s, -, rfl⟩ := Option.map_eq_some_iff.mp step
      exact sv.other stands inv' grew rfl
    · cases step
  | step j =>
    simp only [State.step] at step
    split at step
    · rename_i ready
      split at step
      · rename_i pc point s run
        obtain rfl := Option.some.inj step
        by_cases own : j = i
        · subst own
          refine ⟨inv', Survey.after_present, fun start op => ?_⟩
          change ((w.state.moved j s pc point).task j).op = _ at op
          change Seeks _ _ _ _ ((w.state.moved j s pc point).task j).pc
          rw [State.moved_self] at op ⊢
          have task : w.state.task j = ⟨.seek start, (w.state.task j).pc⟩ := by rw [← op]
          have m := access_moves run
          have ready' := ready.2
          rw [op] at m ready'
          have seeks := (sv.seeks start op).stands sv.inv task stands
          exact (seeks.own sv.inv task ready' stands m Survey.after_present
            (Survey.after_less ready.1)).grew grew
        · exact sv.other stands inv' grew (State.moved_other (Ne.symm own))
      · cases step
    · cases step

/- What is shown. -/

theorem mem_shown {endKey : Bytes} {callback : Bytes → Bytes → Bool} {r : Bytes × Bytes}
    {seen : List (Bytes × Bytes)}
    (mem : r ∈ shown endKey callback seen) : r ∈ seen ∧ (endKey ≠ [] → r.1 < endKey) := by
  induction seen with
  | nil => cases mem
  | cons a rest ih =>
    rw [shown] at mem
    split at mem
    · cases mem
    · rename_i within
      have here : endKey ≠ [] → a.1 < endKey := fun some => not_le.mp fun le => within ⟨some, le⟩
      split at mem
      · rcases List.mem_cons.mp mem with rfl | mem
        · exact ⟨List.mem_cons_self .., here⟩
        · exact ⟨List.mem_cons_of_mem _ (ih mem).1, (ih mem).2⟩
      · obtain rfl := List.mem_singleton.mp mem
        exact ⟨List.mem_cons_self .., here⟩

theorem mem_shown_all {endKey key : Bytes} {seen : List (Bytes × Bytes)}
    (asc : (seen.map Prod.fst).Pairwise (· < ·))
    (mem : key ∈ seen.map Prod.fst) (within : endKey ≠ [] → key < endKey) :
    key ∈ (shown endKey (fun _ _ => true) seen).map Prod.fst := by
  rw [shown_all asc]
  obtain ⟨r, hr, rfl⟩ := List.mem_map.mp mem
  refine List.mem_map_of_mem (List.mem_filter.mpr ⟨hr, ?_⟩)
  rw [decide_eq_true_eq]
  by_cases none : endKey = []
  · exact .inl none
  · exact .inr (within none)

theorem Surveyed.right (sv : Surveyed w i g) : SeeksRight i w := by
  intro start op
  have seeks := sv.seeks start op
  have asc : ((w.state.task i).pc.seen.map Prod.fst).Pairwise (· < ·) := by
    cases pc : (w.state.task i).pc with
    | walk page index seen =>
      rw [pc] at seeks
      obtain ⟨recs, bound, copied, walking, -, -⟩ := seeks
      exact walking.asc.sublist ((List.sublist_append_left _ _).map _)
    | exhausted seen =>
      rw [pc] at seeks
      exact seeks.1
    | _ => exact List.Pairwise.nil
  constructor
  · intro page index pc more
    rw [pc] at seeks
    obtain ⟨recs, bound, copied, walking, inside, right⟩ := seeks
    have more' : index < recs.length := walking.copy.slots ▸ more
    have entry : page.getKey index = recs[index].1 := congrArg Prod.fst (walking.copy.entry more')
    rw [List.nil_append, List.drop_eq_getElem_cons more'] at inside walking
    rw [entry]
    refine ⟨inside _ (List.mem_cons_self ..), fun key le stays => ?_⟩
    rcases walking.covers key ⟨le, stays⟩ with here | ⟨u, hu, beyond⟩
    · have order := walking.asc
      rw [List.map_cons, List.pairwise_cons] at order
      rcases List.mem_cons.mp here with rfl | later
      · exact le_rfl
      · exact (order.1 key later).le
    · exact ((walking.below u hu _ (List.mem_cons_self ..)).trans_le beyond).le
  · intro pc key le
    rw [pc] at seeks
    by_contra stays
    exact absurd (seeks.2.2 key ⟨le, by simpa using stays⟩) (List.not_mem_nil)
  · intro endKey callback r mem
    obtain ⟨mem, within⟩ := mem_shown mem
    refine ⟨?_, within⟩
    cases pc : (w.state.task i).pc with
    | walk page index seen =>
      rw [pc] at seeks mem
      obtain ⟨recs, bound, copied, -, inside, -⟩ := seeks
      exact inside r (List.mem_append_left _ mem)
    | exhausted seen =>
      rw [pc] at seeks mem
      exact seeks.2.1 r mem
    | _ =>
      rw [pc] at mem
      cases mem
  · intro endKey scanned key le within stays
    refine mem_shown_all asc ?_ within
    cases pc : (w.state.task i).pc with
    | walk page index seen =>
      rw [pc] at seeks scanned
      obtain ⟨recs, bound, copied, walking, -, -⟩ := seeks
      -- the cursor has come to a key behind the wanted one
      obtain ⟨r, hr, some, past⟩ := scanned
      have lt : key < r.1 := (within some).trans_le past
      rcases walking.covers key ⟨le, stays⟩ with here | ⟨u, hu, beyond⟩
      · rw [List.map_append, List.mem_append] at here
        refine here.resolve_right fun ahead => ?_
        have order := walking.asc
        rw [List.map_append, List.pairwise_append] at order
        exact lt.asymm (order.2.2 r.1 (List.mem_map_of_mem hr) key ahead)
      · have below := walking.below u hu r (List.mem_append_left _ hr)
        exact absurd (below.trans_le beyond) lt.asymm
    | exhausted seen =>
      rw [pc] at seeks
      exact seeks.2.2 key ⟨le, stays⟩
    | _ =>
      rw [pc] at scanned
      exact scanned.elim

/-- In every run in which what Seek carries still stands at each step, it is right in every state. -/
theorem seek_right_while_standing {s : Store} {m : RefMap} (models : Models s m)
    (events : List Event) (i : Nat)
    (stands : EveryStep (survey i) (Stands i) (Survey.init s m) events) :
    EveryState (survey i) (SeeksRight i) (Survey.init s m) events := by
  have start : ∃ g, Surveyed (Survey.init s m) i g := by
    obtain ⟨g, inv⟩ := Inv.init models
    exact ⟨g, inv, fun key stays => Option.isSome_iff_ne_none.mp stays, nofun⟩
  have always : EveryState (survey i) (fun w => ∃ g, Surveyed w i g) (Survey.init s m) events :=
    everyState_of_step (fun _ _ _ ⟨_, sv⟩ cond next => sv.step cond next) start stands
  exact always.imp fun _ ⟨_, sv⟩ => sv.right

def Pc.slotAhead : Pc → Option (Bool × Bytes)
  | .walk page index [] => some (decide (index < page.numSlots), page.getKey index)
  | _ => none

/-- A tree of two keys, and a Seek of the second that has its index. -/
def seekInTwo : List Event :=
  .invoke (.put [1] [7] 1 true) :: List.replicate 6 (.step 0) ++ .invoke (.put [3] [8] 1 true) ::
    List.replicate 6 (.step 1) ++ .invoke (.seek [3]) :: List.replicate 5 (.step 2)

def insertInFront : List Event := seekInTwo ++ .invoke (.put [0] [9] 1 true) :: List.replicate 6
    (.step 3) ++ [.step 2]

def insertBehind : List Event :=
  seekInTwo ++ .invoke (.put [5] [9] 1 true) :: List.replicate 6 (.step 3) ++ List.replicate 4 (.step 2)

theorem seek_left_of_start : ¬ ∀ (s : Store) (m : RefMap), Models s m → ∀ (events : List Event) (i : Nat),
    EveryState (survey i) (SeeksRight i) (Survey.init s m) events := by
  intro every
  have shifted : (run (survey 2) (Survey.init (create ⟨16, by decide⟩ none) fun _ => none) insertInFront).map
      (fun w => ((w.state.task 2).op, (w.state.task 2).pc.slotAhead)) =
        some (.seek [3], some (true, [1])) := by
    decide +kernel
  obtain ⟨w, reached, stands⟩ := Option.map_eq_some_iff.mp shifted
  obtain ⟨op, there⟩ := Prod.mk.inj stands
  have right := (every _ _ (create_models _ _) insertInFront 2).last reached [3] op
  unfold Pc.slotAhead at there
  split at there
  · rename_i page index pc
    obtain ⟨more, key⟩ := Prod.mk.inj (Option.some.inj there)
    have le := (right.positioned page index pc (of_decide_eq_true more)).1
    rw [key] at le
    exact absurd le (by decide)
  · cases there

theorem seek_beside_later_insert :
    EveryState (survey 2) (SeeksRight 2)
      (Survey.init (create ⟨16, by decide⟩ none) fun _ => none) insertBehind ∧
      (run (survey 2) (Survey.init (create ⟨16, by decide⟩ none) fun _ => none) insertBehind).map
        (fun w => (w.state.task 2).pc.seen) = some [([3], [8]), ([5], [9])] := by
  have stands : EveryStep (survey 2) (Stands 2)
    (Survey.init (create ⟨16, by decide⟩ none) fun _ => none) insertBehind := by
    decide +kernel
  exact ⟨seek_right_while_standing (create_models _ _) insertBehind 2 stands, by decide +kernel⟩

end PagerDB.Crab

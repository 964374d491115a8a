import PagerDB.BTree.Linearizable

/-! A cursor's walk along the leaf chain while other calls change the tree. An observer keeps what the claims
about the walk speak of: the tree at the moment of each copy and the keys that never went away. What
carries the walk is that a leaf's lower bound never changes and splits only add leaves to its right. -/
namespace PagerDB.Crab

open SortedLib Store MachineLib

/- The observer. -/

structure Watch where
  state : State
  /-- What the tree held when the cursor last copied a leaf. -/
  copied : RefMap
  /-- The keys present ever since the copy of the leaf with the first entry. -/
  stable : Bytes → Bool
  /-- Each entry yielded, with what the tree held when its leaf was copied. -/
  log : List ((Bytes × Bytes) × RefMap)

def State.present (σ : State) (key : Bytes) : Bool := (σ.map key).isSome

namespace Watch

variable (w : Watch) (σ : State)

def passed : Watch := { w with state := σ, stable := fun key => w.stable key && σ.present key }

def yielded (page : Page) (index : Nat) : Watch :=
  { w.passed σ with log := w.log ++ [((page.getKey index, page.getValueAt index), w.copied)] }

def hopped (seen : List (Bytes × Bytes)) : Watch :=
  { w.passed σ with copied := σ.map, stable := if seen = [] then σ.present else (w.passed σ).stable }

def own : Pc → Watch
  | .bounded .. => w.hopped σ []
  | .walk page index seen =>
    if index < page.numSlots then w.yielded σ page index
    else if page.getNextLeaf = kInvalidPageId then w.passed σ
    else w.hopped σ seen
  | _ => w.passed σ

def init (s : Store) (m : RefMap) : Watch := ⟨.init s m, m, fun _ => false, []⟩

end Watch

def watch (i : Nat) (w : Watch) (e : Event) : Option Watch :=
  (w.state.step e).map fun σ =>
    match e with
    | .step j => if j = i then w.own σ (w.state.task i).pc else w.passed σ
    | _ => w.passed σ

def Pc.seen : Pc → List (Bytes × Bytes)
  | .walk _ _ seen | .exhausted seen => seen
  | _ => []

structure WalkRight (w : Watch) (i : Nat) : Prop where
  log : (w.state.task i).pc.seen = w.log.map Prod.fst
  ascending : ((w.state.task i).pc.seen.map Prod.fst).Pairwise (· < ·)
  held : ∀ e ∈ w.log, e.2 e.1.1 = some e.1.2
  /-- No stable key behind the first entry is passed over or met twice. -/
  complete : ∀ seen, (w.state.task i).pc = .exhausted seen → ∀ first ∈ seen.head?, ∀ key, first.1 < key →
    w.stable key = true → (seen.map Prod.fst).count key = 1
  /-- The next step fails through a fault only. -/
  goesOn : ∀ page index seen, (w.state.task i).pc = .walk page index seen →
    w.state.available i (need (w.state.task i).op w.state.store (w.state.task i).pc) = true →
    ∀ e s, (w.state.task i).op.access (w.state.task i).pc w.state.store = .error e s → w.state.store.io ≠ []

/- Copies. -/

variable {σ : State} {g : Ghost} {i : Nat} {leaf : PageId} {page : Page} {b : Bytes} {row row' : List Link}
  {recs shown : List (Bytes × Bytes)} {bound : Option Bytes} {m : RefMap} {stable : Bytes → Bool} {w : Watch}
  {index : Nat} {seen : List (Bytes × Bytes)}

/-- A leaf's copy; its right sibling at the time still has the bound it had. -/
structure Copy (row : List Link) (page : Page) (recs : List (Bytes × Bytes))
    (bound : Option Bytes) : Prop where
  leaf : ∃ prev, page.body = .leaf prev page.getNextLeaf recs
  right : match bound with
    | none => page.getNextLeaf = kInvalidPageId
    | some u => (u, page.getNextLeaf) ∈ row

theorem Copy.sublist (copy : Copy row page recs bound) (sub : row.Sublist row') :
    Copy row' page recs bound := by
  obtain ⟨leaf, right⟩ := copy
  refine ⟨leaf, ?_⟩
  cases bound with
  | none => exact right
  | some u => exact sub.subset right

theorem Copy.slots (copy : Copy row page recs bound) : page.numSlots = recs.length := by
  obtain ⟨⟨prev, body⟩, -⟩ := copy
  simp [Page.numSlots, body]

theorem Copy.entry (copy : Copy row page recs bound) (more : index < recs.length) :
    (page.getKey index, page.getValueAt index) = recs[index] := by
  obtain ⟨⟨prev, body⟩, -⟩ := copy
  simp [Page.getKey, Page.getValueAt, Page.keys, Page.recs, body, more]

theorem Copy.some_of_next (copy : Copy row page recs bound) (next : page.getNextLeaf ≠ kInvalidPageId) :
    ∃ u, bound = some u ∧ (u, page.getNextLeaf) ∈ row := by
  obtain ⟨-, right⟩ := copy
  cases bound with
  | none => exact absurd right next
  | some u => exact ⟨u, rfl, right⟩

theorem Copy.none_of_last (copy : Copy row page recs bound) (last : page.getNextLeaf = kInvalidPageId)
    (range : ∀ u, (u, page.getNextLeaf) ∈ row → page.getNextLeaf ≠ kInvalidPageId) : bound = none := by
  obtain ⟨-, right⟩ := copy
  cases bound with
  | none => rfl
  | some u => exact absurd last (range u right)

structure Shows (m : RefMap) (b : Bytes) (recs : List (Bytes × Bytes)) (bound : Option Bytes) : Prop where
  asc : (recs.map Prod.fst).Pairwise (· < ·)
  held : ∀ r ∈ recs, m r.1 = some r.2
  lower : ∀ r ∈ recs, b ≤ r.1
  upper : ∀ u ∈ bound, b < u ∧ ∀ r ∈ recs, r.1 < u
  present : ∀ key, b ≤ key → m key ≠ none → key ∈ recs.map Prod.fst ∨ ∃ u ∈ bound, u ≤ key

theorem mem_keys_of_lookup {key : Bytes} (some : recs.lookup key ≠ none) : key ∈ recs.map Prod.fst := by
  by_contra absent
  refine some (List.lookup_eq_none_iff.mpr fun r hr => ?_)
  have ne : key ≠ r.1 := fun eq => absent (eq ▸ List.mem_map_of_mem hr)
  simpa using ne

theorem Standing.copy (st : Standing g) (entries : ∀ key, g.entries.lookup key = m key)
    (mem : (b, leaf) ∈ g.row)
    (body : page.body = g.bodies leaf) : ∃ recs bound, Copy g.row page recs bound ∧ Shows m b recs bound := by
  obtain ⟨pre, post, prev, recs, row, here, asc, lower, upper⟩ := st.link mem
  have next : page.getNextLeaf = (post.map Prod.snd).headD kInvalidPageId := by
    simp [Page.getNextLeaf, body, here]
  have order := st.leaves.asc
  rw [row] at order
  have after : ∀ y ∈ post, b < y.1 := fun y hy => by
    have order' := (asc_append order).2
    rw [Asc, List.map_cons, List.pairwise_cons] at order'
    exact order'.1 y.1 (List.mem_map_of_mem hy)
  have look : ∀ key, b ≤ key → (∀ y ∈ post, key < y.1) → m key = recs.lookup key := fun key le lt => by
    rw [← entries, Ghost.entries, st.leaves.lookup ⟨row, le, lt⟩, here]
    rfl
  refine ⟨recs, post.head?.map Prod.fst, ⟨⟨prev, ?_⟩, ?_⟩, asc, fun r hr => ?_, lower, ?_,
    fun key le present => ?_⟩
  · rw [body, here, next]
  · cases post with
    | nil => exact next
    | cons y rest =>
      rw [next, row]
      simp
  · rw [look r.1 (lower r hr) fun y hy => upper r hr y hy]
    exact (lookup_eq_some_iff_mem asc).mpr hr
  · intro u hu
    obtain ⟨y, hy, rfl⟩ := Option.map_eq_some_iff.mp hu
    have mem : y ∈ post := List.mem_of_mem_head? hy
    exact ⟨after y mem, fun r hr => upper r hr y mem⟩
  · cases post with
    | nil =>
      rw [look key le fun y none => by cases none] at present
      exact .inl (mem_keys_of_lookup present)
    | cons y rest =>
      by_cases beyond : y.1 ≤ key
      · exact .inr ⟨y.1, rfl, beyond⟩
      · have lt : ∀ z ∈ y :: rest, key < z.1 := fun z hz => by
          rcases List.mem_cons.mp hz with rfl | hz
          · exact not_le.mp beyond
          · exact (not_le.mp beyond).trans (asc_lt (a := pre ++
              [(b, leaf), y]) (by simpa using order) (by simp) hz)
        rw [look key le lt] at present
        exact .inl (mem_keys_of_lookup present)

/- The walk. -/

/-- What was yielded and what the copy has left to show; each wanted key is among it, or not left
of the bound. -/
structure Walking (row : List Link) (page : Page) (shown recs : List (Bytes × Bytes)) (bound : Option Bytes)
    (copied : RefMap) (wanted : Bytes → Prop) : Prop where
  copy : Copy row page recs bound
  held : ∀ r ∈ recs, copied r.1 = some r.2
  asc : (shown.map Prod.fst).Pairwise (· < ·)
  below : ∀ u ∈ bound, ∀ r ∈ shown, r.1 < u
  covers : ∀ key, wanted key → key ∈ shown.map Prod.fst ∨ ∃ u ∈ bound, u ≤ key

section

variable {wanted wanted' : Bytes → Prop} {copied : RefMap}

theorem Walking.sublist (walking : Walking row page shown recs bound copied wanted) (sub : row.Sublist row') :
    Walking row' page shown recs bound copied wanted :=
  ⟨walking.copy.sublist sub, walking.held, walking.asc, walking.below, walking.covers⟩

theorem Walking.mono (walking : Walking row page shown recs bound copied wanted)
    (less : ∀ key, wanted' key → wanted key) : Walking row page shown recs bound copied wanted' :=
  ⟨walking.copy, walking.held, walking.asc, walking.below, fun key want => walking.covers key (less key want)⟩

theorem Walking.shown_yield (walking : Walking row page (seen ++ recs.drop index) recs bound copied wanted)
    (more : index < page.numSlots) : seen ++ [(page.getKey index, page.getValueAt index)] ++
      recs.drop (index + 1) =
      seen ++ recs.drop index := by
  have more' : index < recs.length := walking.copy.slots ▸ more
  rw [walking.copy.entry more', List.append_assoc, List.singleton_append, ← List.drop_eq_getElem_cons more']

theorem Walking.shown_spent (walking : Walking row page (seen ++ recs.drop index) recs bound copied wanted)
    (less : page.numSlots ≤ index) : seen ++ recs.drop index = seen := by
  rw [List.drop_eq_nil_of_le (walking.copy.slots ▸ less), List.append_nil]

theorem Shows.starts (shows : Shows m b recs bound) (copy : Copy row page recs bound) (index : Nat)
    (ahead : ∀ key, wanted key → b ≤ key ∧ m key ≠ none ∧ key ∉ (recs.take index).map Prod.fst) :
    Walking row page (recs.drop index) recs bound m wanted := by
  have sub : (recs.drop index).Sublist recs := List.drop_sublist index recs
  constructor
  · exact copy
  · exact shows.held
  · exact shows.asc.sublist (sub.map _)
  · exact fun u hu r hr => (shows.upper u hu).2 r (sub.subset hr)
  · intro key want
    obtain ⟨le, present, passed⟩ := ahead key want
    refine (shows.present key le present).imp_left fun here => ?_
    rw [← List.take_append_drop index recs, List.map_append, List.mem_append] at here
    exact here.resolve_left passed

theorem Shows.follows {u : Bytes} (shows : Shows m u recs bound) (copy : Copy row page recs bound)
    (asc : (seen.map Prod.fst).Pairwise (· < ·)) (below : ∀ r ∈ seen, r.1 < u)
    (ahead : ∀ key, wanted key → m key ≠ none ∧ (key ∈ seen.map Prod.fst ∨ u ≤ key)) :
    Walking row page (seen ++ recs) recs bound m wanted := by
  constructor
  · exact copy
  · exact shows.held
  · rw [List.map_append, List.pairwise_append]
    refine ⟨asc, shows.asc, fun a ha c hc => ?_⟩
    obtain ⟨r, hr, rfl⟩ := List.mem_map.mp ha
    obtain ⟨r', hr', rfl⟩ := List.mem_map.mp hc
    exact (below r hr).trans_le (shows.lower r' hr')
  · intro v hv r hr
    obtain ⟨lt, upper⟩ := shows.upper v hv
    rcases List.mem_append.mp hr with old | new
    · exact (below r old).trans lt
    · exact upper r new
  · intro key want
    obtain ⟨present, old | right⟩ := ahead key want
    · left
      rw [List.map_append]
      exact List.mem_append_left _ old
    · refine (shows.present key right present).imp_left fun here => ?_
      rw [List.map_append]
      exact List.mem_append_right _ here

end

/-- A stable key behind the first entry. -/
def Behind (shown : List (Bytes × Bytes)) (stable : Bytes → Bool) (key : Bytes) : Prop :=
  ∃ first ∈ shown.head?, first.1 < key ∧ stable key = true

theorem Behind.mono {stable' : Bytes → Bool} (less : ∀ key, stable' key = true → stable key = true)
    (key : Bytes)
    (behind : Behind shown stable' key) : Behind shown stable key := by
  obtain ⟨first, head, lt, stays⟩ := behind
  exact ⟨first, head, lt, less key stays⟩

theorem Shows.behind (shows : Shows m b recs bound)
    (present : ∀ key, stable key = true → m key ≠ none) (index : Nat)
    (key : Bytes) (behind : Behind (recs.drop index) stable key) :
    b ≤ key ∧ m key ≠ none ∧ key ∉ (recs.take index).map Prod.fst := by
  obtain ⟨first, head, lt, stays⟩ := behind
  have mem : first ∈ recs.drop index := List.mem_of_mem_head? head
  refine ⟨(shows.lower first (List.mem_of_mem_drop mem)).trans lt.le, present key stays, fun passed => ?_⟩
  obtain ⟨r, hr, rfl⟩ := List.mem_map.mp passed
  have asc := shows.asc
  rw [← List.take_append_drop index recs, List.map_append, List.pairwise_append] at asc
  exact lt.asymm (asc.2.2 r.1 (List.mem_map_of_mem hr) first.1 (List.mem_map_of_mem mem))

def Walks (row : List Link) (op : Op) (w : Watch) : Pc → Prop
  | .walk page index seen => op.isCursor = true ∧ seen = w.log.map Prod.fst ∧ ∃ recs bound,
    Walking row page (seen ++ recs.drop index) recs bound w.copied (Behind (seen ++ recs.drop index) w.stable)
  | .exhausted seen => seen = w.log.map Prod.fst ∧ (seen.map Prod.fst).Pairwise (· < ·) ∧
    ∀ key, Behind seen w.stable key → key ∈ seen.map Prod.fst
  | _ => w.log = []

theorem Watch.passed_stable (key : Bytes) (stays : (w.passed σ).stable key = true) : w.stable key = true :=
  (Bool.and_eq_true .. ▸ stays).1

theorem Walks.sublist {op : Op} {pc : Pc} (walks : Walks row op w pc) (sub : row.Sublist row') :
    Walks row' op w pc := by
  cases pc with
  | walk page index seen =>
    obtain ⟨cursor, log, recs, bound, walking⟩ := walks
    exact ⟨cursor, log, recs, bound, walking.sublist sub⟩
  | _ => exact walks

theorem Walks.passed {op : Op} {pc : Pc} (walks : Walks row op w pc) : Walks row op (w.passed σ) pc := by
  cases pc with
  | walk page index seen =>
    obtain ⟨cursor, log, recs, bound, walking⟩ := walks
    exact ⟨cursor, log, recs, bound, walking.mono (Behind.mono Watch.passed_stable)⟩
  | exhausted seen =>
    obtain ⟨log, asc, covers⟩ := walks
    exact ⟨log, asc, fun key behind => covers key (behind.mono Watch.passed_stable)⟩
  | _ => exact walks

theorem Watch.hopped_stable (key : Bytes) (stays : (w.hopped σ seen).stable key = true) :
    σ.map key ≠ none := by
  have here : σ.present key = true := by
    unfold Watch.hopped at stays
    dsimp only at stays
    split at stays
    · exact stays
    · exact (Bool.and_eq_true .. ▸ stays).2
  exact Option.isSome_iff_ne_none.mp here

theorem Watch.hopped_less (some : seen ≠ []) (key : Bytes) (stays : (w.hopped σ seen).stable key = true) :
    w.stable key = true := by
  unfold Watch.hopped at stays
  rw [if_neg some] at stays
  exact Watch.passed_stable key stays

theorem Walks.own {op : Op} {before pc : Pc} {point : Bool} {s : Store} (inv : Inv w.state g)
    (walks : Walks g.row op w before) (task : w.state.task i = ⟨op, before⟩)
    (ready : w.state.available i (need op w.state.store before) = true)
    (m : Moves op w.state.store before pc point s) : Walks g.row op
      (w.own (w.state.moved i s pc point) before) pc := by
  have knows := inv.grounded.knows i
  rw [task] at knows
  cases m with
  | barren =>
    have start : w.log = [] := walks
    exact ⟨(congrArg (List.map Prod.fst) start).symm, List.Pairwise.nil, nofun⟩
  | @copy _ _ _ leaf index cursor same =>
    obtain ⟨b, mem, -⟩ := knows
    have st : Standing g := inv.grounded.standing (List.ne_nil_of_mem mem)
    have agree := inv.grounded.agree_free task inv.latches rfl ready
    obtain ⟨recs, bound, copy, shows⟩ := st.copy inv.grounded.entries mem
      ((congrFun same.bodies _).trans agree)
    have start : w.log = [] := walks
    refine ⟨cursor, (congrArg (List.map Prod.fst) start).symm, recs, bound, ?_⟩
    exact shows.starts copy index (shows.behind Watch.hopped_stable index)
  | @yield _ _ page index seen cursor more =>
    obtain ⟨-, log, recs, bound, walking⟩ := walks
    rw [Watch.own, if_pos more]
    refine ⟨cursor, ?_, recs, bound, ?_⟩
    · change _ = List.map Prod.fst (w.log ++ [_])
      rw [List.map_append, log]
      rfl
    · have shown := walking.shown_yield more
      rw [shown]
      exact walking.mono (Behind.mono Watch.passed_stable)
  | @exhaust _ _ page index seen cursor less last =>
    obtain ⟨-, log, recs, bound, walking⟩ := walks
    rw [walking.shown_spent less] at walking
    obtain rfl : bound = none := walking.copy.none_of_last last fun u mem =>
      ((inv.grounded.backed.range _ (Ghost.row_ids mem)).2.trans_le inv.grounded.backed.sound.limit).ne
    rw [Watch.own, if_neg (not_lt.mpr less), if_pos last]
    refine ⟨log, walking.asc, fun key behind => ?_⟩
    exact (walking.covers key (behind.mono Watch.passed_stable)).resolve_right nofun
  | @hop _ _ _ page index seen cursor less next same =>
    obtain ⟨-, log, recs, bound, walking⟩ := walks
    rw [walking.shown_spent less] at walking
    have waits : need op w.state.store (.walk page index seen) = .page page.getNextLeaf .shared :=
      if_neg (not_or.mpr ⟨not_lt.mpr less, next⟩)
    rw [waits] at ready
    have agree := inv.grounded.agree_free task inv.latches rfl ready
    obtain ⟨u, rfl, mem⟩ := walking.copy.some_of_next next
    have st : Standing g := inv.grounded.standing (List.ne_nil_of_mem mem)
    obtain ⟨recs', bound', copy', shows⟩ := st.copy inv.grounded.entries mem
      ((congrFun same.bodies _).trans agree)
    rw [Watch.own, if_neg (not_lt.mpr less), if_neg next]
    refine ⟨cursor, log, recs', bound', shows.follows copy' walking.asc (walking.below u rfl) ?_⟩
    rintro key ⟨first, head, lt, stays⟩
    refine ⟨Watch.hopped_stable key stays, ?_⟩
    cases seen with
    | nil => exact .inr ((shows.lower first (List.mem_of_mem_head? head)).trans lt.le)
    | cons r rest =>
      have old : Behind (r :: rest) w.stable key := ⟨first, head, lt, Watch.hopped_less (by simp) key stays⟩
      refine (walking.covers key old).imp_right ?_
      rintro ⟨v, hv, le⟩
      cases hv
      exact le
  | _ => exact walks

structure Observed (w : Watch) (i : Nat) (g : Ghost) : Prop where
  inv : Inv w.state g
  walks : Walks g.row (w.state.task i).op w (w.state.task i).pc
  held : ∀ e ∈ w.log, e.2 e.1.1 = some e.1.2

theorem Watch.own_state (pc : Pc) : (w.own σ pc).state = σ := by
  unfold Watch.own
  split
  · rfl
  · split
    · rfl
    · split <;> rfl
  · rfl

theorem Walks.log_held {op : Op} {pc : Pc} (walks : Walks row op w pc)
    (held : ∀ e ∈ w.log, e.2 e.1.1 = some e.1.2) :
    ∀ e ∈ (w.own σ pc).log, e.2 e.1.1 = some e.1.2 := by
  unfold Watch.own
  split
  · exact held
  · rename_i page index seen
    split
    · rename_i more
      obtain ⟨-, -, recs, bound, walking⟩ := walks
      intro e mem
      rcases List.mem_append.mp mem with old | new
      · exact held e old
      · obtain rfl := List.mem_singleton.mp new
        have more' : index < recs.length := walking.copy.slots ▸ more
        dsimp only
        have here := walking.held _ (List.getElem_mem more')
        rw [← walking.copy.entry more'] at here
        exact here
    · split
      · exact held
      · exact held
  · exact held

theorem Observed.passed {g' : Ghost} (obs : Observed w i g) (inv : Inv σ g') (sub : g.row.Sublist g'.row)
    (task : σ.task i = w.state.task i) : Observed (w.passed σ) i g' := by
  refine ⟨inv, ?_, obs.held⟩
  change Walks g'.row (σ.task i).op _ (σ.task i).pc
  rw [task]
  exact (obs.walks.sublist sub).passed

theorem Observed.step {w' : Watch} {e : Event} (obs : Observed w i g) (next : watch i w e = some w') :
    ∃ g', Observed w' i g' := by
  obtain ⟨σ, step, rfl⟩ := Option.map_eq_some_iff.mp next
  obtain ⟨g', inv', sub, -⟩ := obs.inv.step step
  refine ⟨g', ?_⟩
  cases e with
  | invoke op =>
    cases step
    by_cases here : i = w.state.next
    · have walks := obs.walks
      rw [obs.inv.latches.idle i here.ge] at walks
      refine ⟨inv', ?_, obs.held⟩
      change Walks g'.row ((w.state.invoked op).task i).op _ ((w.state.invoked op).task i).pc
      rw [here, State.invoked_self]
      exact walks
    · exact obs.passed inv' sub (State.invoked_other here)
  | evict pid =>
    simp only [State.step] at step
    split at step
    · obtain ⟨s, -, rfl⟩ := Option.map_eq_some_iff.mp step
      exact obs.passed inv' sub rfl
    · cases step
  | step j =>
    simp only [State.step] at step
    split at step
    · rename_i ready
      split at step
      · rename_i pc point s run
        obtain rfl := Option.some.inj step
        dsimp only
        split
        · rename_i own
          subst own
          have walks := (obs.walks.own obs.inv rfl ready.2 (access_moves run)).sublist sub
          refine ⟨(Watch.own_state _).symm ▸ inv', ?_, obs.walks.log_held obs.held⟩
          rw [Watch.own_state, State.moved_self]
          exact walks
        · rename_i other
          exact obs.passed inv' sub (State.moved_other (Ne.symm other))
      · cases step
    · cases step

theorem Copy.goesOn {op : Op} (inv : Inv σ g) (copy : Copy g.row page recs bound)
    (cursor : op.isCursor = true)
    (task : σ.task i = ⟨op, .walk page index seen⟩)
    (ready : σ.available i (need op σ.store (.walk page index seen)) = true) {e : Failure} {s : Store}
    (run : op.access (.walk page index seen) σ.store = .error e s) : σ.store.io ≠ [] := by
  intro io
  have access : op.access (.walk page index seen) = cursorStep op.key (.walk page index seen) := by
    cases op with
    | seek | seekToFirst => rfl
    | get | delete | put => cases cursor
  rw [access] at run
  unfold cursorStep at run
  dsimp only at run
  split at run
  · cases run
  · rename_i less
    split at run
    · cases run
    · rename_i next
      have waits : need op σ.store (.walk page index seen) = .page page.getNextLeaf .shared :=
        if_neg (not_or.mpr ⟨less, next⟩)
      rw [waits] at ready
      obtain ⟨u, rfl, mem⟩ := copy.some_of_next next
      have st : Standing g := inv.grounded.standing (List.ne_nil_of_mem mem)
      have agree := inv.grounded.agree_free task inv.latches rfl ready
      obtain ⟨lo, hi⟩ := inv.grounded.backed.range _ (Ghost.row_ids mem)
      obtain ⟨t, fetch⟩ := fetchPage_succeeds io lo hi (inv.grounded.backed.sound.readable _ lo hi)
      obtain ⟨prev, next', recs', leaf⟩ := st.leaves.isLeaf mem
      have isLeaf : (t.view page.getNextLeaf).isLeaf = true :=
        isLeaf_of_body ((congrFun ((fetchPage_same fetch).bodies.trans rfl) _).trans (agree.trans leaf))
      rw [bind_of_ok fetch, bind_of_ok (getPage_run _), bind_of_ok (failIf_of_not (by simp [isLeaf]))] at run
      cases run

theorem Observed.right (obs : Observed w i g) : WalkRight w i := by
  obtain ⟨inv, walks, held⟩ := obs
  generalize task : w.state.task i = t at walks
  obtain ⟨op, pc⟩ := t
  constructor
  · rw [task]
    cases pc with
    | walk => exact walks.2.1
    | exhausted => exact walks.1
    | _ => exact (congrArg (List.map Prod.fst) walks).symm
  · rw [task]
    cases pc with
    | walk =>
      obtain ⟨-, -, recs, bound, walking⟩ := walks
      exact walking.asc.sublist ((List.sublist_append_left _ _).map _)
    | exhausted => exact walks.2.1
    | _ => exact List.Pairwise.nil
  · exact held
  · intro seen eq first head key behind stays
    rw [task] at eq
    cases eq
    obtain ⟨-, asc, covers⟩ := walks
    have distinct : (seen.map Prod.fst).Nodup := asc.imp ne_of_lt
    exact List.count_eq_one_of_mem distinct (covers key ⟨first, head, behind, stays⟩)
  · intro page index seen eq ready e s run
    rw [task] at eq ready run
    cases eq
    obtain ⟨cursor, -, recs, bound, walking⟩ := walks
    exact walking.copy.goesOn inv cursor task ready run

/-- Whatever other calls do meanwhile, a walk is right in every state. -/
theorem walk_split_safe {s : Store} (models : Models s m) (events : List Event) (i : Nat) :
    EveryState (watch i) (WalkRight · i) (Watch.init s m) events := by
  have start : ∃ g, Observed (Watch.init s m) i g := by
    obtain ⟨g, inv⟩ := Inv.init models
    exact ⟨g, inv, rfl, nofun⟩
  have always : EveryState (watch i) (fun w => ∃ g, Observed w i g) (Watch.init s m) events :=
    everyState_invariant (fun _ _ _ ⟨_, obs⟩ next => obs.step next) start
  exact always.imp fun _ ⟨_, obs⟩ => obs.right

/-- A cursor has left the first of two leaves when the second one is split. -/
def splitAhead : List Event :=
  widePut 1 0 6 ++ widePut 2 1 6 ++ widePut 3 2 6 ++ widePut 4 3 6 ++ widePut 5 4 18 ++
    .invoke .seekToFirst ::
    List.replicate 6 (.step 5) ++ widePut 6 6 7 ++ widePut 7 7 21 ++ List.replicate 10 (.step 5)

theorem split_ahead_walked :
    Models (create ⟨80, by decide⟩ none) (fun _ => none) ∧
      (run (watch 5) (Watch.init (create ⟨80, by decide⟩ none) fun _ => none) splitAhead).map (fun w =>
        ((w.state.task 5).pc.seen.map Prod.fst, w.stable [5], w.stable [6])) =
          some ([[1], [2], [3], [4], [5], [6], [7]], true, false) ∧
      EveryState (watch 5) (WalkRight · 5)
        (Watch.init (create ⟨80, by decide⟩ none) fun _ => none) splitAhead :=
  ⟨create_models _ _, by decide +kernel, walk_split_safe (create_models _ _) splitAhead 5⟩

end PagerDB.Crab

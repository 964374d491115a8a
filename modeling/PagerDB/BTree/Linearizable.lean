import PagerDB.BTree.Interleaving

/-! Every step keeps the invariant, so every interleaving is linearizable: each call takes
effect in one step of its own, and the tree holds the effects so far. -/
namespace PagerDB.Crab

open SortedLib Store LinearizeLib MachineLib

variable {σ : State} {g : Ghost} {op : Op} {s s' : Store} {pc before : Pc} {point : Bool} {i : Nat}
  {p leaf : PageId} {key value : Bytes} {txid : TxId} {wantBefore : Bool}

theorem Standing.reached (st : Standing g) (reaches : Reaches g.row key leaf) :
    ∃ pre b post prev next recs, Located g.row key pre (b, leaf) post ∧
      g.bodies leaf = .leaf prev next recs ∧ (recs.map Prod.fst).Pairwise (· < ·) ∧
      recs.lookup key = g.entries.lookup key := by
  obtain ⟨pre, b, post, loc⟩ := reaches
  have mem : (b, leaf) ∈ g.row := by simp [loc.eq]
  obtain ⟨prev, next, recs, body⟩ := st.leaves.isLeaf mem
  have keys := st.leaves.keys _ mem
  have lookup := st.leaves.lookup loc
  rw [body] at keys lookup
  exact ⟨pre, b, post, prev, next, recs, loc, body, keys, lookup.symm⟩

theorem Grounded.acquired {mode : LatchMode} (grounded : Grounded σ g) (latches : Latches σ)
    (task : σ.task i = ⟨op, pc⟩) (needs : need op σ.store pc = .page p mode) :
    p < σ.store.metaPage.numPages := by
  have knows := grounded.knows i
  rw [task] at knows
  refine (grounded.backed.range p ?_).2
  cases pc with
  | rooted =>
    simp only [need] at needs
    split at needs
    · cases needs
    · rename_i some
      obtain ⟨rfl, -⟩ := Need.page.inj needs
      rw [grounded.backed.root]
      have st := grounded.backed.root_mem grounded.tree some
      exact st.at_ids (st.atRoot [])
  | crab root node =>
    simp only [need] at needs
    split at needs
    · cases needs
    · rename_i inner
      obtain ⟨rfl, -⟩ := Need.page.inj needs
      have st := grounded.standing knows.1
      have agree := grounded.agree_held (p := node) task latches rfl (if_pos rfl)
      have inner' : (σ.store.view node).isLeaf = false := by
        simp only [not_or] at inner
        simpa using inner.2
      rcases st.access knows agree with ⟨yes, -⟩ | ⟨-, at_⟩
      · cases inner'.symm.trans yes
      · rw [st.child knows agree inner']
        exact st.at_ids at_
  | swap leaf =>
    obtain ⟨rfl, -⟩ := Need.page.inj needs
    obtain ⟨pre, b, post, loc⟩ := knows
    exact Ghost.row_ids (b := b) (by simp [loc.eq])
  | path stack node =>
    obtain ⟨rfl, -⟩ := Need.page.inj needs
    exact (grounded.standing knows.1.1).held_ids knows.1 knows.2
  | relink sp cut =>
    simp only [need] at needs
    split at needs
    · cases needs
    · rename_i some
      obtain ⟨rfl, -⟩ := Need.page.inj needs
      have splits := (grounded.splits i (by rw [task]; rfl)).1
      rw [task] at splits
      obtain ⟨grown, key, value, txid, wantBefore, -, c, left, holds, cutting, -⟩ := splits
      have st := grounded.standing grown
      cases post : c.post with
      | nil =>
        refine absurd ?_ some
        rw [cutting.oldNext, holds.next st, post]
        rfl
      | cons y rest =>
        rw [cutting.oldNext, holds.next st, post]
        exact (holds.sibling st post).1
  | found leaf | bounded leaf =>
    obtain ⟨rfl, -⟩ := Need.page.inj needs
    obtain ⟨b, mem, -⟩ := knows
    exact Ghost.row_ids mem
  | walk page index seen =>
    simp only [need] at needs
    split at needs
    · cases needs
    · rename_i more
      obtain ⟨rfl, -⟩ := Need.page.inj needs
      obtain ⟨prev, next, recs, body, -, last | ⟨u, mem, -⟩⟩ := knows
      · refine absurd (.inr ?_) more
        simpa [Page.getNextLeaf, body] using last
      · simp only [Page.getNextLeaf, body]
        exact Ghost.row_ids mem
  | _ => cases needs

/- Reads and writes at the leaf. -/

theorem getAtLeaf_answer {answer : Answer} {prev next : PageId} {recs : List (Bytes × Bytes)}
    (body : s.bodies leaf = .leaf prev next recs) (asc : (recs.map Prod.fst).Pairwise (· < ·))
    (run : answering (getAtLeaf key leaf) s = .ok answer s') :
    s' = s ∧ answer.outcome = match recs.lookup key with
      | some value => .ok (some value)
      | none => .error .notFound := by
  have body' : (s.view leaf).body = .leaf prev next recs := body
  have find : (s.view leaf).getValue key = recs.lookup key := Page.getValue_leaf body' asc
  simp only [answering, getAtLeaf, bind_of_ok (getPage_run leaf), find] at run
  cases look : recs.lookup key with
  | some value =>
    simp only [look, pure_run] at run
    cases run
    exact ⟨rfl, rfl⟩
  | none =>
    simp only [look, fail_run] at run
    cases run
    exact ⟨rfl, rfl⟩

theorem deleteAtLeaf_answer {answer : Answer} {prev next : PageId} {recs : List (Bytes × Bytes)}
    (body : s.bodies leaf = .leaf prev next recs) (asc : (recs.map Prod.fst).Pairwise (· < ·))
    (acc : (s.view leaf).Accounted)
    (run : answering (deleteAtLeaf key txid wantBefore leaf) s = .ok answer s') :
    match recs.lookup key with
    | none => s' = s ∧ answer.outcome = .error .notFound
    | some old => ∃ lo hi t, recs = lo ++ (key, old) :: hi ∧ (∀ r ∈ lo, r.1 < key) ∧
        (∀ r ∈ hi, key < r.1) ∧ Wrote leaf (.leaf prev next (lo ++ hi)) s t ∧
        (t.view leaf).Accounted ∧ s' = t.counted (-1) ∧
        answer.outcome = .ok (if wantBefore then some old else none) := by
  have here := deleteAtLeaf_local key txid wantBefore body asc acc
  cases look : recs.lookup key with
  | none =>
    simp only [look] at here
    simp only [answering, here] at run
    cases run
    exact ⟨rfl, rfl⟩
  | some old =>
    simp only [look] at here
    obtain ⟨lo, hi, t, eq, below, above, wrote, acc', here⟩ := here
    simp only [answering, here] at run
    cases run
    exact ⟨lo, hi, t, eq, below, above, wrote, acc', rfl, rfl⟩

/- One step of a call. -/

/-- The row keeps its leaves, and gains some only where no split is left under way. A step without
an effect leaves the tree alone. -/
structure Grew (g g' : Ghost) (σ σ' : State) : Prop where
  row : g.row.Sublist g'.row
  still : g'.row = g.row ∨ ∀ j, (σ'.task j).pc.splitting = false
  calm : σ'.order = σ.order → g' = g

theorem Grew.refl (g : Ghost) (σ σ' : State) : Grew g g σ σ' := ⟨List.Sublist.refl _, .inl rfl, fun _ => rfl⟩

theorem State.order_moved : (σ.moved i s pc true).order ≠ σ.order := by
  simp [State.moved]

theorem Grew.of_row {g' : Ghost} (eq : g'.row = g.row) : Grew g g' σ (σ.moved i s pc true) :=
  ⟨eq ▸ List.Sublist.refl _, .inl eq, fun same => absurd same State.order_moved⟩

def Pc.allots : Pc → Pc → Nat
  | slowRooted, unwind .. => 1
  | held .., right .. => 1
  | climb _ [] .., _ => 1
  | climb .., innerRight .. => 1
  | _, _ => 0

/-- All that a step of a call has to show. -/
structure Advanced (σ : State) (i : Nat) (s : Store) (pc : Pc) (point : Bool) (g : Ghost) : Prop where
  grounded : ∃ g', Grounded (σ.moved i s pc point) g' ∧ Grew g g' σ (σ.moved i s pc point)
  fresh : ∀ p, pc.fresh = some p → σ.store.metaPage.numPages ≤ p ∧ p < s.metaPage.numPages
  grows : s.metaPage.numPages = σ.store.metaPage.numPages + (σ.task i).pc.allots pc
  right : point = true → ∀ answer, pc.answered = some answer →
    answer.outcome = ((σ.task i).op.apply σ.map).1

theorem fresh_plain (plain : pc.splitting = false) : pc.fresh = none := by
  cases pc with
  | right | innerRight => cases plain
  | _ => rfl

theorem Advanced.quiet (grounded : Grounded σ g) (task : σ.task i = ⟨op, before⟩)
    (same : Same σ.store s) (plain : before.splitting = false) (plain' : pc.splitting = false)
    (still : before.allots pc = 0) (knows : Knows g op pc)
      (admitted : op.Admitted) : Advanced σ i s pc false g := by
  constructor
  · exact ⟨g, grounded.moved task same plain plain' knows admitted rfl, .refl ..⟩
  · rw [fresh_plain plain']
    exact nofun
  · rw [same.metaPage, task, still]
    rfl
  · exact nofun

theorem Advanced.read {answer : Answer} (grounded : Grounded σ g) (task : σ.task i = ⟨op, before⟩)
    (same : Same σ.store s) (plain : before.splitting = false) (still : before.allots (.done answer) = 0)
    (admitted : op.Admitted) (right : op.apply σ.map = (answer.outcome, σ.map)) : Advanced σ i s
      (.done answer) true g := by
  constructor
  · refine ⟨g, grounded.moved task same plain rfl trivial admitted ?_, .of_row rfl⟩
    rw [State.map_moved, task]
    exact congrArg Prod.snd right
  · exact nofun
  · rw [same.metaPage, task, still]
    rfl
  · intro _ answer' eq
    cases eq
    rw [task]
    exact (congrArg Prod.fst right).symm

theorem Advanced.placed {b : Option Bytes} (grounded : Grounded σ g) (latches : Latches σ)
    (task : σ.task i = ⟨.put key value txid wantBefore, before⟩)
    (held : (σ.task i).pageMode leaf = some .exclusive) (reaches : Reaches g.row key leaf)
    (plain : before.splitting = false) (still : before.allots pc = 0) (ended : pc.answered = some (.ok b))
    (admitted : (Op.put key value txid wantBefore).Admitted)
    (run : ∀ prev next recs, σ.store.bodies leaf = .leaf prev next recs →
      (recs.map Prod.fst).Pairwise (· < ·) → (σ.store.view leaf).Accounted →
      PlacedAt key value leaf prev next recs σ.store s ∧
        b = if wantBefore then recs.lookup key else none) : Advanced σ i s pc true g := by
  have st : Standing g := by
    obtain ⟨pre, b, post, loc⟩ := reaches
    exact grounded.standing (by simp [loc.eq])
  obtain ⟨pre, bound, post, prev, next, recs, loc, body, asc, lookup⟩ := st.reached reaches
  rw [task] at held
  have agree := grounded.agree_held task latches plain held
  have acc := grounded.backed.accounted (bound, leaf) (by simp [loc.eq])
  obtain ⟨placed, rfl⟩ := run prev next recs (agree.trans body) asc acc
  have pages : s.metaPage.numPages = σ.store.metaPage.numPages := by
    obtain ⟨lo, hi, t, cut, -, -, wrote, -⟩ := placed
    have pages : t.metaPage.numPages = σ.store.metaPage.numPages := by rw [wrote.metaPage]
    rcases cut with ⟨-, rfl⟩ | ⟨-, rfl⟩
    · exact pages
    · exact pages
  have answered : pc.answered ≠ none := by
    rw [ended]
    exact nofun
  constructor
  · have map : (σ.moved i s pc true).map = Function.update σ.map key (some value) := by
      rw [State.map_moved, task]
      rfl
    obtain ⟨g', grounded', row⟩ :=
      grounded.placed task latches held loc body placed plain answered admitted map
    exact ⟨g', grounded', .of_row row⟩
  · rw [fresh_plain (plain_ended answered)]
    exact nofun
  · rw [pages, task, still]
    rfl
  · intro _ answer eq
    cases ended.symm.trans eq
    rw [task, lookup, grounded.entries key]
    rfl

theorem Advanced.retreated (grounded : Grounded σ g) (latches : Latches σ)
    (task : σ.task i = ⟨.put key value txid wantBefore, .owned false leaf⟩)
    (run : putAtLeaf key value txid wantBefore leaf σ.store = .ok none s) : Advanced σ i s .slow false g := by
  have reaches := grounded.knows i
  have admitted := grounded.admitted i
  rw [task] at reaches admitted
  have st : Standing g := by
    obtain ⟨pre, b, post, loc⟩ := reaches
    exact grounded.standing (by simp [loc.eq])
  obtain ⟨pre, b, post, prev, next, recs, loc, body, asc, -⟩ := st.reached reaches
  have held : (Task.mk (.put key value txid wantBefore) (.owned false leaf)).pageMode leaf =
      some .exclusive := if_pos List.mem_cons_self
  have agree := grounded.agree_held task latches rfl held
  have acc := grounded.backed.accounted (b, leaf) (by simp [loc.eq])
  rcases putAtLeaf_local key value txid wantBefore (agree.trans body) asc acc with
    ⟨t, gave, same⟩ | ⟨t, -, done⟩
  · cases gave.symm.trans run
    exact .quiet grounded task same rfl rfl rfl trivial (admitted rfl)
  · cases done.symm.trans run

/-- Once the call that bars the root splits no more, no call does. -/
theorem Latches.still (latches : Latches σ) (task : σ.task i = ⟨op, before⟩)
    (alone : before.rootMode = some .exclusive) (plain : pc.splitting = false) (j : Nat) :
    ((σ.moved i s pc point).task j).pc.splitting = false := by
  refine State.each_moved (P := fun _ t => t.pc.splitting = false) plain (fun j ne => ?_) j
  exact plain_of_rootMode (latches.rootAlone (by rw [task]; exact alone) ne)

theorem Advanced.seeded {u : Unit} (grounded : Grounded σ g) (latches : Latches σ)
    (task : σ.task i = ⟨.put key value txid wantBefore, .slowRooted⟩)
    (none : σ.store.metaPage.rootPageId = kInvalidPageId)
    (run : putFirst key value txid σ.store = .ok u s) :
    Advanced σ i s (.unwind [] true [] (.ok Option.none)) true g := by
  have empty : g.Empty := by
    rcases grounded.tree with empty | st
    · exact empty
    · exact absurd none (grounded.backed.root_ne st)
  have admitted := grounded.admitted i
  rw [task] at admitted
  obtain ⟨-, count⟩ := grounded.agree_alone task latches rfl rfl
  rw [empty.entries] at count
  obtain ⟨rep, grows⟩ := putFirst_ok grounded.backed.sound count run
  constructor
  · have map : (σ.moved i s (.unwind [] true [] (.ok Option.none)) true).map =
        Function.update σ.map key (some value) := by
      rw [State.map_moved, task]
      rfl
    have ended : (Pc.unwind [] true [] (.ok Option.none)).answered ≠ Option.none := nofun
    obtain ⟨g', grounded'⟩ := grounded.planted task latches rfl empty rep ended (admitted rfl) map
    refine ⟨g', grounded', empty.1 ▸ List.nil_sublist _, .inr ?_, fun same => absurd same State.order_moved⟩
    exact latches.still task rfl rfl
  · exact nofun
  · rw [grows, task]
    rfl
  · intro _ answer eq
    cases eq
    have absent : σ.map key = Option.none := by
      rw [← grounded.entries, empty.entries]
      rfl
    rw [task]
    simp only [Op.apply, absent, ite_self]
    rfl

theorem Advanced.erased {answer : Answer} (grounded : Grounded σ g) (latches : Latches σ)
    (task : σ.task i = ⟨.delete key txid wantBefore, .crab false leaf⟩) (reaches : Reaches g.row key leaf)
    (run : answering (deleteAtLeaf key txid wantBefore leaf) σ.store = .ok answer s) :
    Advanced σ i s (.done answer) true g := by
  have st : Standing g := by
    obtain ⟨pre, b, post, loc⟩ := reaches
    exact grounded.standing (by simp [loc.eq])
  obtain ⟨pre, bound, post, prev, next, recs, loc, body, asc, lookup⟩ := st.reached reaches
  have held : (Task.mk (.delete key txid wantBefore) (.crab false leaf)).pageMode leaf = some .exclusive :=
    if_pos rfl
  have agree := grounded.agree_held task latches rfl held
  have acc := grounded.backed.accounted (bound, leaf) (by simp [loc.eq])
  have here := deleteAtLeaf_answer (agree.trans body) asc acc run
  rw [lookup, grounded.entries key] at here
  cases old : σ.map key with
  | none =>
    simp only [old] at here
    obtain ⟨rfl, outcome⟩ := here
    refine Advanced.read grounded task (Same.refl _) rfl rfl trivial ?_
    simp only [Op.apply, old, outcome]
  | some old' =>
    simp only [old] at here
    obtain ⟨lo, hi, t, rfl, below, above, wrote, acc', rfl, outcome⟩ := here
    constructor
    · have map : (σ.moved i (t.counted (-1)) (.done answer) true).map = Function.update σ.map key none := by
        rw [State.map_moved, task]
        simp only [if_true, Op.apply, old]
      have ended : (Pc.done answer).answered ≠ none := nofun
      obtain ⟨g', grounded', row⟩ :=
        grounded.erased task latches held loc body below above wrote acc' rfl ended trivial map
      exact ⟨g', grounded', .of_row row⟩
    · exact nofun
    · change t.metaPage.numPages = _
      rw [wrote.metaPage, task]
      rfl
    · intro _ answer' eq
      cases eq
      rw [task, outcome]
      simp only [Op.apply, old]

theorem Advanced.progress (grounded : Grounded σ g) (latches : Latches σ)
    (task : σ.task i = ⟨.put key value txid wantBefore, before⟩)
    (alone : before.rootMode = some .exclusive) (grown : g.row ≠ []) (splitting : pc.splitting = true)
    (phase : Phase g s key value wantBefore pc) (backed : Backed g s)
    (count : s.metaPage.numKeys = g.entries.length + pc.owed)
    (fresh : ∀ p, pc.fresh = some p → σ.store.metaPage.numPages ≤ p ∧ p < s.metaPage.numPages)
    (grows : s.metaPage.numPages = σ.store.metaPage.numPages + before.allots pc)
    (admitted : (Op.put key value txid wantBefore).Admitted) : Advanced σ i s pc false g := by
  constructor
  · exact ⟨g, grounded.progress task latches alone backed splitting
      ⟨grown, key, value, txid, wantBefore, rfl, phase⟩ count admitted, .refl ..⟩
  · exact fresh
  · rw [grows, task]
  · exact nofun

theorem Advanced.committed {sp : Splitting} {c : Scene} {g' : Ghost} {sep : Bytes} {left right : PageId}
    {rest : List PageId} (grounded : Grounded σ g) (latches : Latches σ)
    (task : σ.task i = ⟨.put key value txid wantBefore, .climb sp rest sep left right⟩)
    (st : Standing g) (holds : c.Holds g key wantBefore sp)
    (done : Committed (Pc.guards sp) key value sp.replacing g g' s)
    (count : s.metaPage.numKeys = σ.store.metaPage.numKeys)
    (grows : s.metaPage.numPages = σ.store.metaPage.numPages +
      (Pc.climb sp rest sep left right).allots (.unwind (Pc.guards sp) true [] (.ok sp.before)))
    (admitted : (Op.put key value txid wantBefore).Admitted) :
    Advanced σ i s (.unwind (Pc.guards sp) true [] (.ok sp.before)) true g := by
  have owed := (grounded.splits i (by rw [task]; rfl)).2
  rw [task, ← count] at owed
  have held : ∀ p ∈ Pc.guards sp, (Task.mk (.put key value txid wantBefore)
      (.climb sp rest sep left right)).pageMode p = some .exclusive := fun p mem => if_pos mem
  constructor
  · refine ⟨g', grounded.committed task latches rfl held done owed nofun admitted ?_, done.row, .inr ?_,
      fun same => absurd same State.order_moved⟩
    · rw [State.map_moved, task]
      rfl
    · exact latches.still task rfl rfl
  · exact nofun
  · rw [grows, task]
  · intro _ answer eq
    cases eq
    have lookup : g.entries.lookup key = (recsOf (g.bodies c.x.2)).lookup key :=
      st.leaves.lookup ⟨holds.row st, holds.le, holds.lt⟩
    rw [holds.body, grounded.entries key] at lookup
    have found : c.recs.lookup key = σ.map key := lookup.symm
    rw [task, holds.before, found]
    rfl

theorem Advanced.crab {root : Bool} {node : PageId} (grounded : Grounded σ g) (latches : Latches σ)
    (task : σ.task i = ⟨op, .crab root node⟩) :
    Standing g ∧ op.Admitted ∧
      ((σ.store.view node).isLeaf = true ∧ Reaches g.row op.key node ∨
        (σ.store.view node).isLeaf = false ∧ At g op.key (op.child (σ.store.view node))) := by
  have at_ := grounded.knows i
  have admitted := grounded.admitted i
  rw [task] at at_ admitted
  have st := grounded.standing at_.1
  have agree := grounded.agree_held (p := node) task latches rfl (if_pos rfl)
  refine ⟨st, admitted rfl, ?_⟩
  rcases st.access at_ agree with leaf | ⟨inner, next⟩
  · exact .inl leaf
  · refine .inr ⟨inner, ?_⟩
    rw [st.child at_ agree inner]
    exact next

theorem Held.access {ancestors : List PageId} {node : PageId} {page : Page} (st : Standing g)
    (held : Held g key ancestors node) (le : ancestors.length ≤ g.height)
    (body : page.body = g.bodies node) :
    page.isLeaf = true ∧ ancestors.length = g.height ∨
      page.isLeaf = false ∧ Held g key (node :: ancestors) (page.findChild key) ∧
        ancestors.length + 1 ≤ g.height := by
  obtain ⟨some, pre, b, post, climb, low, high⟩ := held
  have loc : Located (g.level ancestors.length) key pre (b, node) post := ⟨climb.level, low, high⟩
  rcases Nat.lt_or_eq_of_le le with lt | eq
  · obtain ⟨nodes, asc⟩ := st.below lt
    obtain ⟨r, es, spre, y, spost, node', children, loc', find⟩ := loc.child nodes asc
    have next := Climb.down climb node' children
    have held : Held g key (node :: ancestors) y.2 :=
      ⟨some, expand g.bodies pre ++ spre, y.1, _, next, loc'.le, loc'.lt⟩
    refine .inr ⟨not_isLeaf_of_body (body.trans node'), ?_, lt⟩
    rw [find page body]
    exact held
  · rw [eq] at loc
    obtain ⟨-, prev, next, recs, leaf⟩ := st.isLeaf loc
    exact .inl ⟨isLeaf_of_body (body.trans leaf), eq⟩

theorem Held.reaches {ancestors : List PageId} (st : Standing g) (held : Held g key ancestors leaf)
    (eq : ancestors.length = g.height) : Reaches g.row key leaf := by
  obtain ⟨-, pre, b, post, climb, low, high⟩ := held
  refine ⟨pre, b, post, ?_, low, high⟩
  rw [← st.level, ← eq]
  exact climb.level

theorem Grounded.split (grounded : Grounded σ g) (task : σ.task i = ⟨.put key value txid wantBefore, before⟩)
    (splitting : before.splitting = true) :
    Standing g ∧ Phase g σ.store key value wantBefore before ∧
      σ.store.metaPage.numKeys = g.entries.length + before.owed := by
  obtain ⟨splits, count⟩ := grounded.splits i (by rw [task]; exact splitting)
  rw [task] at splits count
  obtain ⟨grown, key, value, txid, wantBefore, eq, phase⟩ := splits
  cases eq
  exact ⟨grounded.standing grown, phase, count⟩

theorem Standing.link (st : Standing g) {b : Bytes} (mem : (b, leaf) ∈ g.row) :
    ∃ pre post prev recs, g.row = pre ++ (b, leaf) :: post ∧
      g.bodies leaf = .leaf prev ((post.map Prod.snd).headD kInvalidPageId) recs ∧
      (recs.map Prod.fst).Pairwise (· < ·) ∧ (∀ r ∈ recs, b ≤ r.1) ∧ ∀ r ∈ recs, ∀ y ∈ post, r.1 < y.1 := by
  obtain ⟨pre, post, row⟩ := List.append_of_mem mem
  have lr := st.leaves
  rw [row] at lr
  have linked := lr.linked
  simp only [List.map_append, List.map_cons, linked_append, Linked] at linked
  obtain ⟨-, ⟨recs, body⟩, -⟩ := linked
  have here : recsOf (g.bodies leaf) = recs := by rw [body]; rfl
  have keys := lr.keys (b, leaf) (by simp)
  have lower := lr.lower (b, leaf) (by simp)
  rw [here] at keys lower
  exact ⟨pre, post, _, recs, row, body, keys, lower, fun r hr y hy => lr.here_lt (here ▸ hr) hy⟩

theorem Standing.copied (st : Standing g) {b : Bytes} {page : Page} (mem : (b, leaf) ∈ g.row)
    (body : page.body = g.bodies leaf) : Copied g.row page := by
  obtain ⟨pre, post, prev, recs, row, here, asc, -, upper⟩ := st.link mem
  refine ⟨prev, _, recs, body.trans here, asc, ?_⟩
  cases post with
  | nil => exact .inl rfl
  | cons y rest =>
    refine .inr ⟨y.1, ?_, fun r hr => upper r hr y (by simp)⟩
    rw [row]
    simp

theorem Grounded.barren (grounded : Grounded σ g)
    (none : σ.store.metaPage.rootPageId = kInvalidPageId) (key : Bytes) :
    σ.map key = Option.none := by
  rcases grounded.tree with empty | st
  · rw [← grounded.entries, empty.entries]
    rfl
  · exact absurd none (grounded.backed.root_ne st)

theorem Grounded.here (grounded : Grounded σ g) (task : σ.task i = ⟨op, before⟩)
    (begun : before.begun = true) :
    Knows g op before ∧ op.Admitted := by
  have knows := grounded.knows i
  have admitted := grounded.admitted i
  rw [task] at knows admitted
  exact ⟨knows, admitted begun⟩

/- One kind of step after the other. -/

namespace Advanced

theorem absent (grounded : Grounded σ g) (task : σ.task i = ⟨op, .rooted⟩)
    (empty : σ.store.metaPage.rootPageId = kInvalidPageId) (put : op.isPut = false)
      (cursor : op.isCursor = false) :
    Advanced σ i σ.store (.done (.error (.NotFound "Key not found (empty tree)"))) true g := by
  have none := grounded.barren empty op.key
  refine .read grounded task (Same.refl _) rfl rfl (grounded.here task rfl).2 ?_
  cases op with
  | get | delete =>
    simp only [Op.key] at none
    simp only [Op.apply, none]
    rfl
  | put => cases put
  | seek | seekToFirst => cases cursor

theorem entered (grounded : Grounded σ g) (task : σ.task i = ⟨op, .rooted⟩)
    (some : σ.store.metaPage.rootPageId ≠ kInvalidPageId) (same : Same σ.store s) :
    Advanced σ i s (.crab true σ.store.metaPage.rootPageId) false g := by
  have st := grounded.backed.root_mem grounded.tree some
  refine .quiet grounded task same rfl rfl rfl ?_ (grounded.here task rfl).2
  rw [grounded.backed.root]
  exact st.atRoot _

theorem child {root : Bool} {node : PageId} (grounded : Grounded σ g) (latches : Latches σ)
    (task : σ.task i = ⟨op, .crab root node⟩) (inner : (σ.store.view node).isLeaf = false)
      (same : Same σ.store s) :
    Advanced σ i s (.crab root (op.child (σ.store.view node))) false g := by
  obtain ⟨-, admitted, ⟨leaf, -⟩ | ⟨-, next⟩⟩ := Advanced.crab grounded latches task
  · cases inner.symm.trans leaf
  · exact .quiet grounded task same rfl rfl rfl next admitted

theorem got {answer : Answer} (grounded : Grounded σ g) (latches : Latches σ)
    (task : σ.task i = ⟨.get key, .crab false leaf⟩) (isLeaf : (σ.store.view leaf).isLeaf = true)
    (run : answering (getAtLeaf key leaf) σ.store = .ok answer s) : Advanced σ i s (.done answer) true g := by
  obtain ⟨st, -, ⟨-, reaches⟩ | ⟨inner, -⟩⟩ := Advanced.crab grounded latches task
  · obtain ⟨pre, b, post, prev, next, recs, loc, body, asc, lookup⟩ := st.reached reaches
    have agree := grounded.agree_held task latches rfl (if_pos rfl)
    obtain ⟨rfl, outcome⟩ := getAtLeaf_answer (agree.trans body) asc run
    have found : recs.lookup key = σ.map key := lookup.trans (grounded.entries key)
    refine .read grounded task (Same.refl _) rfl rfl trivial ?_
    rw [outcome, found]
    cases look : σ.map key with
    | none => simp only [Op.apply, look]
    | some value => simp only [Op.apply, look]
  · cases inner.symm.trans isLeaf

theorem deleted {answer : Answer} (grounded : Grounded σ g) (latches : Latches σ)
    (task : σ.task i = ⟨.delete key txid wantBefore, .crab false leaf⟩)
      (isLeaf : (σ.store.view leaf).isLeaf = true)
    (run : answering (deleteAtLeaf key txid wantBefore leaf) σ.store = .ok answer s) :
    Advanced σ i s (.done answer) true g := by
  obtain ⟨-, -, ⟨-, reaches⟩ | ⟨inner, -⟩⟩ := Advanced.crab grounded latches task
  · exact .erased grounded latches task reaches run
  · cases inner.symm.trans isLeaf

theorem swapped {root : Bool} (grounded : Grounded σ g) (latches : Latches σ)
    (task : σ.task i = ⟨op, .crab root leaf⟩) (isLeaf : (σ.store.view leaf).isLeaf = true) :
    Advanced σ i σ.store (.swap leaf) false g := by
  obtain ⟨-, admitted, ⟨-, reaches⟩ | ⟨inner, -⟩⟩ := Advanced.crab grounded latches task
  · exact .quiet grounded task (Same.refl _) rfl rfl rfl reaches admitted
  · cases inner.symm.trans isLeaf

/-- A cursor that has come to its leaf. -/
theorem floor (grounded : Grounded σ g) (latches : Latches σ) (task : σ.task i = ⟨op, .crab false leaf⟩)
    (isLeaf : (σ.store.view leaf).isLeaf = true) : Floor g.row op.key leaf := by
  obtain ⟨-, -, ⟨-, pre, b, post, loc⟩ | ⟨inner, -⟩⟩ := Advanced.crab grounded latches task
  · refine ⟨b, ?_, loc.le⟩
    rw [loc.eq]
    simp
  · cases inner.symm.trans isLeaf

theorem wrote {b : Option Bytes} (grounded : Grounded σ g) (latches : Latches σ)
    (task : σ.task i = ⟨.put key value txid wantBefore, .owned false leaf⟩)
    (run : putAtLeaf key value txid wantBefore leaf σ.store = .ok (some b) s) :
    Advanced σ i s (.done (.ok b)) true g := by
  obtain ⟨knows, admitted⟩ := grounded.here task rfl
  refine .placed grounded latches task ?_ knows rfl rfl rfl admitted fun prev next recs body asc acc => ?_
  · rw [task]
    exact if_pos List.mem_cons_self
  · rcases putAtLeaf_local _ _ _ _ body asc acc with ⟨t, gave, -⟩ | ⟨t, placed, done⟩
    · cases gave.symm.trans run
    · cases done.symm.trans run
      exact ⟨placed, rfl⟩

/- The pessimistic Put on its way down. -/

theorem descended (grounded : Grounded σ g) (task : σ.task i = ⟨op, .slowRooted⟩)
    (some : σ.store.metaPage.rootPageId ≠ kInvalidPageId) :
    Advanced σ i σ.store (.path [] σ.store.metaPage.rootPageId) false g := by
  have st := grounded.backed.root_mem grounded.tree some
  refine .quiet grounded task (Same.refl _) rfl rfl rfl ⟨⟨st.row_ne_nil, [], [], [], ?_,
    nil_le_bytes _, by simp⟩,
    Nat.zero_le _⟩ (grounded.here task rfl).2
  rw [grounded.backed.root]
  exact .top

theorem path {stack : List PageId} {node : PageId} (grounded : Grounded σ g) (latches : Latches σ)
    (task : σ.task i = ⟨op, .path stack node⟩) (same : Same σ.store s) :
    (s.view node).isLeaf = true ∧ Knows g op (.held stack node) ∨
      (s.view node).isLeaf = false ∧ Knows g op (.path (node :: stack) ((s.view node).findChild op.key)) := by
  obtain ⟨held, le⟩ := (grounded.here task rfl).1
  obtain ⟨agree, -⟩ := grounded.agree_alone task latches rfl rfl
  have body : (s.view node).body = g.bodies node := congrFun (same.bodies.trans agree) node
  rcases held.access (grounded.standing held.1) le body with ⟨leaf, eq⟩ | ⟨inner, next⟩
  · exact .inl ⟨leaf, held, eq⟩
  · exact .inr ⟨inner, next⟩

theorem down {stack : List PageId} {node : PageId} (grounded : Grounded σ g) (latches : Latches σ)
    (task : σ.task i = ⟨.put key value txid wantBefore, .path stack node⟩) (same : Same σ.store s)
    (inner : (s.view node).isLeaf = false) :
    Advanced σ i s (.path (node :: stack) ((s.view node).findChild key)) false g := by
  rcases path grounded latches task same with ⟨leaf, -⟩ | ⟨-, knows⟩
  · cases inner.symm.trans leaf
  · exact .quiet grounded task same rfl rfl rfl knows (grounded.here task rfl).2

theorem arrived {stack : List PageId} {node : PageId} (grounded : Grounded σ g) (latches : Latches σ)
    (task : σ.task i = ⟨op, .path stack node⟩) (same : Same σ.store s)
      (isLeaf : (s.view node).isLeaf = true) :
    Advanced σ i s (.held stack node) false g := by
  rcases path grounded latches task same with ⟨-, knows⟩ | ⟨inner, -⟩
  · exact .quiet grounded task same rfl rfl rfl knows (grounded.here task rfl).2
  · cases inner.symm.trans isLeaf

theorem absorbed {ancestors : List PageId} {r : AtLeaf} (grounded : Grounded σ g) (latches : Latches σ)
    (task : σ.task i = ⟨.put key value txid wantBefore, .held ancestors leaf⟩)
    (run : putHeldLeaf key value txid wantBefore leaf σ.store = .ok r s) (done : r.absorbed = true) :
    Advanced σ i s (.unwind ancestors.reverse true [leaf] (.ok r.before)) true g := by
  obtain ⟨⟨held, eq⟩, admitted⟩ := grounded.here task rfl
  have reaches := held.reaches (grounded.standing held.1) eq
  refine .placed grounded latches task ?_ reaches rfl rfl rfl admitted fun prev next recs body asc acc => ?_
  · rw [task]
    exact if_pos List.mem_cons_self
  · obtain ⟨before, ⟨-, placed⟩ | ⟨full, -⟩⟩ := putHeldLeaf_local body asc acc run
    · exact ⟨placed, before⟩
    · cases done.symm.trans full

/- The split of a leaf. -/

theorem split {ancestors : List PageId} {r : AtLeaf} {cut : LeafCut} {t : Store} (grounded : Grounded σ g)
    (latches : Latches σ) (task : σ.task i = ⟨.put key value txid wantBefore, .held ancestors leaf⟩)
    (run : putHeldLeaf key value txid wantBefore leaf σ.store = .ok r t) (full : r.absorbed = false)
    (half : splitLeafLeft leaf txid t = .ok cut s) :
    Advanced σ i s (.right ⟨ancestors, leaf, r.before, r.replacing, []⟩ cut) false g := by
  obtain ⟨⟨⟨some, pre, b, post, climb, le, lt⟩, height⟩, admitted⟩ := grounded.here task rfl
  obtain ⟨agree, count⟩ := grounded.agree_alone task latches rfl rfl
  obtain ⟨phase, backed, keys, new, pages⟩ :=
    begin_split (grounded.standing some) grounded.backed agree climb height le lt admitted run full half
  refine .progress grounded latches task rfl some rfl phase backed ?_ ?_ pages admitted
  · rw [keys, count]
    exact (Int.add_zero _).symm
  · intro p eq
    cases eq
    rw [new, pages]
    exact ⟨le_rfl, Nat.lt_succ_self _⟩

theorem righted {sp : Splitting} {cut : LeafCut} {u : Unit} (grounded : Grounded σ g) (latches : Latches σ)
    (task : σ.task i = ⟨.put key value txid wantBefore, .right sp cut⟩)
    (run : splitLeafRight sp.leaf txid cut σ.store = .ok u s) : Advanced σ i s (.relink sp cut) false g := by
  obtain ⟨st, phase, count⟩ := grounded.split task rfl
  obtain ⟨phase', backed, page⟩ := right_step st grounded.backed phase run
  exact .progress grounded latches task rfl st.row_ne_nil rfl phase' backed (page ▸ count) nofun (page ▸ rfl)
    (grounded.here task rfl).2

theorem last {sp : Splitting} {cut : LeafCut} (grounded : Grounded σ g) (latches : Latches σ)
    (task : σ.task i = ⟨.put key value txid wantBefore, .relink sp cut⟩)
      (none : cut.oldNext = kInvalidPageId) :
    Advanced σ i σ.store (.place sp cut) false g := by
  obtain ⟨st, phase, count⟩ := grounded.split task rfl
  exact .progress grounded latches task rfl st.row_ne_nil rfl (relink_last st grounded.backed phase none)
    grounded.backed count nofun rfl (grounded.here task rfl).2

theorem relinked {sp : Splitting} {cut : LeafCut} {u : Unit} (grounded : Grounded σ g) (latches : Latches σ)
    (task : σ.task i = ⟨.put key value txid wantBefore, .relink sp cut⟩) (some : cut.oldNext ≠ kInvalidPageId)
    (run : relinkSibling cut.oldNext cut.new txid σ.store = .ok u s) :
    Advanced σ i s (.place { sp with opGuards := [cut.oldNext] } cut) false g := by
  obtain ⟨st, phase, count⟩ := grounded.split task rfl
  obtain ⟨phase', backed, page⟩ := relink_step st grounded.backed phase some run
  exact .progress grounded latches task rfl st.row_ne_nil rfl phase' backed (page ▸ count) nofun (page ▸ rfl)
    (grounded.here task rfl).2

theorem halved {sp : Splitting} {cut : LeafCut} {u u' : Unit} {t : Store} (grounded : Grounded σ g)
    (latches : Latches σ) (task : σ.task i = ⟨.put key value txid wantBefore, .place sp cut⟩)
    (run : insertSplit key value txid wantBefore sp.before cut.splitKey sp.leaf cut.new σ.store = .ok u t)
    (counted : onlyIf (!sp.replacing) (addToNumKeys 1) t = .ok u' s) :
    Advanced σ i s (.climb { sp with opGuards := sp.opGuards ++
      [cut.new] } sp.ancestors cut.splitKey sp.leaf cut.new)
      false g := by
  obtain ⟨st, phase, count⟩ := grounded.split task rfl
  obtain ⟨phase', backed, keys, pages⟩ := place_step st grounded.backed phase run counted
  refine .progress grounded latches task rfl st.row_ne_nil rfl phase' backed ?_ nofun pages
    (grounded.here task rfl).2
  rw [keys, count]
  exact congrArg (· + _) (Int.add_zero _)

/- The separator on its way up. -/

section Climb

variable {sp : Splitting} {sep : Bytes} {left right parent : PageId} {rest : List PageId}
    {cut : NodeCut} {u : Unit}

theorem rooted (grounded : Grounded σ g) (latches : Latches σ)
    (task : σ.task i = ⟨.put key value txid wantBefore, .climb sp [] sep left right⟩)
    (run : createNewRoot sep left right txid σ.store = .ok u s) :
    Advanced σ i s (.unwind (Pc.guards sp) true [] (.ok sp.before)) true g := by
  obtain ⟨st, ⟨c, q, b, l, r, k, holds, halved, climbing⟩, -⟩ := grounded.split task rfl
  obtain ⟨done, keys, grows⟩ := root_step st grounded.backed holds halved climbing run
  exact .committed grounded latches task st holds done keys grows (grounded.here task rfl).2

theorem grafted {p : Page} (grounded : Grounded σ g) (latches : Latches σ)
    (task : σ.task i = ⟨.put key value txid wantBefore, .climb sp (parent :: rest) sep left right⟩)
    (insert : (σ.store.view parent).insertInternalAfterSplit sep left right = (true, p))
    (same : Same (σ.store.putPage parent p) s) :
    Advanced σ i s (.unwind (Pc.guards sp) true [] (.ok sp.before)) true g := by
  obtain ⟨st, ⟨c, q, b, l, r, k, holds, halved, climbing⟩, -⟩ := grounded.split task rfl
  have done := absorb_step st grounded.backed holds halved climbing insert same
  have page : s.metaPage = σ.store.metaPage := same.metaPage
  exact .committed grounded latches task st holds done (by rw [page]) (by rw [page]; rfl)
    (grounded.here task rfl).2

theorem torn {t : Store} (grounded : Grounded σ g) (latches : Latches σ)
    (task : σ.task i = ⟨.put key value txid wantBefore, .climb sp (parent :: rest) sep left right⟩)
    (same : Same σ.store t) (half : splitInternalLeft parent txid t = .ok cut s) :
    Advanced σ i s (.innerRight sp rest sep left right parent cut) false g := by
  obtain ⟨st, phase, count⟩ := grounded.split task rfl
  obtain ⟨c, q, b, l, r, k, holds, halved, climbing⟩ := phase.aside (aside_alike _ g same.alike)
  obtain ⟨⟨d, tearing⟩, halved', backed, keys, new, pages⟩ :=
    tear_step st (grounded.backed.alike same.alike) holds halved climbing half
  rw [same.metaPage] at keys new pages
  refine .progress grounded latches task rfl st.row_ne_nil rfl ⟨c, q, b, l, r, k, d, holds, halved',
    tearing⟩ backed
    (keys.trans count) ?_ pages (grounded.here task rfl).2
  intro p eq
  cases eq
  rw [new, pages]
  exact ⟨le_rfl, Nat.lt_succ_self _⟩

theorem innerRighted (grounded : Grounded σ g) (latches : Latches σ)
    (task : σ.task i = ⟨.put key value txid wantBefore, .innerRight sp rest sep left right parent cut⟩)
    (run : splitInternalRight txid cut σ.store = .ok u s) :
    Advanced σ i s (.innerPlace sp rest sep left right parent cut) false g := by
  obtain ⟨st, ⟨c, q, b, l, r, k, d, holds, halved, tearing⟩, count⟩ := grounded.split task rfl
  obtain ⟨tearing', halved', backed, page⟩ := innerRight_step st grounded.backed holds halved tearing run
  exact .progress grounded latches task rfl st.row_ne_nil rfl ⟨c, q, b, l, r, k, d, holds, halved',
    tearing'⟩ backed
    (page ▸ count) nofun (page ▸ rfl) (grounded.here task rfl).2

theorem innerPlaced (grounded : Grounded σ g) (latches : Latches σ)
    (task : σ.task i = ⟨.put key value txid wantBefore, .innerPlace sp rest sep left right parent cut⟩)
    (run : insertIntoHalf txid sep cut.splitKey left right parent cut.new σ.store = .ok u s) :
    Advanced σ i s (.climb { sp with opGuards := sp.opGuards ++
      [cut.new] } rest cut.splitKey parent cut.new) false g := by
  obtain ⟨st, ⟨c, q, b, l, r, k, d, holds, halved, tearing⟩, count⟩ := grounded.split task rfl
  obtain ⟨⟨k', climbing⟩, halved', backed, page⟩ :=
    innerPlace_step st grounded.backed holds halved tearing run
  exact .progress grounded latches task rfl st.row_ne_nil rfl ⟨c, q, b, l, r, k', holds.guards _,
    halved', climbing⟩
    backed (page ▸ count) nofun (page ▸ rfl) (grounded.here task rfl).2

end Climb

/- A cursor from leaf to leaf. -/

theorem copied {index : Nat} (grounded : Grounded σ g) (latches : Latches σ)
    (task : σ.task i = ⟨op, .bounded leaf index⟩)
    (ready : σ.available i (need op σ.store (.bounded leaf index)) = true) (same : Same σ.store s) :
    Advanced σ i s (.walk (s.view leaf) index []) false g := by
  obtain ⟨⟨b, mem, -⟩, admitted⟩ := grounded.here task rfl
  have st : Standing g := grounded.standing (List.ne_nil_of_mem mem)
  have agree := grounded.agree_free task latches rfl ready
  exact .quiet grounded task same rfl rfl rfl (st.copied mem ((congrFun same.bodies _).trans agree)) admitted

theorem hopped {page : Page} {index : Nat} {seen : List (Bytes × Bytes)} (grounded : Grounded σ g)
    (latches : Latches σ)
    (task : σ.task i = ⟨op, .walk page index seen⟩)
    (ready : σ.available i (need op σ.store (.walk page index seen)) = true) (less : page.numSlots ≤ index)
    (next : page.getNextLeaf ≠ kInvalidPageId) (same : Same σ.store s) :
    Advanced σ i s (.walk (s.view page.getNextLeaf) 0 seen) false g := by
  have waits : need op σ.store (.walk page index seen) = .page page.getNextLeaf .shared :=
    if_neg (not_or.mpr ⟨not_lt.mpr less, next⟩)
  rw [waits] at ready
  have agree := grounded.agree_free task latches rfl ready
  obtain ⟨⟨prev, next', recs, body, -, last | ⟨u, mem, -⟩⟩, admitted⟩ := grounded.here task rfl
  · refine absurd ?_ next
    simpa [Page.getNextLeaf, body] using last
  · have eq : page.getNextLeaf = next' := by simp [Page.getNextLeaf, body]
    rw [← eq] at mem
    have st : Standing g := grounded.standing (List.ne_nil_of_mem mem)
    exact .quiet grounded task same rfl rfl rfl
      (st.copied mem ((congrFun same.bodies _).trans agree)) admitted

end Advanced

/-- Whatever a call does next, the threads still agree on a tree. -/
theorem advance (grounded : Grounded σ g) (latches : Latches σ) (task : σ.task i = ⟨op, before⟩)
    (ready : σ.available i (need op σ.store before) = true) (m : Moves op σ.store before pc point s) :
    Advanced σ i s pc point g := by
  have here := grounded.here task
  cases m with
  | start ok => exact .quiet grounded task (Same.refl _) rfl rfl rfl trivial ok
  | absent empty put cursor => exact .absent grounded task empty put cursor
  | plant | barren => exact .quiet grounded task (Same.refl _) rfl rfl rfl trivial (here rfl).2
  | enter some same => exact .entered grounded task some same
  | release => exact .quiet grounded task (Same.refl _) rfl rfl rfl (here rfl).1 (here rfl).2
  | child under inner same => exact .child grounded latches task inner same
  | get isLeaf run => exact .got grounded latches task isLeaf run
  | delete isLeaf run => exact .deleted grounded latches task isLeaf run
  | swap isLeaf put => exact .swapped grounded latches task isLeaf
  | found isLeaf | first isLeaf =>
    exact .quiet grounded task (Same.refl _) rfl rfl rfl (Advanced.floor grounded latches task isLeaf) trivial
  | own put same => exact .quiet grounded task same rfl rfl rfl (here rfl).1 (here rfl).2
  | shed => exact .quiet grounded task (Same.refl _) rfl rfl rfl (here rfl).1 (here rfl).2
  | write run => exact .wrote grounded latches task run
  | retreat run => exact .retreated grounded latches task run
  | bar => exact .quiet grounded task (Same.refl _) rfl rfl rfl trivial (here rfl).2
  | seed empty run => exact .seeded grounded latches task empty run
  | descend put some => exact .descended grounded task some
  | down same inner => exact .down grounded latches task same inner
  | arrive put same isLeaf => exact .arrived grounded latches task same isLeaf
  | absorb run done => exact .absorbed grounded latches task run done
  | split run full half => exact .split grounded latches task run full half
  | right run => exact .righted grounded latches task run
  | last put none =>
    cases op with
    | put => exact .last grounded latches task none
    | get | delete | seek | seekToFirst => cases put
  | relink some run => exact .relinked grounded latches task some run
  | place run counted => exact .halved grounded latches task run counted
  | root run => exact .rooted grounded latches task run
  | graft insert same => exact .grafted grounded latches task insert same
  | tear full same half => exact .torn grounded latches task same half
  | innerRight run => exact .innerRighted grounded latches task run
  | innerPlace run => exact .innerPlaced grounded latches task run
  | drop | unbar | dropLeaf | leave =>
    exact .quiet grounded task (Same.refl _) rfl rfl rfl trivial (here rfl).2
  | bound cursor same => exact .quiet grounded task same rfl rfl rfl (here rfl).1 (here rfl).2
  | copy cursor same => exact .copied grounded latches task ready same
  | yield cursor more => exact .quiet grounded task (Same.refl _) rfl rfl rfl (here rfl).1 (here rfl).2
  | exhaust => exact .quiet grounded task (Same.refl _) rfl rfl rfl trivial (here rfl).2
  | hop cursor less next same isLeaf => exact .hopped grounded latches task ready less next same

/- Runs. -/

structure Inv (σ : State) (g : Ghost) : Prop where
  latches : Latches σ
  recorded : Recorded σ
  grounded : Grounded σ g

theorem Inv.alike (inv : Inv σ g) (alike : Alike σ.store s) : Inv { σ with store := s } g := by
  obtain ⟨latches, recorded, grounded⟩ := inv
  refine ⟨latches.same alike.pages, ?_, grounded.alike alike⟩
  exact ⟨recorded.lin, recorded.called, recorded.point, recorded.given⟩

theorem Inv.step {σ' : State} {e : Event} (inv : Inv σ g) (next : σ.step e = some σ') :
    ∃ g', Inv σ' g' ∧ Grew g g' σ σ' := by
  obtain ⟨latches, recorded, grounded⟩ := inv
  rcases State.step_cases next with ⟨op, -, rfl⟩ | ⟨i, s, pc, point, -, lt, ready, m, rfl⟩ |
    ⟨pid, s, -, evict, rfl⟩
  · exact ⟨g, ⟨latches.invoked op, recorded.invoked op, grounded.invoked latches op⟩, .refl ..⟩
  · obtain ⟨⟨g', grounded', row⟩, fresh, grows, right⟩ := advance grounded latches rfl ready m
    exact ⟨g', ⟨latches.moved lt ready m (fun p mode => grounded.acquired latches rfl) fresh
      (Nat.le.intro grows.symm), recorded.moved lt m right, grounded'⟩, row⟩
  · exact ⟨g, Inv.alike ⟨latches, recorded, grounded⟩ (evict_same evict).alike, .refl ..⟩

theorem Grounded.init {m : RefMap} (models : Models s m) : ∃ g, Grounded (State.init s m) g := by
  obtain ⟨entries, ⟨sound, count, tree⟩, agree⟩ := models
  have start : ∀ g : Ghost, Backed g s → g.Empty ∨ Standing g → g.entries = entries → s.bodies = g.bodies →
      Grounded (State.init s m) g := by
    intro g backed tree eq bodies
    constructor
    · exact backed
    · exact tree
    · rw [eq]
      exact agree
    · exact fun _ => trivial
    · exact nofun
    · rw [eq]
      exact fun _ => ⟨bodies, count⟩
    · exact nofun
  rcases tree with ⟨root, rfl⟩ | ⟨h, tree, rfl⟩
  · exact ⟨_, start ⟨s.bodies, kInvalidPageId, 0, []⟩
      ⟨sound, root, nofun, nofun⟩ (.inl ⟨rfl, rfl, rfl⟩) rfl rfl⟩
  · exact ⟨_, start ⟨s.bodies, s.metaPage.rootPageId, h, s.leaves h⟩ ⟨sound, rfl, tree.range, tree.accounted⟩
      (.inr (Tree.standing tree)) rfl rfl⟩

theorem Inv.init {m : RefMap} (models : Models s m) : ∃ g, Inv (State.init s m) g := by
  obtain ⟨g, grounded⟩ := Grounded.init models
  exact ⟨g, Latches.init s m, Recorded.init s m, grounded⟩

theorem Inv.always {m : RefMap} (models : Models s m) (events : List Event) :
    EveryState State.step (fun σ => ∃ g, Inv σ g) (State.init s m) events := by
  refine everyState_invariant ?_ (Inv.init models)
  rintro σ e σ' ⟨g, inv⟩ next
  obtain ⟨g', inv', -⟩ := inv.step next
  exact ⟨g', inv'⟩

/-- No Get, Delete or Put is under way. -/
def State.Returned (σ : State) : Prop :=
  ∀ i, (σ.task i).op.isCursor = true ∨ (σ.task i).pc = .idle ∨ ∃ answer, (σ.task i).pc = .done answer

theorem State.initial_step {σ' : State} {e : Event} (next : σ.step e = some σ') : σ'.initial = σ.initial := by
  rcases State.step_cases next with ⟨op, -, rfl⟩ | ⟨i, s, pc, point, -, -, -, -, rfl⟩ | ⟨pid, s, -, -, rfl⟩
  · rfl
  · rfl
  · rfl

theorem Inv.models (inv : Inv σ g) (returned : σ.Returned) : Models σ.store σ.map := by
  have grounded := inv.grounded
  have plain : ∀ i, (σ.task i).pc.splitting = false := by
    intro i
    by_contra splitting
    rw [Bool.not_eq_false] at splitting
    obtain ⟨⟨-, key, value, txid, wantBefore, put, -⟩, -⟩ := grounded.splits i splitting
    rcases returned i with cursor | idle | ⟨answer, done⟩
    · rw [put] at cursor
      cases cursor
    · rw [idle] at splitting
      cases splitting
    · rw [done] at splitting
      cases splitting
  obtain ⟨agree, count⟩ := grounded.settled plain
  refine ⟨g.entries, ?_, grounded.entries⟩
  rcases grounded.tree with empty | st
  · refine ⟨grounded.backed.sound, count, .inl ⟨grounded.backed.root.trans empty.2.1, empty.entries⟩⟩
  · exact st.represents grounded.backed agree count

/-- Whatever the interleaving, the calls have one order that explains every answer and
respects real time, and between calls the tree represents the map it leaves. -/
theorem interleavings_linearizable {m : RefMap} (models : Models s m) (events : List Event) :
    EveryState State.step (fun σ => ∃ order, Linearization applied m σ.history order ∧
      (σ.Returned → Models σ.store (final applied m order))) (State.init s m) events := by
  have always := (Inv.always models events).along (I := fun σ => σ.initial = m)
    (fun _ _ _ eq _ next => (State.initial_step next).trans eq) rfl
  refine always.imp ?_
  rintro σ ⟨rfl, g, inv⟩
  exact ⟨σ.order, inv.recorded.lin, inv.models⟩

def widePut (key : Byte) (i steps : Nat) : List Event :=
  .invoke (.put [key] (List.replicate 1000 7) 1 true) :: List.replicate steps (.step i)

/-- A Put that splits the leaf: a Get between its descents finds nothing, one before it returns
finds the record. -/
def splittingPut : List Event :=
  widePut 1 0 6 ++ widePut 2 1 6 ++ widePut 3 2 6 ++ widePut 4 3 6 ++ widePut 5 4 6 ++ .invoke (.get [5]) ::
    List.replicate 4 (.step 5) ++ List.replicate 11 (.step 4) ++ .invoke (.get [5]) ::
      List.replicate 5 (.step 6) ++
    [.step 4]

theorem splitting_put_linearizable :
    Models (create ⟨80, by decide⟩ none) (fun _ => none) ∧
      (run State.step (.init (create ⟨80, by decide⟩ none) fun _ => none) splittingPut).map (fun σ =>
        (σ.order.map Prod.fst, σ.store.metaPage.numPages)) = some ([0, 1, 2, 3, 5, 4, 6], 5) ∧
      EveryState State.step (fun σ => ∃ order, Linearization applied (fun _ => none) σ.history order ∧
        (σ.Returned → Models σ.store (final applied (fun _ => none) order)))
        (.init (create ⟨80, by decide⟩ none) fun _ => none) splittingPut :=
  ⟨create_models _ _, by decide +kernel, interleavings_linearizable (create_models _ _) splittingPut⟩

end PagerDB.Crab

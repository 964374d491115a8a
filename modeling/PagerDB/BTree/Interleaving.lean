import PagerDB.BTree.SplitCommit
import PagerDB.BTree.Latches
import PagerDB.BTree.Histories

/-! The invariant of the threads together: the tree they agree on, what each of them
knows of it, and how far a split has come. -/
namespace PagerDB.Crab

open SortedLib Store

variable {σ : State} {g g' : Ghost} {op : Op} {s s' t : Store} {pc : Pc} {point : Bool} {i : Nat} {p : PageId}
  {u : Task}

def Ghost.Empty (g : Ghost) : Prop := g.row = [] ∧ g.root = kInvalidPageId ∧ g.height = 0

/-- The pessimistic Put has come down to this page. -/
def Held (g : Ghost) (key : Bytes) (ancestors : List PageId) (node : PageId) : Prop :=
  g.row ≠ [] ∧ ∃ pre b post, Climb g.bodies g.root ancestors pre (b, node) post ∧ b ≤ key ∧
    ∀ y ∈ post, key < y.1

def Floor (row : List Link) (key : Bytes) (leaf : PageId) : Prop :=
  ∃ b, (b, leaf) ∈ row ∧ b ≤ key

/-- A cursor's copy: its leaf's right sibling at the time is still a leaf and still has the
bound it had. -/
def Copied (row : List Link) (page : Page) : Prop :=
  ∃ prev next recs, page.body = .leaf prev next recs ∧ (recs.map Prod.fst).Pairwise (· < ·) ∧
    (next = kInvalidPageId ∨ ∃ u, (u, next) ∈ row ∧ ∀ r ∈ recs, r.1 < u)

def Knows (g : Ghost) (op : Op) : Pc → Prop
  | .crab _ node => At g op.key node
  | .swap leaf => Reaches g.row op.key leaf
  | .owned _ leaf => Reaches g.row op.key leaf
  | .path stack node => Held g op.key stack node ∧ stack.length ≤ g.height
  | .held ancestors leaf => Held g op.key ancestors leaf ∧ ancestors.length = g.height
  | .found leaf => Floor g.row op.key leaf
  | .bounded leaf _ => Floor g.row op.key leaf
  | .walk page _ _ => Copied g.row page
  | _ => True

namespace Pc

def begun : Pc → Bool
  | idle | begin => false
  | _ => true

def splitting : Pc → Bool
  | right .. | relink .. | place .. | climb .. | innerRight .. | innerPlace .. => true
  | _ => false

/-- The count runs ahead of the tree by the record a split has placed. -/
def owed : Pc → Int
  | climb sp .. => if sp.replacing then 0 else 1
  | innerRight sp .. => if sp.replacing then 0 else 1
  | innerPlace sp .. => if sp.replacing then 0 else 1
  | _ => 0

end Pc

def Splits (g : Ghost) (s : Store) (op : Op) (pc : Pc) : Prop :=
  g.row ≠ [] ∧ ∃ key value txid wantBefore, op = .put key value txid wantBefore ∧
    Phase g s key value wantBefore pc

structure Grounded (σ : State) (g : Ghost) : Prop where
  backed : Backed g σ.store
  tree : g.Empty ∨ Standing g
  entries : ∀ k, g.entries.lookup k = σ.map k
  knows : ∀ i, Knows g (σ.task i).op (σ.task i).pc
  admitted : ∀ i, (σ.task i).pc.begun = true → (σ.task i).op.Admitted
  settled : (∀ i, (σ.task i).pc.splitting = false) →
    σ.store.bodies = g.bodies ∧ σ.store.metaPage.numKeys = g.entries.length
  splits : ∀ i, (σ.task i).pc.splitting = true → Splits g σ.store (σ.task i).op (σ.task i).pc ∧
    σ.store.metaPage.numKeys = g.entries.length + (σ.task i).pc.owed

/- The tree and what is known of it. -/

theorem Ghost.Empty.entries (empty : g.Empty) : g.entries = [] := by
  rw [Ghost.entries, empty.1]
  rfl

theorem Ghost.row_ids {b : Bytes} (mem : (b, p) ∈ g.row) : p ∈ g.ids :=
  List.mem_append_right _ (List.mem_map_of_mem (f := Prod.snd) mem)

theorem Standing.at_ids (st : Standing g) {key : Bytes} (at_ : At g key p) : p ∈ g.ids := by
  obtain ⟨-, n, le, pre, b, post, loc⟩ := at_
  exact st.level_ids le (by simp [loc.eq] : (b, p) ∈ g.level n)

theorem Standing.held_ids (st : Standing g) {key : Bytes} {ancestors : List PageId}
    (held : Held g key ancestors p) (le : ancestors.length ≤ g.height) : p ∈ g.ids := by
  obtain ⟨-, pre, b, post, climb, -, -⟩ := held
  refine st.level_ids le (a := (b, p)) ?_
  rw [Ghost.level, climb.level]
  simp

theorem Backed.root_mem (backed : Backed g s) (tree : g.Empty ∨ Standing g)
    (some : s.metaPage.rootPageId ≠ kInvalidPageId) : Standing g := by
  rcases tree with ⟨-, none, -⟩ | st
  · exact absurd (backed.root.trans none) some
  · exact st

theorem Backed.root_ne (backed : Backed g s) (st : Standing g) : s.metaPage.rootPageId ≠ kInvalidPageId := by
  rw [backed.root]
  have mem := st.at_ids (st.atRoot [])
  exact ((backed.range _ mem).2.trans_le backed.sound.limit).ne

theorem Grounded.standing (grounded : Grounded σ g) (some : g.row ≠ []) : Standing g := by
  rcases grounded.tree with ⟨none, -, -⟩ | st
  · exact absurd none some
  · exact st

theorem Phase.frame {key value : Bytes} {wantBefore : Bool} (phase : Phase g s key value wantBefore pc)
    (splitting : pc.splitting = true) (out : p ∉ pc.exclusives) : s.bodies p = g.bodies p := by
  cases pc with
  | right sp cut | relink sp cut =>
    obtain ⟨c, left, holds, cutting, -⟩ := phase
    simp only [Pc.exclusives, Pc.guards, List.mem_cons, List.mem_append, not_or] at out
    refine cutting.frame p (fun e => out.2.2.1 (e.trans holds.leaf.symm)) out.1 fun relinked => ?_
    cases relinked
  | place sp cut =>
    obtain ⟨c, left, holds, cutting, sib⟩ := phase
    simp only [Pc.exclusives, Pc.guards, List.mem_cons, List.mem_append, not_or] at out
    refine cutting.frame p (fun e => out.2.2.1 (e.trans holds.leaf.symm)) out.1 fun _ y rest eq e => ?_
    exact out.2.1.1 (by simp [sib, eq, e])
  | climb sp rest sep left right =>
    obtain ⟨c, q, b, l, r, k, -, -, climbing⟩ := phase
    exact climbing.grown.frame p fun mem => out (written_sub climbing.ancestors mem)
  | innerRight sp rest sep left right parent cut | innerPlace sp rest sep left right parent cut =>
    obtain ⟨c, q, b, l, r, k, d, -, -, tearing⟩ := phase
    have path : sp.ancestors = (k.finished ++ [parent]) ++ rest := by simp [tearing.ancestors]
    refine tearing.grown.frame p fun mem => out ?_
    rcases List.mem_cons.mp mem with rfl | mem
    · exact List.mem_cons_self
    · exact List.mem_cons_of_mem _ (written_sub path mem)
  | _ => cases splitting

theorem Grounded.agree (grounded : Grounded σ g)
    (out : ∀ j, (σ.task j).pc.splitting = true → p ∉ (σ.task j).pc.exclusives) :
    σ.store.bodies p = g.bodies p := by
  by_cases none : ∀ j, (σ.task j).pc.splitting = false
  · rw [(grounded.settled none).1]
  · simp only [not_forall, Bool.not_eq_false] at none
    obtain ⟨j, splitting⟩ := none
    obtain ⟨⟨-, key, value, txid, wantBefore, -, phase⟩, -⟩ := grounded.splits j splitting
    exact phase.frame splitting (out j splitting)

theorem Grounded.agree_held {mode : LatchMode} (grounded : Grounded σ g) (task : σ.task i = u)
    (latches : Latches σ) (plain : u.pc.splitting = false) (held : u.pageMode p = some mode) :
    σ.store.bodies p = g.bodies p := by
  subst task
  refine grounded.agree fun j splitting => ?_
  refine latches.not_exclusive held fun e => ?_
  rw [e, plain] at splitting
  cases splitting

theorem Grounded.agree_free {mode : LatchMode} (grounded : Grounded σ g) (task : σ.task i = u)
    (latches : Latches σ) (plain : u.pc.splitting = false) (free : σ.available i (.page p mode) = true) :
    σ.store.bodies p = g.bodies p := by
  subst task
  refine grounded.agree fun j splitting mem => ?_
  have ne : j ≠ i := by
    rintro rfl
    rw [plain] at splitting
    cases splitting
  have both := latches.pageFree free ne
  have mode' : (σ.task j).pageMode p = some .exclusive := by
    have coupled : (σ.task j).pc.coupled = false := by
      cases at_ : (σ.task j).pc with
      | crab =>
        rw [at_] at splitting
        cases splitting
      | _ => rfl
    exact (pageMode_plain coupled).trans (if_pos mem)
  rw [mode'] at both
  cases mode <;> cases both

theorem plain_of_rootMode (none : pc.rootMode = none) : pc.splitting = false := by
  cases pc with
  | right | relink | place | climb | innerRight | innerPlace => cases none
  | _ => rfl

theorem Grounded.agree_alone (grounded : Grounded σ g) (task : σ.task i = u) (latches : Latches σ)
    (plain : u.pc.splitting = false) (alone : u.pc.rootMode = some .exclusive) :
    σ.store.bodies = g.bodies ∧ σ.store.metaPage.numKeys = g.entries.length := by
  subst task
  refine grounded.settled fun j => ?_
  by_cases e : j = i
  · rw [e]
    exact plain
  · exact plain_of_rootMode (latches.rootAlone alone e)

theorem Knows.aside (knows : Knows g op pc) (root : g'.root = g.root) (height : g'.height = g.height)
    (row : g'.row = g.row) (same : SameNodes g.bodies g'.bodies) : Knows g' op pc := by
  cases pc with
  | crab r node =>
    obtain ⟨some, n, le, pre, b, post, loc⟩ := knows
    refine ⟨row ▸ some, n, height ▸ le, pre, b, post, ?_⟩
    rw [Ghost.level, Ghost.top, root, (same.levels _ _).1]
    exact loc
  | path stack node =>
    obtain ⟨⟨some, pre, b, post, climb, le, lt⟩, len⟩ := knows
    exact ⟨⟨row ▸ some, pre, b, post, root ▸ same.climb climb, le, lt⟩, height ▸ len⟩
  | held ancestors leaf =>
    obtain ⟨⟨some, pre, b, post, climb, le, lt⟩, len⟩ := knows
    exact ⟨⟨row ▸ some, pre, b, post, root ▸ same.climb climb, le, lt⟩, height ▸ len⟩
  | swap | owned | found | bounded | walk =>
    simp only [Knows, row] at knows ⊢
    exact knows
  | _ => trivial

theorem Knows.committed {held : List PageId} {key value : Bytes} {replacing : Bool}
    (knows : Knows g op pc) (done : Committed held key value replacing g g' s)
    (root : pc.rootMode = none) (out : ∀ p ∈ held, (Task.mk op pc).pageMode p = none) :
    Knows g' op pc := by
  cases pc with
  | crab r node =>
    refine done.at_ _ _ knows fun mem => ?_
    have := out node mem
    simp [Task.pageMode] at this
  | owned r leaf =>
    refine done.reaches _ _ knows fun mem => ?_
    have := out leaf mem
    simp [Task.pageMode, Pc.exclusives] at this
  | found | bounded =>
    obtain ⟨b, mem, le⟩ := knows
    exact ⟨b, done.row.subset mem, le⟩
  | walk =>
    obtain ⟨prev, next, recs, body, asc, link⟩ := knows
    refine ⟨prev, next, recs, body, asc, link.imp_right ?_⟩
    rintro ⟨u, mem, below⟩
    exact ⟨u, done.row.subset mem, below⟩
  | swap | path | held => cases root
  | _ => trivial

/- Steps that leave the tree as it is. -/

theorem Splits.aside (splits : Splits g s op pc) (aside : Aside pc.exclusives g g' s s') :
    Splits g' s' op pc := by
  obtain ⟨some, key, value, txid, wantBefore, rfl, phase⟩ := splits
  exact ⟨aside.row ▸ some, key, value, txid, wantBefore, rfl, phase.aside aside⟩

theorem Grounded.invoked (grounded : Grounded σ g) (latches : Latches σ) (op : Op) :
    Grounded (σ.invoked op) g := by
  obtain ⟨backed, tree, entries, knows, admitted, settled, splits⟩ := grounded
  constructor
  · exact backed
  · exact tree
  · exact entries
  · exact State.each_invoked (P := fun _ t => Knows g t.op t.pc) trivial fun j _ => knows j
  · exact State.each_invoked (P := fun _ t => t.pc.begun = true → t.op.Admitted) nofun fun j _ => admitted j
  · intro plain
    refine settled fun j => ?_
    by_cases e : j = σ.next
    · rw [e, latches.idle _ le_rfl]
      rfl
    · rw [← State.invoked_other e]
      exact plain j
  · exact State.each_invoked (P := fun _ t => t.pc.splitting = true → Splits g σ.store t.op t.pc ∧
      σ.store.metaPage.numKeys = g.entries.length + t.pc.owed) nofun fun j _ => splits j

theorem Grounded.alike (grounded : Grounded σ g) (alike : Alike σ.store s) :
    Grounded { σ with store := s } g := by
  obtain ⟨backed, tree, entries, knows, admitted, settled, splits⟩ := grounded
  constructor
  · exact backed.alike alike
  · exact tree
  · exact entries
  · exact knows
  · exact admitted
  · intro plain
    have := settled plain
    dsimp only
    rw [alike.bodies, alike.keys]
    exact this
  · intro j splitting
    obtain ⟨here, count⟩ := splits j splitting
    refine ⟨here.aside (aside_alike _ g alike), ?_⟩
    dsimp only
    rw [alike.keys]
    exact count

theorem State.plain_of_moved (plain : (σ.task i).pc.splitting = false)
    (none : ∀ j, ((σ.moved i s pc point).task j).pc.splitting = false) (j : Nat) :
    (σ.task j).pc.splitting = false := by
  by_cases e : j = i
  · rw [e]
    exact plain
  · have := none j
    rwa [State.moved_other e] at this

theorem Grounded.moved (grounded : Grounded σ g) (task : σ.task i = u) (same : Same σ.store s)
    (plain : u.pc.splitting = false) (plain' : pc.splitting = false)
    (knows : Knows g u.op pc) (admitted : u.op.Admitted)
    (map : (σ.moved i s pc point).map = σ.map) : Grounded (σ.moved i s pc point) g := by
  subst task
  obtain ⟨backed, tree, entries, knew, admitted', settled, splits⟩ := grounded.alike same.alike
  constructor
  · exact backed
  · exact tree
  · rw [map]
    exact entries
  · exact State.each_moved (P := fun _ t => Knows g t.op t.pc) knows fun j _ => knew j
  · exact State.each_moved (P := fun _ t => t.pc.begun = true → t.op.Admitted) (fun _ => admitted)
      fun j _ => admitted' j
  · exact fun none => settled (State.plain_of_moved plain none)
  · exact State.each_moved (P := fun _ t => t.pc.splitting = true → Splits g s t.op t.pc ∧
      s.metaPage.numKeys = g.entries.length + t.pc.owed)
      (fun splitting => by cases plain'.symm.trans splitting) fun j _ => splits j

/- A write into one leaf. -/

def Ghost.write (g : Ghost) (leaf : PageId) (body : Body) : Ghost :=
  { g with bodies := Function.update g.bodies leaf body }

theorem plain_ended (ended : pc.answered ≠ none) : pc.splitting = false := by
  cases pc with
  | unwind | done => rfl
  | _ => exact absurd rfl ended

theorem knows_ended (ended : pc.answered ≠ none) : Knows g op pc := by
  cases pc with
  | unwind | done => trivial
  | _ => exact absurd rfl ended

@[simp] theorem counted_zero (s : Store) : s.counted 0 = s := by
  simp [Store.counted]

theorem Backed.counted (backed : Backed g s) (d : Int) : Backed g (s.counted d) :=
  ⟨⟨backed.sound.free, backed.sound.first, backed.sound.limit, backed.sound.readable⟩, backed.root,
    backed.range, backed.accounted⟩

section

variable {pre post : List Link} {b : Bytes} {leaf prev next : PageId} {recs recs' : List (Bytes × Bytes)}
  {d : Int} {key value : Bytes}

theorem Standing.write (st : Standing g) (row : g.row = pre ++ (b, leaf) :: post)
    (old : g.bodies leaf = .leaf prev next recs) (asc : (recs'.map Prod.fst).Pairwise (· < ·))
    (lower : ∀ r ∈ recs', b ≤ r.1) (upper : ∀ r ∈ recs', ∀ y ∈ post, r.1 < y.1) :
    Standing (g.write leaf (.leaf prev next recs')) ∧
      (g.write leaf (.leaf prev next recs')).ids = g.ids ∧
      (g.write leaf (.leaf prev next recs')).entries =
        contents g.bodies pre ++ recs' ++ contents g.bodies post := by
  have same : SameNodes g.bodies (g.write leaf (.leaf prev next recs')).bodies := SameNodes.update old
  obtain ⟨level, ids, inner⟩ := same.levels g.height g.top
  have ids' : (g.write leaf (.leaf prev next recs')).ids = g.ids := by
    rw [Ghost.ids, Ghost.ids]
    exact congrArg (· ++ g.row.map Prod.snd) ids
  have nodup := st.nodup
  rw [Ghost.ids, row, List.map_append, List.map_cons, List.nodup_append, List.nodup_append,
    List.nodup_cons] at nodup
  obtain ⟨-, ⟨-, ⟨notPost, -⟩, notPre⟩, -⟩ := nodup
  have here : (g.write leaf (.leaf prev next recs')).bodies leaf = .leaf prev next recs' :=
    Function.update_self ..
  have others : ∀ l ∈ pre ++ post, (g.write leaf (.leaf prev next recs')).bodies l.2 = g.bodies l.2 := by
    intro l hl
    refine Function.update_of_ne (fun e => ?_) ..
    rcases List.mem_append.mp hl with hl | hl
    · exact notPre l.2 (List.mem_map_of_mem hl) leaf (by simp) e
    · have mem : l.2 ∈ post.map Prod.snd := List.mem_map_of_mem hl
      exact notPost (e ▸ mem)
  have lr := st.leaves
  rw [row] at lr
  refine ⟨⟨level.trans st.level, inner st.inner, ids' ▸ st.nodup, ?_⟩, ids', ?_⟩
  · change LeafRow _ g.row
    rw [row]
    exact lr.update old here others asc lower upper
  · change contents _ g.row = _
    rw [row]
    exact LeafRow.update_contents here others

theorem Grounded.write (grounded : Grounded σ g) (task : σ.task i = u) (latches : Latches σ)
    (held : u.pageMode leaf = some .exclusive) (row : g.row = pre ++ (b, leaf) :: post)
    (old : g.bodies leaf = .leaf prev next recs)
    (wrote : Wrote leaf (.leaf prev next recs') σ.store t) (acc : (t.view leaf).Accounted)
    (asc : (recs'.map Prod.fst).Pairwise (· < ·)) (lower : ∀ r ∈ recs', b ≤ r.1)
    (upper : ∀ r ∈ recs', ∀ y ∈ post, r.1 < y.1) (count : (recs'.length : Int) = recs.length + d)
    (plain : u.pc.splitting = false) (ended : pc.answered ≠ none)
    (admitted : u.op.Admitted)
    (map : ∀ k, (contents g.bodies pre ++ recs' ++ contents g.bodies post).lookup k =
      (σ.moved i (t.counted d) pc point).map k) :
    Grounded (σ.moved i (t.counted d) pc point) (g.write leaf (.leaf prev next recs')) := by
  subst task
  have st := grounded.standing (by simp [row])
  obtain ⟨st', ids, entries⟩ := st.write row old asc lower upper
  have agree := grounded.agree_held rfl latches plain held
  have same : SameNodes g.bodies (g.write leaf (.leaf prev next recs')).bodies := SameNodes.update old
  have length : ((g.write leaf (.leaf prev next recs')).entries.length : Int) = g.entries.length + d := by
    rw [entries, Ghost.entries, row, contents_here old]
    simp only [List.length_append]
    omega
  have keys : (t.counted d).metaPage.numKeys = σ.store.metaPage.numKeys + d := by
    change t.metaPage.numKeys + d = _
    rw [wrote.metaPage]
  have aside : ∀ j, j ≠ i → Aside (σ.task j).pc.exclusives g (g.write leaf (.leaf prev next recs')) σ.store
      (t.counted d) := by
    intro j ne
    have away : ∀ p ∈ (σ.task j).pc.exclusives, p ≠ leaf := fun p mem e =>
      latches.not_exclusive held ne (e ▸ mem)
    refine ⟨rfl, rfl, rfl, same, ?_, fun p mem => ?_, fun p eq => ?_, ?_⟩
    · change SameNodes σ.store.bodies t.bodies
      rw [wrote.bodies]
      exact SameNodes.update (agree.trans old)
    · refine ⟨?_, Function.update_of_ne (away p mem) .., wrote.accounted p (away p mem)⟩
      change t.bodies p = _
      rw [wrote.bodies, Function.update_of_ne (away p mem)]
    · change t.bodies p = Function.update g.bodies leaf _ p
      rw [wrote.bodies]
      by_cases e : p = leaf
      · rw [e, Function.update_self, Function.update_self]
      · rw [Function.update_of_ne e, Function.update_of_ne e, eq]
    · change t.metaPage.numPages = _
      rw [wrote.metaPage]
  have backed := (grounded.backed.wrote wrote (.inl acc)).counted d
  constructor
  · exact ⟨backed.sound, backed.root, ids ▸ backed.range, backed.accounted⟩
  · exact .inr st'
  · rw [entries]
    exact map
  · exact State.each_moved (P := fun _ t => Knows _ t.op t.pc) (knows_ended ended) fun j _ =>
      (grounded.knows j).aside rfl rfl rfl same
  · exact State.each_moved (P := fun _ t => t.pc.begun = true → t.op.Admitted) (fun _ => admitted)
      fun j _ => grounded.admitted j
  · intro none
    obtain ⟨bodies, keys'⟩ := grounded.settled (State.plain_of_moved plain none)
    constructor
    · change t.bodies = Function.update g.bodies leaf _
      rw [wrote.bodies, bodies]
    · rw [length, ← keys']
      exact keys
  · refine State.each_moved (P := fun _ u => u.pc.splitting = true →
      Splits _ (t.counted d) u.op u.pc ∧ (t.counted d).metaPage.numKeys = _ + u.pc.owed) ?_ ?_
    · intro splitting
      cases (plain_ended ended).symm.trans splitting
    · intro j ne splitting
      obtain ⟨splits, keys'⟩ := grounded.splits j splitting
      refine ⟨splits.aside (aside j ne), ?_⟩
      rw [length, keys, keys']
      omega

theorem Grounded.placed (grounded : Grounded σ g) (task : σ.task i = u) (latches : Latches σ)
    (held : u.pageMode leaf = some .exclusive) (loc : Located g.row key pre (b, leaf) post)
    (old : g.bodies leaf = .leaf prev next recs)
    (placed : PlacedAt key value leaf prev next recs σ.store s)
    (plain : u.pc.splitting = false) (ended : pc.answered ≠ none)
    (admitted : u.op.Admitted)
    (map : (σ.moved i s pc point).map = Function.update σ.map key (some value)) :
    ∃ g', Grounded (σ.moved i s pc point) g' ∧ g'.row = g.row := by
  subst task
  obtain ⟨lo, hi, t, cut, below, above, wrote, acc⟩ := placed
  have lr := (grounded.standing (by simp [loc.eq])).leaves
  have here : recsOf (g.bodies leaf) = recs := by rw [old]; rfl
  rw [loc.eq] at lr
  have keys := lr.keys (b, leaf) (by simp)
  have lower := lr.lower (b, leaf) (by simp)
  rw [here] at keys lower
  have upper : ∀ r ∈ recs, ∀ y ∈ post, r.1 < y.1 := fun r hr y hy => lr.here_lt (here ▸ hr) hy
  obtain ⟨asc, lower', upper'⟩ := fits_between value keys lower upper loc.le loc.lt
    (cut.imp And.left And.left) below above
  have left : ∀ r ∈ contents g.bodies pre, r.1 < key := fun r hr => (lr.left_lt hr).trans_le loc.le
  have whole : g.entries = contents g.bodies pre ++ recs ++ contents g.bodies post := by
    rw [Ghost.entries, loc.eq]
    exact contents_here old
  have lookup : ∀ k, (contents g.bodies pre ++ (lo ++ (key, value) :: hi) ++
    contents g.bodies post).lookup k =
      (σ.moved i s pc point).map k := by
    intro k
    rw [map, put_of_cut (cut.imp And.left And.left) rfl left below below k, ← whole, grounded.entries k,
      Function.update_apply]
  rcases cut with ⟨eq, rfl⟩ | ⟨⟨was, eq⟩, rfl⟩
  · refine ⟨_, grounded.write rfl latches held loc.eq old wrote acc asc lower' upper' ?_ plain ended admitted lookup,
      rfl⟩
    rw [eq]
    simp
    omega
  · have done := grounded.write (d := 0) rfl latches held loc.eq old wrote acc asc lower' upper'
      (by simp [eq])
      plain ended admitted (by rw [counted_zero]; exact lookup)
    rw [counted_zero] at done
    exact ⟨_, done, rfl⟩

theorem Grounded.erased {lo hi : List (Bytes × Bytes)} {was : Bytes} (grounded : Grounded σ g)
    (task : σ.task i = u) (latches : Latches σ) (held : u.pageMode leaf = some .exclusive)
    (loc : Located g.row key pre (b, leaf) post)
    (old : g.bodies leaf = .leaf prev next (lo ++ (key, was) :: hi)) (below : ∀ r ∈ lo, r.1 < key)
    (above : ∀ r ∈ hi, key < r.1) (wrote : Wrote leaf (.leaf prev next (lo ++ hi)) σ.store t)
    (acc : (t.view leaf).Accounted) (plain : u.pc.splitting = false) (ended : pc.answered ≠ none)
    (admitted : u.op.Admitted)
    (map : (σ.moved i (t.counted (-1)) pc point).map = Function.update σ.map key none) :
    ∃ g', Grounded (σ.moved i (t.counted (-1)) pc point) g' ∧ g'.row = g.row := by
  subst task
  have lr := (grounded.standing (by simp [loc.eq])).leaves
  have here : recsOf (g.bodies leaf) = lo ++ (key, was) :: hi := by rw [old]; rfl
  rw [loc.eq] at lr
  have keys := lr.keys (b, leaf) (by simp)
  have lower := lr.lower (b, leaf) (by simp)
  rw [here] at keys lower
  have sub : (lo ++ hi).Sublist (lo ++ (key, was) :: hi) := by simp
  refine ⟨_, grounded.write rfl latches held loc.eq old wrote acc (keys.sublist (sub.map _))
    (fun r hr => lower r (sub.subset hr)) (fun r hr y hy =>
      lr.here_lt (here ▸ sub.subset hr) hy) ?_ plain ended
    admitted fun k => ?_, rfl⟩
  · simp
    omega
  · have smaller : ∀ r ∈ contents g.bodies pre ++ lo, r.1 < key := by
      intro r hr
      rcases List.mem_append.mp hr with h | h
      · exact (lr.left_lt h).trans_le loc.le
      · exact below r h
    have larger : ∀ r ∈ hi ++ contents g.bodies post, key < r.1 := by
      intro r hr
      rcases List.mem_append.mp hr with h | h
      · exact above r h
      · obtain ⟨y, hy, le⟩ := lr.right_ge h
        exact (loc.lt y hy).trans_le le
    have gone := erased_cut was smaller larger k
    have whole : g.entries = contents g.bodies pre ++ lo ++ (key, was) :: (hi ++ contents g.bodies post) := by
      rw [Ghost.entries, loc.eq, contents_here old]
      simp
    rw [map, Function.update_apply, ← grounded.entries k, whole, ← gone]
    simp

/- The split. -/

theorem Grounded.progress (grounded : Grounded σ g) (task : σ.task i = u) (latches : Latches σ)
    (alone : u.pc.rootMode = some .exclusive) (backed : Backed g s) (splitting : pc.splitting = true)
    (splits : Splits g s u.op pc) (count : s.metaPage.numKeys = g.entries.length + pc.owed)
    (admitted : u.op.Admitted) : Grounded (σ.moved i s pc false) g := by
  subst task
  have knows : Knows g (σ.task i).op pc := by
    cases pc with
    | right | relink | place | climb | innerRight | innerPlace => trivial
    | _ => cases splitting
  constructor
  · exact backed
  · exact grounded.tree
  · exact grounded.entries
  · exact State.each_moved (P := fun _ t => Knows g t.op t.pc) knows fun j _ => grounded.knows j
  · exact State.each_moved (P := fun _ t => t.pc.begun = true → t.op.Admitted) (fun _ => admitted)
      fun j _ => grounded.admitted j
  · intro none
    have := none i
    rw [State.moved_self] at this
    cases splitting.symm.trans this
  · refine State.each_moved (P := fun _ t => t.pc.splitting = true → Splits g s t.op t.pc ∧
      s.metaPage.numKeys = g.entries.length + t.pc.owed) (fun _ => ⟨splits, count⟩) ?_
    intro j ne other
    cases (plain_of_rootMode (latches.rootAlone alone ne)).symm.trans other

theorem Grounded.committed {held : List PageId} {replacing : Bool} (grounded : Grounded σ g)
    (task : σ.task i = u) (latches : Latches σ) (alone : u.pc.rootMode = some .exclusive)
    (holds : ∀ p ∈ held, u.pageMode p = some .exclusive)
    (done : Committed held key value replacing g g' s)
    (count : s.metaPage.numKeys = g.entries.length + if replacing then 0 else 1)
    (ended : pc.answered ≠ none) (admitted : u.op.Admitted)
    (map : (σ.moved i s pc point).map = Function.update σ.map key (some value)) :
    Grounded (σ.moved i s pc point) g' := by
  subst task
  constructor
  · exact done.backed
  · exact .inr done.standing
  · intro k
    rw [map, done.put k, grounded.entries k, Function.update_apply]
  · refine State.each_moved (P := fun _ t => Knows g' t.op t.pc) (knows_ended ended) fun j ne => ?_
    refine (grounded.knows j).committed done (latches.rootAlone alone ne) fun p mem => ?_
    exact latches.alone (holds p mem) ne
  · exact State.each_moved (P := fun _ t => t.pc.begun = true → t.op.Admitted) (fun _ => admitted)
      fun j _ => grounded.admitted j
  · intro _
    refine ⟨done.agree, ?_⟩
    rw [done.count]
    exact count
  · refine State.each_moved (P := fun _ t => t.pc.splitting = true → Splits g' s t.op t.pc ∧
      s.metaPage.numKeys = g'.entries.length + t.pc.owed) ?_ ?_
    · intro splitting
      cases (plain_ended ended).symm.trans splitting
    · intro j ne other
      cases (plain_of_rootMode (latches.rootAlone alone ne)).symm.trans other

/- The first record. -/

theorem Tree.standing {h : Nat} (tree : Tree s h) :
    Standing ⟨s.bodies, s.metaPage.rootPageId, h, s.leaves h⟩ :=
  ⟨rfl, tree.inner, tree.nodup, tree.row⟩

theorem Standing.tree (st : Standing g) (backed : Backed g s) (agree : s.bodies = g.bodies) :
    Tree s g.height ∧ s.leaves g.height = g.row := by
  have leaves : s.leaves g.height = g.row := by
    rw [Store.leaves, Store.top, backed.root, agree]
    exact st.level
  have ids : idsOf s.bodies g.height s.top = g.ids := by
    rw [idsOf, Store.top, backed.root, agree, Ghost.ids, ← st.level]
  refine ⟨⟨?_, ?_, ?_, ?_, ?_⟩, leaves⟩
  · rw [Store.top, backed.root, agree]
    exact st.inner
  · rw [ids]
    exact st.nodup
  · rw [ids]
    exact backed.range
  · rw [leaves, agree]
    exact st.leaves
  · rw [leaves]
    exact backed.accounted

theorem Standing.represents (st : Standing g) (backed : Backed g s) (agree : s.bodies = g.bodies)
    (count : s.metaPage.numKeys = g.entries.length) : Represents s g.entries := by
  obtain ⟨tree, leaves⟩ := st.tree backed agree
  refine ⟨backed.sound, count, .inr ⟨g.height, tree, ?_⟩⟩
  rw [leaves, agree]
  rfl

theorem Knows.planted (knows : Knows g op pc) (empty : g.Empty) (root : pc.rootMode = none) :
    Knows g' op pc := by
  cases pc with
  | crab => exact absurd empty.1 knows.1
  | owned =>
    obtain ⟨pre, b, post, loc⟩ := knows
    rw [empty.1] at loc
    simpa using loc.eq
  | found | bounded =>
    obtain ⟨b, mem, -⟩ := knows
    rw [empty.1] at mem
    cases mem
  | walk =>
    obtain ⟨prev, next, recs, body, asc, last | ⟨u, mem, -⟩⟩ := knows
    · exact ⟨prev, next, recs, body, asc, .inl last⟩
    · rw [empty.1] at mem
      cases mem
  | swap | path | held => cases root
  | _ => trivial

theorem Grounded.planted (grounded : Grounded σ g) (task : σ.task i = u) (latches : Latches σ)
    (alone : u.pc.rootMode = some .exclusive) (empty : g.Empty) (rep : Represents s [(key, value)])
    (ended : pc.answered ≠ none) (admitted : u.op.Admitted)
    (map : (σ.moved i s pc point).map = Function.update σ.map key (some value)) :
    ∃ g', Grounded (σ.moved i s pc point) g' := by
  subst task
  obtain ⟨sound, count, ⟨-, none⟩ | ⟨h, tree, eq⟩⟩ := rep
  · cases none
  refine ⟨⟨s.bodies, s.metaPage.rootPageId, h, s.leaves h⟩, ?_⟩
  have entries : Ghost.entries ⟨s.bodies, s.metaPage.rootPageId, h, s.leaves h⟩ = [(key, value)] := eq
  constructor
  · exact ⟨sound, rfl, tree.range, tree.accounted⟩
  · exact .inr (Tree.standing tree)
  · intro k
    have before := grounded.entries k
    rw [empty.entries, List.lookup_nil] at before
    rw [entries, map, Function.update_apply, ← before]
    by_cases e : k = key
    · simp [e]
    · simp [e, List.lookup_cons, beq_eq_false_iff_ne.mpr e]
  · exact State.each_moved (P := fun _ t => Knows _ t.op t.pc) (knows_ended ended) fun j ne =>
      (grounded.knows j).planted empty (latches.rootAlone alone ne)
  · exact State.each_moved (P := fun _ t => t.pc.begun = true → t.op.Admitted) (fun _ => admitted)
      fun j _ => grounded.admitted j
  · intro _
    refine ⟨rfl, ?_⟩
    rw [entries]
    exact count
  · refine State.each_moved (P := fun _ t => t.pc.splitting = true → Splits _ s t.op t.pc ∧
      s.metaPage.numKeys = _ + t.pc.owed) ?_ ?_
    · intro splitting
      cases (plain_ended ended).symm.trans splitting
    · intro j ne other
      cases (plain_of_rootMode (latches.rootAlone alone ne)).symm.trans other

end

end PagerDB.Crab

import Mathlib.Order.Lattice.Nat
import PagerDB.BTree.Linearizable

/-! The order in which page latches are taken. A call that waits for a page holds only pages on
higher levels of the tree. The one exception is the right sibling of a leaf that splits: the Put that
waits for it has barred the root, and who holds that page does not wait. -/
namespace PagerDB.Crab

open SortedLib Store

variable {σ : State} {g : Ghost} {op : Op} {s : Store} {pc : Pc} {i j n : Nat} {p q : PageId} {key : Bytes}
  {mode : LatchMode}

/- Levels. -/

theorem Standing.level_nodup (st : Standing g) (le : n ≤ g.height) :
    (innerIds g.bodies n g.top ++ (g.level n).map Prod.snd).Nodup := by
  have nodup := st.nodup
  rw [Ghost.ids] at nodup
  obtain ⟨k, eq⟩ := Nat.exists_eq_add_of_le le
  cases k with
  | zero =>
    rw [Nat.add_zero] at eq
    rwa [← st.level, eq] at nodup
  | succ k =>
    rw [eq, innerIds_add] at nodup
    have upper := (List.nodup_append.mp nodup).1
    simp only [innerIds] at upper
    exact upper.sublist ((List.sublist_append_left _ _).append_left _)

theorem Standing.apart (st : Standing g) {m : Nat} (lt : m < n) (le : n ≤ g.height) {a b : Link}
    (ha : a ∈ g.level m) (hb : b ∈ g.level n) : a.2 ≠ b.2 := by
  have above : a.2 ∈ innerIds g.bodies n g.top := by
    obtain ⟨k, rfl⟩ := Nat.exists_eq_add_of_lt lt
    rw [Nat.add_assoc, innerIds_add]
    exact List.mem_append_right _ (List.mem_append_left _ (List.mem_map_of_mem ha))
  exact (List.nodup_append.mp (st.level_nodup le)).2.2 a.2 above b.2 (List.mem_map_of_mem hb)

/-- How far below the root a page is. -/
noncomputable def Ghost.levelOf (g : Ghost) (p : PageId) : Nat := sInf {n | p ∈ (g.level n).map Prod.snd}

theorem Standing.levelOf (st : Standing g) (le : n ≤ g.height) {l : Link} (mem : l ∈ g.level n) :
    g.levelOf l.2 = n := by
  refine IsLeast.csInf_eq ⟨List.mem_map_of_mem mem, fun m mem' => ?_⟩
  by_contra lt
  obtain ⟨a, ha, same⟩ := List.mem_map.mp mem'
  exact st.apart (not_le.mp lt) le ha mem same

theorem mem_innerIds {bd : Bodies} {links : List Link} (mem : p ∈ innerIds bd n links) :
    ∃ m < n, ∃ l ∈ leavesOf bd m links, l.2 = p := by
  induction n with
  | zero => cases mem
  | succ n ih =>
    rw [innerIds_succ] at mem
    rcases List.mem_append.mp mem with above | here
    · obtain ⟨m, lt, found⟩ := ih above
      exact ⟨m, Nat.lt_succ_of_lt lt, found⟩
    · obtain ⟨l, hl, eq⟩ := List.mem_map.mp here
      exact ⟨n, Nat.lt_succ_self n, l, hl, eq⟩

theorem Standing.levelOf_lt (st : Standing g) (le : n ≤ g.height) (mem : p ∈ innerIds g.bodies n g.top) :
    g.levelOf p < n := by
  obtain ⟨m, lt, l, hl, rfl⟩ := mem_innerIds mem
  rwa [st.levelOf (lt.le.trans le) hl]

theorem Standing.child_level (st : Standing g) {page : Page} (at_ : At g key p)
    (body : page.body = g.bodies p)
    (inner : page.isLeaf = false) : g.levelOf (page.findChild key) = g.levelOf p + 1 := by
  obtain ⟨-, n, le, pre, b, post, loc⟩ := at_
  have here : (b, p) ∈ g.level n := by simp [loc.eq]
  rcases Nat.lt_or_eq_of_le le with lt | rfl
  · obtain ⟨nodes, asc⟩ := st.below lt
    obtain ⟨r, es, spre, y, spost, -, -, loc', find⟩ := loc.child nodes asc
    rw [find page body]
    rw [← leavesOf_succ] at loc'
    have below : y ∈ g.level (n + 1) := by simp [loc'.eq]
    rw [st.levelOf lt below, st.levelOf le here]
  · obtain ⟨-, prev, next, recs, leaf⟩ := st.isLeaf loc
    rw [isLeaf_of_body (body.trans leaf)] at inner
    cases inner

theorem Held.above {stack : List PageId} (st : Standing g) (held : Held g key stack p)
    (le : stack.length ≤ g.height) : ∀ a ∈ stack, g.levelOf a < g.levelOf p := by
  obtain ⟨-, pre, b, post, climb, -, -⟩ := held
  have here : (b, p) ∈ g.level stack.length := by
    rw [Ghost.level, climb.level]
    simp
  intro a mem
  rw [st.levelOf le here]
  exact st.levelOf_lt le (climb.mem a mem)

/- Who waits for a page. -/

def Pc.relinking : Pc → Bool
  | relink .. => true
  | _ => false

theorem Pc.relinking_cases (relinking : pc.relinking = true) : ∃ sp cut, pc = .relink sp cut := by
  cases pc with
  | relink sp cut => exact ⟨sp, cut, rfl⟩
  | _ => cases relinking

theorem pageMode_cases {t : Task} (held : t.pageMode p ≠ none) :
    (∃ root, t.pc = .crab root p) ∨ p ∈ t.pc.exclusives := by
  by_contra out
  obtain ⟨op, pc⟩ := t
  obtain ⟨crab, plain⟩ := not_or.mp out
  refine held ?_
  cases pc with
  | crab root node => exact if_neg fun e => crab ⟨root, by rw [e]⟩
  | _ => exact (pageMode_plain rfl).trans (if_neg plain)

theorem Inv.relinked (inv : Inv σ g) (task : σ.task i = ⟨op, pc⟩) (relinking : pc.relinking = true)
    (needs : need op σ.store pc = .page q mode) :
    (∃ prev next recs, g.bodies q = .leaf prev next recs) ∧ q ∉ pc.exclusives := by
  obtain ⟨-, -, grounded⟩ := inv
  obtain ⟨sp, cut, rfl⟩ := Pc.relinking_cases relinking
  have splits := (grounded.splits i (by rw [task]; rfl)).1
  rw [task] at splits
  obtain ⟨some, key, value, txid, wantBefore, -, c, left, holds, cutting, none⟩ := splits
  have st := grounded.standing some
  simp only [need] at needs
  split at needs
  · cases needs
  · rename_i next
    obtain ⟨rfl, -⟩ := Need.page.inj needs
    rw [cutting.oldNext, holds.next st] at next ⊢
    cases post : c.post with
    | nil =>
      rw [post] at next
      exact absurd rfl next
    | cons y rest =>
      obtain ⟨known, other, leaf⟩ := holds.sibling st post
      have above : ∀ a ∈ sp.ancestors, a ≠ y.2 := fun a mem =>
        st.inner_ne_leaf (holds.height ▸ holds.climb.mem a mem) leaf
      refine ⟨st.leaves.isLeaf leaf, ?_⟩
      change y.2 ∉ _
      simp only [Pc.exclusives, Pc.guards, none, List.nil_append, List.mem_cons, List.mem_append,
        List.mem_reverse, List.not_mem_nil, or_false, not_or]
      refine ⟨fun e => cutting.fresh.1 (e ▸ known), fun mem => above _ mem rfl, ?_⟩
      rw [holds.leaf]
      exact other

/-- Whoever waits for a page holds pages above it alone, but for a split. -/
theorem Inv.below (inv : Inv σ g) (needs : need (σ.task i).op σ.store (σ.task i).pc = .page q mode)
    (held : (σ.task i).pageMode p ≠ none) :
    g.levelOf p < g.levelOf q ∨ (σ.task i).pc.relinking = true := by
  obtain ⟨latches, -, grounded⟩ := inv
  have knows := grounded.knows i
  generalize task : σ.task i = u at needs held knows
  obtain ⟨op, pc⟩ := u
  rcases pageMode_cases held with ⟨root, rfl⟩ | mem
  · simp only [need] at needs
    split at needs
    · cases needs
    · rename_i inner
      obtain ⟨rfl, -⟩ := Need.page.inj needs
      simp only [not_or, Bool.not_eq_true] at inner
      have st := grounded.standing knows.1
      have agree := grounded.agree_held (p := p) task latches rfl (if_pos rfl)
      left
      rw [st.child knows agree inner.2, st.child_level knows agree inner.2]
      exact Nat.lt_succ_self _
  · cases pc with
    | path stack node =>
      obtain ⟨rfl, -⟩ := Need.page.inj needs
      exact .inl (knows.1.above (grounded.standing knows.1.1) knows.2 p mem)
    | relink => exact .inr rfl
    | rooted | crab | swap | found | bounded | walk => cases mem
    | _ => cases needs

theorem Inv.sibling (inv : Inv σ g) (relinking : (σ.task i).pc.relinking = true)
    (needs : need (σ.task i).op σ.store (σ.task i).pc = .page q mode) (held : (σ.task j).pageMode q ≠ none) :
    need (σ.task j).op σ.store (σ.task j).pc = .nothing := by
  obtain ⟨⟨prev, next, recs, leaf⟩, apart⟩ := inv.relinked rfl relinking needs
  obtain ⟨sp, cut, at_⟩ := Pc.relinking_cases relinking
  have alone : (σ.task i).pc.rootMode = some .exclusive := by
    rw [at_]
    rfl
  have ne : j ≠ i := by
    rintro rfl
    rcases pageMode_cases held with ⟨root, crab⟩ | mem
    · cases at_.symm.trans crab
    · exact apart mem
  have away := inv.latches.rootAlone alone ne
  generalize task : σ.task j = u at held away
  obtain ⟨op, pc⟩ := u
  rcases pageMode_cases held with ⟨root, rfl⟩ | mem
  · have agree := inv.grounded.agree_held (p := q) task inv.latches rfl (if_pos rfl)
    have isLeaf : (σ.store.view q).isLeaf = true := isLeaf_of_body (agree.trans leaf)
    exact if_pos (.inr isLeaf)
  · cases pc with
    | path | relink => cases away
    | begin | rooted | crab | slow | swap | found | bounded | walk => cases mem
    | _ => rfl

end PagerDB.Crab

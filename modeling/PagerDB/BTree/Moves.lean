import PagerDB.BTree.Crabbing

/-! What one step of a call can do, read off the code once. -/
namespace PagerDB.Crab

open Store

/-- The check at the head of `Put`. -/
def Op.Admitted : Op → Prop
  | .put key value .. => 4 + key.length + value.length ≤ kMaxLeafRecordBytes
  | _ => True

inductive Moves : Op → Store → Pc → Pc → Bool → Store → Prop
  | start {op : Op} {s : Store} (admitted : op.Admitted) : Moves op s .begin .rooted false s
  /- The root, under the shared `root_latch`. -/
  | absent {op : Op} {s : Store} (empty : s.metaPage.rootPageId = kInvalidPageId)
      (put : op.isPut = false) (cursor : op.isCursor = false) :
      Moves op s .rooted (.done (.error (.NotFound "Key not found (empty tree)"))) true s
  | plant {op : Op} {s : Store} (empty : s.metaPage.rootPageId = kInvalidPageId)
      (put : op.isPut = true) : Moves op s .rooted .slow false s
  | barren {op : Op} {s : Store} (empty : s.metaPage.rootPageId = kInvalidPageId)
      (cursor : op.isCursor = true) : Moves op s .rooted (.exhausted []) false s
  | enter {op : Op} {s s' : Store} (some : s.metaPage.rootPageId ≠ kInvalidPageId) (same : Same s s') :
      Moves op s .rooted (.crab true s.metaPage.rootPageId) false s'
  /- The descent. -/
  | release {op : Op} {s : Store} {node : PageId} (put : op.isPut = false) :
      Moves op s (.crab true node) (.crab false node) false s
  | child {op : Op} {s s' : Store} {root : Bool} {node : PageId} (under : root = true → op.isPut = true)
      (inner : (s.view node).isLeaf = false) (same : Same s s') :
      Moves op s (.crab root node) (.crab root (op.child (s.view node))) false s'
  | get {key : Bytes} {s : Store} {leaf : PageId} {answer : Answer} {s' : Store}
      (isLeaf : (s.view leaf).isLeaf = true) (run : answering (getAtLeaf key leaf) s = .ok answer s') :
      Moves (.get key) s (.crab false leaf) (.done answer) true s'
  | delete {key : Bytes} {txid : TxId} {wantBefore : Bool} {s s' : Store} {leaf : PageId} {answer : Answer}
      (isLeaf : (s.view leaf).isLeaf = true)
      (run : answering (deleteAtLeaf key txid wantBefore leaf) s = .ok answer s') :
      Moves (.delete key txid wantBefore) s (.crab false leaf) (.done answer) true s'
  | swap {op : Op} {s : Store} {root : Bool} {leaf : PageId} (isLeaf : (s.view leaf).isLeaf = true)
      (put : op.isPut = true) : Moves op s (.crab root leaf) (.swap leaf) false s
  | found {start : Bytes} {s : Store} {leaf : PageId} (isLeaf : (s.view leaf).isLeaf = true) :
      Moves (.seek start) s (.crab false leaf) (.found leaf) false s
  | first {s : Store} {leaf : PageId} (isLeaf : (s.view leaf).isLeaf = true) :
      Moves .seekToFirst s (.crab false leaf) (.bounded leaf 0) false s
  /- The optimistic Put at its leaf. -/
  | own {op : Op} {s s' : Store} {leaf : PageId} (put : op.isPut = true) (same : Same s s') :
      Moves op s (.swap leaf) (.owned true leaf) false s'
  | shed {op : Op} {s : Store} {leaf : PageId} (put : op.isPut = true) :
      Moves op s (.owned true leaf) (.owned false leaf) false s
  | write {key value : Bytes} {txid : TxId} {wantBefore : Bool} {s s' : Store} {leaf : PageId}
      {before : Option Bytes} (run : putAtLeaf key value txid wantBefore leaf s = .ok (some before) s') :
      Moves (.put key value txid wantBefore) s (.owned false leaf) (.done (.ok before)) true s'
  | retreat {key value : Bytes} {txid : TxId} {wantBefore : Bool} {s s' : Store} {leaf : PageId}
      (run : putAtLeaf key value txid wantBefore leaf s = .ok none s') :
      Moves (.put key value txid wantBefore) s (.owned false leaf) .slow false s'
  /- The pessimistic Put, under the exclusive `root_latch`. -/
  | bar {op : Op} {s : Store} (put : op.isPut = true) : Moves op s .slow .slowRooted false s
  | seed {key value : Bytes} {txid : TxId} {wantBefore : Bool} {s s' : Store} {u : Unit}
      (empty : s.metaPage.rootPageId = kInvalidPageId) (run : putFirst key value txid s = .ok u s') :
      Moves (.put key value txid wantBefore) s .slowRooted (.unwind [] true [] (.ok none)) true s'
  | descend {op : Op} {s : Store} (put : op.isPut = true)
      (some : s.metaPage.rootPageId ≠ kInvalidPageId) :
      Moves op s .slowRooted (.path [] s.metaPage.rootPageId) false s
  | down {key value : Bytes} {txid : TxId} {wantBefore : Bool} {s s' : Store} {stack : List PageId}
      {node : PageId} (same : Same s s') (inner : (s'.view node).isLeaf = false) :
      Moves (.put key value txid wantBefore) s (.path stack node)
        (.path (node :: stack) ((s'.view node).findChild key)) false s'
  | arrive {op : Op} {s s' : Store} {stack : List PageId} {node : PageId} (put : op.isPut = true)
      (same : Same s s') (isLeaf : (s'.view node).isLeaf = true) :
      Moves op s (.path stack node) (.held stack node) false s'
  | absorb {key value : Bytes} {txid : TxId} {wantBefore : Bool} {s s' : Store}
      {ancestors : List PageId} {leaf : PageId} {r : AtLeaf}
      (run : putHeldLeaf key value txid wantBefore leaf s = .ok r s') (done : r.absorbed = true) :
      Moves (.put key value txid wantBefore) s (.held ancestors leaf)
        (.unwind ancestors.reverse true [leaf] (.ok r.before)) true s'
  | split {key value : Bytes} {txid : TxId} {wantBefore : Bool} {s t s' : Store}
      {ancestors : List PageId} {leaf : PageId} {r : AtLeaf} {cut : LeafCut}
      (run : putHeldLeaf key value txid wantBefore leaf s = .ok r t) (full : r.absorbed = false)
      (half : splitLeafLeft leaf txid t = .ok cut s') :
      Moves (.put key value txid wantBefore) s (.held ancestors leaf)
        (.right ⟨ancestors, leaf, r.before, r.replacing, []⟩ cut) false s'
  | right {key value : Bytes} {txid : TxId} {wantBefore : Bool} {s s' : Store} {sp : Splitting}
      {cut : LeafCut} {u : Unit} (run : splitLeafRight sp.leaf txid cut s = .ok u s') :
      Moves (.put key value txid wantBefore) s (.right sp cut) (.relink sp cut) false s'
  | last {op : Op} {s : Store} {sp : Splitting} {cut : LeafCut} (put : op.isPut = true)
      (none : cut.oldNext = kInvalidPageId) : Moves op s (.relink sp cut) (.place sp cut) false s
  | relink {key value : Bytes} {txid : TxId} {wantBefore : Bool} {s s' : Store} {sp : Splitting}
      {cut : LeafCut} {u : Unit} (some : cut.oldNext ≠ kInvalidPageId)
      (run : relinkSibling cut.oldNext cut.new txid s = .ok u s') :
      Moves (.put key value txid wantBefore) s (.relink sp cut)
        (.place { sp with opGuards := [cut.oldNext] } cut) false s'
  | place {key value : Bytes} {txid : TxId} {wantBefore : Bool} {s t s' : Store} {sp : Splitting}
      {cut : LeafCut} {u u' : Unit}
      (run : insertSplit key value txid wantBefore sp.before cut.splitKey sp.leaf cut.new s = .ok u t)
      (count : onlyIf (!sp.replacing) (addToNumKeys 1) t = .ok u' s') :
      Moves (.put key value txid wantBefore) s (.place sp cut)
        (.climb { sp with opGuards := sp.opGuards ++ [cut.new] } sp.ancestors cut.splitKey sp.leaf cut.new)
        false s'
  | root {key value : Bytes} {txid : TxId} {wantBefore : Bool} {s s' : Store} {sp : Splitting}
      {sep : Bytes} {left right : PageId} {u : Unit}
      (run : createNewRoot sep left right txid s = .ok u s') :
      Moves (.put key value txid wantBefore) s (.climb sp [] sep left right)
        (.unwind (Pc.guards sp) true [] (.ok sp.before)) true s'
  | graft {key value : Bytes} {txid : TxId} {wantBefore : Bool} {s s' : Store} {sp : Splitting}
      {sep : Bytes} {left right parent : PageId} {rest : List PageId} {p : Page}
      (insert : (s.view parent).insertInternalAfterSplit sep left right = (true, p))
      (same : Same (s.putPage parent p) s') :
      Moves (.put key value txid wantBefore) s (.climb sp (parent :: rest) sep left right)
        (.unwind (Pc.guards sp) true [] (.ok sp.before)) true s'
  | tear {key value : Bytes} {txid : TxId} {wantBefore : Bool} {s t s' : Store} {sp : Splitting}
      {sep : Bytes} {left right parent : PageId} {rest : List PageId} {cut : NodeCut}
      (full : ((s.view parent).insertInternalAfterSplit sep left right).1 = false)
      (same : Same s t) (half : splitInternalLeft parent txid t = .ok cut s') :
      Moves (.put key value txid wantBefore) s (.climb sp (parent :: rest) sep left right)
        (.innerRight sp rest sep left right parent cut) false s'
  | innerRight {key value : Bytes} {txid : TxId} {wantBefore : Bool} {s s' : Store} {sp : Splitting}
      {sep : Bytes} {left right parent : PageId} {rest : List PageId} {cut : NodeCut} {u : Unit}
      (run : splitInternalRight txid cut s = .ok u s') :
      Moves (.put key value txid wantBefore) s (.innerRight sp rest sep left right parent cut)
        (.innerPlace sp rest sep left right parent cut) false s'
  | innerPlace {key value : Bytes} {txid : TxId} {wantBefore : Bool} {s s' : Store} {sp : Splitting}
      {sep : Bytes} {left right parent : PageId} {rest : List PageId} {cut : NodeCut} {u : Unit}
      (run : insertIntoHalf txid sep cut.splitKey left right parent cut.new s = .ok u s') :
      Moves (.put key value txid wantBefore) s (.innerPlace sp rest sep left right parent cut)
        (.climb { sp with opGuards := sp.opGuards ++ [cut.new] } rest cut.splitKey parent cut.new) false s'
  /- The guards go. -/
  | drop {op : Op} {s : Store} {p : PageId} {pages leaf : List PageId} {root : Bool} {answer : Answer}
      (put : op.isPut = true) :
      Moves op s (.unwind (p :: pages) root leaf answer) (.unwind pages root leaf answer) false s
  | unbar {op : Op} {s : Store} {leaf : List PageId} {answer : Answer} (put : op.isPut = true) :
      Moves op s (.unwind [] true leaf answer) (.unwind [] false leaf answer) false s
  | dropLeaf {op : Op} {s : Store} {p : PageId} {leaf : List PageId} {answer : Answer}
      (put : op.isPut = true) :
      Moves op s (.unwind [] false (p :: leaf) answer) (.unwind [] false leaf answer) false s
  | leave {op : Op} {s : Store} {answer : Answer} (put : op.isPut = true) :
      Moves op s (.unwind [] false [] answer) (.done answer) false s
  /- The cursor. -/
  | bound {op : Op} {s s' : Store} {leaf : PageId} (cursor : op.isCursor = true) (same : Same s s') :
      Moves op s (.found leaf) (.bounded leaf ((s'.view leaf).lowerBound op.key)) false s'
  | copy {op : Op} {s s' : Store} {leaf : PageId} {index : Nat} (cursor : op.isCursor = true)
      (same : Same s s') : Moves op s (.bounded leaf index) (.walk (s'.view leaf) index []) false s'
  | yield {op : Op} {s : Store} {page : Page} {index : Nat} {seen : List (Bytes × Bytes)}
      (cursor : op.isCursor = true) (more : index < page.numSlots) :
      Moves op s (.walk page index seen)
        (.walk page (index + 1) (seen ++ [(page.getKey index, page.getValueAt index)])) false s
  | exhaust {op : Op} {s : Store} {page : Page} {index : Nat} {seen : List (Bytes × Bytes)}
      (cursor : op.isCursor = true) (less : page.numSlots ≤ index)
      (last : page.getNextLeaf = kInvalidPageId) :
      Moves op s (.walk page index seen) (.exhausted seen) false s
  | hop {op : Op} {s s' : Store} {page : Page} {index : Nat} {seen : List (Bytes × Bytes)}
      (cursor : op.isCursor = true) (less : page.numSlots ≤ index)
      (next : page.getNextLeaf ≠ kInvalidPageId) (same : Same s s')
      (isLeaf : (s'.view page.getNextLeaf).isLeaf = true) :
      Moves op s (.walk page index seen) (.walk (s'.view page.getNextLeaf) 0 seen) false s'

section

variable {op : Op} {s s' : Store} {pc pc' : Pc} {point : Bool} {key value : Bytes} {txid : TxId}
  {wantBefore : Bool}

theorem goto_ok : goto pc s = .ok (pc', point) s' ↔ pc = pc' ∧ false = point ∧ s = s' := by
  simp [goto, and_assoc]

theorem effect_ok : effect pc s = .ok (pc', point) s' ↔ pc = pc' ∧ true = point ∧ s = s' := by
  simp [effect, and_assoc]

theorem goto_after {α : Type} {x : M α} {p : Pc} :
    (x >>= fun _ => goto p) s = .ok (pc', point) s' ↔ p = pc' ∧ false = point ∧ ∃ a, x s = .ok a s' := by
  rw [bind_ok]
  constructor
  · rintro ⟨a, t, run, gone⟩
    obtain ⟨rfl, rfl, rfl⟩ := goto_ok.mp gone
    exact ⟨rfl, rfl, a, run⟩
  · rintro ⟨rfl, rfl, a, run⟩
    exact ⟨a, s', run, goto_ok.mpr ⟨rfl, rfl, rfl⟩⟩

theorem effect_after {α : Type} {x : M α} {p : Pc} :
    (x >>= fun _ => effect p) s = .ok (pc', point) s' ↔ p = pc' ∧ true = point ∧ ∃ a, x s = .ok a s' := by
  rw [bind_ok]
  constructor
  · rintro ⟨a, t, run, gone⟩
    obtain ⟨rfl, rfl, rfl⟩ := effect_ok.mp gone
    exact ⟨rfl, rfl, a, run⟩
  · rintro ⟨rfl, rfl, a, run⟩
    exact ⟨a, s', run, effect_ok.mpr ⟨rfl, rfl, rfl⟩⟩

theorem rootPageId_run : rootPageId s = .ok s.metaPage.rootPageId s := rfl

theorem atRoot_moves (h : op.atRoot s = .ok (pc', point) s') : Moves op s .rooted pc' point s' := by
  simp only [Op.atRoot, bind_ok, isEmpty_run] at h
  obtain ⟨_, _, ⟨rfl, rfl⟩, h⟩ := h
  by_cases empty : s.metaPage.rootPageId = kInvalidPageId
  · simp only [empty, decide_true, if_true] at h
    cases op with
    | get | delete =>
      obtain ⟨rfl, rfl, rfl⟩ := effect_ok.mp h
      exact .absent empty rfl rfl
    | put =>
      obtain ⟨rfl, rfl, rfl⟩ := goto_ok.mp h
      exact .plant empty rfl
    | seek | seekToFirst =>
      obtain ⟨rfl, rfl, rfl⟩ := goto_ok.mp h
      exact .barren empty rfl
  · simp only [empty, decide_false, Bool.false_eq_true, if_false, bind_ok, rootPageId_run] at h
    obtain ⟨_, _, got, _, t, fetch, h⟩ := h
    cases got
    obtain ⟨rfl, rfl, rfl⟩ := goto_ok.mp h
    exact .enter empty (fetchPage_same fetch)

theorem couple_moves {root : Bool} {node : PageId} (h : op.couple root node s = .ok (pc', point) s') :
    Moves op s (.crab root node) pc' point s' := by
  unfold Op.couple at h
  split at h
  · rename_i early
    simp only [Bool.and_eq_true, Bool.not_eq_true'] at early
    obtain ⟨rfl, put⟩ := early
    obtain ⟨rfl, rfl, rfl⟩ := goto_ok.mp h
    exact .release put
  · rename_i late
    have under : root = true → op.isPut = true := by simpa using late
    simp only [bind_ok, getPage_run] at h
    obtain ⟨_, _, ⟨rfl, rfl⟩, h⟩ := h
    split at h
    · rename_i isLeaf
      cases op with
      | put =>
        obtain ⟨rfl, rfl, rfl⟩ := goto_ok.mp h
        exact .swap isLeaf rfl
      | get | delete =>
        obtain rfl : root = false := by simpa [Op.isPut] using under
        simp only [Op.atLeaf, bind_ok] at h
        obtain ⟨answer, t, run, h⟩ := h
        obtain ⟨rfl, rfl, rfl⟩ := effect_ok.mp h
        first
        | exact .get isLeaf run
        | exact .delete isLeaf run
      | seek =>
        obtain rfl : root = false := by simpa [Op.isPut] using under
        obtain ⟨rfl, rfl, rfl⟩ := goto_ok.mp h
        exact .found isLeaf
      | seekToFirst =>
        obtain rfl : root = false := by simpa [Op.isPut] using under
        obtain ⟨rfl, rfl, rfl⟩ := goto_ok.mp h
        exact .first isLeaf
    · rename_i inner
      simp only [bind_ok, failIf_ok] at h
      obtain ⟨_, _, ⟨-, rfl⟩, _, t, fetch, h⟩ := h
      obtain ⟨rfl, rfl, rfl⟩ := goto_ok.mp h
      exact .child under (by simpa using inner) (fetchPage_same fetch)

section PutStep

variable {leaf node : PageId} {ancestors stack : List PageId} {sp : Splitting} {cut : LeafCut}

theorem owned_moves (h : putStep key value txid wantBefore (.owned false leaf) s = .ok (pc', point) s') :
    Moves (.put key value txid wantBefore) s (.owned false leaf) pc' point s' := by
  obtain ⟨before, t, run, h⟩ := bind_ok.mp h
  cases before with
  | some before =>
    obtain ⟨rfl, rfl, rfl⟩ := effect_ok.mp h
    exact .write run
  | none =>
    obtain ⟨rfl, rfl, rfl⟩ := goto_ok.mp h
    exact .retreat run

theorem slowRooted_moves (h : putStep key value txid wantBefore .slowRooted s = .ok (pc', point) s') :
    Moves (.put key value txid wantBefore) s .slowRooted pc' point s' := by
  simp only [putStep, bind_ok, isEmpty_run] at h
  obtain ⟨_, _, ⟨rfl, rfl⟩, h⟩ := h
  by_cases empty : s.metaPage.rootPageId = kInvalidPageId
  · simp only [empty, decide_true, if_true, effect_after] at h
    obtain ⟨rfl, rfl, u, run⟩ := h
    exact .seed empty run
  · simp only [empty, decide_false, Bool.false_eq_true, if_false, bind_ok, rootPageId_run] at h
    obtain ⟨_, _, got, h⟩ := h
    cases got
    obtain ⟨rfl, rfl, rfl⟩ := goto_ok.mp h
    exact .descend rfl empty

theorem path_moves (h : putStep key value txid wantBefore (.path stack node) s = .ok (pc', point) s') :
    Moves (.put key value txid wantBefore) s (.path stack node) pc' point s' := by
  simp only [putStep, bind_ok, getPage_run] at h
  obtain ⟨_, t, fetch, _, _, ⟨rfl, rfl⟩, h⟩ := h
  split at h
  · rename_i isLeaf
    obtain ⟨rfl, rfl, rfl⟩ := goto_ok.mp h
    exact .arrive rfl (fetchPage_same fetch) isLeaf
  · rename_i inner
    simp only [bind_ok, failIf_ok] at h
    obtain ⟨_, _, ⟨-, rfl⟩, h⟩ := h
    obtain ⟨rfl, rfl, rfl⟩ := goto_ok.mp h
    exact .down (fetchPage_same fetch) (by simpa using inner)

theorem held_moves (h : putStep key value txid wantBefore (.held ancestors leaf) s = .ok (pc', point) s') :
    Moves (.put key value txid wantBefore) s (.held ancestors leaf) pc' point s' := by
  obtain ⟨r, t, run, h⟩ := bind_ok.mp h
  split at h
  · rename_i done
    obtain ⟨rfl, rfl, rfl⟩ := effect_ok.mp h
    exact .absorb run done
  · rename_i full
    obtain ⟨cut, t', half, h⟩ := bind_ok.mp h
    obtain ⟨rfl, rfl, rfl⟩ := goto_ok.mp h
    exact .split run (by simpa using full) half

theorem relink_moves (h : putStep key value txid wantBefore (.relink sp cut) s = .ok (pc', point) s') :
    Moves (.put key value txid wantBefore) s (.relink sp cut) pc' point s' := by
  simp only [putStep] at h
  split at h
  · rename_i none
    obtain ⟨rfl, rfl, rfl⟩ := goto_ok.mp h
    exact .last rfl none
  · rename_i some
    obtain ⟨rfl, rfl, u, run⟩ := goto_after.mp h
    exact .relink some run

theorem climb_moves {sep : Bytes} {left right parent : PageId} {rest : List PageId}
    (h : putStep key value txid wantBefore (.climb sp (parent :: rest) sep left right) s =
      .ok (pc', point) s') :
    Moves (.put key value txid wantBefore) s (.climb sp (parent :: rest) sep left right) pc' point s' := by
  simp only [putStep, bind_ok, withNode_run] at h
  obtain ⟨flag, t, put, h⟩ := h
  cases put
  generalize insert : (s.view parent).insertInternalAfterSplit sep left right = out at h
  obtain ⟨flag, p⟩ := out
  cases flag with
  | true =>
    obtain ⟨rfl, rfl, u, log⟩ := effect_after.mp h
    exact .graft insert (logPageImage_same log)
  | false =>
    have full := congrArg Prod.fst insert
    obtain rfl := insertInternalAfterSplit_false insert
    obtain ⟨cut, t, half, h⟩ := bind_ok.mp h
    obtain ⟨rfl, rfl, rfl⟩ := goto_ok.mp h
    exact .tear full (same_putPage s parent (s.view parent) rfl id) half

theorem unwind_moves {pages leaves : List PageId} {root : Bool} {answer : Answer}
    (h : putStep key value txid wantBefore (.unwind pages root leaves answer) s = .ok (pc', point) s') :
    Moves (.put key value txid wantBefore) s (.unwind pages root leaves answer) pc' point s' := by
  match pages, root, leaves with
  | p :: pages, root, leaves =>
    obtain ⟨rfl, rfl, rfl⟩ := goto_ok.mp h
    exact .drop rfl
  | [], true, leaves =>
    obtain ⟨rfl, rfl, rfl⟩ := goto_ok.mp h
    exact .unbar rfl
  | [], false, p :: leaves =>
    obtain ⟨rfl, rfl, rfl⟩ := goto_ok.mp h
    exact .dropLeaf rfl
  | [], false, [] =>
    obtain ⟨rfl, rfl, rfl⟩ := goto_ok.mp h
    exact .leave rfl

end PutStep

theorem putStep_moves (h : putStep key value txid wantBefore pc s = .ok (pc', point) s') :
    Moves (.put key value txid wantBefore) s pc pc' point s' := by
  cases pc with
  | swap leaf =>
    obtain ⟨rfl, rfl, u, fetch⟩ := goto_after.mp h
    exact .own rfl (fetchPage_same fetch)
  | owned root leaf =>
    cases root with
    | true =>
      obtain ⟨rfl, rfl, rfl⟩ := goto_ok.mp h
      exact .shed rfl
    | false => exact owned_moves h
  | slow =>
    obtain ⟨rfl, rfl, rfl⟩ := goto_ok.mp h
    exact .bar rfl
  | slowRooted => exact slowRooted_moves h
  | path stack node => exact path_moves h
  | held ancestors leaf => exact held_moves h
  | right sp cut =>
    obtain ⟨rfl, rfl, u, run⟩ := goto_after.mp h
    exact .right run
  | relink sp cut => exact relink_moves h
  | place sp cut =>
    obtain ⟨u, t, run, h⟩ := bind_ok.mp h
    obtain ⟨rfl, rfl, u', count⟩ := goto_after.mp h
    exact .place run count
  | climb sp rest sep left right =>
    cases rest with
    | nil =>
      obtain ⟨rfl, rfl, u, run⟩ := effect_after.mp h
      exact .root run
    | cons parent rest => exact climb_moves h
  | innerRight sp rest sep left right parent cut =>
    obtain ⟨rfl, rfl, u, run⟩ := goto_after.mp h
    exact .innerRight run
  | innerPlace sp rest sep left right parent cut =>
    obtain ⟨rfl, rfl, u, run⟩ := goto_after.mp h
    exact .innerPlace run
  | unwind pages root leaves answer => exact unwind_moves h
  | _ => cases h

theorem cursorStep_moves (cursor : op.isCursor = true)
    (h : cursorStep op.key pc s = .ok (pc', point) s') : Moves op s pc pc' point s' := by
  unfold cursorStep at h
  split at h
  · simp only [bind_ok, getPage_run] at h
    obtain ⟨_, t, fetch, _, _, ⟨rfl, rfl⟩, h⟩ := h
    obtain ⟨rfl, rfl, rfl⟩ := goto_ok.mp h
    exact .bound cursor (fetchPage_same fetch)
  · simp only [bind_ok, getPage_run] at h
    obtain ⟨_, t, fetch, _, _, ⟨rfl, rfl⟩, h⟩ := h
    obtain ⟨rfl, rfl, rfl⟩ := goto_ok.mp h
    exact .copy cursor (fetchPage_same fetch)
  · split at h
    · rename_i more
      obtain ⟨rfl, rfl, rfl⟩ := goto_ok.mp h
      exact .yield cursor more
    · rename_i less
      split at h
      · rename_i last
        obtain ⟨rfl, rfl, rfl⟩ := goto_ok.mp h
        exact .exhaust cursor (not_lt.mp less) last
      · rename_i next
        simp only [bind_ok, getPage_run, failIf_ok] at h
        obtain ⟨_, t, fetch, _, _, ⟨rfl, rfl⟩, _, _, ⟨isLeaf, rfl⟩, h⟩ := h
        obtain ⟨rfl, rfl, rfl⟩ := goto_ok.mp h
        exact .hop cursor (not_lt.mp less) next (fetchPage_same fetch) (by simpa using isLeaf)
  · cases h

theorem access_moves (h : op.access pc s = .ok (pc', point) s') : Moves op s pc pc' point s' := by
  unfold Op.access at h
  split at h
  · cases op with
    | put key value txid wantBefore =>
      simp only [bind_ok, failIf_ok] at h
      obtain ⟨_, _, ⟨size, rfl⟩, h⟩ := h
      obtain ⟨rfl, rfl, rfl⟩ := goto_ok.mp h
      exact .start (not_lt.mp size)
    | get | delete | seek | seekToFirst =>
      obtain ⟨rfl, rfl, rfl⟩ := goto_ok.mp h
      exact .start trivial
  · exact atRoot_moves h
  · exact couple_moves h
  · cases op with
    | put => exact putStep_moves h
    | seek | seekToFirst => exact cursorStep_moves rfl h
    | get | delete => cases h

end

namespace State

variable {σ : State} {i j : Nat} {s : Store} {op : Op} {pc : Pc} {point : Bool} {P : Nat → Task → Prop}

theorem moved_other (ne : j ≠ i) : (σ.moved i s pc point).task j = σ.task j :=
  Function.update_of_ne ne ..

theorem moved_self : (σ.moved i s pc point).task i = ⟨(σ.task i).op, pc⟩ :=
  Function.update_self ..

theorem invoked_other (ne : j ≠ σ.next) : (σ.invoked op).task j = σ.task j :=
  Function.update_of_ne ne ..

theorem invoked_self : (σ.invoked op).task σ.next = ⟨op, .begin⟩ :=
  Function.update_self ..

theorem each_moved (self : P i ⟨(σ.task i).op, pc⟩) (others : ∀ j, j ≠ i → P j (σ.task j)) (j : Nat) :
    P j ((σ.moved i s pc point).task j) := by
  by_cases e : j = i
  · rw [e, moved_self]
    exact self
  · rw [moved_other e]
    exact others j e

theorem each_invoked (self : P σ.next ⟨op, .begin⟩) (others : ∀ j, j ≠ σ.next → P j (σ.task j))
    (j : Nat) : P j ((σ.invoked op).task j) := by
  by_cases e : j = σ.next
  · rw [e, invoked_self]
    exact self
  · rw [invoked_other e]
    exact others j e

end State

theorem State.step_cases {σ σ' : State} {e : Event} (h : σ.step e = some σ') :
    (∃ op, e = .invoke op ∧ σ' = σ.invoked op) ∨
    (∃ i s pc point, e = .step i ∧ i < σ.next ∧
      σ.available i (need (σ.task i).op σ.store (σ.task i).pc) = true ∧
      Moves (σ.task i).op σ.store (σ.task i).pc pc point s ∧ σ' = σ.moved i s pc point) ∨
    ∃ pid s, e = .evict pid ∧ σ.store.evict pid = some s ∧ σ' = { σ with store := s } := by
  cases e with
  | invoke op => exact .inl ⟨op, rfl, (Option.some.inj h).symm⟩
  | step i =>
    simp only [State.step] at h
    split at h
    · rename_i ready
      split at h
      · rename_i pc point s run
        exact .inr (.inl ⟨i, s, pc, point, rfl, ready.1, ready.2, access_moves run, (Option.some.inj h).symm⟩)
      · cases h
    · cases h
  | evict pid =>
    simp only [State.step] at h
    split at h
    · obtain ⟨s, evict, eq⟩ := Option.map_eq_some_iff.mp h
      exact .inr (.inr ⟨pid, s, rfl, evict, eq.symm⟩)
    · cases h

end PagerDB.Crab

import PagerDB.BTree.RecordSize
import PagerDB.BTree.SplitPieces

/-! A Put that ends well has found room: the condition under which it succeeds leaves out no input. -/
namespace PagerDB

open KeepsLib SortedLib Store

namespace Page

variable {p p' : Page} {prev next r : PageId} {recs : List (Bytes × Bytes)}
  {es : List (Bytes × PageId)} {key value : Bytes}

theorem leafTakes_of_body {lo hi : List (Bytes × Bytes)}
    (body : p.body = .leaf prev next (lo ++ (key, value) :: hi))
    (acc : p.Accounted) : LeafTakes (lo ++ hi) key value := by
  have cost := leafCost_le body acc
  simp only [LeafTakes, List.map_append, List.map_cons, List.sum_append, List.sum_cons] at cost ⊢
  omega

theorem insertLeaf_hadRoom (body : p.body = .leaf prev next recs) (asc : (recs.map Prod.fst).Pairwise (· < ·))
    (acc : p.Accounted) (took : p.insertLeaf key value = (true, p')) : LeafTakes recs key value := by
  obtain ⟨lo, hi, rfl, -, -, body', -, -, account⟩ := insertLeaf_true body asc took
  exact leafTakes_of_body body' (account acc)

theorem insertInternal_hadRoom {c : PageId} (body : p.body = .internal r []) (packed : p.Packed)
    (took : p.insertInternal key c = (true, p')) : NodeTakes [] key := by
  have body' := insertInternal_last body List.Pairwise.nil (by simp) took
  have packed' : p'.Packed := by
    have kept : (p.insertInternal key c).2.Packed := insertInternal_packed packed
    rwa [took] at kept
  have room := internal_room body' packed'
  simp only [NodeTakes, List.nil_append, List.map_cons, List.map_nil, List.sum_cons, List.sum_nil, nodeCost,
    internalRecordBytes] at room ⊢
  omega

theorem insertInternalAfterSplit_hadRoom {left right : PageId} (body : p.body = .internal r es)
    (took : p.insertInternalAfterSplit key left right = (true, p')) : NodeTakes es key := by
  have index : p.lowerBound key ≤ es.length := by
    have bound := p.lowerBound_le key
    simpa [numSlots, body] using bound
  simp only [insertInternalAfterSplit, body] at took
  split at took
  · split at took
    · cases took
    · rename_i needed
      rw [spliceEntries_cost key left right index] at needed
      exact not_lt.mp needed
  · cases took

end Page

variable {s s' t : Store} {h : Nat} {key value : Bytes} {pre post : List Link} {x : Link}
  {prev next : PageId} {recs : List (Bytes × Bytes)} {txid : TxId} {wantBefore : Bool}
  {ancestors : List PageId} {entries : List (Bytes × Bytes)}

/- The climb. -/

theorem createNewRoot_hadRoom {sep : Bytes} {left right : PageId} {u : Unit}
    (run : createNewRoot sep left right txid s = .ok u s') : NodeTakes [] sep := by
  simp only [createNewRoot, bind_ok, setPage_run, withNode_run, failIf_ok] at run
  obtain ⟨root, t, -, _, t', -, _, _, set, flag, _, put, _, _, ⟨given, -⟩, -⟩ := run
  cases set
  cases put
  rw [view_putPage, if_pos rfl] at given
  generalize insert : (Page.init root (.internal kInvalidPageId [])).insertInternal sep left = out at given
  obtain ⟨flag, p⟩ := out
  obtain rfl : flag = true := by simpa using given
  exact Page.insertInternal_hadRoom rfl (Page.packed_init root) insert

theorem insertIntoHalf_hadRoom {sep newKey : Bytes} {left right parent new r₁ r₂ : PageId}
    {es₁ es₂ : List (Bytes × PageId)} {u : Unit} (leftBody : s.bodies parent = .internal r₁ es₁)
    (rightBody : s.bodies new = .internal r₂ es₂)
    (run : insertIntoHalf txid sep newKey left right parent new s = .ok u s') :
    NodeTakes (if sep < newKey then es₁ else es₂) sep := by
  have took : ∀ {pid r : PageId} {es : List (Bytes × PageId)} {message : String},
    s.bodies pid = .internal r es →
      (do
        let inserted ← withNode pid (·.insertInternalAfterSplit sep left right)
        failIf (!inserted) (.status (.Internal message))
        logPageImage pid txid false : M Unit) s = .ok u s' → NodeTakes es sep := by
    intro pid r es message body run
    simp only [bind_ok, withNode_run, failIf_ok] at run
    obtain ⟨flag, _, put, _, _, ⟨given, -⟩, -⟩ := run
    cases put
    generalize insert : (s.view pid).insertInternalAfterSplit sep left right = out at given
    obtain ⟨flag, p⟩ := out
    obtain rfl : flag = true := by simpa using given
    exact Page.insertInternalAfterSplit_hadRoom body insert
  unfold insertIntoHalf at run
  split at run
  · rename_i lt
    rw [if_pos lt]
    exact took leftBody run
  · rename_i ge
    rw [if_neg ge]
    exact took rightBody run

theorem propagate_hadRoom {c : Link} {sep : Bytes} {new : PageId} {u : Unit}
    (at_ : Pending s ancestors pre c post sep)
    (run : propagate txid ancestors sep c.2 new s = .ok u s') : SepFits s.bodies ancestors sep := by
  induction ancestors generalizing s pre c post sep new with
  | nil => exact createNewRoot_hadRoom run
  | cons parent ancestors ih =>
    have climb := at_.climb
    generalize eq : s.metaPage.rootPageId = root at climb
    cases climb with
    | @down _ pre post spre spost x _ r es up node children =>
      subst eq
      rw [SepFits, node]
      rw [propagate] at run
      obtain ⟨flag, t, put, run⟩ := bind_ok.mp run
      rw [withNode_run] at put
      generalize insert : (s.view x.2).insertInternalAfterSplit sep c.2 new = out at put
      obtain ⟨given, p⟩ := out
      cases put
      cases given with
      | true => exact .inl (Page.insertInternalAfterSplit_hadRoom node insert)
      | false =>
        obtain rfl := insertInternalAfterSplit_false insert
        simp only [Bool.false_eq_true, if_false] at run
        have same := same_putPage s x.2 (s.view x.2) rfl id
        generalize s.putPage x.2 (s.view x.2) = t at same run
        have pending := at_.same same
        have bodies := same.bodies
        have page := same.metaPage
        rw [← bodies] at pending up node ⊢
        rw [← page] at up
        obtain ⟨⟨upper, newKey⟩, s₁, split, run⟩ := bind_ok.mp run
        obtain ⟨_, s₂, half, run⟩ := bind_ok.mp run
        have keysAsc := asc_seg_keys (pending.children_asc children)
        have oldX : x.2 < t.metaPage.numPages := pending.old x.2 (pending.climb.mem x.2 (by simp))
        obtain ⟨fresh, -, -, i, hi, rfl, rfl, bodies₁⟩ :=
          splitInternal_ok pending.free oldX node keysAsc split
        have apart : upper ≠ x.2 := fresh ▸ oldX.ne'
        have leftBody : s₁.bodies x.2 = .internal es[es.length / 2].2 (es.take (es.length / 2)) := by
          rw [bodies₁, Function.update_of_ne apart.symm, Function.update_self]
        have rightBody : s₁.bodies upper = .internal r (es.drop (es.length / 2 + 1)) := by
          rw [bodies₁, Function.update_self]
        have middle : middleKey es = es[es.length / 2].1 := by simp [middleKey, hi]
        have nonempty : es ≠ [] := List.ne_nil_of_length_pos (Nat.zero_lt_of_lt hi)
        obtain ⟨next, -, -, -, frame, -⟩ := propagate_split pending up node children split half
        simp only [entriesOf, middle]
        refine .inr ⟨nonempty, insertIntoHalf_hadRoom leftBody rightBody half,
          (ih next run).congr fun a mem => ?_⟩
        have inner := pending.climb.mem a (by simp [mem])
        have nodup := pending.nodup
        rw [List.length_cons, innerIds_succ, up.level, List.nodup_append] at nodup
        exact (frame a (nodup.2.2 a (up.mem a mem) x.2 (by simp)) (fresh ▸ (pending.old a inner).ne)).symm

/- Leaves. -/

theorem insertSplit_hadRoom {sep : Bytes} {before : Option Bytes} {new : PageId}
    {left right : List (Bytes × Bytes)}
    {u : Unit} (halves : Halves s x new prev next sep left right)
    (asc : ((left ++ right).map Prod.fst).Pairwise (· < ·))
    (run : insertSplit key value txid wantBefore before sep x.2 new s = .ok u s') :
    LeafTakes (if key < sep then left else right) key value := by
  rw [List.map_append, List.pairwise_append] at asc
  have took : ∀ {pid l n : PageId} {recs : List (Bytes × Bytes)} {message : String},
      s.bodies pid = .leaf l n recs → (recs.map Prod.fst).Pairwise (· < ·) → (s.view pid).Accounted →
      (do
        let inserted ← withNode pid (·.insertLeaf key value)
        failIf (!inserted) (.status (.Internal message))
        logKeyRecord (.put pid key value before) txid pid false wantBefore : M Unit) s = .ok u s' →
      LeafTakes recs key value := by
    intro pid l n recs message body asc acc run
    simp only [bind_ok, withNode_run, failIf_ok] at run
    obtain ⟨flag, _, put, _, _, ⟨given, -⟩, -⟩ := run
    cases put
    generalize insert : (s.view pid).insertLeaf key value = out at given
    obtain ⟨flag, p⟩ := out
    obtain rfl : flag = true := by simpa using given
    exact Page.insertLeaf_hadRoom body asc acc insert
  unfold insertSplit at run
  split at run
  · rename_i lt
    rw [if_pos lt]
    exact took halves.leftBody asc.1 halves.leftAcc run
  · rename_i ge
    rw [if_neg ge]
    exact took halves.rightBody asc.2.1 halves.rightAcc run

theorem putSplitting_hadRoom {before : Option Bytes} {replacing : Bool} {u : Unit} (tree : Tree s h)
    (sound : Sound s)
    (reached : Reached s h key pre x post prev next recs)
    (climb : Climb s.bodies s.metaPage.rootPageId ancestors pre x post) (height : ancestors.length = h)
    (size : 4 + key.length + value.length ≤ kMaxLeafRecordBytes)
    (full : (s.view x.2).room < kSlotEntrySize + 4 + key.length + value.length)
    (run : putSplitting key value txid wantBefore before replacing x.2 ancestors s = .ok u s') :
    SplitTakes recs key value ∧ SepFits s.bodies ancestors (middleKey recs) := by
  obtain ⟨⟨new, sep⟩, s₁, split, run⟩ := bind_ok.mp run
  obtain ⟨_, s₂, insert, run⟩ := bind_ok.mp run
  obtain ⟨_, s₃, count, run⟩ := bind_ok.mp run
  obtain rfl := splitLeaf_key reached.body split
  obtain ⟨fresh, page₁, ext₁, halves, -, sepMem, -⟩ :=
    splitLeaf_halves tree sound reached (full_ne_nil reached.body size full) split
  have asc : ((recs.take (recs.length / 2) ++ recs.drop (recs.length / 2)).map Prod.fst).Pairwise
    (· < ·) := by
    rw [List.take_append_drop]
    exact reached.asc
  refine ⟨insertSplit_hadRoom halves asc insert, ?_⟩
  have apart : new ≠ x.2 := fresh ▸ reached.old.ne'
  obtain ⟨page₂, ext₂, -, -, -, -, -, -, -, -, -, inserted⟩ := insertSplit_ok apart asc halves insert
  obtain ⟨n, rfl, -⟩ := counted count
  have ext := ext₁.trans ext₂
  have root : s₂.metaPage.rootPageId = s.metaPage.rootPageId := by rw [page₂, page₁]
  have above : x.1 < middleKey recs := separator_gt reached full halves sepMem inserted
  have below : ∀ y ∈ post, middleKey recs < y.1 := by
    obtain ⟨r, mem, eq⟩ := sepMem
    rw [← eq]
    exact fun y hy => reached.upper r (List.mem_of_mem_drop mem) y hy
  have pending := split_pending tree sound reached.row climb height fresh ext root above below n
  refine (propagate_hadRoom pending run).congr fun a mem => ?_
  exact (split_kept tree reached.row fresh ext a (.inl (height ▸ climb.mem a mem))).1.symm

theorem others_of_cut {lo hi : List (Bytes × Bytes)}
    (cut : recs = lo ++ hi ∨ ∃ old, recs = lo ++ (key, old) :: hi)
    (below : ∀ r ∈ lo, r.1 < key) (above : ∀ r ∈ hi, key < r.1) : (recs.filter fun r => r.1 ≠ key) =
      lo ++ hi := by
  have absent : ∀ r ∈ lo ++ hi, r.1 ≠ key := by
    intro r mem
    rcases List.mem_append.mp mem with left | right
    · exact (below r left).ne
    · exact (above r right).ne'
  rcases cut with rfl | ⟨old, rfl⟩
  · exact filter_absent absent
  · rw [List.filter_append, List.filter_cons_of_neg (by simp), ← List.filter_append]
    exact filter_absent absent

theorem PlacedAt.hadRoom {leaf : PageId} (placed : PlacedAt key value leaf prev next recs s s') :
    LeafTakes (recs.filter fun r => r.1 ≠ key) key value := by
  obtain ⟨lo, hi, t, cut, below, above, wrote, acc⟩ := placed
  rw [others_of_cut (cut.imp And.left And.left) below above]
  have body : t.bodies leaf = .leaf prev next (lo ++ (key, value) :: hi) := by
    rw [wrote.bodies, Function.update_self]
  exact Page.leafTakes_of_body body acc

theorem putHeld_hadRoom {b : Option Bytes} (tree : Tree s h) (sound : Sound s)
    (reached : Reached s h key pre x post prev next recs)
    (climb : Climb s.bodies s.metaPage.rootPageId ancestors pre x post) (height : ancestors.length = h)
    (size : 4 + key.length + value.length ≤ kMaxLeafRecordBytes)
    (run : putHeld key value txid wantBefore x.2 ancestors s = .ok b s') :
    LeafTakes (recs.filter fun r => r.1 ≠ key) key value ∨
      SplitTakes (recs.filter fun r => r.1 ≠ key) key value ∧
        SepFits s.bodies ancestors (middleKey (recs.filter fun r => r.1 ≠ key)) := by
  rw [putHeld_eq] at run
  obtain ⟨r, t, held, run⟩ := bind_ok.mp run
  obtain ⟨-, ⟨-, placed⟩ | ⟨unabsorbed, lo, hi, cut, below, above, wrote, acc, full⟩⟩ :=
    putHeldLeaf_local reached.body reached.asc reached.accounted held
  · exact .inl placed.hadRoom
  · simp only [unabsorbed, Bool.false_eq_true, if_false] at run
    obtain ⟨_, _, split, -⟩ := bind_ok.mp run
    have sub : (lo ++ hi).Sublist recs := by
      rcases cut with ⟨rfl, -⟩ | ⟨⟨old, rfl⟩, -⟩ <;> simp
    obtain ⟨tree', reached'⟩ := reached.shrunk tree sub wrote acc
    have outside := (tree.apart reached.row).1
    have kept : ∀ a ∈ innerIds s.bodies ancestors.length [([], s.metaPage.rootPageId)],
      t.bodies a = s.bodies a := by
      intro a mem
      rw [wrote.bodies, Function.update_of_ne]
      rintro rfl
      exact outside (height ▸ mem)
    have climb' : Climb t.bodies t.metaPage.rootPageId ancestors pre x post := by
      rw [wrote.metaPage]
      exact climb.congr kept
    obtain ⟨takes, up⟩ := putSplitting_hadRoom tree'
      (sound.wrote wrote) reached' climb' height size full split
    rw [others_of_cut (cut.imp And.left And.left) below above]
    exact .inr ⟨takes, up.congr fun a mem => (kept a (climb.mem a mem)).symm⟩

theorem putPessimistic_hadRoom {b : Option Bytes} (rep : Represents s entries)
    (size : 4 + key.length + value.length ≤ kMaxLeafRecordBytes)
    (run : putPessimistic key value txid wantBefore s = .ok b s') : s.PutFits key value := by
  by_cases root : s.metaPage.rootPageId = kInvalidPageId
  · exact .inl root
  · obtain ⟨h, tree, -⟩ := rep.grown root
    have below : Below s h ([] ++ ([], s.metaPage.rootPageId) :: []) := tree.below
    unfold putPessimistic at run
    rw [bind_of_ok isEmpty_run] at run
    simp only [root, decide_false, Bool.false_eq_true, if_false] at run
    obtain ⟨_, _, got, run⟩ := bind_ok.mp run
    cases got
    obtain ⟨stack, t, path, run⟩ := bind_ok.mp run
    obtain ⟨same, up, pre, x, post, eq, len, climb, loc⟩ :=
      descendPath_ok Climb.top (nil_le_bytes key) (by simp) below path
    obtain ⟨prev, next, recs, reached⟩ := tree.reached (s := s) loc
    have route := descendPath_route path
    have here : (s.view x.2).recs = recs := by
      have body : (s.view x.2).body = .leaf prev next recs := reached.body
      simp [Page.recs, body]
    refine .inr ?_
    simp only [← route, eq, List.getLastD_concat, List.dropLast_concat, here] at run ⊢
    rw [List.append_nil] at climb
    rw [← same.bodies, ← same.metaPage] at climb
    rw [← same.bodies]
    exact putHeld_hadRoom (tree.same same) (rep.sound.same same) (reached.same same) climb
      (by simpa using len) size run

theorem descend_route {fuel : Nat} {pid leaf : PageId} (run : descend key fuel pid s = .ok leaf s') :
    ∃ path, route s.view key fuel pid = path ++ [leaf] := by
  induction fuel generalizing pid s s' with
  | zero => cases run
  | succ fuel ih =>
    simp only [descend, bind_ok, getPage_run] at run
    obtain ⟨_, t, fetch, _, _, ⟨rfl, rfl⟩, run⟩ := run
    rw [(fetchPage_untouched fetch).view] at run
    rw [route]
    split at run
    · obtain ⟨rfl, -⟩ := pure_ok.mp run
      rw [if_pos ‹_›]
      exact ⟨[], rfl⟩
    · simp only [bind_ok, failIf_ok] at run
      obtain ⟨_, _, ⟨-, rfl⟩, run⟩ := run
      obtain ⟨path, eq⟩ := ih run
      rw [(fetchPage_untouched fetch).view] at eq
      rw [if_neg ‹_›, eq]
      exact ⟨pid :: path, rfl⟩

theorem putAtLeaf_hadRoom {before : Option Bytes} {leaf : PageId} (tree : Tree s h)
    (find : findLeaf key s = .ok leaf t)
    (run : putAtLeaf key value txid wantBefore leaf t = .ok (some before) s') : s.PutFits key value := by
  obtain ⟨same, pre, x, post, loc, rfl⟩ := findLeaf_ok tree find
  obtain ⟨prev, next, recs, reached⟩ := tree.reached loc
  have reached' := reached.same same
  rcases putAtLeaf_local key value txid wantBefore reached'.body reached'.asc reached'.accounted with
    ⟨u, gave, -⟩ | ⟨u, placed, -⟩
  · cases gave.symm.trans run
  · simp only [findLeaf, bind_ok, get_run] at find
    obtain ⟨_, _, ⟨rfl, rfl⟩, find⟩ := find
    obtain ⟨path, eq⟩ := descend_route find
    have here : (s.view x.2).recs = recs := by
      have body : (s.view x.2).body = .leaf prev next recs := reached.body
      simp [Page.recs, body]
    refine .inr (.inl ?_)
    simp only [eq, List.getLastD_concat, here]
    exact placed.hadRoom

theorem treePut_hadRoom {b : Option Bytes} (rep : Represents s entries)
    (run : treePut key value txid wantBefore s = .ok b s') :
    4 + key.length + value.length ≤ kMaxLeafRecordBytes ∧ s.PutFits key value := by
  simp only [treePut, bind_ok, failIf_ok] at run
  obtain ⟨_, _, ⟨size, rfl⟩, r, t, optimistic, run⟩ := run
  refine ⟨not_lt.mp size, ?_⟩
  rcases rep.tree with ⟨root, -⟩ | ⟨h, tree, eq⟩
  · exact .inl root
  · unfold putOptimistic at optimistic
    rw [bind_of_ok isEmpty_run] at optimistic
    simp only [tree.root_ne rep.sound, decide_false, Bool.false_eq_true, if_false] at optimistic
    obtain ⟨leaf, u, find, optimistic⟩ := bind_ok.mp optimistic
    cases r with
    | some before => exact putAtLeaf_hadRoom tree find optimistic
    | none =>
      obtain ⟨same, pre, x, post, loc, rfl⟩ := findLeaf_ok tree find
      obtain ⟨prev, next, recs, reached⟩ := tree.reached loc
      have reached' := reached.same same
      rcases putAtLeaf_local key value txid wantBefore reached'.body reached'.asc reached'.accounted with
        ⟨v, gave, same'⟩ | ⟨v, -, done⟩
      · cases gave.symm.trans optimistic
        have kept := same.trans same'
        exact (putPessimistic_hadRoom (rep.same kept)
          (not_lt.mp size) run).congr kept.bodies.symm kept.metaPage.symm
      · cases done.symm.trans optimistic

end PagerDB

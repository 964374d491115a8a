import PagerDB.BTree.FastPath
import PagerDB.Recovery.Ahead
import PagerDB.Recovery.Trail

/-! Every operation's group of records rebuilds what it has done, in whatever state an earlier call
has left the tree: of its pages only the leaves have to be tidy. -/
namespace PagerDB

open KeepsLib Store

namespace Page

variable {p q : Page} {key value : Bytes}

theorem isLeaf_of_insertLeaf (insert : p.insertLeaf key value = (true, q)) : p.isLeaf = true := by
  unfold insertLeaf at insert
  split at insert
  · assumption
  · cases insert

theorem Tidy.inserted (tidy : p.Tidy) (insert : p.insertLeaf key value = (true, q)) :
    p.TookPut key value q := by
  obtain ⟨prev, next, recs, body⟩ := isLeaf_cases (isLeaf_of_insertLeaf insert)
  exact insertLeaf_took body (tidy prev next recs body).1 insert

theorem Tidy.updated (tidy : p.Tidy) (leaf : p.isLeaf = true)
    (update : p.updateLeaf key value = (true, q)) : p.TookPut key value q := by
  obtain ⟨prev, next, recs, body⟩ := isLeaf_cases leaf
  exact updateLeaf_took body (tidy prev next recs body).1 update

end Page

theorem Store.Tidy.after {α : Type} {x : M α} {s s' : Store} {a : α} (tidy : s.Tidy)
    (logs : ∀ old, Logs old x) (run : x s = .ok a s') : s'.Tidy := by
  obtain ⟨old, logged⟩ := tidy.logged
  have after := logs old s logged
  rw [run] at after
  exact after.tidy

theorem Store.Tidy.putPage {s : Store} {p : Page} (tidy : s.Tidy) (new : p.Tidy) (pid : PageId) :
    (s.putPage pid p).Tidy := tidy.setFrame new pid

theorem Store.Tidy.dirtied {s : Store} (tidy : s.Tidy) (pid : PageId) : (s.dirtied pid).Tidy :=
  tidy.setFrame (tidy.view pid) pid

section

variable {s₀ s s' : Store} {w₀ w : LogWriter} {txid : TxId} {closed : Bool} {D : List PageId}
  {rs : List LogRecord} {x : Shape} {pid new : PageId} {key : Bytes} {u : Unit}

/- Descents. -/

theorem keeps_trail (pid : PageId) : Keeps (fun s => Trail s₀ w₀ txid closed D s w rs x) (fetchPage pid) :=
  fun _ _ _ run tr => (tr.fetch run).1

/- Splits. -/

theorem rebuildLeaf_trail {overflow : String} {recs : List (Bytes × Bytes)}
    (tr : Trail s₀ w₀ txid closed D s w rs x) (holds : s.Holds pid) (mem : pid ∈ D)
    (run : rebuildLeaf pid overflow recs s = .ok u s') :
    Trail s₀ w₀ txid closed D s' w rs x ∧ s'.metaPage = s.metaPage := by
  induction recs generalizing s with
  | nil =>
    obtain ⟨-, rfl⟩ := pure_ok.mp run
    exact ⟨tr, rfl⟩
  | cons r recs ih =>
    simp only [rebuildLeaf, bind_ok, withNode_run, failIf_ok] at run
    obtain ⟨_, t, put, _, _, ⟨-, rfl⟩, run⟩ := run
    cases put
    have after := ih (tr.putPageAgain holds mem _) holds run
    exact after

theorem rebuildInternal_trail {overflow : String} {es : List (Bytes × PageId)}
    (tr : Trail s₀ w₀ txid closed D s w rs x) (holds : s.Holds pid) (mem : pid ∈ D)
    (run : rebuildInternal pid overflow es s = .ok u s') :
    Trail s₀ w₀ txid closed D s' w rs x ∧ s'.metaPage = s.metaPage := by
  induction es generalizing s with
  | nil =>
    obtain ⟨-, rfl⟩ := pure_ok.mp run
    exact ⟨tr, rfl⟩
  | cons r es ih =>
    simp only [rebuildInternal, bind_ok, withNode_run, failIf_ok] at run
    obtain ⟨_, t, put, _, _, ⟨-, rfl⟩, run⟩ := run
    cases put
    have after := ih (tr.putPageAgain holds mem _) holds run
    exact after

theorem relinkSibling_trail {sib : PageId} (trails : Trails s₀ w₀ txid false [] s)
    (run : relinkSibling sib new txid s = .ok u s') :
    Trails s₀ w₀ txid false [] s' ∧ s'.metaPage = s.metaPage := by
  obtain ⟨w, rs, x, tr⟩ := trails
  simp only [relinkSibling, bind_ok, getPage_run, setPage_run] at run
  obtain ⟨_, s₁, fetch, _, _, ⟨rfl, rfl⟩, _, _, set, image⟩ := run
  cases set
  obtain ⟨tr₁, holds, page⟩ := tr.fetch fetch
  obtain ⟨after, page', -⟩ := (tr₁.putPage holds _).image [] holds (List.Subset.refl _) image
  exact ⟨after, page'.trans page⟩

theorem newPage_trail {s₁ : Store} (tr : Trail s₀ w₀ txid false D s w rs x)
    (alloc : newPage s = .ok new s₁) (event : logPageEvent (.allocPage new) txid false s₁ = .ok u s') :
    Trails s₀ w₀ txid false (new :: D) s' ∧ s'.Holds new ∧
      s.metaPage.numPages ≤ s'.metaPage.numPages := by
  obtain ⟨tr₁, holds, fresh, page⟩ := tr.newPage alloc
  have same := (logPageEvent_same event).metaPage
  refine ⟨tr₁.alloc holds.2 event, holds.mono (by rw [same]), ?_⟩
  rw [same, page, fresh]
  exact Nat.le_succ _

theorem splitLeaf_trail (tr : Trail s₀ w₀ txid false [pid] s w rs x) (holds : s.Holds pid)
    (run : splitLeaf pid txid s = .ok (new, key) s') :
    Trails s₀ w₀ txid false [] s' ∧ s'.Holds new ∧ s.metaPage.numPages ≤ s'.metaPage.numPages := by
  simp only [splitLeaf, bind_ok, getPage_run, setPage_run] at run
  obtain ⟨_, _, ⟨rfl, rfl⟩, q, s₁, alloc, _, s₂, event, _, s₃, init, _, s₄, left, _, s₅, image,
    _, s₆, init', _, s₇, right, _, s₈, image', _, s₉, relink, ret⟩ := run
  obtain ⟨eq, rfl⟩ := pure_ok.mp ret
  obtain ⟨rfl, -⟩ := Prod.mk.inj eq
  obtain ⟨⟨w₂, rs₂, x₂, tr₂⟩, fresh, more⟩ := newPage_trail tr alloc event
  cases init
  obtain ⟨tr₄, page₄⟩ := rebuildLeaf_trail (tr₂.putPage (holds.mono more) _) (holds.mono more)
    List.mem_cons_self left
  obtain ⟨⟨w₅, rs₅, x₅, tr₅⟩, page₅, -⟩ := tr₄.image [q]
    (holds.mono (more.trans (by rw [page₄]; rfl))) (by simp) image
  cases init'
  have fresh₅ : s₅.Holds q := fresh.mono (by rw [page₅, page₄]; rfl)
  obtain ⟨tr₇, page₇⟩ := rebuildLeaf_trail (tr₅.putPage fresh₅ _) fresh₅ List.mem_cons_self right
  obtain ⟨trails₈, page₈, -⟩ := tr₇.image [] (fresh₅.mono (by rw [page₇]; rfl)) (by simp) image'
  have page : s₈.metaPage = s₂.metaPage := page₈.trans (page₇.trans (page₅.trans page₄))
  rcases onlyIf_ok.mp relink with ⟨valid, relink⟩ | ⟨-, rfl⟩
  · obtain ⟨trails₉, page₉⟩ := relinkSibling_trail trails₈ relink
    have same := page₉.trans page
    exact ⟨trails₉, fresh.mono (by rw [same]), more.trans (by rw [same])⟩
  · exact ⟨trails₈, fresh.mono (by rw [page]), more.trans (by rw [page])⟩

theorem splitInternal_trail (tr : Trail s₀ w₀ txid false [pid] s w rs x) (holds : s.Holds pid)
    (run : splitInternal pid txid s = .ok (new, key) s') :
    Trails s₀ w₀ txid false [] s' ∧ s'.Holds new ∧ s.metaPage.numPages ≤ s'.metaPage.numPages := by
  simp only [splitInternal, bind_ok, getPage_run, setPage_run, failIf_ok] at run
  obtain ⟨_, _, ⟨rfl, rfl⟩, q, s₁, alloc, _, s₂, event, _, _, ⟨-, rfl⟩, _, s₃, init, _, s₄, left, _, s₅,
    image, _, s₆, init', _, s₇, right, _, s₈, image', ret⟩ := run
  obtain ⟨eq, rfl⟩ := pure_ok.mp ret
  obtain ⟨rfl, -⟩ := Prod.mk.inj eq
  obtain ⟨⟨w₂, rs₂, x₂, tr₂⟩, fresh, more⟩ := newPage_trail tr alloc event
  cases init
  obtain ⟨tr₄, page₄⟩ := rebuildInternal_trail (tr₂.putPage (holds.mono more) _) (holds.mono more)
    List.mem_cons_self left
  obtain ⟨⟨w₅, rs₅, x₅, tr₅⟩, page₅, -⟩ := tr₄.image [q]
    (holds.mono (more.trans (by rw [page₄]; rfl))) (by simp) image
  cases init'
  have fresh₅ : s₅.Holds q := fresh.mono (by rw [page₅, page₄]; rfl)
  obtain ⟨tr₇, page₇⟩ := rebuildInternal_trail (tr₅.putPage fresh₅ _) fresh₅ List.mem_cons_self right
  obtain ⟨trails₈, page₈, -⟩ := tr₇.image [] (fresh₅.mono (by rw [page₇]; rfl)) (by simp) image'
  have page : s₈.metaPage = s₂.metaPage := page₈.trans (page₇.trans (page₅.trans page₄))
  exact ⟨trails₈, fresh.mono (by rw [page]), more.trans (by rw [page])⟩

theorem createNewRoot_trail {left right : PageId} (trails : Trails s₀ w₀ txid false [] s)
    (run : createNewRoot key left right txid s = .ok u s') : Trails s₀ w₀ txid true [] s' := by
  obtain ⟨w, rs, x, tr⟩ := trails
  simp only [createNewRoot, bind_ok, setPage_run, withNode_run, failIf_ok, getPage_run,
    setRootPageId_run] at run
  obtain ⟨root, s₁, alloc, _, s₂, event, _, s₃, init, _, s₄, put, _, _, ⟨-, rfl⟩, _, _, ⟨rfl, rfl⟩,
    _, s₅, set, _, s₆, image, _, s₇, change, move⟩ := run
  cases init
  cases put
  cases set
  cases move
  obtain ⟨⟨w₂, rs₂, x₂, tr₂⟩, fresh, -⟩ := newPage_trail tr alloc event
  have mem : root ∈ root :: [] := List.mem_cons_self
  obtain ⟨⟨w₆, rs₆, x₆, tr₆⟩, -, -⟩ := (((tr₂.putPageAgain fresh mem _).putPageAgain fresh mem _).putPageAgain
    fresh mem _).image [] fresh (List.Subset.refl _) image
  exact tr₆.rootChange change

theorem insertIntoHalf_trail {newKey : Bytes} {left right parent : PageId}
    (trails : Trails s₀ w₀ txid false [] s) (holds : s.Holds parent) (holds' : s.Holds new)
    (run : insertIntoHalf txid key newKey left right parent new s = .ok u s') :
    Trails s₀ w₀ txid false [] s' ∧ s'.metaPage = s.metaPage := by
  obtain ⟨w, rs, x, tr⟩ := trails
  unfold insertIntoHalf at run
  split at run
  · simp only [bind_ok, withNode_run, failIf_ok] at run
    obtain ⟨_, _, put, _, _, ⟨-, rfl⟩, image⟩ := run
    cases put
    obtain ⟨after, page, -⟩ := (tr.putPage holds _).image [] holds (List.Subset.refl _) image
    exact ⟨after, page⟩
  · simp only [bind_ok, withNode_run, failIf_ok] at run
    obtain ⟨_, _, put, _, _, ⟨-, rfl⟩, image⟩ := run
    cases put
    obtain ⟨after, page, -⟩ := (tr.putPage holds' _).image [] holds' (List.Subset.refl _) image
    exact ⟨after, page⟩

theorem propagate_trail {ancestors : List PageId} {left right : PageId}
    (trails : Trails s₀ w₀ txid false [] s) (held : ∀ a ∈ ancestors, s.Holds a)
    (run : propagate txid ancestors key left right s = .ok u s') : Trails s₀ w₀ txid true [] s' := by
  induction ancestors generalizing s key left right with
  | nil => exact createNewRoot_trail trails run
  | cons parent rest ih =>
    obtain ⟨w, rs, x, tr⟩ := trails
    have holds := held parent List.mem_cons_self
    simp only [propagate, bind_ok, withNode_run] at run
    obtain ⟨_, _, put, run⟩ := run
    cases put
    have tr₁ := tr.putPage holds ((s.view parent).insertInternalAfterSplit key left right).2
    split at run
    · exact (tr₁.image [] holds (List.Subset.refl _) run).1
    · obtain ⟨⟨new, newKey⟩, s₂, split, run⟩ := bind_ok.mp run
      obtain ⟨_, s₃, insert, run⟩ := bind_ok.mp run
      obtain ⟨trails₂, fresh, more⟩ := splitInternal_trail tr₁ holds split
      obtain ⟨trails₃, page₃⟩ := insertIntoHalf_trail trails₂ (holds.mono more) fresh insert
      refine ih trails₃ (fun a mem => ?_) run
      exact (held a (List.mem_cons_of_mem _ mem)).mono (more.trans (by rw [page₃]))

end

/- Leaves. -/

section

variable {s₀ s s' : Store} {w₀ w : LogWriter} {txid : TxId} {wantBefore e : Bool} {D : List PageId}
  {rs : List LogRecord} {x : Shape} {key value : Bytes} {before b : Option Bytes} {u : Unit}
  {pid leaf new : PageId} {ancestors : List PageId}

theorem took_trail {q : Page} (tr : Trail s₀ w₀ txid false [] s w rs x) (holds : s.Holds pid)
    (leafy : (s.view pid).isLeaf = true) (took : (s.view pid).TookPut key value q)
    (run : logKeyRecord (.put pid key value before) txid pid e wantBefore (s.putPage pid q) = .ok u s') :
    Trails s₀ w₀ txid e [] s' := by
  have here : x.pages pid = some (s.view pid) := (tr.pages pid List.not_mem_nil).trans (version_of_leaf leafy)
  have now : (s.putPage pid q).view pid = q := by rw [view_putPage, if_pos rfl]
  refine (tr.putPage holds q).keyRecord here ?_ (fun lsn => ?_) rfl holds (tr.lt_numPages holds.2) run
  · rw [now]
    exact took.1
  · rw [now]
    exact took.2 lsn

theorem insertSplit_trail {splitKey : Bytes} (trails : Trails s₀ w₀ txid false [] s) (tidy : s.Tidy)
    (holds : s.Holds leaf) (fresh : s.Holds new)
    (run : insertSplit key value txid wantBefore before splitKey leaf new s = .ok u s') :
    Trails s₀ w₀ txid false [] s' ∧ s'.metaPage = s.metaPage := by
  obtain ⟨w, rs, x, tr⟩ := trails
  -- one half takes the record
  have half : ∀ (pid : PageId) (message : String), s.Holds pid → (do
        let inserted ← withNode pid (·.insertLeaf key value)
        failIf (!inserted) (.status (.Internal message))
        logKeyRecord (.put pid key value before) txid pid false wantBefore) s = .ok u s' →
      Trails s₀ w₀ txid false [] s' ∧ s'.metaPage = s.metaPage := by
    intro pid message holds run
    simp only [bind_ok, withNode_run, failIf_ok] at run
    obtain ⟨_, _, put, _, _, ⟨yes, rfl⟩, log⟩ := run
    cases put
    generalize insert : (s.view pid).insertLeaf key value = out at yes log
    obtain ⟨flag, q⟩ := out
    obtain rfl : flag = true := by simpa using yes
    refine ⟨took_trail tr holds (Page.isLeaf_of_insertLeaf insert) ((tidy.view pid).inserted insert) log, ?_⟩
    exact (logKeyRecord_same log).metaPage
  unfold insertSplit at run
  split at run
  · exact half leaf _ holds run
  · exact half new _ fresh run

theorem putSplitting_trail {replacing : Bool} (tr : Trail s₀ w₀ txid false [leaf] s w rs x) (tidy : s.Tidy)
    (holds : s.Holds leaf) (held : ∀ a ∈ ancestors, s.Holds a)
    (run : putSplitting key value txid wantBefore before replacing leaf ancestors s = .ok u s') :
    Trails s₀ w₀ txid true [] s' := by
  simp only [putSplitting, bind_ok] at run
  obtain ⟨⟨new, sep⟩, s₁, split, _, s₂, insert, _, s₃, count, run⟩ := run
  obtain ⟨trails₁, fresh, more⟩ := splitLeaf_trail tr holds split
  obtain ⟨⟨w₂, rs₂, x₂, tr₂⟩, page₂⟩ := insertSplit_trail trails₁
    (tidy.after (fun _ => logs_splitLeaf leaf) split)
    (holds.mono more) fresh insert
  obtain ⟨n, rfl, -⟩ := PagerDB.counted count
  refine propagate_trail ⟨w₂, rs₂, x₂, tr₂.counted n⟩ (fun a mem => ?_) run
  exact (held a mem).mono (more.trans (by rw [page₂]))

theorem putFirst_trail (tr : Trail s₀ w₀ txid false [] s w rs x)
    (run : putFirst key value txid s = .ok u s') :
    Trails s₀ w₀ txid true [] s' := by
  simp only [putFirst, bind_ok, setPage_run, withNode_run, failIf_ok, setRootPageId_run,
    addToNumKeys_run] at run
  obtain ⟨new, s₁, alloc, _, s₂, init, _, s₃, put, _, _, ⟨-, rfl⟩, _, s₄, event, _, s₅, image,
    _, s₆, change, _, s₇, root, keys⟩ := run
  cases init
  cases put
  cases root
  cases keys
  obtain ⟨tr₁, holds, -⟩ := tr.newPage alloc
  have mem : new ∈ [new] := List.mem_cons_self
  obtain ⟨w₄, rs₄, x₄, tr₄⟩ := ((tr₁.putPageAgain holds mem _).putPageAgain holds mem _).alloc holds.2 event
  obtain ⟨⟨w₅, rs₅, x₅, tr₅⟩, -, -⟩ := tr₄.image []
    (holds.mono (by rw [(logPageEvent_same event).metaPage]; rfl)) (List.Subset.refl _) image
  obtain ⟨w₆, rs₆, x₆, tr₆⟩ := tr₅.rootChange change
  exact ⟨w₆, rs₆, x₆, tr₆.counted _⟩

/-- An update that is refused leads to a split: the insert that follows is refused as well. -/
theorem putHeld_trail (tr : Trail s₀ w₀ txid false [] s w rs x) (tidy : s.Tidy) (holds : s.Holds leaf)
    (leafy : (s.view leaf).isLeaf = true) (held : ∀ a ∈ ancestors, s.Holds a)
    (run : putHeld key value txid wantBefore leaf ancestors s = .ok b s') : Trails s₀ w₀ txid true [] s' := by
  have page := tidy.view leaf
  simp only [putHeld, bind_ok, getPage_run, withNode_run] at run
  obtain ⟨_, _, ⟨rfl, rfl⟩, flag, t, put, run⟩ := run
  cases put
  generalize find : (s.view leaf).findKeyIndex key = found at run
  obtain ⟨index, present⟩ := found
  cases present with
  | true =>
    simp only [if_true, Bool.and_true] at run
    generalize update : (s.view leaf).updateLeaf key value = out at run
    obtain ⟨flag, q⟩ := out
    cases flag with
    | true =>
      simp only [if_true, bind_ok] at run
      obtain ⟨_, t, log, ret⟩ := run
      obtain ⟨-, rfl⟩ := pure_ok.mp ret
      exact took_trail tr holds leafy (page.updated leafy update) log
    | false =>
      obtain ⟨rfl, removes, refused⟩ := page.grown find leafy update
      simp only [Bool.false_eq_true, if_false, onlyIf, if_true, removeGrown, bind_ok, withNode_run, failIf_ok,
        markDirty_run] at run
      obtain ⟨_, s₁, ⟨_, t, put, _, _, ⟨-, rfl⟩, dirty⟩, flag, t', put', run⟩ := run
      cases put
      cases dirty
      have mem : leaf ∈ [leaf] := List.mem_cons_self
      simp only [view_dirtied, view_putPage, if_true, refused] at put'
      cases put'
      simp only [Bool.false_eq_true, if_false, bind_ok] at run
      obtain ⟨_, t, run, ret⟩ := run
      obtain ⟨-, rfl⟩ := pure_ok.mp ret
      have removed : ((s.view leaf).deleteAt index).2.Tidy := page.deleteAt index
      exact putSplitting_trail ((((tr.putPage holds _).putPageAgain holds mem _).dirtied holds mem).putPageAgain holds
        mem _) ((((tidy.putPage page leaf).putPage (by simpa
          using removed) leaf).dirtied leaf).putPage removed leaf)
          holds held run
  | false =>
    simp only [Bool.false_eq_true, if_false, onlyIf, Bool.and_false, pure_ok, bind_ok, withNode_run] at run
    obtain ⟨_, _, ⟨-, rfl⟩, flag, t, put, run⟩ := run
    simp only [view_putPage, if_true, putPage_putPage] at put
    cases put
    generalize insert : (s.view leaf).insertLeaf key value = out at run
    obtain ⟨flag, q⟩ := out
    cases flag with
    | true =>
      simp only [if_true, bind_ok] at run
      obtain ⟨_, t, log, _, t', add, ret⟩ := run
      obtain ⟨-, rfl⟩ := pure_ok.mp ret
      obtain ⟨w₂, rs₂, x₂, tr₂⟩ := took_trail tr holds leafy (page.inserted insert) log
      have added : onlyIf (!false) (addToNumKeys 1) t = .ok _ t' := add
      obtain ⟨n, rfl, -⟩ := PagerDB.counted added
      exact ⟨w₂, rs₂, x₂, tr₂.counted n⟩
    | false =>
      simp only [Bool.false_eq_true, if_false, bind_ok] at run
      obtain ⟨_, t, run, ret⟩ := run
      obtain ⟨-, rfl⟩ := pure_ok.mp ret
      have kept := page.insertLeaf key value
      rw [insert] at kept
      exact putSplitting_trail (tr.putPage holds q) (tidy.putPage kept leaf) holds held run

/- Operations. -/

theorem putPessimistic_trail (tr : Trail s₀ w₀ txid false [] s w rs x) (tidy : s.Tidy)
    (run : putPessimistic key value txid wantBefore s = .ok b s') : Trails s₀ w₀ txid true [] s' := by
  simp only [putPessimistic, bind_ok, isEmpty_run] at run
  obtain ⟨_, _, ⟨rfl, rfl⟩, run⟩ := run
  split at run
  · obtain ⟨_, t, first, ret⟩ := bind_ok.mp run
    obtain ⟨-, rfl⟩ := pure_ok.mp ret
    exact putFirst_trail tr first
  · simp only [bind_ok, get_run] at run
    obtain ⟨_, _, ⟨rfl, rfl⟩, stack, s₁, path, run⟩ := run
    have tr₁ := keeps_descendPath keeps_trail key _ _ _ _ _ path tr
    obtain ⟨-, held⟩ := descendPath_holds tr.resident path
    obtain ⟨some, leafy⟩ := descendPath_isLeaf path
    have last : stack.getLastD kInvalidPageId ∈ stack := by
      rw [List.getLastD_eq_getLast?, List.getLast?_eq_some_getLast some]
      exact List.getLast_mem some
    refine putHeld_trail tr₁ (tidy.after (fun _ => logs_descendPath _ _) path) (held _ last) leafy
      (fun a mem => held a ?_) run
    exact List.mem_of_mem_dropLast (List.mem_reverse.mp mem)

theorem putAtLeaf_none (run : putAtLeaf key value txid wantBefore leaf s = .ok none s') :
    ∃ q, s' = s.putPage leaf q := by
  simp only [putAtLeaf, bind_ok, getPage_run] at run
  obtain ⟨_, _, ⟨rfl, rfl⟩, run⟩ := run
  split at run
  · simp only [bind_ok, withNode_run] at run
    obtain ⟨flag, t, put, run⟩ := run
    cases put
    split at run
    · obtain ⟨_, t, -, ret⟩ := bind_ok.mp run
      cases ret
    · obtain ⟨-, rfl⟩ := pure_ok.mp run
      exact ⟨_, rfl⟩
  · simp only [bind_ok, withNode_run] at run
    obtain ⟨flag, t, put, run⟩ := run
    cases put
    split at run
    · simp only [bind_ok, addToNumKeys_run] at run
      obtain ⟨_, t, -, _, t', -, ret⟩ := run
      cases ret
    · obtain ⟨-, rfl⟩ := pure_ok.mp run
      exact ⟨_, rfl⟩

theorem gives_up_trail (tr : Trail s₀ w₀ txid false [] s w rs x) (tidy : s.Tidy)
    (run : putOptimistic key value txid wantBefore s = .ok none s') :
    Trail s₀ w₀ txid false [] s' w rs x := by
  rcases @putOptimistic_cases key value txid wantBefore s with ⟨-, empty⟩ | ⟨root, full⟩
  · cases empty.symm.trans run
    exact tr
  · rw [full] at run
    obtain ⟨leaf, t, find, write⟩ := bind_ok.mp run
    have leafy := findLeaf_isLeaf find
    have loaded := tidy.after (fun _ => logs_findLeaf) find
    simp only [findLeaf, bind_ok, get_run] at find
    obtain ⟨_, _, ⟨rfl, rfl⟩, find⟩ := find
    have tr₁ := keeps_descend keeps_trail key _ _ _ _ _ find tr
    have holds := descend_holds tr.resident find
    have same := (putAtLeaf_untouched loaded write).view
    obtain ⟨q, rfl⟩ := putAtLeaf_none write
    refine tr₁.rewrite holds leafy ?_
    rw [← congrFun same leaf, view_putPage, if_pos rfl]

theorem treePut_trail (tr : Trail s₀ w₀ txid false [] s w rs x) (tidy : s.Tidy)
    (run : treePut key value txid wantBefore s = .ok b s') : Trails s₀ w₀ txid true [] s' := by
  simp only [treePut, bind_ok, failIf_ok] at run
  obtain ⟨_, _, ⟨admitted, rfl⟩, out, t, first, run⟩ := run
  cases out with
  | some before =>
    obtain ⟨-, rfl⟩ := pure_ok.mp run
    exact putPessimistic_trail tr tidy (optimistic_completes first)
  | none =>
    have size : key.length + value.length ≤ kPageSize := by
      simp only [kMaxLeafRecordBytes, kPageSize] at admitted ⊢
      omega
    exact putPessimistic_trail (gives_up_trail tr tidy first)
      (tidy.after (fun _ => logs_putOptimistic size) first) run

theorem treeDelete_misses {e : Failure} (run : treeDelete key txid wantBefore s = .error e s')
    (gone : isNotFound e = true) : s' = s ∨ ∃ leaf, findLeaf key s = .ok leaf s' := by
  simp only [treeDelete, bind_error, isEmpty_run, failIf_error, reduceCtorEq, false_or] at run
  obtain ⟨_, _, empty, run⟩ := run
  cases empty
  rcases run with ⟨-, -, rfl⟩ | ⟨_, t, free, run⟩
  · exact .inl rfl
  · obtain ⟨-, rfl⟩ := failIf_ok.mp free
    rcases run with failed | ⟨leaf, t, find, run⟩
    · rw [findLeaf_error failed] at gone
      cases gone
    · refine .inr ⟨leaf, ?_⟩
      simp only [deleteAtLeaf, bind_error, getPage_run, failIf_error, withNode_run, reduceCtorEq,
        false_or] at run
      obtain ⟨_, _, got, run⟩ := run
      cases got
      rcases run with ⟨-, -, rfl⟩ | ⟨_, t', -, _, _, put, run⟩
      · exact find
      · cases put
        rcases run with ⟨-, rfl, -⟩ | ⟨_, u, -, run⟩
        · cases gone
        · obtain ⟨v, log⟩ := logKeyRecord_succeeds u (.delete leaf key (if wantBefore then
            some ((t.view leaf).getValueAt
              ((t.view leaf).findKeyIndex key).1) else none)) txid leaf true wantBefore
          rcases run with failed | ⟨_, _, -, run⟩
          · cases log.symm.trans failed
          · simp only [addToNumKeys_run, reduceCtorEq, false_or] at run
            obtain ⟨_, _, -, ret⟩ := run
            cases ret

theorem misses_trail {e : Failure} (tr : Trail s₀ w₀ txid false [] s w rs x)
    (run : treeDelete key txid wantBefore s = .error e s') (gone : isNotFound e = true) :
    Trail s₀ w₀ txid false [] s' w rs x := by
  rcases treeDelete_misses run gone with rfl | ⟨leaf, find⟩
  · exact tr
  · simp only [findLeaf, bind_ok, get_run] at find
    obtain ⟨_, _, ⟨rfl, rfl⟩, find⟩ := find
    exact keeps_descend keeps_trail key _ _ _ _ _ find tr

theorem treeDelete_trail (tr : Trail s₀ w₀ txid false [] s w rs x) (tidy : s.Tidy)
    (run : treeDelete key txid wantBefore s = .ok b s') : Trails s₀ w₀ txid true [] s' := by
  simp only [treeDelete, bind_ok, isEmpty_run, failIf_ok] at run
  obtain ⟨_, _, ⟨rfl, rfl⟩, _, _, ⟨-, rfl⟩, leaf, t, find, run⟩ := run
  have leafy := findLeaf_isLeaf find
  have loaded := tidy.after (fun _ => logs_findLeaf) find
  simp only [findLeaf, bind_ok, get_run] at find
  obtain ⟨_, _, ⟨rfl, rfl⟩, find⟩ := find
  have tr₁ := keeps_descend keeps_trail key _ _ _ _ _ find tr
  have holds := descend_holds tr.resident find
  simp only [deleteAtLeaf, bind_ok, getPage_run, failIf_ok, withNode_run, addToNumKeys_run] at run
  obtain ⟨_, _, ⟨rfl, rfl⟩, _, _, ⟨found, rfl⟩, flag, t', put, _, _, ⟨-, rfl⟩, _, t'', log, _, _,
    keys, ret⟩ := run
  cases put
  cases keys
  obtain ⟨-, rfl⟩ := pure_ok.mp ret
  obtain ⟨prev, next, recs, body⟩ := Page.isLeaf_cases leafy
  obtain ⟨asc, -⟩ := loaded.view leaf prev next recs body
  rcases Page.findKeyIndex_leaf_cases body asc key with
    ⟨lo, old, hi, rfl, below, above, find'⟩ | ⟨lo, hi, rfl, below, above, find'⟩
  · rw [find'] at log
    obtain ⟨redoes, again⟩ := Page.deleteAt_redoes body asc find' below above
    have now : (t.putPage leaf ((t.view leaf).deleteAt lo.length).2).view leaf =
        ((t.view leaf).deleteAt lo.length).2 := by rw [view_putPage, if_pos rfl]
    have here : x.pages leaf = some (t.view leaf) :=
      (tr₁.pages leaf List.not_mem_nil).trans (version_of_leaf leafy)
    obtain ⟨w₂, rs₂, x₂, tr₂⟩ := (tr₁.putPage holds _).keyRecord here (by
      rw [now]
      refine redoes.trans ?_
      rw [Page.deleteAt_cut body]) (fun lsn => by
      rw [now]
      exact again lsn) rfl holds (tr₁.lt_numPages holds.2) log
    exact ⟨w₂, rs₂, x₂, tr₂.counted _⟩
  · rw [find'] at found
    exact absurd rfl found

end

end PagerDB

import PagerDB.Recovery.Redo

/-! Redo converges. From any mix of page versions, each of them what some prefix of the log leaves or, of a
page whose first record is an image, unreadable, the redo of the log ends with the same pages: a record meets
the page as it met it before, or a page that is as new as itself, or heals it. -/
namespace PagerDB

namespace Shape

variable {x y z : Shape} {r : LogRecord} {rs ts : List LogRecord} {p pid : PageId} {lsn : Lsn}

/-- Each record is newer than the pages that it finds, and applies to them. -/
def History : List LogRecord → Shape → Prop
  | [], _ => True
  | r :: rs, x => 0 < r.lsn ∧ x.Before r.lsn ∧ r.Stamped ∧ ∃ y, x.redo r = some y ∧ History rs y

theorem History.replays (history : History rs x) : ∃ y, redoAll rs x = some y := by
  induction rs generalizing x with
  | nil => exact ⟨x, rfl⟩
  | cons r rs ih =>
    obtain ⟨-, -, -, y, run, rest⟩ := history
    obtain ⟨z, all⟩ := ih rest
    exact ⟨z, (congrArg (Option.bind · (redoAll rs)) run).trans all⟩

theorem History.append (history : History rs x) (run : redoAll rs x = some y) (next : History ts y) :
    History (rs ++ ts) x := by
  induction rs generalizing x with
  | nil => exact Option.some.inj run ▸ next
  | cons r rs ih =>
    obtain ⟨pos, before, stamped, x₁, first, rest⟩ := history
    obtain ⟨x₂, first', run⟩ := Option.bind_eq_some_iff.mp run
    obtain rfl := Option.some.inj (first.symm.trans first')
    exact ⟨pos, before, stamped, x₁, first, ih rest run⟩

theorem History.snoc (history : History rs x) (run : redoAll rs x = some y) (pos : 0 < r.lsn)
    (before : y.Before r.lsn) (stamped : r.Stamped) (step : y.redo r = some z) : History (rs ++ [r]) x :=
  history.append run ⟨pos, before, stamped, z, step, trivial⟩

theorem History.stamped (history : History rs x) : ∀ r ∈ rs, r.Stamped := by
  induction rs generalizing x with
  | nil => nofun
  | cons r rs ih =>
    obtain ⟨-, -, stamped, y, -, rest⟩ := history
    exact List.forall_mem_cons.mpr ⟨stamped, ih rest⟩

/- Versions only get newer. -/

theorem edit_newer {change : Page → Bool × Page} {page : Page} (run : x.edit pid lsn change = some y)
    (here : x.pages p = some page) : ∃ q, y.pages p = some q ∧ page.pageLsn ≤ q.pageLsn := by
  obtain ⟨old, there, -, ⟨rfl, -⟩ | ⟨older, -, rfl⟩⟩ := edit_cases run
  · exact ⟨page, here, le_rfl⟩
  · by_cases same : p = pid
    · subst same
      obtain rfl := Option.some.inj (here.symm.trans there)
      exact ⟨_, set_pages_self _ _ _, older.le⟩
    · exact ⟨page, (set_pages_of_ne same).trans here, le_rfl⟩

theorem restore_newer {image page : Page} (run : x.restore pid lsn image = some y)
    (stamped : image.pageLsn = lsn)
    (here : x.pages p = some page) : ∃ q, y.pages p = some q ∧ page.pageLsn ≤ q.pageLsn := by
  obtain ⟨-, ⟨-, -, -, rfl⟩ | ⟨older, rfl⟩⟩ := restore_cases run
  · exact ⟨page, here, le_rfl⟩
  · by_cases same : p = pid
    · subst same
      exact ⟨image, set_pages_self _ _ _, (older page here).le.trans stamped.ge⟩
    · exact ⟨page, (set_pages_of_ne same).trans here, le_rfl⟩

theorem redo_newer {page : Page} (run : x.redo r = some y) (stamped : r.Stamped) (lt : p < x.numPages)
    (here : x.pages p = some page) : ∃ q, y.pages p = some q ∧ page.pageLsn ≤ q.pageLsn := by
  unfold redo at run
  split at run
  · cases run
    exact ⟨page, (extended_old lt).trans here, le_rfl⟩
  · rename_i pid image body
    exact restore_newer run (stamped pid image body) ((extended_old lt).trans here)
  · exact edit_newer run here
  · exact edit_newer run here
  · cases run
    exact ⟨page, here, le_rfl⟩
  · cases run
    exact ⟨page, here, le_rfl⟩

theorem redoAll_newer {page : Page} (run : redoAll rs x = some y) (stamped : ∀ r ∈ rs, r.Stamped)
    (lt : p < x.numPages) (here : x.pages p = some page) :
    ∃ q, y.pages p = some q ∧ page.pageLsn ≤ q.pageLsn := by
  induction rs generalizing x page with
  | nil => exact ⟨page, Option.some.inj run ▸ here, le_rfl⟩
  | cons r rs ih =>
    obtain ⟨first, others⟩ := List.forall_mem_cons.mp stamped
    obtain ⟨x₁, step, rest⟩ := Option.bind_eq_some_iff.mp run
    obtain ⟨q, there, le⟩ := redo_newer step first lt here
    obtain ⟨q', last, le'⟩ := ih rest others (lt.trans_le (redo_grows step)) there
    exact ⟨q', last, le.trans le'⟩

/- Mixes. -/

def Later (rs : List LogRecord) (x : Shape) (P : Shape → Prop) : Prop :=
  ∃ ts us y, rs = ts ++ us ∧ redoAll ts x = some y ∧ P y

theorem Later.here {P : Shape → Prop} (now : P x) : Later rs x P := ⟨[], rs, x, rfl, rfl, now⟩

theorem Later.of_redo {P : Shape → Prop} (later : Later (r :: rs) x P) (run : x.redo r = some y) :
    P x ∨ Later rs y P := by
  obtain ⟨ts, us, z, cut, replay, last⟩ := later
  cases ts with
  | nil =>
    obtain rfl := Option.some.inj replay
    exact .inl last
  | cons q ts =>
    obtain ⟨rfl, rfl⟩ := List.cons.inj cut
    obtain ⟨y', first, replay⟩ := Option.bind_eq_some_iff.mp replay
    obtain rfl := Option.some.inj (run.symm.trans first)
    exact .inr ⟨ts, us, z, rfl, replay, last⟩

theorem Later.nil {P : Shape → Prop} (later : Later [] x P) : P x := by
  obtain ⟨ts, us, y, cut, replay, last⟩ := later
  obtain ⟨rfl, rfl⟩ := List.nil_eq_append_iff.mp cut
  exact Option.some.inj replay ▸ last

/-- The first record of the page is an image. -/
def Healed (rs : List LogRecord) (p : PageId) : Prop :=
  ∃ r, rs.find? (fun r => r.body.target = some p) = some r ∧ r.body.isImage = true

theorem Healed.of_other (healed : Healed (r :: rs) p) (other : r.body.target ≠ some p) : Healed rs p := by
  obtain ⟨q, found, image⟩ := healed
  rw [List.find?_cons_of_neg (by simpa using other)] at found
  exact ⟨q, found, image⟩

theorem Healed.image (healed : Healed (r :: rs) p) (target : r.body.target = some p) :
    r.body.isImage = true := by
  obtain ⟨q, found, image⟩ := healed
  rw [List.find?_cons_of_pos (by simpa using target)] at found
  exact Option.some.inj found ▸ image

/-- A version that the page has had by some record, or none and then it is healed. -/
def Version (rs : List LogRecord) (x : Shape) (p : PageId) (v : Option Page) : Prop :=
  Later rs x (fun y => p < y.numPages ∧ v = y.pages p) ∨ v = none ∧ Healed rs p

/-- Redo has these records before it; `x` is what they find in the replay and `z` what they find now. -/
structure Mixed (rs : List LogRecord) (x z : Shape) : Prop where
  root : Later rs x fun y => z.root = y.root
  grown : x.numPages ≤ z.numPages
  pages : ∀ p, p < z.numPages → Version rs x p (z.pages p)

theorem Version.of_other {v : Option Page} (version : Version (r :: rs) x p v) (run : x.redo r = some y)
    (other : r.body.target ≠ some p) (same : p < x.numPages → y.pages p = x.pages p) : Version rs y p v := by
  rcases version with later | ⟨rfl, healed⟩
  · rcases later.of_redo run with ⟨lt, eq⟩ | later
    · exact .inl (.here ⟨lt.trans_le (redo_grows run), eq.trans (same lt).symm⟩)
    · exact .inl later
  · exact .inr ⟨rfl, healed.of_other other⟩

theorem Mixed.root_of_redo (mixed : Mixed (r :: rs) x z) (run : x.redo r = some y) (same : y.root = x.root) :
    Later rs y fun y => z.root = y.root := by
  rcases mixed.root.of_redo run with now | later
  · exact .here (now.trans same.symm)
  · exact later

theorem Mixed.edit {change : Page → Bool × Page} (mixed : Mixed (r :: rs) x z)
    (target : r.body.target = some pid)
    (delta : r.body.isImage = false) (edits : ∀ x : Shape, x.redo r = x.edit pid r.lsn change)
    (run : x.redo r = some y) (before : x.Before r.lsn) (stamped : ∀ q ∈ rs, q.Stamped) :
    ∃ z', z.redo r = some z' ∧ Mixed rs y z' := by
  obtain ⟨page, here, holds, ⟨-, newer⟩ | ⟨older, done, rfl⟩⟩ := edit_cases ((edits x).symm.trans run)
  · exact absurd newer (not_le.mpr (before pid page holds.2 here))
  have within : z.Holds pid := ⟨holds.1, holds.2.trans_le mixed.grown⟩
  have others : ∀ p, p < z.numPages → p ≠ pid →
      Version rs (x.set pid ((change page).2.stamp r.lsn)) p (z.pages p) := by
    intro p lt ne
    refine (mixed.pages p lt).of_other run ?_ fun _ => set_pages_of_ne ne
    rw [target]
    exact fun same => ne (Option.some.inj same).symm
  have root := mixed.root_of_redo run rfl
  rcases mixed.pages pid within.2 with later | ⟨-, healed⟩
  · rcases later.of_redo run with ⟨-, same⟩ | later
    · refine ⟨z.set pid ((change page).2.stamp r.lsn), ?_, root, mixed.grown, fun p lt => ?_⟩
      · rw [edits]
        exact edit_of_older within (same.trans here) older (Prod.ext done rfl)
      · by_cases same : p = pid
        · subst same
          exact .inl (.here ⟨holds.2, by rw [set_pages_self, set_pages_self]⟩)
        · rw [set_pages_of_ne same]
          exact others p lt same
    · obtain ⟨ts, us, w, cut, replay, lt, same⟩ := id later
      obtain ⟨q, now, le⟩ := redoAll_newer replay (fun q mem =>
        stamped q (cut ▸ List.mem_append_left _ mem)) holds.2
        (set_pages_self x pid _)
      refine ⟨z, ?_, root, mixed.grown, fun p lt => ?_⟩
      · rw [edits]
        exact edit_of_newer within (same.trans now) le
      · by_cases same : p = pid
        · subst same
          exact .inl later
        · exact others p lt same
  · rw [healed.image target] at delta
    cases delta

theorem Version.extended {q : PageId} {w : Shape} (lt : p < (z.extended q).numPages)
    (grown : x.numPages ≤ z.numPages)
    (same : w.numPages = (x.extended q).numPages) (blank : w.pages p = (x.extended q).pages p)
    (old : p < z.numPages → Version rs w p (z.pages p)) : Version rs w p ((z.extended q).pages p) := by
  by_cases new : p < z.numPages
  · rw [extended_old new]
    exact old new
  · have past := not_lt.mp new
    have added : p < q + 1 := (lt_max_iff.mp lt).resolve_left new
    have within : p < (x.extended q).numPages := lt_max_of_lt_right added
    refine .inl (.here ⟨same ▸ within, ?_⟩)
    rw [extended_new past lt, blank, extended_new (grown.trans past) within]

theorem Mixed.allocated {q : PageId} (mixed : Mixed (r :: rs) x z) (body : r.body = .allocPage q) :
    ∃ z', z.redo r = some z' ∧ Mixed rs (x.extended q) z' := by
  have run : ∀ x : Shape, x.redo r = some (x.extended q) := fun x => by simp only [redo, body]
  refine ⟨z.extended q, run z, mixed.root_of_redo (run x) rfl, max_le_max_right _ mixed.grown, fun p lt => ?_⟩
  refine Version.extended lt mixed.grown rfl rfl fun old => ?_
  refine (mixed.pages p old).of_other (run x) ?_ extended_old
  rw [body]
  exact nofun

theorem Mixed.restored {image : Page} (mixed : Mixed (r :: rs) x z) (body : r.body = .pageImage pid image)
    (run : x.redo r = some y) (pos : 0 < r.lsn) (before : x.Before r.lsn) :
    ∃ z', z.redo r = some z' ∧ Mixed rs y z' := by
  have edits : ∀ x : Shape, x.redo r = (x.extended pid).restore pid r.lsn image := fun x => by
    simp only [redo, body]
  have target : r.body.target = some pid := by rw [body]; rfl
  have before' := before.extended pos pid
  obtain ⟨holds, ⟨page, here, newer, -⟩ | ⟨older, rfl⟩⟩ := restore_cases ((edits x).symm.trans run)
  · exact absurd newer (not_le.mpr (before' pid page holds.2 here))
  have grown : (x.extended pid).numPages ≤ (z.extended pid).numPages := max_le_max_right _ mixed.grown
  have within : (z.extended pid).Holds pid := ⟨holds.1, holds.2.trans_le grown⟩
  have root := mixed.root_of_redo run rfl
  have others : ∀ p, p < (z.extended pid).numPages → p ≠ pid →
      Version rs ((x.extended pid).set pid image) p ((z.extended pid).pages p) := by
    intro p lt ne
    refine Version.extended lt mixed.grown rfl (set_pages_of_ne ne) fun old => ?_
    refine (mixed.pages p old).of_other run ?_ fun old => (set_pages_of_ne ne).trans (extended_old old)
    rw [target]
    exact fun same => ne (Option.some.inj same).symm
  by_cases late : ∃ page, (z.extended pid).pages pid = some page ∧ r.lsn ≤ page.pageLsn
  · obtain ⟨page, now, newer⟩ := late
    refine ⟨z.extended pid, (edits z).trans (restore_of_newer within now newer), root, grown, fun p lt => ?_⟩
    by_cases same : p = pid
    · subst same
      by_cases old : p < z.numPages
      · rw [extended_old old] at now ⊢
        rcases mixed.pages p old with later | ⟨gone, -⟩
        · rcases later.of_redo run with ⟨lt, same⟩ | later
          · exact absurd newer (not_le.mpr (before p page lt (same.symm.trans now)))
          · exact .inl later
        · cases gone.symm.trans now
      · obtain rfl := Option.some.inj ((extended_new (not_lt.mp old) lt).symm.trans now)
        exact absurd newer (not_le.mpr pos)
    · exact others p lt same
  · have old : ∀ page, (z.extended pid).pages pid = some page → page.pageLsn < r.lsn := fun page now =>
      not_le.mp fun newer => late ⟨page, now, newer⟩
    refine ⟨(z.extended pid).set pid image, (edits z).trans (restore_of_older within old), root,
      grown, fun p lt => ?_⟩
    by_cases same : p = pid
    · subst same
      exact .inl (.here ⟨holds.2, by rw [set_pages_self, set_pages_self]⟩)
    · rw [set_pages_of_ne same]
      exact others p lt same

theorem Mixed.idle (mixed : Mixed (r :: rs) x z) (target : r.body.target = none)
    (nothing : x.redo r = some x) :
    Mixed rs x z := by
  refine ⟨mixed.root_of_redo nothing rfl, mixed.grown, fun p lt => ?_⟩
  refine (mixed.pages p lt).of_other nothing ?_ fun _ => rfl
  rw [target]
  exact nofun

theorem Mixed.step (mixed : Mixed (r :: rs) x z) (run : x.redo r = some y) (pos : 0 < r.lsn)
    (before : x.Before r.lsn) (stamped : ∀ q ∈ rs, q.Stamped) : ∃ z', z.redo r = some z' ∧ Mixed rs y z' := by
  cases body : r.body with
  | put q key value old =>
    have edits : ∀ x : Shape, x.redo r = x.edit q r.lsn (·.redoPut key value) :=
      fun x => by simp only [redo, body]
    exact mixed.edit (by rw [body]; rfl) (by rw [body]; rfl) edits run before stamped
  | delete q key old =>
    have edits : ∀ x : Shape, x.redo r = x.edit q r.lsn (·.redoDelete key) :=
      fun x => by simp only [redo, body]
    exact mixed.edit (by rw [body]; rfl) (by rw [body]; rfl) edits run before stamped
  | pageImage q image => exact mixed.restored body run pos before
  | allocPage q =>
    obtain ⟨z', step, after⟩ := mixed.allocated body
    simp only [redo, body, Option.some.injEq] at run
    exact ⟨z', step, run ▸ after⟩
  | rootChange q =>
    have moves : ∀ x : Shape, x.redo r = some { x with root := q } := fun x => by simp only [redo, body]
    obtain rfl := Option.some.inj ((moves x).symm.trans run)
    refine ⟨{ z with root := q }, moves z, .here rfl, mixed.grown, fun p lt => ?_⟩
    refine (mixed.pages p lt).of_other run ?_ fun _ => rfl
    rw [body]
    exact nofun
  | _ =>
    have nothing : ∀ x : Shape, x.redo r = some x := fun x => by simp only [redo, body]
    obtain rfl := Option.some.inj ((nothing x).symm.trans run)
    exact ⟨z, nothing z, mixed.idle (by rw [body]; rfl) (nothing x)⟩

structure Agree (x y : Shape) : Prop where
  root : y.root = x.root
  numPages : y.numPages = x.numPages
  pages : ∀ p, p < x.numPages → y.pages p = x.pages p

theorem Mixed.converges (mixed : Mixed rs x z) (history : History rs x) :
    ∃ y z', redoAll rs x = some y ∧ redoAll rs z = some z' ∧ Agree y z' := by
  induction rs generalizing x z with
  | nil =>
    have here : ∀ p, p < z.numPages → p < x.numPages ∧ z.pages p = x.pages p := by
      intro p lt
      rcases mixed.pages p lt with later | ⟨-, r, found, -⟩
      · exact later.nil
      · cases found
    have numPages : z.numPages = x.numPages := by
      refine le_antisymm ?_ mixed.grown
      by_contra more
      exact absurd (here x.numPages (not_le.mp more)).1 (lt_irrefl _)
    exact ⟨x, z, rfl, rfl, mixed.root.nil, numPages, fun p lt => (here p (numPages ▸ lt)).2⟩
  | cons r rs ih =>
    obtain ⟨pos, before, stamped, x₁, run, rest⟩ := history
    obtain ⟨z₁, run', mixed'⟩ := mixed.step run pos before rest.stamped
    obtain ⟨y, z', replay, redo, agree⟩ := ih mixed' rest
    refine ⟨y, z', ?_, ?_, agree⟩
    · exact (congrArg (Option.bind · (redoAll rs)) run).trans replay
    · exact (congrArg (Option.bind · (redoAll rs)) run').trans redo

theorem Agree.mixed (agree : Agree y z) (replay : redoAll rs x = some y) : Mixed rs x z where
  root := ⟨rs, [], y, (List.append_nil rs).symm, replay, agree.root⟩
  grown := (redoAll_grows replay).trans agree.numPages.ge
  pages p lt := by
    have lt : p < y.numPages := agree.numPages ▸ lt
    exact .inl ⟨rs, [], y, (List.append_nil rs).symm, replay, lt, agree.pages p lt⟩

/-- A crashed file: each page is as some prefix of the log leaves it, on its own, or unreadable,
and then the log
is about it. The meta page is that of the checkpoint. -/
structure Crashed (rs : List LogRecord) (x z : Shape) : Prop where
  root : z.root = x.root
  numPages : z.numPages = x.numPages
  pages : ∀ p, p < x.numPages → (Later rs x fun y => z.pages p = y.pages p) ∨
    z.pages p = none ∧ ∃ r ∈ rs, r.body.target = some p

theorem Crashed.mixed (crashed : Crashed rs x z) (first : FirstImages 0 rs) : Mixed rs x z where
  root := .here crashed.root
  grown := crashed.numPages.ge
  pages p lt := by
    have old : p < x.numPages := crashed.numPages ▸ lt
    rcases crashed.pages p old with ⟨ts, us, y, cut, replay, same⟩ | ⟨gone, r, mem, target⟩
    · exact .inl ⟨ts, us, y, cut, replay, old.trans_le (redoAll_grows replay), same⟩
    · refine .inr ⟨gone, ?_⟩
      cases found : rs.find? (fun r => r.body.target = some p) with
      | none =>
        have absent := List.find?_eq_none.mp found r mem
        simp only [decide_eq_true_eq] at absent
        exact absurd target absent
      | some q =>
        refine ⟨q, found, first p q ?_⟩
        simpa only [Nat.zero_le, true_and] using found

end Shape

end PagerDB

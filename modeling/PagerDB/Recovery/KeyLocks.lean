import PagerDB.Db.Lasting
import PagerDB.Recovery.LogGrowth

/-! What key locks mean for the log. While a transaction holds a key exclusively, no other one that has begun
and not ended has a write of the key in the log. Each call is cut into steps on log, transactions
and locks, and
it is these that keep it. -/
namespace PagerDB

open KeepsLib Store Relation

/- Losers. -/

theorem isLoser_iff {checkpoint : Lsn} {records : List LogRecord} {t : TxId} :
    isLoser checkpoint records t = true ↔ (∃ r ∈ records, checkpoint ≤ r.lsn ∧ r.txid = t ∧ r.body = .begin) ∧
      ∀ r ∈ records, checkpoint ≤ r.lsn → r.txid = t → r.body ≠ .commit ∧ r.body ≠ .abort := by
  simp only [isLoser, Bool.and_eq_true, List.any_eq_true, decide_eq_true_eq, Bool.not_eq_true',
    List.any_eq_false, not_and, not_or]

theorem Store.Ascending.append_lt {s : Store} {records new : List LogRecord} (ascending : s.Ascending)
    (log : s.records = records ++ new) : ∀ r ∈ records, ∀ q ∈ new, r.lsn < q.lsn := by
  unfold Store.records at log
  cases is : s.wal with
  | none =>
    have nil : records ++ new = [] := by rw [← log, is]; rfl
    rw [(List.append_eq_nil_iff.mp nil).1]
    exact List.forall_mem_nil _
  | some w =>
    rw [is] at log
    have sorted := (ascending w is).sorted
    rw [show recordsOf w.chunks = records ++ new from log] at sorted
    exact (List.pairwise_append.mp sorted).2.2

/-- Begun, and not ended as far as the log tells. -/
abbrev unended (records : List LogRecord) (t : TxId) : Bool := isLoser kInvalidLsn records t

theorem unended_iff {records : List LogRecord} {t : TxId} : unended records t = true ↔
    (∃ r ∈ records, r.txid = t ∧ r.body = .begin) ∧
      ∀ r ∈ records, r.txid = t → r.body ≠ .commit ∧ r.body ≠ .abort := by
  simp [unended, isLoser_iff, kInvalidLsn]

theorem unended_of_append {records new : List LogRecord} {t : TxId}
    (unended' : unended (records ++ new) t = true)
    (none : ∀ r ∈ new, r.txid = t → r.body ≠ .begin) : unended records t = true := by
  obtain ⟨⟨b, mem, mine, begins⟩, open_⟩ := unended_iff.mp unended'
  refine unended_iff.mpr ⟨⟨b, ?_, mine, begins⟩, fun r inside => open_ r (List.mem_append_left _ inside)⟩
  exact (List.mem_append.mp mem).resolve_right fun later => none b later mine begins

/-- No other transaction that has begun and not ended has a write of the key in the log. -/
def KeyFree (records : List LogRecord) (t : TxId) (key : Bytes) : Prop :=
  ∀ r ∈ records, r.onKey key = true → r.txid ≠ t → unended records r.txid = false

instance (records : List LogRecord) (t : TxId) (key : Bytes) : Decidable (KeyFree records t key) :=
  inferInstanceAs (Decidable (∀ r ∈ records, _))

theorem KeyFree.append {records new : List LogRecord} {t : TxId} {key : Bytes} (free : KeyFree records t key)
    (first : ∀ b ∈ new, b.body = .begin → ∀ r ∈ records, r.txid ≠ b.txid)
    (apart : ∀ r ∈ new, r.onKey key = true → r.txid ≠ t → unended (records ++ new) r.txid = false) :
    KeyFree (records ++ new) t key := by
  intro r mem on other
  rcases List.mem_append.mp mem with old | late
  · refine Bool.eq_false_iff.mpr fun open_ => ?_
    have before := unended_of_append open_ fun b inside same begins => first b inside begins r old same.symm
    rw [free r old on other] at before
    cases before
  · exact apart r late on other

namespace Handle

/- The invariant. -/

def Holds (h : Handle) (t : TxId) (key : Bytes) : Prop :=
  ∃ q ∈ h.locks.holders key, q.1 = t ∧ q.2.mode = .exclusive

def Fresh (h : Handle) (t : TxId) : Prop := h.nextTxid ≤ t ∨ ∃ x, h.txns t = some x ∧ x.begun = false

structure Guarded (h : Handle) : Prop where
  ascending : h.store.Ascending
  positive : kInvalidTxId < h.nextTxid
  ids : ∀ r ∈ h.store.records, r.txid < h.nextTxid
  known : ∀ t x, h.txns t = some x → kInvalidTxId < t ∧ t < h.nextTxid
  begins : ∀ r ∈ h.store.records, r.body = .begin → ∃ x, h.txns r.txid = some x
  silent : ∀ t x, h.txns t = some x → x.begun = false → ∀ r ∈ h.store.records, r.txid ≠ t
  first : ∀ b ∈ h.store.records, b.body = .begin → ∀ r ∈ h.store.records, r.txid = b.txid → b.lsn ≤ r.lsn
  locks : h.locks.Consistent
  holds : ∀ t x, h.txns t = some x → x.active = true → ∀ w ∈ x.undo, h.Holds t w.1
  free : ∀ t key, h.Holds t key → KeyFree h.store.records t key

/- Steps. -/

structure Marked (h h' : Handle) (t : TxId) (body : LogBody) : Prop where
  ascends : h.store.Ascending → h'.store.Ascending
  log : (h'.store.records = h.store.records ∧ h.store.records = []) ∨
    ∃ r, h'.store.records = h.store.records ++ [r] ∧ r.txid = t ∧ r.body = body

/-- A step of a call of transaction `a`, or of the autocommit call of this id. -/
inductive Micro (a : TxId) (h h' : Handle) : Prop
  | settled (log : h.store.Trims h'.store) (ids : h'.nextTxid = h.nextTxid) (txns : h'.txns = h.txns)
    (locks : h'.locks = h.locks)
  | wroteAlone (key : Bytes) (next : a = h.nextTxid) (log : h'.store.Grew h.store.records a key)
    (ids : h'.nextTxid = h.nextTxid + 1) (txns : h'.txns = h.txns) (locks : h'.locks = h.locks)
  | wrote (key : Bytes) (x : TxnImpl) (found : h.txns a = some x) (begun : x.begun = true)
    (holds : h.Holds a key)
    (log : h'.store.Grew h.store.records a key) (ids : h'.nextTxid = h.nextTxid) (txns : h'.txns = h.txns)
    (locks : h'.locks = h.locks)
  | opened (x : TxnImpl) (fresh : x.begun = false ∧
    x.undo = []) (next : a = h.nextTxid) (log : h'.store = h.store)
    (ids : h'.nextTxid = h.nextTxid + 1) (txns : h'.txns = Function.update h.txns a (some x))
      (locks : h'.locks = h.locks)
  | began (x : TxnImpl) (found : h.txns a = some x) (unbegun : x.begun = false) (log : Marked h h' a .begin)
    (ids : h'.nextTxid = h.nextTxid) (txns : h'.txns =
      Function.update h.txns a (some { x with begun := true }))
    (locks : h'.locks = h.locks)
  | ended (x : TxnImpl) (found : h.txns a = some x) (begun : x.begun = true) (body : LogBody)
    (ends : body = .commit ∨ body = .abort) (log : Marked h h' a body) (ids : h'.nextTxid = h.nextTxid)
    (txns : h'.txns = h.txns) (locks : h'.locks = h.locks)
  | noted (x y : TxnImpl) (found : h.txns a = some x) (begun : y.begun = x.begun)
    (active : y.active = true → x.active = true) (undo : ∀ w ∈ y.undo, w ∈ x.undo ∨ h.Holds a w.1)
    (log : h'.store = h.store) (ids : h'.nextTxid = h.nextTxid)
      (txns : h'.txns = Function.update h.txns a (some y))
    (locks : h'.locks = h.locks)
  | granted (q : Request) (mine : q.txid = a) (grants : h.locks.check q = .grant)
    (apart : q.mode = .exclusive → KeyFree h.store.records a q.key) (log : h'.store = h.store)
    (ids : h'.nextTxid = h.nextTxid) (txns : h'.txns = h.txns) (locks : h'.locks = h.locks.grant q)
  | released (idle : ∀ x, h.txns a = some x → x.active = false) (log : h'.store = h.store)
    (ids : h'.nextTxid = h.nextTxid) (txns : h'.txns = h.txns) (locks : h'.locks = h.locks.releaseAll a)

variable {h h' : Handle} {a t : TxId} {key : Bytes}

theorem Marked.ends {body : LogBody} (log : Marked h h' t body) (ends : body = .commit ∨ body = .abort) :
    unended h'.store.records t = false := by
  refine Bool.eq_false_iff.mpr fun open_ => ?_
  obtain ⟨⟨b, mem, -⟩, live⟩ := unended_iff.mp open_
  rcases log.log with ⟨same, empty⟩ | ⟨r, more, mine, is⟩
  · rw [same, empty] at mem
    cases mem
  · obtain ⟨commit, abort⟩ := live r (by rw [more]; exact List.mem_append_right _ List.mem_cons_self) mine
    exact ends.elim (fun e => commit (is.trans e)) fun e => abort (is.trans e)

theorem Guarded.alone (guarded : h.Guarded) (mine : h.Holds a key) (other : h.Holds t key) : t = a := by
  obtain ⟨p, here, rfl, mode⟩ := mine
  obtain ⟨q, there, rfl, mode'⟩ := other
  have agree := guarded.locks.compatible key p here q there
  rw [mode, mode'] at agree
  simpa [conflicts] using agree

theorem Guarded.not_unended (guarded : h.Guarded) (none : ∀ x, h.txns t = some x → x.begun = false) :
    unended h.store.records t = false := by
  refine Bool.eq_false_iff.mpr fun open_ => ?_
  obtain ⟨⟨b, mem, rfl, begins⟩, -⟩ := unended_iff.mp open_
  obtain ⟨x, found⟩ := guarded.begins b mem begins
  exact guarded.silent _ x found (none x found) b mem rfl

/- Each step keeps the invariant. -/

namespace Guarded

theorem logged (guarded : h.Guarded) {kept new : List LogRecord} (eq : h'.store.records = kept ++ new)
    (old : kept = h.store.records ∨ kept = []) (ascending : h'.store.Ascending)
    (quiet : ∀ r ∈ new, r.body ≠ .begin)
    (owner : ∀ r ∈ new, r.txid < h'.nextTxid ∧ ∀ x, h.txns r.txid = some x → x.begun = true)
    (apart : ∀ t key, h.Holds t key → ∀ r ∈ new, r.onKey key = true → r.txid ≠ t →
      unended h.store.records r.txid = false)
    (ids : h.nextTxid ≤ h'.nextTxid) (txns : h'.txns = h.txns) (locks : h'.locks = h.locks) : h'.Guarded := by
  have sub : kept ⊆ h.store.records := by
    rcases old with rfl | rfl
    · exact List.Subset.refl _
    · exact List.nil_subset _
  have mem : ∀ r ∈ h'.store.records, r ∈ kept ∨ r ∈ new := fun r inside => List.mem_append.mp (eq ▸ inside)
  have before : ∀ b ∈ h'.store.records, b.body = .begin → b ∈ kept := fun b inside begins =>
    (mem b inside).resolve_right fun late => quiet b late begins
  refine {
    ascending := ascending
    positive := guarded.positive.trans_le ids
    ids := fun r inside => ?_
    known := fun t x found => ?_
    begins := fun b inside begins => ?_
    silent := fun t x found unbegun r inside => ?_
    first := fun b inside begins r inside' same => ?_
    locks := locks ▸ guarded.locks
    holds := fun t x found active w mem => ?_
    free := fun t key holds => ?_ }
  · rcases mem r inside with early | late
    · exact (guarded.ids r (sub early)).trans_le ids
    · exact (owner r late).1
  · obtain ⟨positive, below⟩ := guarded.known t x (txns ▸ found)
    exact ⟨positive, below.trans_le ids⟩
  · rw [txns]
    exact guarded.begins b (sub (before b inside begins)) begins
  · rw [txns] at found
    rcases mem r inside with early | late
    · exact guarded.silent t x found unbegun r (sub early)
    · rintro rfl
      cases unbegun.symm.trans ((owner r late).2 x found)
  · have here := before b inside begins
    rcases mem r inside' with early | late
    · exact guarded.first b (sub here) begins r (sub early) same
    · exact (ascending.append_lt eq b here r late).le
  · rw [Holds, locks]
    exact guarded.holds t x (txns ▸ found) active w mem
  · rw [Holds, locks] at holds
    have free : KeyFree kept t key := by
      rcases old with rfl | rfl
      · exact guarded.free t key holds
      · exact List.forall_mem_nil _
    rw [eq]
    refine free.append (fun b late begins => absurd begins (quiet b late)) fun r late on other => ?_
    refine Bool.eq_false_iff.mpr fun open_ => ?_
    have open_ := unended_of_append open_ fun b inside _ => quiet b inside
    rcases old with rfl | rfl
    · rw [apart t key holds r late on other] at open_
      cases open_
    · cases open_

theorem settled (guarded : h.Guarded) (log : h.store.Trims h'.store) (ids : h'.nextTxid = h.nextTxid)
    (txns : h'.txns = h.txns) (locks : h'.locks = h.locks) : h'.Guarded := by
  obtain ⟨kept, new, eq, old, markers⟩ := log.log
  refine guarded.logged eq old (log.ascends guarded.ascending)
    (fun r late begins => ?_) (fun r late => ⟨?_, ?_⟩)
    (fun t key _ r late on _ => ?_) ids.ge txns locks
  · cases (markers r late).2.symm.trans begins
  · rw [ids, (markers r late).1]
    exact guarded.positive
  · intro x found
    rw [(markers r late).1] at found
    exact absurd (guarded.known _ x found).1 (lt_irrefl _)
  · rw [LogRecord.onKey, (markers r late).2] at on
    cases on

theorem wroteAlone (guarded : h.Guarded) (next : a = h.nextTxid) (log : h'.store.Grew h.store.records a key)
    (ids : h'.nextTxid = h.nextTxid + 1) (txns : h'.txns = h.txns)
      (locks : h'.locks = h.locks) : h'.Guarded := by
  obtain ⟨new, eq, own⟩ := log.log
  have unknown : ∀ x, h.txns a = some x → False := fun x found =>
    absurd (guarded.known a x found).2 (by rw [next]; exact lt_irrefl _)
  refine guarded.logged eq (.inl rfl) log.ascending (fun r late =>
    (own r late).inner.1) (fun r late => ⟨?_, ?_⟩)
    (fun t key _ r late _ _ => ?_) (by rw [ids]; exact Nat.le_succ _) txns locks
  · rw [(own r late).txid, ids, next]
    exact Nat.lt_succ_self _
  · rw [(own r late).txid]
    exact fun x found => (unknown x found).elim
  · rw [(own r late).txid]
    exact guarded.not_unended fun x found => (unknown x found).elim

theorem wrote (guarded : h.Guarded) {x : TxnImpl} (found : h.txns a = some x) (begun : x.begun = true)
    (holds : h.Holds a key) (log : h'.store.Grew h.store.records a key) (ids : h'.nextTxid = h.nextTxid)
    (txns : h'.txns = h.txns) (locks : h'.locks = h.locks) : h'.Guarded := by
  obtain ⟨new, eq, own⟩ := log.log
  refine guarded.logged eq (.inl rfl) log.ascending (fun r late =>
    (own r late).inner.1) (fun r late => ⟨?_, ?_⟩)
    (fun t k other r late on ne => ?_) ids.ge txns locks
  · rw [(own r late).txid, ids]
    exact (guarded.known a x found).2
  · rw [(own r late).txid]
    intro y found'
    cases found.symm.trans found'
    exact begun
  · obtain rfl := (own r late).keys k on
    exact absurd ((own r late).txid.trans (guarded.alone holds other).symm) ne

theorem ended (guarded : h.Guarded) {x : TxnImpl} (found : h.txns a = some x) (begun : x.begun = true)
    {body : LogBody} (ends : body = .commit ∨ body = .abort) (log : Marked h h' a body)
    (ids : h'.nextTxid = h.nextTxid) (txns : h'.txns = h.txns) (locks : h'.locks = h.locks) : h'.Guarded := by
  have marker : ∃ new, h'.store.records = h.store.records ++ new ∧ ∀ r ∈ new, r.txid = a ∧ r.body = body := by
    rcases log.log with ⟨same, -⟩ | ⟨r, more, mine, is⟩
    · exact ⟨[], by rw [same, List.append_nil], List.forall_mem_nil _⟩
    · exact ⟨[r], more, by simp [mine, is]⟩
  obtain ⟨new, eq, own⟩ := marker
  refine guarded.logged eq (.inl rfl) (log.ascends guarded.ascending)
    (fun r late begins => ?_) (fun r late => ⟨?_, ?_⟩)
    (fun t key _ r late on _ => ?_) ids.ge txns locks
  · rw [(own r late).2] at begins
    subst begins
    simp at ends
  · rw [(own r late).1, ids]
    exact (guarded.known a x found).2
  · rw [(own r late).1]
    intro y found'
    cases found.symm.trans found'
    exact begun
  · rw [LogRecord.onKey, (own r late).2] at on
    rcases ends with rfl | rfl
    · cases on
    · cases on

theorem opened (guarded : h.Guarded) {x : TxnImpl} (fresh : x.begun = false ∧ x.undo = [])
    (next : a = h.nextTxid)
    (log : h'.store = h.store) (ids : h'.nextTxid = h.nextTxid + 1)
    (txns : h'.txns = Function.update h.txns a (some x)) (locks : h'.locks = h.locks) : h'.Guarded := by
  have cases_ : ∀ t y, h'.txns t = some y → (t = a ∧ y = x) ∨ h.txns t = some y := by
    intro t y found
    rw [txns] at found
    by_cases same : t = a
    · subst same
      rw [Function.update_self] at found
      exact .inl ⟨rfl, (Option.some.inj found).symm⟩
    · rw [Function.update_of_ne same] at found
      exact .inr found
  refine {
    ascending := log ▸ guarded.ascending
    positive := by rw [ids]; exact guarded.positive.trans (Nat.lt_succ_self _)
    ids := fun r inside => ?_
    known := fun t y found => ?_
    begins := fun b inside begins => ?_
    silent := fun t y found unbegun r inside => ?_
    first := log ▸ guarded.first
    locks := locks ▸ guarded.locks
    holds := fun t y found active w mem => ?_
    free := fun t key holds => ?_ }
  · rw [ids]
    exact (guarded.ids r (log ▸ inside)).trans (Nat.lt_succ_self _)
  · rw [ids]
    rcases cases_ t y found with ⟨rfl, -⟩ | old
    · rw [next]
      exact ⟨guarded.positive, Nat.lt_succ_self _⟩
    · exact ⟨(guarded.known t y old).1, (guarded.known t y old).2.trans (Nat.lt_succ_self _)⟩
  · obtain ⟨y, found⟩ := guarded.begins b (log ▸ inside) begins
    have ne : b.txid ≠ a := by
      rw [next]
      exact (guarded.known _ y found).2.ne
    exact ⟨y, by rw [txns, Function.update_of_ne ne, found]⟩
  · rcases cases_ t y found with ⟨rfl, -⟩ | old
    · rw [next]
      exact (guarded.ids r (log ▸ inside)).ne
    · exact guarded.silent t y old unbegun r (log ▸ inside)
  · rw [Holds, locks]
    rcases cases_ t y found with ⟨rfl, rfl⟩ | old
    · rw [fresh.2] at mem
      cases mem
    · exact guarded.holds t y old active w mem
  · rw [Holds, locks] at holds
    rw [log]
    exact guarded.free t key holds

theorem began (guarded : h.Guarded) {x : TxnImpl} (found : h.txns a = some x) (unbegun : x.begun = false)
    (log : Marked h h' a .begin) (ids : h'.nextTxid = h.nextTxid)
    (txns : h'.txns = Function.update h.txns a (some { x with begun := true })) (locks : h'.locks = h.locks) :
    h'.Guarded := by
  have silent : ∀ r ∈ h.store.records, r.txid ≠ a := guarded.silent a x found unbegun
  have mem : ∀ r ∈ h'.store.records, r ∈ h.store.records ∨ r.txid = a ∧ r.body = .begin := by
    intro r inside
    rcases log.log with ⟨same, -⟩ | ⟨b, more, mine, is⟩
    · exact .inl (same ▸ inside)
    · rw [more] at inside
      refine (List.mem_append.mp inside).imp id fun late => ?_
      rw [List.mem_singleton.mp late]
      exact ⟨mine, is⟩
  have turned : ∀ t y, h'.txns t = some y → (t = a ∧ y = { x with begun := true }) ∨
    t ≠ a ∧ h.txns t = some y := by
    intro t y found'
    rw [txns] at found'
    by_cases same : t = a
    · subst same
      rw [Function.update_self] at found'
      exact .inl ⟨rfl, (Option.some.inj found').symm⟩
    · rw [Function.update_of_ne same] at found'
      exact .inr ⟨same, found'⟩
  refine {
    ascending := log.ascends guarded.ascending
    positive := ids ▸ guarded.positive
    ids := fun r inside => ?_
    known := fun t y found' => ?_
    begins := fun b inside begins => ?_
    silent := fun t y found' unbegun' r inside => ?_
    first := fun b inside begins r inside' same => ?_
    locks := locks ▸ guarded.locks
    holds := fun t y found' active w mem => ?_
    free := fun t key holds => ?_ }
  · rw [ids]
    rcases mem r inside with old | ⟨mine, -⟩
    · exact guarded.ids r old
    · rw [mine]
      exact (guarded.known a x found).2
  · rw [ids]
    rcases turned t y found' with ⟨rfl, -⟩ | ⟨-, old⟩
    · exact guarded.known t x found
    · exact guarded.known t y old
  · rw [txns]
    by_cases same : b.txid = a
    · exact ⟨_, by rw [same, Function.update_self]⟩
    · rw [Function.update_of_ne same]
      exact guarded.begins b ((mem b inside).resolve_right fun new => same new.1) begins
  · rcases turned t y found' with ⟨rfl, rfl⟩ | ⟨ne, old⟩
    · cases unbegun'
    · rcases mem r inside with early | ⟨mine, -⟩
      · exact guarded.silent t y old unbegun' r early
      · rw [mine]
        exact ne.symm
  · rcases log.log with ⟨same', -⟩ | ⟨q, more, mine, is⟩
    · rw [same'] at inside inside'
      exact guarded.first b inside begins r inside' same
    · rw [more] at inside inside'
      rcases List.mem_append.mp inside with old | new
      · rcases List.mem_append.mp inside' with old' | new'
        · exact guarded.first b old begins r old' same
        · rw [List.mem_singleton.mp new', mine] at same
          exact absurd same.symm (silent b old)
      · obtain rfl := List.mem_singleton.mp new
        rcases List.mem_append.mp inside' with old' | new'
        · exact absurd (same.trans mine) (silent r old')
        · rw [List.mem_singleton.mp new']
  · rw [Holds, locks]
    rcases turned t y found' with ⟨rfl, rfl⟩ | ⟨-, old⟩
    · exact guarded.holds t x found active w mem
    · exact guarded.holds t y old active w mem
  · rw [Holds, locks] at holds
    have free := guarded.free t key holds
    rcases log.log with ⟨same, -⟩ | ⟨b, more, mine, is⟩
    · rw [same]
      exact free
    · rw [more]
      refine free.append (fun q late _ r old => ?_) fun r late on => ?_
      · rw [List.mem_singleton.mp late, mine]
        exact silent r old
      · rw [List.mem_singleton.mp late, LogRecord.onKey, is] at on
        cases on

theorem noted (guarded : h.Guarded) {x y : TxnImpl} (found : h.txns a = some x) (begun : y.begun = x.begun)
    (active : y.active = true → x.active = true) (undo : ∀ w ∈ y.undo, w ∈ x.undo ∨ h.Holds a w.1)
    (log : h'.store = h.store) (ids : h'.nextTxid = h.nextTxid)
    (txns : h'.txns = Function.update h.txns a (some y)) (locks : h'.locks = h.locks) : h'.Guarded := by
  have turned : ∀ t z, h'.txns t = some z → (t = a ∧ z = y) ∨ h.txns t = some z := by
    intro t z found'
    rw [txns] at found'
    by_cases same : t = a
    · subst same
      rw [Function.update_self] at found'
      exact .inl ⟨rfl, (Option.some.inj found').symm⟩
    · rw [Function.update_of_ne same] at found'
      exact .inr found'
  refine {
    ascending := log ▸ guarded.ascending
    positive := ids ▸ guarded.positive
    ids := by rw [log, ids]; exact guarded.ids
    known := fun t z found' => ?_
    begins := fun b inside begins => ?_
    silent := fun t z found' unbegun r inside => ?_
    first := log ▸ guarded.first
    locks := locks ▸ guarded.locks
    holds := fun t z found' active' w mem => ?_
    free := by rw [log]; unfold Holds; rw [locks]; exact guarded.free }
  · rw [ids]
    rcases turned t z found' with ⟨rfl, -⟩ | old
    · exact guarded.known t x found
    · exact guarded.known t z old
  · rw [txns]
    by_cases same : b.txid = a
    · exact ⟨y, by rw [same, Function.update_self]⟩
    · rw [Function.update_of_ne same]
      exact guarded.begins b (log ▸ inside) begins
  · rw [log] at inside
    rcases turned t z found' with ⟨rfl, rfl⟩ | old
    · exact guarded.silent t x found (begun.symm.trans unbegun) r inside
    · exact guarded.silent t z old unbegun r inside
  · rw [Holds, locks]
    rcases turned t z found' with ⟨rfl, rfl⟩ | old
    · exact (undo w mem).elim (guarded.holds t x found (active active') w) id
    · exact guarded.holds t z old active' w mem

theorem granted (guarded : h.Guarded) {q : Request} (mine : q.txid = a) (grants : h.locks.check q = .grant)
    (apart : q.mode = .exclusive → KeyFree h.store.records a q.key) (log : h'.store = h.store)
    (ids : h'.nextTxid = h.nextTxid) (txns : h'.txns = h.txns) (locks : h'.locks = h.locks.grant q) :
    h'.Guarded := by
  refine {
    ascending := log ▸ guarded.ascending
    positive := ids ▸ guarded.positive
    ids := by rw [log, ids]; exact guarded.ids
    known := by rw [txns, ids]; exact guarded.known
    begins := by rw [log, txns]; exact guarded.begins
    silent := by rw [log, txns]; exact guarded.silent
    first := log ▸ guarded.first
    locks := locks ▸ guarded.locks.grant grants
    holds := fun t x found active w mem => ?_
    free := fun t key holds => ?_ }
  · obtain ⟨p, here, owner, mode⟩ := guarded.holds t x (txns ▸ found) active w mem
    rw [Holds, locks, LockManager.grant_holders]
    split
    · rename_i same
      obtain ⟨p', kept, owner', -, mode'⟩ := LockManager.granted_keeps (r := q) (same ▸ here)
      exact ⟨p', kept, owner'.trans owner, mode' mode⟩
    · exact ⟨p, here, owner, mode⟩
  · rw [log]
    obtain ⟨p, here, rfl, mode⟩ := holds
    rw [locks, LockManager.grant_holders] at here
    split at here
    · rename_i same
      subst same
      rcases LockManager.mem_granted here with old | ⟨owner, mode', -⟩
      · exact guarded.free _ _ ⟨p, old, rfl, mode⟩
      · rw [owner, mine]
        exact apart (mode'.symm.trans mode)
    · exact guarded.free _ _ ⟨p, here, rfl, mode⟩

theorem released (guarded : h.Guarded) (idle : ∀ x, h.txns a = some x → x.active = false)
    (log : h'.store = h.store) (ids : h'.nextTxid = h.nextTxid) (txns : h'.txns = h.txns)
    (locks : h'.locks = h.locks.releaseAll a) : h'.Guarded := by
  refine {
    ascending := log ▸ guarded.ascending
    positive := ids ▸ guarded.positive
    ids := by rw [log, ids]; exact guarded.ids
    known := by rw [txns, ids]; exact guarded.known
    begins := by rw [log, txns]; exact guarded.begins
    silent := by rw [log, txns]; exact guarded.silent
    first := log ▸ guarded.first
    locks := locks ▸ guarded.locks.releaseAll a
    holds := fun t x found active w mem => ?_
    free := fun t key holds => ?_ }
  · rw [txns] at found
    obtain ⟨p, here, owner, mode⟩ := guarded.holds t x found active w mem
    have ne : t ≠ a := by
      rintro rfl
      cases active.symm.trans (idle x found)
    rw [Holds, locks, guarded.locks.releaseAll_holders]
    exact ⟨p, List.mem_filter.mpr ⟨here, by simpa [owner] using ne⟩, owner, mode⟩
  · rw [log]
    obtain ⟨p, here, owner, mode⟩ := holds
    rw [locks, guarded.locks.releaseAll_holders] at here
    exact guarded.free t key ⟨p, (List.mem_filter.mp here).1, owner, mode⟩

end Guarded

/-- What a step adds to the log is its own; it begins a transaction that has not begun. -/
def Adds (a : TxId) (h h' : Handle) : Prop := ∃ kept new, h'.store.records = kept ++ new ∧
  (kept = h.store.records ∨ kept = []) ∧ ∀ r ∈ new, r.isMarker ∨
    r.txid = a ∧ (r.body = .begin → ∃ x, h.txns a = some x ∧ x.begun = false)

theorem Adds.still (same : h'.store = h.store) : Adds a h h' :=
  ⟨h.store.records, [], by rw [same, List.append_nil], .inl rfl, List.forall_mem_nil _⟩

theorem Adds.grew (grew : h'.store.Grew h.store.records a key) : Adds a h h' := by
  obtain ⟨new, eq, own⟩ := grew.log
  refine ⟨_, new, eq, .inl rfl, fun r late => .inr ⟨(own r late).txid, fun begins => ?_⟩⟩
  exact absurd begins (own r late).inner.1

theorem Adds.marked {body : LogBody} (log : Marked h h' a body)
    (begins : body = .begin → ∃ x, h.txns a = some x ∧ x.begun = false) : Adds a h h' := by
  rcases log.log with ⟨same, -⟩ | ⟨b, more, mine, is⟩
  · exact ⟨_, [], by rw [same, List.append_nil], .inl rfl, List.forall_mem_nil _⟩
  · refine ⟨_, [b], more, .inl rfl, fun r late => .inr ?_⟩
    rw [List.mem_singleton.mp late]
    exact ⟨mine, fun opens => begins (is.symm.trans opens)⟩

namespace Micro

theorem guarded (step : Micro a h h') (guarded : h.Guarded) : h'.Guarded := by
  cases step with
  | settled log ids txns locks => exact guarded.settled log ids txns locks
  | wroteAlone key next log ids txns locks => exact guarded.wroteAlone next log ids txns locks
  | wrote key x found begun holds log ids txns locks =>
    exact guarded.wrote found begun holds log ids txns locks
  | opened x fresh next log ids txns locks => exact guarded.opened fresh next log ids txns locks
  | began x found unbegun log ids txns locks => exact guarded.began found unbegun log ids txns locks
  | ended x found begun body ends log ids txns locks =>
    exact guarded.ended found begun ends log ids txns locks
  | noted x y found begun active undo log ids txns locks =>
    exact guarded.noted found begun active undo log ids txns locks
  | granted q mine grants apart log ids txns locks =>
    exact guarded.granted mine grants apart log ids txns locks
  | released idle log ids txns locks => exact guarded.released idle log ids txns locks

theorem adds (step : Micro a h h') : Adds a h h' := by
  cases step with
  | settled log =>
    obtain ⟨kept, new, eq, old, markers⟩ := log.log
    exact ⟨kept, new, eq, old, fun r late => .inl (markers r late)⟩
  | wroteAlone _ _ log => exact .grew log
  | wrote _ _ _ _ _ log => exact .grew log
  | opened _ _ _ same => exact .still same
  | began x found unbegun log => exact .marked log fun _ => ⟨x, found, unbegun⟩
  | ended _ _ _ body ends log => exact .marked log fun begins => by simp [begins] at ends
  | noted _ _ _ _ _ _ same => exact .still same
  | granted _ _ _ _ same => exact .still same
  | released _ same => exact .still same

theorem fresh (step : Micro a h h') (fresh : h'.Fresh t) : h.Fresh t := by
  unfold Fresh at fresh ⊢
  cases step with
  | settled _ ids txns | wrote _ _ _ _ _ _ ids txns | ended _ _ _ _ _ _ ids txns | granted _ _ _ _ _ ids txns
  | released _ _ ids txns => rwa [ids, txns] at fresh
  | wroteAlone _ _ _ ids txns =>
    rw [ids, txns] at fresh
    exact fresh.imp_left fun le => (Nat.le_succ _).trans le
  | opened x _ next _ ids txns =>
    rw [ids, txns] at fresh
    rcases fresh with le | ⟨y, found, unbegun⟩
    · exact .inl ((Nat.le_succ _).trans le)
    · by_cases same : t = a
      · exact .inl (same.trans next).ge
      · rw [Function.update_of_ne same] at found
        exact .inr ⟨y, found, unbegun⟩
  | began x _ _ _ ids txns =>
    rw [ids, txns] at fresh
    rcases fresh with le | ⟨y, found, unbegun⟩
    · exact .inl le
    · by_cases same : t = a
      · rw [same, Function.update_self] at found
        cases found
        cases unbegun
      · rw [Function.update_of_ne same] at found
        exact .inr ⟨y, found, unbegun⟩
  | noted x z there begun _ _ _ ids txns =>
    rw [ids, txns] at fresh
    rcases fresh with le | ⟨y, found, unbegun⟩
    · exact .inl le
    · by_cases same : t = a
      · rw [same, Function.update_self] at found
        cases found
        exact .inr ⟨x, same ▸ there, begun.symm.trans unbegun⟩
      · rw [Function.update_of_ne same] at found
        exact .inr ⟨y, found, unbegun⟩

end Micro

/- Runs of steps. -/

/-- What a later handle has in its log, and which transactions can still begin there. -/
structure Later (h h' : Handle) : Prop where
  log : ∃ kept new, h'.store.records = kept ++ new ∧ (kept = h.store.records ∨ kept = []) ∧
    ∀ r ∈ new, r.body = .begin → h.Fresh r.txid
  fresh : ∀ t, h'.Fresh t → h.Fresh t

theorem Later.refl (h : Handle) : Later h h :=
  ⟨⟨h.store.records, [], (List.append_nil _).symm, .inl rfl, List.forall_mem_nil _⟩, fun _ => id⟩

theorem Later.trans {b c : Handle} (x : Later h b) (y : Later b c) : Later h c := by
  obtain ⟨kept, new, eq, old, begins⟩ := x.log
  obtain ⟨kept', new', eq', old', begins'⟩ := y.log
  refine ⟨?_, fun t fresh => x.fresh t (y.fresh t fresh)⟩
  rcases old' with rfl | rfl
  · refine ⟨kept, new ++ new', by rw [eq', eq, List.append_assoc], old, fun r mem opens => ?_⟩
    exact (List.mem_append.mp mem).elim (fun mem => begins r mem opens) fun mem =>
      x.fresh _ (begins' r mem opens)
  · exact ⟨[], new', eq', .inr rfl, fun r mem opens => x.fresh _ (begins' r mem opens)⟩

theorem Micro.later (step : Micro a h h') : Later h h' := by
  obtain ⟨kept, new, eq, old, mine⟩ := step.adds
  refine ⟨⟨kept, new, eq, old, fun r late begins => ?_⟩, fun t => step.fresh⟩
  rcases mine r late with marker | ⟨owner, opens⟩
  · cases marker.2.symm.trans begins
  · exact .inr (owner ▸ opens begins)

theorem Later.not_unended (later : Later h h') (ended : unended h.store.records t = false)
    (stale : ¬h.Fresh t) :
    unended h'.store.records t = false := by
  obtain ⟨kept, new, eq, old, begins⟩ := later.log
  refine Bool.eq_false_iff.mpr fun open_ => ?_
  rw [eq] at open_
  have before := unended_of_append open_ fun r late same opens => stale (same ▸ begins r late opens)
  rcases old with rfl | rfl
  · rw [ended] at before
    cases before
  · cases before

abbrev Steps (a : TxId) : Handle → Handle → Prop := ReflTransGen (Micro a)

theorem Steps.guarded (steps : Steps a h h') (guarded : h.Guarded) : h'.Guarded := by
  induction steps with
  | refl => exact guarded
  | tail _ step ih => exact step.guarded ih

theorem Steps.later (steps : Steps a h h') : Later h h' := by
  induction steps with
  | refl => exact .refl h
  | tail _ step ih => exact ih.trans step.later

end Handle

end PagerDB

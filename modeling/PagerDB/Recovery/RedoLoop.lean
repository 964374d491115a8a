import PagerDB.Recovery.OpReplay
import PagerDB.Recovery.Undo
import PagerDB.Storage.Pool

/-! The redo loop of `DbImpl::Recover`. Of a log whose operations are all complete it applies every record
from the checkpoint on, and it ends with the pages that the log was written from, whatever versions of them
a crash has left. -/
namespace PagerDB

open MachineLib Store

def applicable (checkpoint : Lsn) (records : List LogRecord) : List LogRecord :=
  (records.zipIdx.filter fun r => r.2 ∈ (grouping checkpoint records).applicable).map Prod.fst

def redoLoop (checkpoint : Lsn) (records : List LogRecord) : M Bool :=
  applyAll (applicable checkpoint records) false

/- Complete groups. -/

/-- From the checkpoint on, the last record of each id ends its operation. -/
def Complete (checkpoint : Lsn) (records : List LogRecord) : Prop :=
  ∀ t r, (records.filter fun r => checkpoint ≤ r.lsn ∧ r.txid = t).getLast? = some r → r.opEnd = true

variable {checkpoint : Lsn} {records : List LogRecord}

theorem grouping_snoc (checkpoint : Lsn) (records : List LogRecord) (r : LogRecord) :
    grouping checkpoint (records ++ [r]) =
      (grouping checkpoint records).add checkpoint (r, records.length) := by
  simp [grouping, List.zipIdx_append]

namespace Grouping

variable {g : Grouping} {r : LogRecord} {n i : Nat} {t : TxId}

theorem add_openGroup (late : checkpoint ≤ r.lsn) : (g.add checkpoint (r, n)).openGroup =
    Function.update g.openGroup r.txid (if r.opEnd then [] else g.openGroup r.txid ++ [n]) := by
  unfold add
  rw [if_neg (not_lt.mpr late)]
  cases r.opEnd with
  | true => rfl
  | false => rfl

theorem mem_add_applicable (late : checkpoint ≤ r.lsn) : i ∈ (g.add checkpoint (r, n)).applicable ↔
    i ∈ g.applicable ∨ r.opEnd = true ∧ (i ∈ g.openGroup r.txid ∨ i = n) := by
  unfold add
  rw [if_neg (not_lt.mpr late)]
  cases r.opEnd with
  | true => simp
  | false => simp

theorem add_kept (late : checkpoint ≤ r.lsn) (here : i ∈ g.applicable ∨ i ∈ g.openGroup t) :
    i ∈ (g.add checkpoint (r, n)).applicable ∨ i ∈ (g.add checkpoint (r, n)).openGroup t := by
  rw [mem_add_applicable late, add_openGroup late]
  rcases here with done | waits
  · exact .inl (.inl done)
  · by_cases same : t = r.txid
    · subst same
      rw [Function.update_self]
      cases r.opEnd with
      | true => exact .inl (.inr ⟨rfl, .inl waits⟩)
      | false => exact .inr (List.mem_append_left _ waits)
    · rw [Function.update_of_ne same]
      exact .inr waits

theorem add_new (late : checkpoint ≤ r.lsn) :
    n ∈ (g.add checkpoint (r, n)).applicable ∨ n ∈ (g.add checkpoint (r, n)).openGroup r.txid := by
  rw [mem_add_applicable late, add_openGroup late, Function.update_self]
  cases r.opEnd with
  | true => exact .inl (.inr ⟨rfl, .inr rfl⟩)
  | false => exact .inr (List.mem_append_right _ (List.mem_singleton_self _))

theorem of_mem_add (late : checkpoint ≤ r.lsn)
    (here : i ∈ (g.add checkpoint (r, n)).applicable ∨ ∃ t, i ∈ (g.add checkpoint (r, n)).openGroup t) :
    i = n ∨ i ∈ g.applicable ∨ ∃ t, i ∈ g.openGroup t := by
  rw [mem_add_applicable late, add_openGroup late] at here
  rcases here with (done | ⟨-, waits | rfl⟩) | ⟨t, waits⟩
  · exact .inr (.inl done)
  · exact .inr (.inr ⟨r.txid, waits⟩)
  · exact .inl rfl
  · by_cases same : t = r.txid
    · subst same
      rw [Function.update_self] at waits
      split at waits
      · cases waits
      · rcases List.mem_append.mp waits with waits | new
        · exact .inr (.inr ⟨r.txid, waits⟩)
        · exact .inl (List.mem_singleton.mp new)
    · rw [Function.update_of_ne same] at waits
      exact .inr (.inr ⟨t, waits⟩)

end Grouping

/-- A record from the checkpoint on is in the open group of its id or in a complete one, and no other is. -/
structure Grouped (checkpoint : Lsn) (records : List LogRecord) (g : Grouping) : Prop where
  placed : ∀ i r, records[i]? = some r → checkpoint ≤ r.lsn → i ∈ g.applicable ∨ i ∈ g.openGroup r.txid
  recent : ∀ i, (i ∈ g.applicable ∨ ∃ t, i ∈ g.openGroup t) → ∃ r, records[i]? = some r ∧ checkpoint ≤ r.lsn
  opened : ∀ t, g.openGroup t ≠ [] →
    ∃ r, (records.filter fun r => checkpoint ≤ r.lsn ∧ r.txid = t).getLast? = some r ∧ r.opEnd = false

namespace Grouped

variable {g : Grouping} {r : LogRecord}

theorem skip (grouped : Grouped checkpoint records g) (old : r.lsn < checkpoint) :
    Grouped checkpoint (records ++ [r]) g where
  placed i q here late := by
    rcases getElem?_snoc here with here | ⟨-, rfl⟩
    · exact grouped.placed i q here late
    · exact absurd old (not_lt.mpr late)
  recent i mem := by
    obtain ⟨q, here, late⟩ := grouped.recent i mem
    exact ⟨q, getElem?_of_snoc r here, late⟩
  opened t some := by
    have out : ([r].filter fun r => checkpoint ≤ r.lsn ∧ r.txid = t) = [] := by
      simp [not_le.mpr old]
    rw [List.filter_append, out, List.append_nil]
    exact grouped.opened t some

theorem join (grouped : Grouped checkpoint records g) (late : checkpoint ≤ r.lsn) :
    Grouped checkpoint (records ++ [r]) (g.add checkpoint (r, records.length)) where
  placed i q here late' := by
    rcases getElem?_snoc here with here | ⟨rfl, rfl⟩
    · exact Grouping.add_kept late (grouped.placed i q here late')
    · exact Grouping.add_new late
  recent i mem := by
    rcases Grouping.of_mem_add late mem with rfl | mem
    · exact ⟨r, by simp, late⟩
    · obtain ⟨q, here, late'⟩ := grouped.recent i mem
      exact ⟨q, getElem?_of_snoc r here, late'⟩
  opened t some := by
    rw [Grouping.add_openGroup late] at some
    rw [List.filter_append]
    by_cases same : t = r.txid
    · subst same
      rw [Function.update_self] at some
      have joins : ([r].filter fun q => checkpoint ≤ q.lsn ∧ q.txid = r.txid) = [r] := by simp [late]
      refine ⟨r, by rw [joins, List.getLast?_concat], ?_⟩
      cases ends : r.opEnd with
      | true => simp [ends] at some
      | false => rfl
    · rw [Function.update_of_ne same] at some
      have out : ([r].filter fun q => checkpoint ≤ q.lsn ∧ q.txid = t) = [] := by simp [Ne.symm same]
      rw [out, List.append_nil]
      exact grouped.opened t some

end Grouped

theorem grouped (checkpoint : Lsn) (records : List LogRecord) :
    Grouped checkpoint records (grouping checkpoint records) := by
  induction records using List.reverseRecOn with
  | nil => exact ⟨nofun, fun i none => by simp [grouping] at none, fun t some => absurd rfl some⟩
  | append_singleton records r ih =>
    rw [grouping_snoc]
    by_cases old : r.lsn < checkpoint
    · have same : (grouping checkpoint records).add checkpoint (r, records.length) =
        grouping checkpoint records :=
        if_pos old
      rw [same]
      exact ih.skip old
    · exact ih.join (not_lt.mp old)

theorem Complete.closed (complete : Complete checkpoint records) (t : TxId) :
    (grouping checkpoint records).openGroup t = [] := by
  by_contra some
  obtain ⟨r, last, opened⟩ := (grouped checkpoint records).opened t some
  rw [complete t r last] at opened
  cases opened

/-- Of complete groups the loop skips what lies before the checkpoint, and nothing else. -/
theorem applicable_of_complete (complete : Complete checkpoint records) :
    applicable checkpoint records = records.filter fun r => checkpoint ≤ r.lsn := by
  have grouped := grouped checkpoint records
  have all : ∀ r ∈ records.zipIdx,
      decide (r.2 ∈ (grouping checkpoint records).applicable) = decide (checkpoint ≤ r.1.lsn) := by
    intro r mem
    have here := List.mem_zipIdx_iff_getElem?.mp mem
    refine decide_eq_decide.mpr ⟨fun done => ?_, fun late => ?_⟩
    · obtain ⟨q, there, late⟩ := grouped.recent r.2 (.inl done)
      exact Option.some.inj (here.symm.trans there) ▸ late
    · rcases grouped.placed r.2 r.1 here late with done | waits
      · exact done
      · rw [complete.closed] at waits
        cases waits
  unfold applicable
  rw [List.filter_congr all]
  have fst : records = records.zipIdx.map Prod.fst := (List.zipIdx_map_fst 0 records).symm
  conv_rhs => rw [fst, List.filter_map]
  rfl

theorem applicable_snoc_of_same {r : LogRecord}
    (same : (grouping checkpoint (records ++ [r])).applicable = (grouping checkpoint records).applicable) :
    applicable checkpoint (records ++ [r]) = applicable checkpoint records := by
  have out : records.length ∉ (grouping checkpoint records).applicable := by
    intro mem
    obtain ⟨q, here, -⟩ := (grouped checkpoint records).recent _ (.inl mem)
    rw [List.getElem?_eq_none (le_refl _)] at here
    cases here
  unfold applicable
  rw [same, List.zipIdx_append, List.filter_append]
  simpa using out

theorem applicable_cut {cut : List LogRecord} (opened : ∀ r ∈ cut, r.opEnd = false) :
    applicable checkpoint (records ++ cut) = applicable checkpoint records := by
  induction cut using List.reverseRecOn with
  | nil => rw [List.append_nil]
  | append_singleton cut r ih =>
    have same : (grouping checkpoint (records ++ cut ++ [r])).applicable =
        (grouping checkpoint (records ++ cut)).applicable := by
      rw [grouping_snoc]
      unfold Grouping.add
      split
      · rfl
      · rw [opened r (by simp)]
        rfl
    rw [← ih fun q mem => opened q (List.mem_append_left _ mem), ← List.append_assoc]
    exact applicable_snoc_of_same same

theorem applicable_alone {r : LogRecord} (late : checkpoint ≤ r.lsn) (ends : r.opEnd = true)
    (alone : (grouping checkpoint records).openGroup r.txid = []) :
    applicable checkpoint (records ++ [r]) = applicable checkpoint records ++ [r] := by
  have places : ∀ i, i ∈ (grouping checkpoint (records ++ [r])).applicable ↔
      i ∈ (grouping checkpoint records).applicable ∨ i = records.length := by
    intro i
    rw [grouping_snoc, Grouping.mem_add_applicable late, alone]
    simp [ends]
  have old : ∀ q ∈ records.zipIdx, decide (q.2 ∈ (grouping checkpoint (records ++ [r])).applicable) =
      decide (q.2 ∈ (grouping checkpoint records).applicable) := by
    intro q mem
    have lt : q.2 < records.length := (List.getElem?_eq_some_iff.mp (List.mem_zipIdx_iff_getElem?.mp mem)).1
    refine decide_eq_decide.mpr ((places q.2).trans ⟨fun here => here.resolve_right lt.ne, .inl⟩)
  have new : records.length ∈ (grouping checkpoint (records ++ [r])).applicable := (places _).mpr (.inr rfl)
  unfold applicable
  rw [List.zipIdx_append, List.filter_append, List.filter_congr old, List.map_append]
  simp [new]

/-- A record of an operation that a crash has cut, or the marker of a checkpoint that it has cut. -/
def LogRecord.Loose (r : LogRecord) : Prop :=
  r.opEnd = false ∧ r.txid ≠ kInvalidTxId ∧ r.body ≠ .begin ∨
    r.opEnd = true ∧ r.txid = kInvalidTxId ∧ r.body = .checkpoint

theorem applicable_loose {tail : List LogRecord} (complete : Complete checkpoint records)
    (loose : ∀ r ∈ tail, r.Loose) :
    ∃ markers, applicable checkpoint (records ++ tail) = applicable checkpoint records ++ markers ∧
      (∀ r ∈ markers, r.body = .checkpoint) ∧
        (grouping checkpoint (records ++ tail)).openGroup kInvalidTxId = [] := by
  induction tail using List.reverseRecOn with
  | nil => exact ⟨[], by simp, nofun, by rw [List.append_nil]; exact complete.closed _⟩
  | append_singleton tail r ih =>
    obtain ⟨markers, same, marks, closed⟩ := ih fun q mem => loose q (List.mem_append_left _ mem)
    rw [← List.append_assoc]
    by_cases late : checkpoint ≤ r.lsn
    · rcases loose r (by simp) with ⟨open_, other, -⟩ | ⟨ends, id, marker⟩
      · refine ⟨markers, ?_, marks, ?_⟩
        · rw [← same]
          exact applicable_cut fun q mem => List.mem_singleton.mp mem ▸ open_
        · rw [grouping_snoc, Grouping.add_openGroup late, Function.update_of_ne (Ne.symm other)]
          exact closed
      · refine ⟨markers ++ [r], ?_, List.forall_mem_append.mpr ⟨marks,
          List.forall_mem_singleton.mpr marker⟩, ?_⟩
        · rw [applicable_alone late ends (by rw [id]; exact closed), same, List.append_assoc]
        · rw [grouping_snoc, Grouping.add_openGroup late, id, Function.update_self, if_pos ends]
    · have skipped : grouping checkpoint (records ++ tail ++ [r]) =
        grouping checkpoint (records ++ tail) := by
        rw [grouping_snoc]
        exact if_pos (not_le.mp late)
      refine ⟨markers, ?_, marks, by rw [skipped]; exact closed⟩
      rw [← same]
      exact applicable_snoc_of_same (congrArg Grouping.applicable skipped)

end PagerDB

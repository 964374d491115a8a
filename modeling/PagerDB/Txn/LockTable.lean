import PagerDB.Txn.LockManager

/-! The lock table under grants and releases: a key is held by one transaction
exclusively or by several in shared mode, and `held` lists what each one holds. -/
namespace PagerDB

namespace LockManager

variable {lm : LockManager} {r : Request} {key : Bytes} {t : TxId}

def heldKeys (lm : LockManager) (t : TxId) : List Bytes := (lm.held t).getD []

structure Consistent (lm : LockManager) : Prop where
  inhabited : ∀ key, lm.table key ≠ some []
  unique : ∀ key, ((lm.holders key).map Prod.fst).Nodup
  compatible : ∀ key, ∀ a ∈ lm.holders key, ∀ b ∈ lm.holders key,
    conflicts a.1 a.2.mode b.1 b.2.mode = false
  listed : ∀ key t, key ∈ lm.heldKeys t ↔ ∃ h ∈ lm.holders key, h.1 = t
  nodup : ∀ t, (lm.heldKeys t).Nodup

theorem empty_consistent : empty.Consistent := by
  constructor <;> simp [empty, holders, heldKeys]

/- Grants. -/

theorem lookup_isSome {entry : List (TxId × Holder)} :
    (entry.lookup t).isSome = true ↔ ∃ h ∈ entry, h.1 = t := by
  simp

def granted (r : Request) (entry : List (TxId × Holder)) : List (TxId × Holder) :=
  if (entry.lookup r.txid).isSome then
    if r.mode = .exclusive then
      entry.map fun h => if h.1 = r.txid then (h.1, { h.2 with mode := .exclusive }) else h
    else entry
  else entry ++ [(r.txid, ⟨r.mode, r.priority⟩)]

theorem grant_table (lm : LockManager) (r : Request) (key : Bytes) : (lm.grant r).table key =
    if key = r.key then some (granted r (lm.holders r.key)) else lm.table key := by
  by_cases found : ((lm.holders r.key).lookup r.txid).isSome = true
  · simp only [grant, granted, found, if_true]
  · simp only [grant, granted, found, if_false, Bool.false_eq_true]

theorem grant_holders (lm : LockManager) (r : Request) (key : Bytes) : (lm.grant r).holders key =
    if key = r.key then granted r (lm.holders r.key) else lm.holders key := by
  simp only [holders, grant_table]
  split <;> rfl

theorem mem_granted {entry : List (TxId × Holder)} {h : TxId × Holder} (mem : h ∈ granted r entry) :
    h ∈ entry ∨ h.1 = r.txid ∧ h.2.mode = r.mode ∧
      (h.2.priority = r.priority ∨ ∃ o ∈ entry, o.1 = r.txid ∧ o.2.priority = h.2.priority) := by
  unfold granted at mem
  split at mem
  · split at mem
    · rename_i exclusive
      obtain ⟨o, ho, rfl⟩ := List.mem_map.mp mem
      by_cases e : o.1 = r.txid
      · exact .inr ⟨by simp [e], by simp [e, exclusive], .inr ⟨o, ho, e, by simp [e]⟩⟩
      · exact .inl (by simpa [e] using ho)
    · exact .inl mem
  · rcases List.mem_append.mp mem with mem | mem
    · exact .inl mem
    · obtain rfl := List.mem_singleton.mp mem
      exact .inr ⟨rfl, rfl, .inl rfl⟩

theorem granted_keeps {entry : List (TxId × Holder)} {h : TxId × Holder} (mem : h ∈ entry) :
    ∃ g ∈ granted r entry, g.1 = h.1 ∧ g.2.priority = h.2.priority ∧
      (h.2.mode = .exclusive → g.2.mode = .exclusive) := by
  unfold granted
  split
  · split
    · by_cases e : h.1 = r.txid
      · exact ⟨_, List.mem_map_of_mem mem, by simp [e], by simp [e], by simp [e]⟩
      · exact ⟨h, List.mem_map.mpr ⟨h, mem, by simp [e]⟩, rfl, rfl, id⟩
    · exact ⟨h, mem, rfl, rfl, id⟩
  · exact ⟨h, List.mem_append_left _ mem, rfl, rfl, id⟩

theorem granted_holds (r : Request) (entry : List (TxId × Holder)) :
    ∃ g ∈ granted r entry, g.1 = r.txid ∧ (r.mode = .exclusive → g.2.mode = .exclusive) := by
  unfold granted
  split
  · rename_i found
    obtain ⟨h, mem, e⟩ := lookup_isSome.mp found
    split
    · exact ⟨_, List.mem_map_of_mem mem, by simp [e], fun _ => by simp [e]⟩
    · rename_i shared
      exact ⟨h, mem, e, fun x => absurd x shared⟩
  · exact ⟨_, List.mem_append_right _ (List.mem_singleton.mpr rfl), rfl, id⟩

theorem granted_map_fst (r : Request) (entry : List (TxId × Holder)) :
    (granted r entry).map Prod.fst =
      if (entry.lookup r.txid).isSome then entry.map Prod.fst else entry.map Prod.fst ++ [r.txid] := by
  unfold granted
  split
  · split
    · rw [List.map_map]
      refine List.map_congr_left fun h _ => ?_
      by_cases e : h.1 = r.txid <;> simp [e]
    · rfl
  · simp

theorem grant_heldKeys (lm : LockManager) (r : Request) (t : TxId) : (lm.grant r).heldKeys t =
    if t = r.txid ∧ ¬ ∃ h ∈ lm.holders r.key, h.1 = r.txid then lm.heldKeys t ++ [r.key]
    else lm.heldKeys t := by
  by_cases found : ((lm.holders r.key).lookup r.txid).isSome = true
  · have held := lookup_isSome.mp found
    rw [if_neg fun h => h.2 held]
    simp [heldKeys, grant, found]
  · have absent := mt lookup_isSome.mpr found
    by_cases e : t = r.txid
    · rw [if_pos ⟨e, absent⟩]
      simp [heldKeys, grant, found, e]
    · rw [if_neg fun h => e h.1]
      simp [heldKeys, grant, found, e]

theorem conflicts_comm (a b : TxId) (m n : LockMode) : conflicts a m b n = conflicts b n a m := by
  by_cases e : a = b
  · simp [conflicts, e]
  · simp [conflicts, e, Ne.symm e, Bool.or_comm]

theorem Consistent.grant (ok : lm.Consistent) (free : lm.check r = .grant) :
    (lm.grant r).Consistent := by
  rw [check_grant] at free
  have fresh : ∀ a ∈ granted r (lm.holders r.key), a ∈ lm.holders r.key ∨
    a.1 = r.txid ∧ a.2.mode = r.mode := by
    intro a ha
    rcases mem_granted ha with h | ⟨h, m, -⟩
    · exact .inl h
    · exact .inr ⟨h, m⟩
  refine ⟨?_, ?_, ?_, ?_, ?_⟩
  · intro key
    rw [grant_table]
    split
    · obtain ⟨g, mem, -⟩ := granted_holds r (lm.holders r.key)
      intro e
      rw [Option.some.inj e] at mem
      cases mem
    · exact ok.inhabited key
  · intro key
    rw [grant_holders]
    split
    · rw [granted_map_fst]
      split
      · exact ok.unique r.key
      · rename_i absent
        have new : r.txid ∉ (lm.holders r.key).map Prod.fst := fun h => by
          obtain ⟨x, hx, e⟩ := List.mem_map.mp h
          exact absent (lookup_isSome.mpr ⟨x, hx, e⟩)
        rw [List.nodup_append]
        exact ⟨ok.unique r.key, by simp, fun a ha b hb => by
          rw [List.mem_singleton.mp hb]; exact fun e => new (e ▸ ha)⟩
    · exact ok.unique key
  · intro key a ha b hb
    rw [grant_holders] at ha hb
    split at ha
    · rename_i e
      rw [if_pos e] at hb
      rcases fresh a ha with ha | ⟨at_, am⟩
      · rcases fresh b hb with hb | ⟨bt, bm⟩
        · exact ok.compatible r.key a ha b hb
        · rw [bt, bm, conflicts_comm]
          exact free a ha
      · rcases fresh b hb with hb | ⟨bt, bm⟩
        · rw [at_, am]
          exact free b hb
        · simp [conflicts, at_, bt]
    · rename_i e
      rw [if_neg e] at hb
      exact ok.compatible key a ha b hb
  · intro key t
    rw [grant_heldKeys, grant_holders]
    by_cases e : key = r.key
    · subst e
      rw [if_pos rfl]
      constructor
      · intro mem
        split at mem
        · rename_i h
          obtain ⟨g, hg, gt, -⟩ := granted_holds r (lm.holders r.key)
          exact ⟨g, hg, gt.trans h.1.symm⟩
        · obtain ⟨h, hh, ht⟩ := (ok.listed r.key t).mp mem
          obtain ⟨g, hg, gt, -⟩ := granted_keeps hh
          exact ⟨g, hg, gt.trans ht⟩
      · rintro ⟨g, hg, rfl⟩
        by_cases old : ∃ h ∈ lm.holders r.key, h.1 = g.1
        · have := (ok.listed r.key g.1).mpr old
          split
          · exact List.mem_append_left _ this
          · exact this
        · rcases fresh g hg with h | ⟨gt, -⟩
          · exact absurd ⟨g, h, rfl⟩ old
          · rw [if_pos ⟨gt, gt ▸ old⟩]
            simp
    · rw [if_neg e, ← ok.listed key t]
      split
      · simp [e]
      · rfl
  · intro t
    rw [grant_heldKeys]
    split
    · rename_i h
      have new : r.key ∉ lm.heldKeys t := fun mem => h.2 (h.1 ▸ (ok.listed r.key t).mp mem)
      rw [List.nodup_append]
      exact ⟨ok.nodup t, by simp, fun a ha b hb => by
        rw [List.mem_singleton.mp hb]; exact fun e => new (e ▸ ha)⟩
    · exact ok.nodup t

/- Releases. -/

def pruned (t : TxId) (entry : List (TxId × Holder)) : Option (List (TxId × Holder)) :=
  if (entry.filter fun h => decide (h.1 ≠ t)).isEmpty then none
  else some (entry.filter fun h => decide (h.1 ≠ t))

theorem dropHolder_table (t : TxId) (lm : LockManager) (key k : Bytes) :
    (dropHolder t lm key).table k =
      if k = key then (lm.table key).bind (pruned t) else lm.table k := by
  unfold dropHolder
  cases h : lm.table key with
  | none =>
    by_cases e : k = key
    · simp [e, h]
    · simp [e]
  | some entry => rfl

theorem dropHolder_held (t : TxId) (lm : LockManager) (key : Bytes) :
    (dropHolder t lm key).held = lm.held := by
  unfold dropHolder
  split <;> rfl

theorem pruned_twice (t : TxId) (entry : List (TxId × Holder)) :
    (pruned t entry).bind (pruned t) = pruned t entry := by
  unfold pruned
  split
  · rfl
  · rename_i h
    simp only [Option.bind_some, List.filter_filter, Bool.and_self]
    rw [if_neg h]

theorem foldl_dropHolder_table (t : TxId) (keys : List Bytes) (lm : LockManager) (k : Bytes) :
    (keys.foldl (dropHolder t) lm).table k =
      if k ∈ keys then (lm.table k).bind (pruned t) else lm.table k := by
  induction keys generalizing lm with
  | nil => simp
  | cons key keys ih =>
    rw [List.foldl_cons, ih, dropHolder_table]
    by_cases e : k = key
    · subst e
      have twice : ((lm.table k).bind (pruned t)).bind (pruned t) = (lm.table k).bind (pruned t) := by
        cases lm.table k with
        | none => rfl
        | some entry => exact pruned_twice t entry
      simp [twice]
    · simp [e]

theorem foldl_dropHolder_held (t : TxId) (keys : List Bytes) (lm : LockManager) :
    (keys.foldl (dropHolder t) lm).held = lm.held := by
  induction keys generalizing lm with
  | nil => rfl
  | cons key keys ih => rw [List.foldl_cons, ih, dropHolder_held]

theorem releaseAll_table (lm : LockManager) (t : TxId) (k : Bytes) : (lm.releaseAll t).table k =
    if k ∈ lm.heldKeys t then (lm.table k).bind (pruned t) else lm.table k := by
  unfold releaseAll heldKeys
  cases h : lm.held t with
  | none => simp
  | some keys => simpa using foldl_dropHolder_table t keys lm k

theorem releaseAll_heldKeys (lm : LockManager) (t u : TxId) : (lm.releaseAll t).heldKeys u =
    if u = t then [] else lm.heldKeys u := by
  unfold releaseAll heldKeys
  cases h : lm.held t with
  | none =>
    by_cases e : u = t
    · simp [e, h]
    · simp [e]
  | some keys =>
    by_cases e : u = t
    · simp [e]
    · simp [e, foldl_dropHolder_held]

theorem Consistent.releaseAll_holders (ok : lm.Consistent) (t : TxId) (key : Bytes) :
    (lm.releaseAll t).holders key = (lm.holders key).filter fun h => decide (h.1 ≠ t) := by
  simp only [holders, releaseAll_table]
  split
  · cases lm.table key with
    | none => rfl
    | some entry =>
      simp only [Option.bind_some, pruned, Option.getD_some]
      split
      · rename_i h
        exact (List.isEmpty_iff.mp h).symm
      · rfl
  · rename_i absent
    rw [ok.listed] at absent
    refine (List.filter_eq_self.mpr fun h mem => ?_).symm
    simp only [ne_eq, decide_eq_true_eq]
    exact fun e => absent ⟨h, mem, e⟩

theorem Consistent.releaseAll (ok : lm.Consistent) (t : TxId) : (lm.releaseAll t).Consistent := by
  have sub : ∀ key, ∀ a ∈ (lm.releaseAll t).holders key, a ∈ lm.holders key ∧ a.1 ≠ t := by
    intro key a ha
    rw [ok.releaseAll_holders] at ha
    simpa using ha
  refine ⟨?_, ?_, ?_, ?_, ?_⟩
  · intro key
    rw [releaseAll_table]
    split
    · cases h : lm.table key with
      | none => simp
      | some entry =>
        simp only [Option.bind_some, pruned]
        split
        · simp
        · rename_i ne
          exact fun e => ne (List.isEmpty_iff.mpr (Option.some.inj e))
    · exact ok.inhabited key
  · intro key
    rw [ok.releaseAll_holders]
    exact (ok.unique key).sublist (List.filter_sublist.map _)
  · exact fun key a ha b hb => ok.compatible key a (sub key a ha).1 b (sub key b hb).1
  · intro key u
    rw [releaseAll_heldKeys, ok.releaseAll_holders]
    by_cases e : u = t
    · simp [e]
    · rw [if_neg e, ok.listed]
      constructor
      · rintro ⟨h, mem, rfl⟩
        exact ⟨h, by simp [mem, e], rfl⟩
      · rintro ⟨h, mem, rfl⟩
        exact ⟨h, (List.mem_filter.mp mem).1, rfl⟩
  · intro u
    rw [releaseAll_heldKeys]
    split
    · exact List.nodup_nil
    · exact ok.nodup u

end LockManager

end PagerDB

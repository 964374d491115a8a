import Mathlib.Logic.Function.Basic
import Mathlib.Data.List.Basic

/-! Strict two-phase locking with writes in place. Transactions of any type work on a
map with any keys and values; reads hold a lock on their key and writes own it, both
to the end. What has committed so far is one serial run, and every open transaction
continues it as if alone. -/
namespace StrictLocking

variable {τ κ ν : Type}

inductive Op (κ ν : Type) where
  | get (key : κ) (seen : Option ν)
  | put (key : κ) (value : ν)
  | delete (key : κ) (found : Bool)

namespace Op

def key : Op κ ν → κ
  | get k _ | put k _ | delete k _ => k

def writes : Op κ ν → Bool
  | get .. => false
  | _ => true

def apply [DecidableEq κ] : Op κ ν → (κ → Option ν) → κ → Option ν
  | get .., m => m
  | put k v, m => Function.update m k (some v)
  | delete k _, m => Function.update m k none

def Sees (m : κ → Option ν) : Op κ ν → Prop
  | get k seen => m k = seen
  | put .. => True
  | delete k found => (m k).isSome = found

end Op

section Serial

variable [DecidableEq κ] {m m' : κ → Option ν} {ops : List (Op κ ν)} {op : Op κ ν} {k : κ}

def effect : List (Op κ ν) → (κ → Option ν) → κ → Option ν
  | [], m => m
  | op :: ops, m => effect ops (op.apply m)

def Valid : (κ → Option ν) → List (Op κ ν) → Prop
  | _, [] => True
  | m, op :: ops => op.Sees m ∧ Valid (op.apply m) ops

theorem effect_append (a b : List (Op κ ν)) (m : κ → Option ν) :
    effect (a ++ b) m = effect b (effect a m) := by
  induction a generalizing m with
  | nil => rfl
  | cons op a ih => exact ih (op.apply m)

theorem valid_append {a b : List (Op κ ν)} : Valid m (a ++ b) ↔ Valid m a ∧ Valid (effect a m) b := by
  induction a generalizing m with
  | nil => simp [Valid, effect]
  | cons op a ih =>
    simp only [List.cons_append, Valid, effect, ih, and_assoc]

theorem apply_here (m : κ → Option ν) (same : m k = m' k) : op.apply m k = op.apply m' k := by
  cases op <;> simp [Op.apply, Function.update_apply, same]

theorem apply_other (h : op.writes = true → op.key ≠ k) : op.apply m k = m k := by
  cases op with
  | get => rfl
  | put key value => exact Function.update_of_ne (Ne.symm (h rfl)) _ _
  | delete key found => exact Function.update_of_ne (Ne.symm (h rfl)) _ _

theorem effect_congr (same : m k = m' k) : effect ops m k = effect ops m' k := by
  induction ops generalizing m m' with
  | nil => exact same
  | cons op ops ih => exact ih (apply_here m same)

theorem effect_frame (h : ∀ op ∈ ops, op.writes = true → op.key ≠ k) : effect ops m k = m k := by
  induction ops generalizing m with
  | nil => rfl
  | cons op ops ih =>
    exact (ih fun o mem => h o (by simp [mem])).trans (apply_other (h op (by simp)))

omit [DecidableEq κ] in
theorem sees_congr (same : m op.key = m' op.key) (h : op.Sees m) : op.Sees m' := by
  cases op with
  | get key seen => exact same.symm.trans h
  | put key value => trivial
  | delete key found => exact (congrArg Option.isSome same.symm).trans h

theorem valid_congr (same : ∀ op ∈ ops, m op.key = m' op.key) (h : Valid m ops) : Valid m' ops := by
  induction ops generalizing m m' with
  | nil => trivial
  | cons op ops ih =>
    refine ⟨sees_congr (same op (by simp)) h.1, ih (fun o mem => ?_) h.2⟩
    exact apply_here m (same o (by simp [mem]))

end Serial

/-- An open transaction: what it did, how to take its writes back (oldest first), and
whether it still runs or is being rolled back. -/
structure Txn (κ ν : Type) where
  done : List (Op κ ν)
  undo : List (κ × Option ν)
  active : Bool

/-- `holds` is a lock in any mode, `owns` an exclusive one; `base` is the map of what
has committed and `now` the map as it stands. -/
structure View (τ κ ν : Type) where
  holds : τ → κ → Prop
  owns : τ → κ → Prop
  live : τ → Option (Txn κ ν)
  now : κ → Option ν
  base : κ → Option ν

variable [DecidableEq κ]

structure Isolated (v : View τ κ ν) : Prop where
  exclusive : ∀ t u k, v.owns t k → v.holds u k → u = t
  known : ∀ t k, v.holds t k → (v.live t).isSome
  weaker : ∀ t k, v.owns t k → v.holds t k
  touched : ∀ t x, v.live t = some x → x.active = true → ∀ op ∈ x.done,
    v.holds t op.key ∧ (op.writes = true → v.owns t op.key)
  valid : ∀ t x, v.live t = some x → x.active = true → Valid v.base x.done
  own : ∀ t x k, v.live t = some x → x.active = true → v.owns t k →
    v.now k = effect x.done v.base k
  undoKeys : ∀ t x, v.live t = some x → ∀ u ∈ x.undo, v.owns t u.1
  undone : ∀ t x k, v.live t = some x → v.owns t k → (x.undo.lookup k).getD (v.now k) = v.base k
  free : ∀ k, (∀ t, ¬ v.owns t k) → v.now k = v.base k

variable {v v' : View τ κ ν} {t : τ} {x : Txn κ ν} {k : κ}

theorem Isolated.unowned (iso : Isolated v) (here : v.live t = some x) (active : x.active = true)
    (not : ¬ v.owns t k) : effect x.done v.base k = v.base k :=
  effect_frame fun op mem writes e => not (e ▸ (iso.touched t x here active op mem).2 writes)

/-- What an operation meets under its lock is what it would meet alone. -/
theorem Isolated.meets (iso : Isolated v) (here : v.live t = some x) (active : x.active = true)
    (held : v.holds t k) : v.now k = effect x.done v.base k := by
  by_cases owned : v.owns t k
  · exact iso.own t x k here active owned
  · rw [iso.unowned here active owned]
    refine iso.free k fun u owner => owned ?_
    exact iso.exclusive u t k owner held ▸ owner

theorem Isolated.undo_absent (iso : Isolated v) (here : v.live t = some x) (not : ¬ v.owns t k) :
    x.undo.lookup k = none := by
  rw [List.lookup_eq_none_iff]
  intro u mem
  have ne : k ≠ u.1 := fun e => not (e ▸ iso.undoKeys t x here u mem)
  simpa using ne

/- Steps. -/

section Steps

variable [DecidableEq τ]

omit [DecidableEq κ] in
theorem update_cases {live : τ → Option (Txn κ ν)} {y : Option (Txn κ ν)} {u : τ} {z : Txn κ ν}
    (h : Function.update live t y u = some z) : u ≠ t ∧ live u = some z ∨ u = t ∧ y = some z := by
  by_cases e : u = t
  · rw [e, Function.update_self] at h
    exact .inr ⟨e, h⟩
  · rw [Function.update_of_ne e] at h
    exact .inl ⟨e, h⟩

theorem Isolated.opened (iso : Isolated v) (fresh : v.live t = none) :
    Isolated { v with live := Function.update v.live t (some ⟨[], [], true⟩) } := by
  have unheld : ∀ k, ¬ v.holds t k := fun k h => by
    have := iso.known t k h
    rw [fresh] at this
    cases this
  refine ⟨iso.exclusive, fun u k h => ?_, iso.weaker, fun u x h a => ?_, fun u x h a => ?_,
    fun u x k h a o => ?_, fun u x h => ?_, fun u x k h o => ?_, iso.free⟩
  · have ne : u ≠ t := fun e => unheld k (e ▸ h)
    simpa [Function.update_of_ne ne] using iso.known u k h
  · rcases update_cases h with ⟨-, h⟩ | ⟨rfl, new⟩
    · exact iso.touched u x h a
    · cases new
      simp
  · rcases update_cases h with ⟨-, h⟩ | ⟨rfl, new⟩
    · exact iso.valid u x h a
    · cases new
      trivial
  · rcases update_cases h with ⟨-, h⟩ | ⟨rfl, new⟩
    · exact iso.own u x k h a o
    · exact absurd (iso.weaker u k o) (unheld k)
  · rcases update_cases h with ⟨-, h⟩ | ⟨rfl, new⟩
    · exact iso.undoKeys u x h
    · cases new
      simp
  · rcases update_cases h with ⟨-, h⟩ | ⟨rfl, new⟩
    · exact iso.undone u x k h o
    · exact absurd (iso.weaker u k o) (unheld k)

omit [DecidableEq τ] in
theorem Isolated.granted {key : κ} {exclusively : Prop} {holds owns : τ → κ → Prop}
    (iso : Isolated v) (here : (v.live t).isSome)
    (nowHolds : ∀ u k, holds u k ↔ v.holds u k ∨ u = t ∧ k = key)
    (nowOwns : ∀ u k, owns u k ↔ v.owns u k ∨ exclusively ∧ u = t ∧ k = key)
    (noOwner : ∀ u, v.owns u key → u = t) (noHolder : exclusively → ∀ u, v.holds u key → u = t) :
    Isolated { v with holds := holds, owns := owns } := by
  -- a key newly owned stood as it was committed
  have standing : ∀ k, owns t k → ¬ v.owns t k → v.now k = v.base k := by
    intro k o n
    rcases (nowOwns t k).mp o with o | ⟨-, -, rfl⟩
    · exact absurd o n
    · exact iso.free k fun u owner => n (noOwner u owner ▸ owner)
  have kept : ∀ u k, owns u k → u ≠ t → v.owns u k := by
    intro u k o ne
    rcases (nowOwns u k).mp o with o | ⟨-, e, -⟩
    · exact o
    · exact absurd e ne
  refine ⟨?_, ?_, ?_, ?_, iso.valid, ?_, ?_, ?_, ?_⟩
  · intro a b k o h
    rcases (nowOwns a k).mp o with o | ⟨ex, rfl, rfl⟩
    · rcases (nowHolds b k).mp h with h | ⟨rfl, rfl⟩
      · exact iso.exclusive a b k o h
      · exact (noOwner a o).symm
    · rcases (nowHolds b k).mp h with h | ⟨rfl, -⟩
      · exact noHolder ex b h
      · rfl
  · intro u k h
    rcases (nowHolds u k).mp h with h | ⟨rfl, -⟩
    · exact iso.known u k h
    · exact here
  · intro u k o
    rcases (nowOwns u k).mp o with o | ⟨-, e⟩
    · exact (nowHolds u k).mpr (.inl (iso.weaker u k o))
    · exact (nowHolds u k).mpr (.inr e)
  · intro u x h a op mem
    obtain ⟨held, owned⟩ := iso.touched u x h a op mem
    exact ⟨(nowHolds _ _).mpr (.inl held), fun w => (nowOwns _ _).mpr (.inl (owned w))⟩
  · intro u x k h a o
    by_cases old : v.owns u k
    · exact iso.own u x k h a old
    · obtain rfl : u = t := by
        by_contra ne
        exact old (kept u k o ne)
      exact (standing k o old).trans (iso.unowned h a old).symm
  · exact fun u x h w mem => (nowOwns _ _).mpr (.inl (iso.undoKeys u x h w mem))
  · intro u x k h o
    by_cases old : v.owns u k
    · exact iso.undone u x k h old
    · obtain rfl : u = t := by
        by_contra ne
        exact old (kept u k o ne)
      rw [iso.undo_absent h old]
      exact standing k o old
  · exact fun k none => iso.free k fun u o => none u ((nowOwns u k).mpr (.inl o))

omit [DecidableEq τ] in
theorem lookup_snoc (undo : List (κ × Option ν)) (key k : κ) (b now : Option ν) :
    ((undo ++ [(key, b)]).lookup k).getD now =
      (undo.lookup k).getD (if k = key then b else now) := by
  rw [List.lookup_append]
  cases undo.lookup k with
  | some a => rfl
  | none =>
    by_cases e : k = key
    · simp [e]
    · simp [List.lookup_cons, beq_eq_false_iff_ne.mpr e, e]

theorem Isolated.did {op : Op κ ν} {undo : List (κ × Option ν)} (iso : Isolated v)
    (here : v.live t = some x) (active : x.active = true) (held : v.holds t op.key)
    (owned : op.writes = true → v.owns t op.key) (right : op.Sees v.now)
    (remembers : op.writes = true ∧ undo = x.undo ++ [(op.key, v.now op.key)] ∨
      op.apply v.now = v.now ∧ undo = x.undo) :
    Isolated { v with
      live := Function.update v.live t (some ⟨x.done ++ [op], undo, true⟩)
      now := op.apply v.now } := by
  have other : ∀ k, (op.writes = true → k ≠ op.key) → op.apply v.now k = v.now k :=
    fun k ne => apply_other fun w e => ne w e.symm
  have alone : ∀ u k, v.owns u k → u ≠ t → op.apply v.now k = v.now k := by
    intro u k o ne
    refine other k fun w e => ne ?_
    exact (iso.exclusive t u k (e ▸ owned w) (iso.weaker u k o))
  have grown : effect (x.done ++ [op]) v.base = op.apply (effect x.done v.base) := by
    rw [effect_append]
    rfl
  refine ⟨iso.exclusive, ?_, iso.weaker, ?_, ?_, ?_, ?_, ?_, ?_⟩
  · intro u k h
    by_cases e : u = t
    · rw [e]
      simp
    · simpa [Function.update_of_ne e] using iso.known u k h
  · intro u z h a
    rcases update_cases h with ⟨-, h⟩ | ⟨rfl, new⟩
    · exact iso.touched u z h a
    · cases new
      intro o mem
      rcases List.mem_append.mp mem with mem | mem
      · exact iso.touched u x here active o mem
      · rw [List.mem_singleton.mp mem]
        exact ⟨held, owned⟩
  · intro u z h a
    rcases update_cases h with ⟨-, h⟩ | ⟨rfl, new⟩
    · exact iso.valid u z h a
    · cases new
      refine valid_append.mpr ⟨iso.valid u x here active, ?_, trivial⟩
      exact sees_congr (iso.meets here active held) right
  · intro u z k h a o
    rcases update_cases h with ⟨ne, h⟩ | ⟨rfl, new⟩
    · exact (alone u k o ne).trans (iso.own u z k h a o)
    · cases new
      rw [grown]
      exact apply_here v.now (iso.own u x k here active o)
  · intro u z h w mem
    rcases update_cases h with ⟨-, h⟩ | ⟨rfl, new⟩
    · exact iso.undoKeys u z h w mem
    · cases new
      rcases remembers with ⟨writes, rfl⟩ | ⟨-, rfl⟩
      · rcases List.mem_append.mp mem with mem | mem
        · exact iso.undoKeys u x here w mem
        · rw [List.mem_singleton.mp mem]
          exact owned writes
      · exact iso.undoKeys u x here w mem
  · intro u z k h o
    rcases update_cases h with ⟨ne, h⟩ | ⟨rfl, new⟩
    · simp only [alone u k o ne]
      exact iso.undone u z k h o
    · cases new
      rcases remembers with ⟨-, rfl⟩ | ⟨same, rfl⟩
      · simp only [lookup_snoc]
        have := iso.undone u x k here o
        by_cases e : k = op.key
        · rw [if_pos e, ← e]
          exact this
        · rw [if_neg e, other k fun _ => e]
          exact this
      · simp only [same]
        exact iso.undone u x k here o
  · intro k none
    refine (other k fun w e => ?_).trans (iso.free k none)
    exact none t (e ▸ owned w)

theorem Isolated.stopped (iso : Isolated v) (here : v.live t = some x) :
    Isolated { v with live := Function.update v.live t (some { x with active := false }) } := by
  refine ⟨iso.exclusive, ?_, iso.weaker, ?_, ?_, ?_, ?_, ?_, iso.free⟩
  · intro u k h
    by_cases e : u = t
    · rw [e]
      simp
    · simpa [Function.update_of_ne e] using iso.known u k h
  · intro u z h a
    rcases update_cases h with ⟨-, h⟩ | ⟨rfl, new⟩
    · exact iso.touched u z h a
    · cases new
      cases a
  · intro u z h a
    rcases update_cases h with ⟨-, h⟩ | ⟨rfl, new⟩
    · exact iso.valid u z h a
    · cases new
      cases a
  · intro u z k h a o
    rcases update_cases h with ⟨-, h⟩ | ⟨rfl, new⟩
    · exact iso.own u z k h a o
    · cases new
      cases a
  · intro u z h
    rcases update_cases h with ⟨-, h⟩ | ⟨rfl, new⟩
    · exact iso.undoKeys u z h
    · cases new
      exact iso.undoKeys u x here
  · intro u z k h o
    rcases update_cases h with ⟨-, h⟩ | ⟨rfl, new⟩
    · exact iso.undone u z k h o
    · cases new
      exact iso.undone u x k here o

theorem Isolated.undid {key : κ} {before : Option ν} {rest : List (κ × Option ν)}
    (iso : Isolated v) (here : v.live t = some x) (stopped : x.active = false)
    (newest : x.undo = rest ++ [(key, before)]) :
    Isolated { v with
      live := Function.update v.live t (some { x with undo := rest })
      now := Function.update v.now key before } := by
  have owner : v.owns t key := iso.undoKeys t x here (key, before) (by simp [newest])
  have other : ∀ u k, v.owns u k → u ≠ t → k ≠ key := fun u k o ne e =>
    ne (iso.exclusive t u k (e ▸ owner) (iso.weaker u k o))
  refine ⟨iso.exclusive, ?_, iso.weaker, ?_, ?_, ?_, ?_, ?_, ?_⟩
  · intro u k h
    by_cases e : u = t
    · rw [e]
      simp
    · simpa [Function.update_of_ne e] using iso.known u k h
  · intro u z h a
    rcases update_cases h with ⟨-, h⟩ | ⟨rfl, new⟩
    · exact iso.touched u z h a
    · cases new
      rw [stopped] at a
      cases a
  · intro u z h a
    rcases update_cases h with ⟨-, h⟩ | ⟨rfl, new⟩
    · exact iso.valid u z h a
    · cases new
      rw [stopped] at a
      cases a
  · intro u z k h a o
    rcases update_cases h with ⟨ne, h⟩ | ⟨rfl, new⟩
    · simp only [Function.update_of_ne (other u k o ne)]
      exact iso.own u z k h a o
    · cases new
      rw [stopped] at a
      cases a
  · intro u z h w mem
    rcases update_cases h with ⟨-, h⟩ | ⟨rfl, new⟩
    · exact iso.undoKeys u z h w mem
    · cases new
      exact iso.undoKeys u x here w (by simp [newest, mem])
  · intro u z k h o
    rcases update_cases h with ⟨ne, h⟩ | ⟨rfl, new⟩
    · simp only [Function.update_of_ne (other u k o ne)]
      exact iso.undone u z k h o
    · cases new
      have := iso.undone u x k here o
      rw [newest, lookup_snoc] at this
      simpa only [Function.update_apply] using this
  · intro k none
    have ne : k ≠ key := fun e => none t (e ▸ owner)
    simp only [Function.update_of_ne ne]
    exact iso.free k none

/-- A transaction ends and lets go of its locks. What it owned is what `base'` says;
nothing else is committed with it. -/
theorem Isolated.ended {base' : κ → Option ν} {holds owns : τ → κ → Prop} (iso : Isolated v)
    (nowHolds : ∀ u k, holds u k ↔ v.holds u k ∧ u ≠ t)
    (nowOwns : ∀ u k, owns u k ↔ v.owns u k ∧ u ≠ t)
    (mine : ∀ k, v.owns t k → v.now k = base' k) (rest : ∀ k, ¬ v.owns t k → base' k = v.base k) :
    Isolated ⟨holds, owns, Function.update v.live t none, v.now, base'⟩ := by
  have others : ∀ u k, v.holds u k → u ≠ t → base' k = v.base k := fun u k h ne =>
    rest k fun o => ne (iso.exclusive t u k o h)
  have look : ∀ u z, Function.update v.live t none u = some z → u ≠ t ∧ v.live u = some z := by
    intro u z h
    rcases update_cases h with h | ⟨-, new⟩
    · exact h
    · cases new
  refine ⟨?_, ?_, ?_, ?_, ?_, ?_, ?_, ?_, ?_⟩
  · intro a b k o h
    exact iso.exclusive a b k ((nowOwns a k).mp o).1 ((nowHolds b k).mp h).1
  · intro u k h
    obtain ⟨h, ne⟩ := (nowHolds u k).mp h
    simpa [Function.update_of_ne ne] using iso.known u k h
  · intro u k o
    obtain ⟨o, ne⟩ := (nowOwns u k).mp o
    exact (nowHolds u k).mpr ⟨iso.weaker u k o, ne⟩
  · intro u z h a op mem
    obtain ⟨ne, h⟩ := look u z h
    obtain ⟨held, owned⟩ := iso.touched u z h a op mem
    exact ⟨(nowHolds _ _).mpr ⟨held, ne⟩, fun w => (nowOwns _ _).mpr ⟨owned w, ne⟩⟩
  · intro u z h a
    obtain ⟨ne, h⟩ := look u z h
    refine valid_congr (fun op mem => ?_) (iso.valid u z h a)
    exact (others u op.key (iso.touched u z h a op mem).1 ne).symm
  · intro u z k h a o
    obtain ⟨ne, h⟩ := look u z h
    obtain ⟨o, -⟩ := (nowOwns u k).mp o
    exact (iso.own u z k h a o).trans (effect_congr (others u k (iso.weaker u k o) ne).symm)
  · intro u z h w mem
    obtain ⟨ne, h⟩ := look u z h
    exact (nowOwns _ _).mpr ⟨iso.undoKeys u z h w mem, ne⟩
  · intro u z k h o
    obtain ⟨ne, h⟩ := look u z h
    obtain ⟨o, -⟩ := (nowOwns u k).mp o
    exact (iso.undone u z k h o).trans (others u k (iso.weaker u k o) ne).symm
  · intro k none
    by_cases o : v.owns t k
    · exact mine k o
    · refine (iso.free k fun u owner => ?_).trans (rest k o).symm
      exact none u ((nowOwns u k).mpr ⟨owner, fun e => o (e ▸ owner)⟩)

end Steps

end StrictLocking

import Mathlib.Data.List.Forall2
import Mathlib.Data.List.Infix
import PagerDB.Lib.Machine

/-! What a log promises. Entries are added at its end, a sync makes all of them durable, and a
crash forgets some of
the last ones that are not. Durable entries stay the first ones whatever follows. -/
namespace LedgerLib

open MachineLib

variable {α : Type}

structure Ledger (α : Type) where
  entries : List α
  durable : Nat

inductive LedgerEvent (α : Type) where
  | add (a : α)
  | sync
  | crash (kept : Nat)
  | idle

def LedgerEvent.added : LedgerEvent α → List α
  | .add a => [a]
  | _ => []

namespace Ledger

open LedgerEvent (added)

def empty : Ledger α := ⟨[], 0⟩

/-- What is left of a crash is durable. -/
def next (l : Ledger α) : LedgerEvent α → Option (Ledger α)
  | .add a => some ⟨l.entries ++ [a], l.durable⟩
  | .sync => some ⟨l.entries, l.entries.length⟩
  | .crash kept =>
    if l.durable ≤ kept ∧ kept ≤ l.entries.length then some ⟨l.entries.take kept, kept⟩ else none
  | .idle => some l

def Sound (l : Ledger α) : Prop := l.durable ≤ l.entries.length

def synced (l : Ledger α) : List α := l.entries.take l.durable

variable {l l' : Ledger α} {e : LedgerEvent α} {es : List (LedgerEvent α)}

theorem next_sound (sound : l.Sound) (step : l.next e = some l') : l'.Sound := by
  unfold Sound at sound ⊢
  cases e with
  | add a =>
    cases step
    rw [List.length_append]
    exact sound.trans (Nat.le_add_right _ _)
  | sync =>
    cases step
    exact le_rfl
  | crash kept =>
    obtain ⟨⟨-, most⟩, eq⟩ := Option.ite_none_right_eq_some.mp step
    cases eq
    rw [List.length_take, min_eq_left most]
  | idle =>
    cases step
    exact sound

theorem next_synced (sound : l.Sound) (step : l.next e = some l') : l.synced <+: l'.synced := by
  unfold synced
  cases e with
  | add a =>
    cases step
    rw [List.take_append_of_le_length sound]
  | sync =>
    cases step
    rw [List.take_length]
    exact List.take_prefix _ _
  | crash kept =>
    obtain ⟨⟨least, -⟩, eq⟩ := Option.ite_none_right_eq_some.mp step
    cases eq
    rw [List.take_take, min_self]
    exact List.take_prefix_take_left least
  | idle =>
    cases step
    exact List.prefix_rfl

theorem run_synced (sound : l.Sound) (reach : run next l es = some l') : l'.Sound ∧ l.synced <+: l'.synced :=
  run_invariant (I := fun t => t.Sound ∧ l.synced <+: t.synced)
    (fun _ _ _ inv step => ⟨next_sound inv.1 step, inv.2.trans (next_synced inv.1 step)⟩) ⟨sound,
      List.prefix_rfl⟩ reach

theorem synced_prefix (l : Ledger α) : l.synced <+: l.entries := List.take_prefix _ _

theorem sync_keeps {l₁ : Ledger α} (sound : l.Sound) (sync : l.next .sync = some l₁)
    (reach : run next l₁ es = some l') :
    l.entries <+: l'.entries := by
  have all : l₁.synced = l.entries := by
    cases sync
    exact List.take_length
  have kept := (run_synced (next_sound sound sync) reach).2
  rw [all] at kept
  exact kept.trans l'.synced_prefix

theorem run_sublist (reach : run next l es = some l') :
    l'.entries.Sublist (l.entries ++ es.flatMap added) := by
  induction es generalizing l with
  | nil =>
    obtain rfl := Option.some.inj reach
    rw [List.flatMap_nil, List.append_nil]
  | cons e es ih =>
    obtain ⟨t, step, rest⟩ := Option.bind_eq_some_iff.mp reach
    have one : t.entries.Sublist (l.entries ++ added e) := by
      cases e with
      | add a =>
        cases step
        exact List.Sublist.refl _
      | crash kept =>
        obtain ⟨-, eq⟩ := Option.ite_none_right_eq_some.mp step
        cases eq
        exact (List.take_sublist _ _).trans (List.sublist_append_left _ _)
      | _ =>
        cases step
        exact List.sublist_append_left _ _
    rw [List.flatMap_cons, ← List.append_assoc]
    exact (ih rest).trans (one.append_right _)

end Ledger

/-- A second machine that answers every step of the first answers its runs. -/
theorem run_simulated {σ τ ι κ : Type} {step : σ → ι → Option σ} {step' : τ → κ → Option τ} {R : σ → τ → Prop}
    {means : ι → κ → Prop}
    (answer : ∀ s t i s', R s t → step s i = some s' →
      ∃ k t', means i k ∧ step' t k = some t' ∧ R s' t') {s s' : σ}
    {t : τ} {is : List ι} (start : R s t) (reach : run step s is = some s') :
    ∃ ks t', List.Forall₂ means is ks ∧ run step' t ks = some t' ∧ R s' t' := by
  induction is generalizing s t with
  | nil =>
    obtain rfl := Option.some.inj reach
    exact ⟨[], t, .nil, rfl, start⟩
  | cons i is ih =>
    obtain ⟨u, hu, rest⟩ := Option.bind_eq_some_iff.mp reach
    obtain ⟨k, v, same, hv, related⟩ := answer s t i u start hu
    obtain ⟨ks, t', all, reach', last⟩ := ih related rest
    exact ⟨k :: ks, t', .cons same all, (congrArg (Option.bind · fun t =>
      run step' t ks) hv).trans reach', last⟩

end LedgerLib

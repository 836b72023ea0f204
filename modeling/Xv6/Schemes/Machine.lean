import Mathlib.Tactic
import Mathlib.Logic.Relation
import Mathlib.Algebra.BigOperators.Group.Finset.Basic

/-! scheme:machine | name:Guarded step machines | used by:Reserve, Proc

  A machine is a partial step function `σ → α → Option σ`: `step s a = none` means that action `a`
  is not enabled in `s`. A guard `G` restricts which enabled actions a run may take, so that
  "every run in which the calls behave" is a statement about `Reach step G`.

      s --a1--> s1 --a2--> s2 --> …        G s a1, G s1 a2, … -/

namespace Xv6.Schemes
open Finset

variable {σ α : Type*}

/-- One step allowed by the guard. -/
def Next (step : σ → α → Option σ) (G : σ → α → Prop) (s u : σ) : Prop :=
  ∃ a, G s a ∧ step s a = some u

/-- The states runs from `s` reach. -/
def Reach (step : σ → α → Option σ) (G : σ → α → Prop) : σ → σ → Prop :=
  Relation.ReflTransGen (Next step G)

variable {step : σ → α → Option σ} {G G' : σ → α → Prop} {s u : σ}

/-- What holds at the start and survives every allowed step holds in every state reached. -/
theorem Reach.invariant {I : σ → Prop} (h : Reach step G s u) (hs : I s)
    (hI : ∀ t a v, I t → G t a → step t a = some v → I v) : I u := by
  induction h with
  | refl => exact hs
  | tail _ hn ih =>
    obtain ⟨a, hG, hstep⟩ := hn
    exact hI _ a _ ih hG hstep

theorem Reach.mono (h : Reach step G s u) (hG : ∀ t a, G t a → G' t a) : Reach step G' s u := by
  induction h with
  | refl => exact Relation.ReflTransGen.refl
  | tail _ hn ih =>
    obtain ⟨a, ha, hstep⟩ := hn
    exact ih.tail ⟨a, hG _ a ha, hstep⟩

/-- Run a list of actions, checking the guard at each. -/
def follow (step : σ → α → Option σ) (G : σ → α → Prop) [∀ s a, Decidable (G s a)] :
    σ → List α → Option σ
  | s, [] => some s
  | s, a :: as => if G s a then (step s a).bind fun u => follow step G u as else none

theorem reach_of_follow [∀ s a, Decidable (G s a)] : ∀ (as : List α) {s u : σ},
    follow step G s as = some u → Reach step G s u
  | [], s, u, h => by
    rw [follow, Option.some.injEq] at h
    exact h ▸ Relation.ReflTransGen.refl
  | a :: as, s, u, h => by
    rw [follow] at h
    split_ifs at h with hG
    obtain ⟨t, ht, hrest⟩ := Option.bind_eq_some_iff.mp h
    exact Relation.ReflTransGen.head ⟨a, hG, ht⟩ (reach_of_follow as hrest)

/-- A run computed up to an observation. -/
theorem exists_reach [∀ s a, Decidable (G s a)] {β : Type*} {f : σ → β} {b : β}
    {as : List α} (h : (follow step G s as).map f = some b) : ∃ u, Reach step G s u ∧ f u = b := by
  obtain ⟨u, hu, hb⟩ := Option.map_eq_some_iff.mp h
  exact ⟨u, reach_of_follow as hu, hb⟩

/-! ### Counting processes -/

theorem sum_update {P : Type*} [Fintype P] [DecidableEq P] (f : P → ℕ) (p : P) (v : ℕ) :
    ∑ q, Function.update f p v q + f p = ∑ q, f q + v := by
  rw [sum_update_of_mem (mem_univ p), ← sum_sdiff
    (singleton_subset_iff.mpr (mem_univ p)), sum_singleton]
  omega

/-- Only the summand of `p` changes. -/
theorem sum_change {P : Type*} [Fintype P] {f g : P → ℤ} (p : P) (h : ∀ q, q ≠ p → g q = f q) :
    ∑ q, g q = ∑ q, f q + (g p - f p) := by
  classical
  have hsplit (e : P → ℤ) : ∑ q, e q = e p + ∑ q ∈ univ.erase p, e q :=
    (add_sum_erase _ e (mem_univ p)).symm
  have hrest : ∑ q ∈ univ.erase p, g q = ∑ q ∈ univ.erase p, f q :=
    sum_congr rfl fun q hq => h q (ne_of_mem_erase hq)
  rw [hsplit g, hsplit f, hrest]
  ring

end Xv6.Schemes

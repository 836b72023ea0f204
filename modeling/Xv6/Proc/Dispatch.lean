import Xv6.Proc.Assign
import Xv6.Proc.Policy

/-! @src proc.c | part:whom a pass of MLFQ runs | scheme:machine

  The search of `scheduler` visits levels 3, 2, 1, 0 and in each the slots in order. It overlooks
  nobody because every priority ever stored is one of these levels; what it finds has a kernel
  stack and a page directory, so `switchuvm` lets it through.

      level 3   · · # · ·      # RUNNABLE
      level 2   · # · · #      the pass runs the # of level 3 -/

namespace Xv6.Ptable
open Schemes

variable {C : Type} [DecidableEq C] {s : Sys C} {t : Table} {c : C} {p q : Slot}

/-! ### The search -/

theorem mem_levels {x : ℤ} (h : 0 ≤ x ∧ x ≤ 3) : x ∈ ([3, 2, 1, 0] : List ℤ) := by
  simp only [List.mem_cons, List.not_mem_nil, or_false]
  omega

theorem not_at_level {prio : ℤ}
    (h : findSlot (fun _ p => p.state = .runnable ∧ p.priority = prio) t = none)
    (hq : (t q).state = .runnable) : (t q).priority ≠ prio := by
  intro hp
  simpa [hq, hp] using findSlot_none h q

theorem mlfqSelect_first (h : mlfqSelect t = some p) (hq : (t q).state = .runnable)
    (hlevel : 0 ≤ (t q).priority ∧ (t q).priority ≤ 3) :
    (t q).priority < (t p).priority ∨ (t q).priority = (t p).priority ∧ p ≤ q := by
  obtain ⟨above, prio, below, hlist, hfind, hnone⟩ := List.findSome?_eq_some_iff.mp h
  have hp := findSlot_some hfind
  simp only [decide_eq_true_eq] at hp
  have hsorted : ([3, 2, 1, 0] : List ℤ).Pairwise (· > ·) := by decide
  rw [hlist, List.pairwise_append, List.pairwise_cons] at hsorted
  have hmem := mem_levels hlevel
  rw [hlist, List.mem_append, List.mem_cons] at hmem
  rw [hp.2]
  rcases hmem with habove | heq | hbelow
  · -- the levels above were searched in vain
    exact absurd rfl (not_at_level (hnone _ habove) hq)
  · refine .inr ⟨heq, ?_⟩
    by_contra hlt
    simpa [hq, heq] using findSlot_first hfind (not_le.mp hlt)
  · exact .inl (hsorted.2.1.1 _ hbelow)

theorem mlfqSelect_isSome (hgood : ∀ i, Good (t i)) (hq : (t q).state = .runnable) :
    ∃ p, mlfqSelect t = some p := by
  rw [← Option.isSome_iff_exists, Option.isSome_iff_ne_none]
  intro hnone
  have hall := List.findSome?_eq_none_iff.mp hnone (t q).priority (mem_levels (hgood q).priority)
  exact not_at_level hall hq rfl

/-! ### A pass -/

theorem dispatch_run (s : Sys C) (c : C) (hq : (s.proc q).Equipped) : s.dispatch c q =
    { (s.setProc q { s.proc q with state := .running }).setLoc c (.on q) with
      lock := some c
      passed := fun i =>
        if i = q then 0 else if (s.proc i).state = .runnable then s.passed i + 1 else 0 } := by
  simp [Sys.dispatch, hq.1, hq.2]

theorem step_pass_mlfq (hh : s.halted = none) (hl : s.lock = none) (hi : (s.cpu c).loc = .idle)
    (hm : (s.cpu c).mlfq = true) : step s (.pass c) = some (mlfqPass s c) := by
  rw [step, if_neg (by simp [hh])]
  simp only [stepSched]
  rw [if_pos ⟨hl, hi⟩, if_pos hm]
  cases hsel : mlfqSelect s.proc with
  | none | some q => simp only [mlfqPass, hsel]

/-- In every reachable state a pass of the MLFQ branch succeeds. If a process waits, one is run: it
  was `RUNNABLE`, at the highest level that has one and there in the lowest slot, and only its state
  has changed. If nobody waits, nothing happens. -/
theorem mlfq_dispatch (policy : C → ℤ) (s : Sys C)
    (h : Reach step (fun _ _ => True) (boot policy) s) (c : C) (hh : s.halted = none)
    (hl : s.lock = none) (hi : (s.cpu c).loc = .idle) (hm : (s.cpu c).mlfq = true) :
    ∃ u, step s (.pass c) = some u ∧ u.halted = none ∧
      ((∃ i, (s.proc i).state = .runnable) → ∃ p, (u.cpu c).loc = .on p ∧
        (s.proc p).state = .runnable ∧
        (∀ i, (s.proc i).state = .runnable → (s.proc i).priority < (s.proc p).priority ∨
          (s.proc i).priority = (s.proc p).priority ∧ p ≤ i) ∧
        u.proc p = { s.proc p with state := .running } ∧ ∀ i, i ≠ p → u.proc i = s.proc i) ∧
      ((∀ i, (s.proc i).state ≠ .runnable) → u = s) := by
  have hfit := (assigned_of_reach h).fit
  have hgood := ((inOrder_boot policy).reach h).2
  refine ⟨_, step_pass_mlfq hh hl hi hm, ?_⟩
  cases hsel : mlfqSelect s.proc with
  | none =>
    have hpass : mlfqPass s c = s := by rw [mlfqPass, hsel]
    rw [hpass]
    refine ⟨hh, ?_, fun _ => rfl⟩
    rintro ⟨i, hr⟩
    obtain ⟨p, hp⟩ := mlfqSelect_isSome hgood hr
    rw [hsel] at hp
    cases hp
  | some p =>
    have hp := mlfqSelect_runnable hsel
    have hequip : (s.proc p).Equipped := hfit.live p (.inr (.inl hp))
    let v : Sys C := { s with cpu := Function.update s.cpu c { s.cpu c with rr := false } }
    have hpass : mlfqPass s c = v.dispatch c p := by rw [mlfqPass, hsel]
    rw [hpass, dispatch_run v c (show (v.proc p).Equipped from hequip)]
    refine ⟨hh, fun _ => ?_, fun hnone => absurd hp (hnone p)⟩
    refine ⟨p, by simp [Sys.setLoc], hp, fun i hr => ?_, ?_, fun i hip => ?_⟩
    · exact mlfqSelect_first hsel hr (hgood i).priority
    · exact Function.update_self p _ v.proc
    · exact Function.update_of_ne hip _ v.proc

/-- After init has forked a child and been interrupted, both wait at level 3; init has the lower
  slot. -/
theorem mlfq_dispatch_fork : ∃ s : Sys Unit, Reach step (fun _ _ => True) (boot fun _ => 1) s ∧
    (s.proc ⟨1, by decide⟩).state = .runnable ∧
    ∃ u, step s (.pass ()) = some u ∧ ∃ p, (u.cpu ()).loc = .on p ∧ p ≤ ⟨1, by decide⟩ := by
  obtain ⟨s, hs, hobs⟩ := exists_reach (show (follow step (fun _ _ => True)
    (boot fun _ : Unit => 1) [.pass (), .resume (), .fork (), .kalloc () true, .copyuvm () true,
      .setParent (), .setRunnable (), .tick (), .yield (), .post ()]).map (fun s =>
        (decide (s.halted = none), decide (s.lock = none), decide ((s.cpu ()).loc = .idle),
          (s.cpu ()).mlfq, (s.proc ⟨1, by decide⟩).state, (s.proc ⟨1, by decide⟩).priority)) =
            some (true, true, true, true, .runnable, 3) by
    decide +kernel)
  simp only [Prod.mk.injEq, decide_eq_true_eq] at hobs
  obtain ⟨hh, hl, hi, hm, hr, hp3⟩ := hobs
  obtain ⟨u, hu, _, hrun, _⟩ := mlfq_dispatch _ s hs () hh hl hi hm
  obtain ⟨p, hp, _, hfirst, _⟩ := hrun ⟨_, hr⟩
  have hgood := ((inOrder_boot _).reach hs).2 p
  rcases hfirst _ hr with hlt | ⟨_, hle⟩
  · have := hgood.priority.2
    omega
  · exact ⟨s, hs, hr, u, hu, p, hp, hle⟩

end Xv6.Ptable

import Xv6.Proc.Core

/-! @src proc.c, proc.h, pinfo.c | part:scheduling policy | scheme:machine

  `sys_setSchedPolicy` stores the policy in the CPU that happens to run the call, and the scheduler
  of every CPU reads its own. The ghost `asked` is the argument of the latest call that returned 0.

      CPU 0:  setSchedPolicy(1) --> policy 1 --pass--> MLFQ
      CPU 1:                        policy 0 --pass--> round robin -/

namespace Xv6.Ptable
open Schemes
open Option (some)

variable {C : Type} [DecidableEq C]

/-- A pass by the MLFQ rule: the first `RUNNABLE` process of the highest level is dispatched. -/
def mlfqPass (s : Sys C) (c : C) : Sys C :=
  match mlfqSelect s.proc with
  | some q => Sys.dispatch { s with cpu := Function.update s.cpu c { s.cpu c with rr := false } } c q
  | none => s

def rrPass (s : Sys C) (c : C) : Sys C :=
  { s with
    cpu := Function.update s.cpu c { s.cpu c with loc := .scan 0, rr := true }
    lock := some c }

def usesMlfq (policy : ℤ) : Bool := policy = 1 ∨ policy = 2

def accepted : Ev C → Option ℤ
  | .setSchedPolicy _ policy => if policy < 0 ∨ policy > 3 then none else some policy
  | _ => none

structure Polled (C : Type) where
  sys : Sys C
  asked : Option ℤ

def Polled.step (x : Polled C) (e : Ev C) : Option (Polled C) :=
  (Ptable.step x.sys e).map fun u => ⟨u, (accepted e).or x.asked⟩

def Polled.boot (policy : C → ℤ) : Polled C := ⟨Ptable.boot policy, none⟩

/-- Every pass that a CPU can begin now follows the policy asked for last. -/
def SystemWide (x : Polled C) : Prop :=
  ∀ p, x.asked = some p → ∀ c u, Ptable.step x.sys (.pass c) = some u →
    u = if usesMlfq p then mlfqPass x.sys c else rrPass x.sys c

def Agreed (x : Polled C) : Ev C → Prop
  | .setSchedPolicy c policy => accepted (.setSchedPolicy c policy) = some policy →
      ∀ d, d ≠ c → usesMlfq (x.sys.cpu d).policy = usesMlfq policy
  | _ => True

variable {s u : Sys C} {e : Ev C} {x : Polled C}

/-! ### Who changes a policy -/

omit [DecidableEq C] in
theorem mlfq_eq (k : Cpu) : k.mlfq = usesMlfq k.policy := rfl

variable {c : C} {p : ℤ}

theorem stepSched_of_pass (h : step s (.pass c) = some u) : stepSched s (.pass c) = some u := by
  unfold step at h
  split_ifs at h
  exact h

theorem stepCall_of_setSchedPolicy (h : step s (.setSchedPolicy c p) = some u) :
    stepCall s (.setSchedPolicy c p) = some u := by
  unfold step at h
  split_ifs at h
  exact h

theorem step_pass (h : step s (.pass c) = some u) :
    u = if usesMlfq (s.cpu c).policy then mlfqPass s c else rrPass s c := by
  have h := stepSched_of_pass h
  simp only [stepSched] at h
  split_ifs at h with hg hp
  · rw [← mlfq_eq, if_pos hp, mlfqPass]
    cases hq : mlfqSelect s.proc with
    | some q | none => rw [hq] at h; exact (some.inj h).symm
  · rw [← mlfq_eq, if_neg hp]
    exact (some.inj h).symm

theorem dispatch_policy (s : Sys C) (c d : C) (q : Slot) :
    ((s.dispatch c q).cpu d).policy = (s.cpu d).policy := by
  rcases dispatch_cases s c q with ⟨msg, hd⟩ | hd
  · rw [hd]
  · rw [hd]
    rcases eq_or_ne d c with rfl | hdc
    · simp [Sys.setLoc, Sys.setProc]
    · simp [Sys.setLoc, Sys.setProc, hdc]

theorem setLoc_policy (s : Sys C) (c d : C) (l : Loc) :
    ((s.setLoc c l).cpu d).policy = (s.cpu d).policy := by
  rcases eq_or_ne d c with rfl | hdc
  · simp [Sys.setLoc]
  · simp [Sys.setLoc, hdc]

theorem waitLoop_policy (s : Sys C) (c d : C) (p : Slot) :
    ((s.waitLoop c p).cpu d).policy = (s.cpu d).policy := by
  rcases waitLoop_cases s c p with ⟨_, _, _, hw⟩ | ⟨_, _, hw⟩ | ⟨_, _, _, hw⟩
  · rw [hw]; rfl
  · rw [hw]; rfl
  · rw [hw]; exact setLoc_policy _ c d _

theorem policy_step (h : step s e = some u) (d : C) : (u.cpu d).policy = (s.cpu d).policy ∨
    ∃ p, e = .setSchedPolicy d p ∧ accepted e = some p ∧ (u.cpu d).policy = p := by
  obtain ⟨_, he⟩ := effect_of_step h
  cases he with
  | @passMlfq c q =>
    refine .inl ((dispatch_policy _ _ _ _).trans ?_)
    rcases eq_or_ne d c with rfl | hdc
    · simp
    · simp [hdc]
  | @passRr c =>
    rcases eq_or_ne d c with rfl | hdc
    · simp
    · simp [hdc]
  | scanRun => exact .inl (dispatch_policy _ _ _ _)
  | scanEnd | postRr | postMlfq => exact .inl (setLoc_policy _ _ _ _)
  | resumeWait => exact .inl (waitLoop_policy _ _ _ _)
  | yield | sleep | exit => exact .inl (setLoc_policy _ _ _ _)
  | wait => exact .inl (waitLoop_policy _ _ _ _)
  | @setSchedPolicy c p policy ho hl =>
    rcases eq_or_ne d c with rfl | hdc
    · -- a refused call leaves the CPU as it is
      have h := stepCall_of_setSchedPolicy h
      simp only [stepCall] at h
      split at h
      · split_ifs at h with hp
        · exact .inl (by rw [← some.inj h])
        · exact .inr ⟨policy, rfl, by simp only [accepted, if_neg hp], by simp⟩
      · cases h
    · simp [hdc]
  | _ => exact .inl rfl

theorem policy_accepted (ha : accepted (.setSchedPolicy c p) = some p)
    (h : step s (.setSchedPolicy c p) = some u) : (u.cpu c).policy = p := by
  have hp : ¬ (p < 0 ∨ p > 3) := by
    intro hp
    simp only [accepted, if_pos hp] at ha
    cases ha
  have h := stepCall_of_setSchedPolicy h
  simp only [stepCall, if_neg hp] at h
  split at h
  · rw [← some.inj h]
    simp
  · cases h

/-! ### Runs in which the calls find the others agreed -/

def AllAsked (x : Polled C) : Prop :=
  ∀ p, x.asked = some p → ∀ c, usesMlfq (x.sys.cpu c).policy = usesMlfq p

omit [DecidableEq C] in
theorem accepted_eq_some (h : accepted e = some p) : ∃ c, e = .setSchedPolicy c p := by
  cases e with
  | setSchedPolicy c q =>
    simp only [accepted] at h
    split_ifs at h
    exact ⟨c, by rw [some.inj h]⟩
  | _ => cases h

theorem AllAsked.step {y : Polled C} (h : AllAsked x) (hG : Agreed x e) (hs : x.step e = some y) :
    AllAsked y := by
  obtain ⟨u, hu, rfl⟩ := Option.map_eq_some_iff.mp hs
  intro p hp d
  dsimp only at hp ⊢
  cases ha : accepted e with
  | some q =>
    -- the call itself: its own CPU has just been set, the others agreed before
    rw [ha, Option.some_or, some.injEq] at hp
    subst hp
    obtain ⟨c, rfl⟩ := accepted_eq_some ha
    rcases eq_or_ne d c with rfl | hdc
    · rw [policy_accepted ha hu]
    · rcases policy_step hu d with hk | ⟨_, he, _, _⟩
      · rw [hk]
        exact hG ha d hdc
      · cases he
        exact absurd rfl hdc
  | none =>
    rw [ha, Option.none_or] at hp
    rcases policy_step hu d with hk | ⟨q, _, hq, _⟩
    · rw [hk]
      exact h p hp d
    · rw [ha] at hq
      cases hq

/-- In every run in which each accepted call finds the other CPUs already in the branch it asks for
  (always so with one CPU), every pass follows the policy asked for last. -/
theorem policy_system_wide (policy : C → ℤ) (x : Polled C)
    (h : Reach Polled.step Agreed (Polled.boot policy) x) : SystemWide x := by
  have hall : AllAsked x := h.invariant (fun p hp => by cases hp) fun _ _ _ ht hG hs => ht.step hG hs
  intro p hp c u hu
  rw [step_pass hu, hall p hp c]

instance (x : Polled C) [Fintype C] : (e : Ev C) → Decidable (Agreed x e)
  | .setSchedPolicy _ _ => inferInstanceAs (Decidable (_ → ∀ _, _))
  | .pass _ | .scan _ | .post _ | .resume _ | .tick _ | .yield _ | .sleep _ _ | .wakeup _
  | .kill _ _ | .exit _ | .wait _ | .fork _ | .kalloc _ _ | .copyuvm _ _ | .setParent _
  | .setRunnable _ | .fatalTrap _ => isTrue trivial

/-- Two CPUs that were booted with MLFQ; a call on one of them changes to the other MLFQ policy. -/
theorem policy_system_wide_two : ∃ x : Polled Bool,
    Reach Polled.step Agreed (Polled.boot fun _ => 1) x ∧ x.asked = some 2 ∧ SystemWide x := by
  obtain ⟨x, hx, ha⟩ := exists_reach (show (follow Polled.step Agreed
    (Polled.boot fun _ : Bool => 1) [.pass false, .resume false, .setSchedPolicy false 2]).map
      (fun x => x.asked) = some (some 2) by decide +kernel)
  exact ⟨x, hx, ha, policy_system_wide _ x hx⟩

def PassesOtherwise (x : Polled C) (c : C) : Prop :=
  ∃ p u, x.asked = some p ∧ Ptable.step x.sys (.pass c) = some u ∧
    u ≠ if usesMlfq p then mlfqPass x.sys c else rrPass x.sys c

/-- Two CPUs, both with the policy 0 of a zeroed `struct cpu`: init calls `setSchedPolicy(1)` on the
  first, and the second begins a round-robin pass. -/
theorem policy_of_one_cpu : ∃ x : Polled Bool,
    Reach Polled.step (fun _ _ => True) (Polled.boot fun _ => 0) x ∧ x.asked = some 1 ∧
      PassesOtherwise x true ∧ ¬ SystemWide x := by
  obtain ⟨x, hx, hobs⟩ := exists_reach (show (follow Polled.step (fun _ _ => True)
    (Polled.boot fun _ : Bool => 0) [.pass false, .scan false, .resume false,
      .setSchedPolicy false 1]).map (fun x => (x.asked,
        (Ptable.step x.sys (.pass true)).map fun u => (u.lock, (mlfqPass x.sys true).lock))) =
      some (some 1, some (some true, none)) by decide +kernel)
  rw [Prod.mk.injEq] at hobs
  obtain ⟨ha, hpass⟩ := hobs
  obtain ⟨u, hu, hlock⟩ := Option.map_eq_some_iff.mp hpass
  rw [Prod.mk.injEq] at hlock
  have hne : u ≠ if usesMlfq 1 then mlfqPass x.sys true else rrPass x.sys true := by
    intro hu'
    have hm : u.lock = (mlfqPass x.sys true).lock := by
      rw [hu', if_pos (by decide)]
    rw [hlock.1, hlock.2] at hm
    cases hm
  exact ⟨x, hx, ha, ⟨1, u, ha, hu, hne⟩, fun hwide => hne (hwide 1 ha true u hu)⟩

end Xv6.Ptable

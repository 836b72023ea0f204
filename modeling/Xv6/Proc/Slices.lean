import Xv6.Proc.Stay

/-! @src proc.c, trap.c | part:time slices of one stay | scheme:machine

  A stay begins when a process enters a level, by creation, demotion or boost. The machine is run
  with a count of the ticks each process has taken in its stay. The demotion test reads
  `ticks[level]`, which a demotion clears and a boost does not: a process boosted out of level 1 or
  2 in its slice takes only the rest of that slice when it comes back.

      level 3   ----8----+            +----8----+
      level 2            +--15- waits +         +-1-+
      level 1                                       +--> -/

namespace Xv6.Ptable
open Schemes
open Function
open Option (isSome_none ne_none_iff_exists' map_eq_some_iff some map_some)
open Bool (false_eq_true)

variable {C : Type} [DecidableEq C] {s u : Sys C} {e : Ev C} {c : C} {p q i : Slot}

/-- The machine, and the ticks every process has taken since it entered its level. -/
structure Stay (C : Type) where
  sys : Sys C
  taken : Slot → ℕ

def ticking (s : Sys C) : Ev C → Option Slot
  | .tick c => s.acts c
  | _ => none

def creates (s u : Sys C) (i : Slot) : Ev C → Bool
  | .fork _ => (s.proc i).state = .unused ∧ (u.proc i).state = .embryo
  | _ => false

/-- A stay ends, and the next one begins, with a new level or a new process. -/
def stayStep (x : Stay C) (e : Ev C) : Option (Stay C) :=
  (step x.sys e).map fun u => ⟨u, fun i =>
    if (u.proc i).priority ≠ (x.sys.proc i).priority ∨ creates x.sys u i e then 0
    else if ticking x.sys e = some i then x.taken i + 1
    else x.taken i⟩

def stayBoot (policy : C → ℤ) : Stay C := ⟨boot policy, fun _ => 0⟩

def StayMlfq (x : Stay C) (e : Ev C) : Prop := MlfqOnly x.sys e

instance (x : Stay C) (e : Ev C) : Decidable (StayMlfq x e) :=
  inferInstanceAs (Decidable (MlfqOnly x.sys e))

/-- No process that has used a part of its slice at level 1 or 2 is boosted out of it when the round
  of `c` ends. -/
def NoneCut (s : Sys C) : Ev C → Prop
  | .post c => ∀ (i : Slot) (l : Fin 4), l ≠ 0 → l ≠ 3 → (s.cpu c).loc ≠ .back i →
      (s.proc i).state = .runnable → (s.proc i).priority = (l : ℕ) →
      limit l ≤ (s.proc i).waitTicks l + 1 → (s.proc i).ticks l = 0
  | _ => True

/-! ### The count of the code and the count of the stay -/

/-- At its level a process has the ticks of its stay, and at the other levels none. -/
def Tallied (r : Proc) (n : ℕ) : Prop :=
  ∀ l : Fin 4, l ≠ 0 → r.ticks l = if r.priority = (l : ℕ) then (n : ℤ) else 0

theorem Tallied.same {r r' : Proc} {n : ℕ} (h : Tallied r n) (hp : r'.priority = r.priority)
    (ht : r'.ticks = r.ticks) : Tallied r' n := by
  intro l hl
  rw [ht, hp]
  exact h l hl

theorem Tallied.elsewhere {r : Proc} {n : ℕ} {l : Fin 4} (h : Tallied r n) (hl : l ≠ 0)
    (hne : r.priority ≠ (l : ℕ)) : r.ticks l = 0 := by
  rw [h l hl, if_neg hne]

theorem tallied_zero {r : Proc} (h : ∀ l : Fin 4, l ≠ 0 → r.ticks l = 0) : Tallied r 0 := by
  intro l hl
  rw [h l hl, Nat.cast_zero, ite_self]

theorem Tallied.tick {r r' : Proc} {n : ℕ} (h : Tallied r n) (ht : Ptable.tick r = some r')
    (hb : ∀ l : Fin 4, l ≠ 0 → r.ticks l ≤ slice l) : Tallied r' (n + 1) := by
  obtain ⟨k, hk, rfl⟩ := map_eq_some_iff.mp ht
  have hkp : r.priority = (k : ℕ) := level_eq_some.mp hk
  intro l hl
  show update r.ticks k (wrap (r.ticks k + 1)) l = if r.priority = (l : ℕ) then _ else 0
  rcases eq_or_ne l k with rfl | hlk
  · have hl' := h l hl
    rw [if_pos hkp] at hl' ⊢
    have hle := hb l hl
    have hsl := slice_le hl
    rw [update_self, wrap_of_nonneg (by omega) (by omega), hl']
    push_cast
    rfl
  · have hne := priority_ne hkp hlk
    rw [if_neg hne, update_of_ne hlk, h.elsewhere hl hne]

theorem Tallied.demote {r r' : Proc} {n : ℕ} (h : Tallied r n) (hd : Ptable.demote r = some r')
    (hb : ∀ l : Fin 4, l ≠ 0 → r.ticks l ≤ slice l) :
    r' = r ∨ r'.priority < r.priority ∧ Tallied r' 0 ∧
      ∀ l : Fin 4, r.priority = (l : ℕ) → (n : ℤ) = slice l := by
  unfold Ptable.demote at hd
  split_ifs at hd with hpos
  · obtain ⟨k, hk, rfl⟩ := map_eq_some_iff.mp hd
    have hkp : r.priority = (k : ℕ) := level_eq_some.mp hk
    have hk0 : k ≠ 0 := by
      rintro rfl
      rw [hkp] at hpos
      exact absurd hpos (by simp)
    split_ifs with hge
    · right
      refine ⟨?_, tallied_zero fun l hl => ?_, fun l hl => ?_⟩
      · show r.priority - 1 < r.priority
        omega
      · show update r.ticks k 0 l = 0
        rcases eq_or_ne l k with rfl | hlk
        · rw [update_self]
        · rw [update_of_ne hlk]
          exact h.elsewhere hl (priority_ne hkp hlk)
      · obtain rfl : l = k := Fin.ext (by omega)
        have hn := h l hk0
        rw [if_pos hkp] at hn
        rw [← hn]
        exact le_antisymm (hb l hk0) hge
    · exact .inl rfl
  · cases hd
    exact .inl rfl

theorem Tallied.after {r : Proc} {n : ℕ} (h : Tallied r n) (hg : Good r)
    (hcut : ∀ l : Fin 4, l ≠ 0 → l ≠ 3 → r.state = .runnable → r.priority = (l : ℕ) →
      limit l ≤ r.waitTicks l + 1 → r.ticks l = 0) :
    (priorityBoost1 (updateWaitTicks1 r)).priority = r.priority ∨
      r.priority < (priorityBoost1 (updateWaitTicks1 r)).priority ∧
        Tallied (priorityBoost1 (updateWaitTicks1 r)) 0 := by
  rcases ne_or_eq r.state .runnable with hrun | hrun
  · rw [updateWaitTicks1, if_neg hrun, hg.boost]
    exact .inl rfl
  obtain ⟨l, hp, hlev⟩ := hg.level
  rcases eq_or_ne l 3 with rfl | hl
  · left
    have htop : (updateWaitTicks1 r).priority = r.priority := by
      rw [updateWaitTicks1_runnable hrun hlev]
    rw [priorityBoost1_top (htop.trans hp), htop]
  · rcases hg.wait_cases hrun hl hp with ⟨hup, hlim⟩ | ⟨hstay, _⟩
    · right
      refine ⟨by omega, tallied_zero fun k hk => ?_⟩
      rw [ticks_after]
      rcases eq_or_ne k l with rfl | hkl
      · exact hcut k hk hl hrun hp hlim.ge
      · exact h.elsewhere hk (priority_ne hp hkl)
    · exact .inl (hstay.trans hp.symm)

/-! ### Whole runs -/

structure Steady (x : Stay C) : Prop where
  core : Core x.sys
  good : ∀ i, Good (x.sys.proc i)
  sliced : Sliced x.sys
  tally : ∀ i, Tallied (x.sys.proc i) (x.taken i)

omit [DecidableEq C] in
theorem steady_boot (policy : C → ℤ) : Steady (stayBoot policy) := by
  refine ⟨core_boot policy, good_boot policy, sliced_boot policy,
    fun i => tallied_zero fun l _ => ?_⟩
  rcases eq_or_ne i initproc with rfl | hi
  · simp [stayBoot, boot, zeroProc]
  · simp [stayBoot, boot, hi, zeroProc]

omit [DecidableEq C] in
theorem Steady.ticks_le {x : Stay C} (h : Steady x) (i : Slot) (l : Fin 4) (hl : l ≠ 0) :
    (x.sys.proc i).ticks l ≤ slice l := by
  rcases (h.sliced.ticks i l hl).2 with hlt | ⟨heq, _⟩
  · exact hlt.le
  · exact heq.le

theorem step_of_stayStep {x y : Stay C} (hs : stayStep x e = some y) :
    step x.sys e = some y.sys := by
  obtain ⟨u, hu, rfl⟩ := map_eq_some_iff.mp hs
  exact hu

theorem taken_of_other {x y : Stay C} (hs : stayStep x e = some y) (ht : ∀ c, e ≠ .tick c)
    (hf : ∀ c, e ≠ .fork c) (i : Slot) :
    y.taken i = if (y.sys.proc i).priority = (x.sys.proc i).priority then x.taken i else 0 := by
  have htick : ticking x.sys e = none := by
    cases e with
    | tick c => exact absurd rfl (ht c)
    | _ => rfl
  have hcreate : ∀ u, creates x.sys u i e = false := by
    intro u
    cases e with
    | fork c => exact absurd rfl (hf c)
    | _ => rfl
  obtain ⟨u, hu, rfl⟩ := map_eq_some_iff.mp hs
  simp only [hcreate, htick, false_eq_true, or_false, reduceCtorEq, if_false, ne_eq, ite_not]

theorem Steady.other {x y : Stay C} (h : Steady x) (hcut : NoneCut x.sys e)
    (hs : stayStep x e = some y) (ht : ∀ c, e ≠ .tick c) (hf : ∀ c, e ≠ .fork c) (i : Slot) :
    Tallied (y.sys.proc i) (y.taken i) := by
  have htaken := taken_of_other hs ht hf i
  rcases (effect_of_step (step_of_stayStep hs)).2.changes with hsame | ⟨c, _, _, hc, _⟩ |
    ⟨c, _, _, hc, _⟩ | ⟨c, p, rfl, hb, hafter⟩
  · rw [htaken, if_pos (hsame i).priority]
    exact (h.tally i).same (hsame i).priority (hsame i).ticks
  · exact absurd hc (hf c)
  · exact absurd hc (ht c)
  · obtain ⟨d, hd, hp, hi⟩ := mlfqAfter_apply hafter
    rcases eq_or_ne i p with rfl | hip
    · rw [((h.good i).demote hd).boost] at hp
      rw [hp] at htaken ⊢
      rcases (h.tally i).demote hd (h.ticks_le i) with rfl | ⟨hlt, hzero, _⟩
      · rw [htaken, if_pos rfl]
        exact h.tally i
      · rw [htaken, if_neg hlt.ne]
        exact hzero
    · have hback : (x.sys.cpu c).loc ≠ .back i := by
        rw [hb]
        exact fun hx => hip (Loc.back.inj hx).symm
      have hcut' := fun l hl0 hl3 => hcut i l hl0 hl3 hback
      rw [hi i hip] at htaken ⊢
      rcases (h.tally i).after (h.good i) hcut' with hstay | ⟨hlt, hzero⟩
      · rw [htaken, if_pos hstay]
        exact (h.tally i).same hstay (ticks_after _)
      · rw [htaken, if_neg hlt.ne']
        exact hzero

theorem Steady.tick {x y : Stay C} (h : Steady x) (hs : stayStep x (.tick c) = some y) (i : Slot) :
    Tallied (y.sys.proc i) (y.taken i) := by
  obtain ⟨u, hu, rfl⟩ := map_eq_some_iff.mp hs
  obtain ⟨p, q, ha, hq, htick⟩ := step_tick h.good hu
  have hproc : u.proc = update x.sys.proc p q := by rw [htick]; rfl
  have hprio : (u.proc i).priority = (x.sys.proc i).priority := by
    rw [hproc]
    rcases eq_or_ne i p with rfl | hip
    · obtain ⟨k, _, rfl⟩ := map_eq_some_iff.mp hq
      rw [update_self]
    · rw [update_of_ne hip]
  simp only [hprio, ne_eq, not_true_eq_false, creates, false_eq_true, or_self, if_false,
    ticking, ha, some.injEq]
  rw [hproc]
  rcases eq_or_ne i p with rfl | hip
  · rw [if_pos rfl, update_self]
    exact (h.tally i).tick hq (h.ticks_le i)
  · rw [if_neg hip.symm, update_of_ne hip]
    exact h.tally i

theorem Steady.fork {x y : Stay C} (h : Steady x) (hs : stayStep x (.fork c) = some y) (i : Slot) :
    Tallied (y.sys.proc i) (y.taken i) := by
  obtain ⟨u, hu, rfl⟩ := map_eq_some_iff.mp hs
  -- a slot that the step leaves alone has no new process
  have hkeep : u.proc i = x.sys.proc i → Tallied (u.proc i)
      (if (u.proc i).priority ≠ (x.sys.proc i).priority ∨ creates x.sys u i (.fork c) then 0
        else if ticking x.sys (.fork c) = some i then x.taken i + 1 else x.taken i) := by
    intro hi
    have hno : creates x.sys u i (.fork c) = false := by
      simp only [creates, hi, decide_eq_false_iff_not]
      rintro ⟨hunused, hembryo⟩
      rw [hunused] at hembryo
      cases hembryo
    simp only [hi, hno, ticking, ne_eq, not_true_eq_false, false_eq_true, or_self, if_false,
      reduceCtorEq]
    exact h.tally i
  rcases (step_fork hu).2 with ⟨_, hproc⟩ | ⟨j, hj, hproc⟩
  · exact hkeep (by rw [hproc])
  · rcases eq_or_ne i j with rfl | hij
    · have hunused : (x.sys.proc i).state = .unused := by simpa using findSlot_some hj
      have hnew : creates x.sys u i (.fork c) = true := by
        simp [creates, hproc, hunused, embryo]
      simp only [hnew, or_true, if_true, hproc, update_self]
      exact tallied_zero fun _ _ => rfl
    · exact hkeep (by rw [hproc, update_of_ne hij])

theorem Steady.step {x y : Stay C} (h : Steady x) (hm : StayMlfq x e) (hcut : NoneCut x.sys e)
    (hs : stayStep x e = some y) : Steady y := by
  have he := (effect_of_step (step_of_stayStep hs)).2
  refine ⟨h.core.effect he, good_step h.good he, h.sliced.effect h.core h.good hm he, fun i => ?_⟩
  cases e with
  | tick c => exact h.tick hs i
  | fork c => exact h.fork hs i
  | _ => exact h.other hcut hs (by simp) (by simp) i

theorem Steady.demoted {x y : Stay C} (h : Steady x) (hs : stayStep x e = some y) {l : Fin 4}
    (hl : (x.sys.proc i).priority = (l : ℕ))
    (hlt : (y.sys.proc i).priority < (x.sys.proc i).priority) : (x.taken i : ℤ) = slice l := by
  rcases (effect_of_step (step_of_stayStep hs)).2.changes with hsame | ⟨_, j, pid, _, _, hproc⟩ |
    ⟨_, p, q, _, _, _, hq, hproc, _⟩ | ⟨c, p, rfl, hb, hafter⟩
  · exact absurd (hsame i).priority hlt.ne
  · rcases eq_or_ne i j with rfl | hij
    · -- creation is at the top
      rw [hproc, update_self] at hlt
      have htop := (h.good i).priority.2
      have hlt : 3 < (x.sys.proc i).priority := hlt
      omega
    · rw [hproc, update_of_ne hij] at hlt
      exact absurd rfl hlt.ne
  · rcases eq_or_ne i p with rfl | hip
    · obtain ⟨k, _, rfl⟩ := map_eq_some_iff.mp hq
      rw [hproc, update_self] at hlt
      exact absurd rfl hlt.ne
    · rw [hproc, update_of_ne hip] at hlt
      exact absurd rfl hlt.ne
  · obtain ⟨d, hd, hp, hi⟩ := mlfqAfter_apply hafter
    rcases eq_or_ne i p with rfl | hip
    · rw [hp, ((h.good i).demote hd).boost] at hlt
      rcases (h.tally i).demote hd (h.ticks_le i) with rfl | ⟨_, _, hfull⟩
      · exact absurd rfl hlt.ne
      · exact hfull l hl
    · -- waiting never takes a process down
      rw [hi i hip] at hlt
      rcases ne_or_eq (x.sys.proc i).state .runnable with hrun | hrun
      · rw [updateWaitTicks1, if_neg hrun, (h.good i).boost] at hlt
        exact absurd rfl hlt.ne
      · have hup := (Climbs.wait (n := 0) (climbs_zero (h.good i)) (h.good i) hrun).2
        exact absurd hlt (not_lt.mpr hup)

instance (s : Sys C) : ∀ e, Decidable (NoneCut s e)
  | .post c => inferInstanceAs (Decidable (∀ (i : Slot) (l : Fin 4), l ≠ 0 → l ≠ 3 →
      (s.cpu c).loc ≠ .back i → (s.proc i).state = .runnable → (s.proc i).priority = (l : ℕ) →
      limit l ≤ (s.proc i).waitTicks l + 1 → (s.proc i).ticks l = 0))
  | .pass _ | .scan _ | .resume _ | .tick _ | .yield _ | .sleep _ _ | .wakeup _ | .kill _ _
  | .exit _ | .wait _ | .fork _ | .kalloc _ _ | .copyuvm _ _ | .setParent _ | .setRunnable _ | .fatalTrap _
  | .setSchedPolicy _ _ => isTrue trivial

/-- While all schedulers take the MLFQ branch and no boost cuts a slice at level 1 or 2 short: a
  process is taken down from level 3, 2 or 1 after exactly 8, 16 or 32 ticks of its stay there. -/
theorem full_slices {policy : C → ℤ} {x y : Stay C}
    (h : Reach stayStep (fun x e => StayMlfq x e ∧ NoneCut x.sys e) (stayBoot policy) x)
    (hs : stayStep x e = some y) (hlt : (y.sys.proc i).priority < (x.sys.proc i).priority) :
    ((x.sys.proc i).priority = 3 → x.taken i = 8) ∧
      ((x.sys.proc i).priority = 2 → x.taken i = 16) ∧
      ((x.sys.proc i).priority = 1 → x.taken i = 32) := by
  have hx : Steady x := h.invariant (I := Steady) (steady_boot policy)
    fun _ _ _ hx hG hstep => hx.step hG.1 hG.2 hstep
  refine ⟨fun hp => ?_, fun hp => ?_, fun hp => ?_⟩
  · exact Nat.cast_injective (R := ℤ) (hx.demoted (l := 3) hs hp hlt)
  · exact Nat.cast_injective (R := ℤ) (hx.demoted (l := 2) hs hp hlt)
  · exact Nat.cast_injective (R := ℤ) (hx.demoted (l := 1) hs hp hlt)

def tickTurn : List (Ev Unit) := [.pass (), .resume (), .tick (), .yield (), .post ()]

/-- Init takes its first slice. -/
theorem full_slices_init : ∃ x y : Stay Unit, stayStep x (.post ()) = some y ∧
    (x.sys.proc initproc).priority = 3 ∧ (y.sys.proc initproc).priority = 2 ∧
    x.taken initproc = 8 := by
  have hrun : ((follow stayStep (fun x e => StayMlfq x e ∧ NoneCut x.sys e)
      (stayBoot fun _ : Unit => 2) ((List.replicate 7 tickTurn).flatten ++
        [.pass (), .resume (), .tick (), .yield ()])).bind fun x =>
      (stayStep x (.post ())).map fun y =>
        ((x.sys.proc initproc).priority, (y.sys.proc initproc).priority)) = some (3, 2) := by
    decide +kernel
  obtain ⟨x, hx, hrest⟩ := Option.bind_eq_some_iff.mp hrun
  obtain ⟨y, hy, hobs⟩ := map_eq_some_iff.mp hrest
  obtain ⟨hpx, hpy⟩ := Prod.mk.inj hobs
  have hfull := full_slices (i := initproc) (reach_of_follow _ hx) hy (by rw [hpx, hpy]; decide)
  exact ⟨x, y, hy, hpx, hpy, hfull.1 hpx⟩

/-! ### A slice that is cut -/

section Cut

variable {x : Stay Unit} {r : Slot}

structure Idle (s : Sys Unit) : Prop where
  halted : s.halted = none
  lock : s.lock = none
  loc : (s.cpu ()).loc = .idle
  mlfq : (s.cpu ()).mlfq = true

structure On (r : Slot) (s : Sys Unit) : Prop where
  halted : s.halted = none
  lock : s.lock = none
  loc : (s.cpu ()).loc = .on r
  mlfq : (s.cpu ()).mlfq = true
  rr : (s.cpu ()).rr = false

structure Back (r : Slot) (s : Sys Unit) : Prop where
  halted : s.halted = none
  loc : (s.cpu ()).loc = .back r
  mlfq : (s.cpu ()).mlfq = true
  rr : (s.cpu ()).rr = false

theorem exists_stayStep {u : Sys Unit} {e : Ev Unit} (hs : step x.sys e = some u) :
    ∃ y, stayStep x e = some y ∧ y.sys = u := by
  rw [stayStep, hs, map_some]
  exact ⟨_, rfl, rfl⟩

theorem priority_update {t : Table} {q : Proc} (h : q.priority = (t r).priority) (i : Slot) :
    (update t r q i).priority = (t i).priority := by
  rcases eq_or_ne i r with rfl | hi
  · rw [update_self, h]
  · rw [update_of_ne hi]

theorem stayStep_quiet {u : Sys Unit} {e : Ev Unit} (hs : step x.sys e = some u)
    (ht : ∀ c, e ≠ .tick c) (hf : ∀ c, e ≠ .fork c)
    (hp : ∀ i, (u.proc i).priority = (x.sys.proc i).priority) :
    stayStep x e = some ⟨u, x.taken⟩ := by
  obtain ⟨y, hy, rfl⟩ := exists_stayStep hs
  have htaken : y.taken = x.taken := funext fun i => by
    rw [taken_of_other hy ht hf i, if_pos (hp i)]
  rw [hy, ← htaken]

theorem Idle.run (h : Idle x.sys) (hsel : mlfqSelect x.sys.proc = some r)
    (hk : (x.sys.proc r).kstack = true) (hd : (x.sys.proc r).pgdir = true)
    (hpark : (x.sys.thread r).park = .yielded) :
    ∃ y, Reach stayStep StayMlfq x y ∧ On r y.sys ∧ y.taken = x.taken ∧
      y.sys.thread = x.sys.thread ∧
      y.sys.proc = update x.sys.proc r { x.sys.proc r with state := .running } := by
  obtain ⟨v, hv, hvh, hvl, hvo, hvm, hvr, hvt, hvp⟩ : ∃ v, step x.sys (.pass ()) = some v ∧
      v.halted = none ∧ v.lock = some () ∧ (v.cpu ()).loc = .on r ∧ (v.cpu ()).mlfq = true ∧
      (v.cpu ()).rr = false ∧ v.thread = x.sys.thread ∧
      v.proc = update x.sys.proc r { x.sys.proc r with state := .running } := by
    refine ⟨_, by simp [step, stepSched, h.halted, h.lock, h.loc, h.mlfq, hsel]; rfl, ?_⟩
    simpa [Sys.dispatch, hk, hd, Sys.setLoc, Sys.setProc, h.halted, Cpu.mlfq] using h.mlfq
  have hres : step v (.resume ()) = some { v with lock := none } := by
    simp [step, stepSched, hvh, hvl, hvo, hvt, hpark]
  have h1 : stayStep x (.pass ()) = some ⟨v, x.taken⟩ :=
    stayStep_quiet hv (by simp) (by simp) fun i => by
      rw [hvp]
      exact priority_update (by rfl) i
  have h2 : stayStep ⟨v, x.taken⟩ (.resume ()) = some ⟨{ v with lock := none }, x.taken⟩ :=
    stayStep_quiet (x := ⟨v, x.taken⟩) hres (by simp) (by simp) fun _ => rfl
  refine ⟨⟨{ v with lock := none }, x.taken⟩, ?_, ⟨hvh, rfl, hvo, hvm, hvr⟩, rfl, hvt, hvp⟩
  exact (Relation.ReflTransGen.single ⟨.pass (), h.mlfq, h1⟩).tail ⟨.resume (), trivial, h2⟩

theorem On.tick {q : Proc} (h : On r x.sys) (ht : (x.sys.thread r).ticked = false)
    (hq : Ptable.tick (x.sys.proc r) = some q) :
    ∃ y, Next stayStep StayMlfq x y ∧ On r y.sys ∧
      y.taken = update x.taken r (x.taken r + 1) ∧
      y.sys.thread = update x.sys.thread r { x.sys.thread r with ticked := true } ∧
      y.sys.proc = update x.sys.proc r q := by
  have hacts : x.sys.acts () = some r := by simp [Sys.acts, h.loc, h.lock, ht]
  have hs : step x.sys (.tick ()) = some ((x.sys.setProc r q).setThread r
      { x.sys.thread r with ticked := true }) := by
    simp [step, stepSched, h.halted, hacts, hq]
  have hprio : q.priority = (x.sys.proc r).priority := by
    obtain ⟨k, _, rfl⟩ := map_eq_some_iff.mp hq
    rfl
  obtain ⟨y, hy, hu⟩ := exists_stayStep hs
  have hproc : y.sys.proc = update x.sys.proc r q := by rw [hu]; rfl
  refine ⟨y, ⟨.tick (), trivial, hy⟩, ?_, ?_, by rw [hu]; rfl, hproc⟩
  · rw [hu]
    exact ⟨h.halted, h.lock, h.loc, h.mlfq, h.rr⟩
  · obtain ⟨u, hu', rfl⟩ := map_eq_some_iff.mp hy
    funext i
    have hsame : (u.proc i).priority = (x.sys.proc i).priority := by
      rw [show u.proc = update x.sys.proc r q from hproc]
      exact priority_update hprio i
    simp only [hsame, ne_eq, not_true_eq_false, creates, false_eq_true, or_self, if_false,
      ticking, hacts, some.injEq]
    rcases eq_or_ne i r with rfl | hi
    · rw [if_pos rfl, update_self]
    · rw [if_neg hi.symm, update_of_ne hi]

theorem On.yield (h : On r x.sys) (hst : (x.sys.thread r).stage = .user) :
    ∃ y, Next stayStep StayMlfq x y ∧ Back r y.sys ∧ y.taken = x.taken ∧
      y.sys.thread = update x.sys.thread r ⟨.user, .yielded, false⟩ ∧
      y.sys.proc = update x.sys.proc r { x.sys.proc r with state := .runnable } := by
  have hs : step x.sys (.yield ()) =
      some ((x.sys.setProc r { x.sys.proc r with state := .runnable }).sched () r .yielded) := by
    simp [step, stepSched, h.halted, h.loc, h.lock, hst]
  refine ⟨_, ⟨.yield (), trivial, stayStep_quiet hs (by simp) (by simp) ?_⟩,
    ⟨h.halted, ?_, ?_, ?_⟩, rfl, ?_, rfl⟩
  · exact fun i => priority_update (t := x.sys.proc) (by rfl) i
  · simp [Sys.sched, Sys.setLoc, Sys.setThread]
  · simpa [Sys.sched, Sys.setLoc, Sys.setThread, Cpu.mlfq] using h.mlfq
  · simpa [Sys.sched, Sys.setLoc, Sys.setThread] using h.rr
  · simp [Sys.sched, Sys.setLoc, Sys.setThread, hst]

theorem On.sleep (h : On r x.sys) (hst : (x.sys.thread r).stage = .user)
    (ht : (x.sys.thread r).ticked = false) :
    ∃ y, Next stayStep StayMlfq x y ∧ Back r y.sys ∧ y.taken = x.taken ∧
      y.sys.thread = update x.sys.thread r ⟨.user, .slept, false⟩ ∧
      y.sys.proc = update x.sys.proc r
        { x.sys.proc r with chan := some (.addr 0), state := .sleeping } := by
  have hacts : x.sys.acts () = some r := by simp [Sys.acts, h.loc, h.lock, ht]
  have hs : step x.sys (.sleep () 0) = some ((x.sys.setProc r
      { x.sys.proc r with chan := some (.addr 0), state := .sleeping }).sched () r .slept) := by
    simp [step, stepCall, h.halted, hacts, h.lock, hst]
  refine ⟨_, ⟨.sleep () 0, trivial, stayStep_quiet hs (by simp) (by simp) ?_⟩,
    ⟨h.halted, ?_, ?_, ?_⟩, rfl, ?_, rfl⟩
  · exact fun i => priority_update (t := x.sys.proc) (by rfl) i
  · simp [Sys.sched, Sys.setLoc, Sys.setThread]
  · simpa [Sys.sched, Sys.setLoc, Sys.setThread, Cpu.mlfq] using h.mlfq
  · simpa [Sys.sched, Sys.setLoc, Sys.setThread] using h.rr
  · simp [Sys.sched, Sys.setLoc, Sys.setThread, hst]

theorem Back.post {t : Table} (h : Back r x.sys) (ht : mlfqAfter r x.sys.proc = some t) :
    ∃ y, stayStep x (.post ()) = some y ∧ Idle y.sys ∧ y.sys.thread = x.sys.thread ∧
      y.sys.proc = t ∧
      ∀ i, y.taken i = if (t i).priority = (x.sys.proc i).priority then x.taken i else 0 := by
  have hs : step x.sys (.post ()) =
      some { x.sys.setLoc () .idle with proc := t, lock := none } := by
    simp [step, stepSched, h.halted, h.loc, h.rr, ht]
  obtain ⟨y, hy, hu⟩ := exists_stayStep hs
  have hproc : y.sys.proc = t := by rw [hu]
  refine ⟨y, hy, ?_, by rw [hu]; rfl, hproc, fun i => ?_⟩
  · rw [hu]
    refine ⟨h.halted, rfl, ?_, ?_⟩
    · simp [Sys.setLoc]
    · simpa [Sys.setLoc, Cpu.mlfq] using h.mlfq
  · rw [← hproc]
    exact taken_of_other hy (by simp) (by simp) i

/-- Init is in state `st`, unticked at the top; its child is `RUNNABLE` at level `l`, has waited `w`
  times at level 2, has `t3` and `t2` ticks at the two upper levels and has taken `n` in its stay;
  there is nobody else. -/
@[mk_iff]
structure Duo (st : PState) (l w t3 t2 : ℤ) (n : ℕ) (x : Stay Unit) : Prop where
  halted : x.sys.halted = none
  lock : x.sys.lock = none
  loc : (x.sys.cpu ()).loc = .idle
  mlfq : (x.sys.cpu ()).mlfq = true
  rest : ∀ i, i ≠ initproc → i ≠ second → (x.sys.proc i).state = .unused
  first : (x.sys.proc initproc).state = st ∧ (x.sys.proc initproc).priority = 3 ∧
    (x.sys.proc initproc).ticks 3 = 0 ∧ (x.sys.proc initproc).kstack = true ∧
    (x.sys.proc initproc).pgdir = true
  next : (x.sys.proc second).state = .runnable ∧ (x.sys.proc second).kstack = true ∧
    (x.sys.proc second).pgdir = true
  level : (x.sys.proc second).priority = l
  waits : (x.sys.proc second).waitTicks 2 = w
  ticks3 : (x.sys.proc second).ticks 3 = t3
  ticks2 : (x.sys.proc second).ticks 2 = t2
  init : st = .runnable → (x.sys.thread initproc).stage = .user ∧
    (x.sys.thread initproc).park = .yielded ∧ (x.sys.thread initproc).ticked = false
  child : (x.sys.thread second).stage = .user ∧ (x.sys.thread second).park = .yielded ∧
    (x.sys.thread second).ticked = false
  taken : x.taken second = n

instance (st : PState) (l w t3 t2 : ℤ) (n : ℕ) (x : Stay Unit) : Decidable (Duo st l w t3 t2 n x) :=
  decidable_of_iff _ (duo_iff st l w t3 t2 n x).symm

variable {st : PState} {l w t3 t2 : ℤ} {n : ℕ}

theorem Duo.idle (h : Duo st l w t3 t2 n x) : Idle x.sys := ⟨h.halted, h.lock, h.loc, h.mlfq⟩

theorem after_of_not_runnable {q : Proc} (hg : Good q) (hq : q.state ≠ .runnable) :
    priorityBoost1 (updateWaitTicks1 q) = q := by
  rw [updateWaitTicks1, if_neg hq, hg.boost]

theorem Duo.unused (h : Duo st l w t3 t2 n x) (hg : ∀ i, Good (x.sys.proc i)) {i : Slot}
    (hi : i ≠ initproc) (his : i ≠ second) :
    priorityBoost1 (updateWaitTicks1 (x.sys.proc i)) = x.sys.proc i :=
  after_of_not_runnable (hg i) (by rw [h.rest i hi his]; exact nofun)

theorem Duo.child_after (h : Duo st l w t3 t2 n x) {y : Stay Unit} {q : Proc} {l' w' t3' t2' : ℤ}
    {n' : ℕ} (hi : Idle y.sys) (hth : y.sys.thread = x.sys.thread)
    (hpr : y.sys.proc = update x.sys.proc second q)
    (hq : Accounts (x.sys.proc second) q) (hl : q.priority = l') (hw : q.waitTicks 2 = w')
    (h3 : q.ticks 3 = t3') (h2 : q.ticks 2 = t2') (hn : y.taken second = n') :
    Duo st l' w' t3' t2' n' y := by
  have hchild : y.sys.proc second = q := by rw [hpr, update_self]
  have hother : ∀ i, i ≠ second → y.sys.proc i = x.sys.proc i := fun i hi => by
    rw [hpr, update_of_ne hi]
  refine ⟨hi.halted, hi.lock, hi.loc, hi.mlfq, fun i h1 h2 => ?_, ?_, ?_, ?_, ?_, ?_, ?_, ?_, ?_,
    hn⟩
  · rw [hother i h2]
    exact h.rest i h1 h2
  · rw [hother initproc (by decide)]
    exact h.first
  · rw [hchild, hq]
    exact h.next
  · rw [hchild, hl]
  · rw [hchild, hw]
  · rw [hchild, h3]
  · rw [hchild, h2]
  · rw [hth]
    exact h.init
  · rw [hth]
    exact h.child

/-! Init awake: its child waits. -/

theorem Duo.select_init (h : Duo .runnable l w t3 t2 n x) :
    mlfqSelect x.sys.proc = some initproc := by
  obtain ⟨hst, hp, _⟩ := h.first
  rw [mlfqSelect, List.findSome?_cons, findSlot_initproc (by simp [hst, hp])]

theorem Duo.round (h : Duo .runnable l w t3 t2 n x) (hg : ∀ i, Good (x.sys.proc i)) :
    ∃ y, Reach stayStep StayMlfq x y ∧ Idle y.sys ∧ y.sys.thread = x.sys.thread ∧
      y.sys.proc = update x.sys.proc second
        (priorityBoost1 (updateWaitTicks1 (x.sys.proc second))) ∧
      y.taken second = if (y.sys.proc second).priority = l then n else 0 := by
  obtain ⟨hst, hp, ht, hk, hd⟩ := h.first
  obtain ⟨hstage, hpark, htick⟩ := h.init rfl
  obtain ⟨y1, hr1, ho1, htk1, hth1, hpr1⟩ := h.idle.run h.select_init hk hd hpark
  obtain ⟨y2, hr2, hb2, htk2, hth2, hpr2⟩ := ho1.yield (by rw [hth1]; exact hstage)
  have hproc : y2.sys.proc = x.sys.proc := by
    rw [hpr2, hpr1, update_self, update_idem]
    exact update_eq_self_iff.mpr (by rw [← hst])
  have hthread : y2.sys.thread = x.sys.thread := by
    rw [hth2, hth1]
    exact update_eq_self_iff.mpr (by rw [← hstage, ← hpark, ← htick])
  obtain ⟨t, hafter⟩ := ne_none_iff_exists'.mp (mlfqAfter_ne_none hg initproc)
  rw [← hproc] at hafter
  obtain ⟨y, hs, hidle, hth, hpr, htaken⟩ := hb2.post hafter
  rw [hproc] at hafter
  obtain ⟨d, hdem, hfirst, hother⟩ := mlfqAfter_apply hafter
  -- no tick has been counted, so init keeps its level
  have hd0 : d = x.sys.proc initproc := by
    simpa [demote, hp, Ptable.level, ht, slice, eq_comm] using hdem
  have hproc' : y.sys.proc = update x.sys.proc second
      (priorityBoost1 (updateWaitTicks1 (x.sys.proc second))) := by
    rw [hpr]
    funext i
    rcases eq_or_ne i second with rfl | his
    · rw [update_self, hother second (by decide)]
    · rw [update_of_ne his]
      rcases eq_or_ne i initproc with rfl | hi
      · rw [hfirst, hd0, priorityBoost1_top hp]
      · rw [hother i hi, h.unused hg hi his]
  refine ⟨y, (hr1.tail hr2).tail ⟨.post (), trivial, hs⟩, hidle, hth.trans hthread, hproc', ?_⟩
  rw [htaken second, hproc, htk2, htk1, h.level, h.taken, hpr]

theorem Duo.child_waits (h : Duo .runnable 2 w t3 t2 n x) (hg : Good (x.sys.proc second)) :
    priorityBoost1 (updateWaitTicks1 (x.sys.proc second)) =
      if 160 ≤ w + 1 then
        { x.sys.proc second with
          priority := 3
          waitTicks := update
            (update (x.sys.proc second).waitTicks 2 (w + 1)) 2 0 }
      else
        { x.sys.proc second with
          waitTicks := update (x.sys.proc second).waitTicks 2 (w + 1) } := by
  have hp : (x.sys.proc second).priority = ((2 : Fin 4) : ℕ) := h.level
  have hw := (hg.waited (l := 2) (by decide) hp).1
  rw [updateWaitTicks1_runnable h.next.1 (level_eq_some.mpr hp), hw, h.waits, priorityBoost1_level
    (q := { x.sys.proc second with
      waitTicks := update (x.sys.proc second).waitTicks 2 (w + 1) })
    (l := 2) (by decide) hp (by simp [h.next.1])]
  simp [limit]

theorem Duo.again (h : Duo .runnable 2 w t3 t2 n x) (hg : ∀ i, Good (x.sys.proc i)) :
    ∃ y, Reach stayStep StayMlfq x y ∧
      (w + 1 < 160 → Duo .runnable 2 (w + 1) t3 t2 n y) ∧
      (160 ≤ w + 1 → Duo .runnable 3 0 t3 t2 0 y) := by
  obtain ⟨y, hr, hi, hth, hpr, htk⟩ := h.round hg
  have hchild := h.child_waits (hg second)
  refine ⟨y, hr, fun hlt => ?_, fun hge => ?_⟩
  · rw [if_neg (by omega)] at hchild
    rw [hchild] at hpr
    refine h.child_after hi hth hpr rfl h.level (by simp) h.ticks3 h.ticks2 ?_
    rw [htk, hpr, update_self]
    exact if_pos h.level
  · rw [if_pos hge] at hchild
    rw [hchild] at hpr
    refine h.child_after hi hth hpr rfl rfl (by simp) h.ticks3 h.ticks2 ?_
    rw [htk, hpr, update_self]
    exact if_neg (by decide : (3 : ℤ) ≠ 2)

theorem inOrder_of_stay {y : Stay Unit} (h : Reach stayStep StayMlfq x y) (hx : InOrder x.sys) :
    InOrder y.sys := by
  refine h.invariant (I := fun x => InOrder x.sys) hx fun s e u hs _ hstep => ?_
  exact hs.reach (Relation.ReflTransGen.single ⟨e, trivial, step_of_stayStep hstep⟩
    : Reach step (fun _ _ => True) s.sys u.sys)

theorem Duo.boosted : ∀ (k : ℕ) {w : ℤ} {x : Stay Unit}, w + 1 + k = 160 → InOrder x.sys →
    Duo .runnable 2 w t3 t2 n x →
    ∃ y, Reach stayStep StayMlfq x y ∧ InOrder y.sys ∧ Duo .runnable 3 0 t3 t2 0 y
  | 0, w, x, hk, hx, h => by
    obtain ⟨y, hr, _, hup⟩ := h.again hx.2
    exact ⟨y, hr, inOrder_of_stay hr hx, hup (by omega)⟩
  | k + 1, w, x, hk, hx, h => by
    obtain ⟨y, hr, hwait, _⟩ := h.again hx.2
    obtain ⟨z, hr', hz, hduo⟩ :=
      Duo.boosted k (by push_cast at hk; omega) (inOrder_of_stay hr hx)
        (hwait (by push_cast at hk; omega))
    exact ⟨z, hr.trans hr', hz, hduo⟩

theorem Duo.doze (h : Duo .runnable 3 w t3 t2 n x) (hx : InOrder x.sys) :
    ∃ y, Reach stayStep StayMlfq x y ∧ InOrder y.sys ∧ Duo .sleeping 3 w t3 t2 n y := by
  obtain ⟨hst, hp, ht, hk, hd⟩ := h.first
  obtain ⟨hstage, hpark, htick⟩ := h.init rfl
  obtain ⟨y1, hr1, ho1, htk1, hth1, hpr1⟩ := h.idle.run h.select_init hk hd hpark
  obtain ⟨y2, hr2, hb2, htk2, hth2, hpr2⟩ :=
    ho1.sleep (by rw [hth1]; exact hstage) (by rw [hth1]; exact htick)
  have hr : Reach stayStep StayMlfq x y2 := hr1.tail hr2
  rw [hpr1, update_self, update_idem] at hpr2
  obtain ⟨t, hafter⟩ :=
    ne_none_iff_exists'.mp (mlfqAfter_ne_none (inOrder_of_stay hr hx).2 initproc)
  obtain ⟨y, hs, hidle, hth, hpr, htaken⟩ := hb2.post hafter
  obtain ⟨d, hdem, hfirst, hother⟩ := mlfqAfter_apply hafter
  have hr : Reach stayStep StayMlfq x y := hr.tail ⟨.post (), trivial, hs⟩
  have hinit : y2.sys.proc initproc =
      { x.sys.proc initproc with chan := some (.addr 0), state := .sleeping } := by
    rw [hpr2, update_self]
  have hsame : ∀ i, i ≠ initproc → y2.sys.proc i = x.sys.proc i := fun i hi => by
    rw [hpr2, update_of_ne hi]
  have hd0 : d = y2.sys.proc initproc := by
    rw [hinit] at hdem ⊢
    simpa [demote, hp, Ptable.level, ht, slice, eq_comm] using hdem
  have hi : y.sys.proc initproc = y2.sys.proc initproc := by
    rw [hpr, hfirst, hd0, priorityBoost1_top (by rw [hinit]; exact hp)]
  -- at the top the child waits without a boost
  have hlev : Ptable.level (x.sys.proc second).priority = some 3 := level_eq_some.mpr h.level
  have hc : y.sys.proc second = { x.sys.proc second with
      waitTicks := update (x.sys.proc second).waitTicks 3
        (wrap ((x.sys.proc second).waitTicks 3 + 1)) } := by
    rw [hpr, hother second (by decide), hsame second (by decide),
      updateWaitTicks1_runnable h.next.1 hlev, priorityBoost1_top (by exact h.level)]
  refine ⟨y, hr, inOrder_of_stay hr hx, hidle.halted, hidle.lock, hidle.loc, hidle.mlfq,
    fun i h1 h2 => ?_, ?_, ?_, ?_, ?_, ?_, ?_, by simp, ?_, ?_⟩
  · rw [hpr, hother i h1, hsame i h1, h.unused hx.2 h1 h2]
    exact h.rest i h1 h2
  · rw [hi, hinit]
    exact ⟨rfl, hp, ht, hk, hd⟩
  · rw [hc]
    exact h.next
  · rw [hc]
    exact h.level
  · rw [hc]
    exact h.waits
  · rw [hc]
    exact h.ticks3
  · rw [hc]
    exact h.ticks2
  · rw [hth, hth2, hth1, update_of_ne (by decide)]
    exact h.child
  · have hprio : (t second).priority = (y2.sys.proc second).priority := by
      rw [← hpr, hc, hsame second (by decide)]
    rw [htaken second, if_pos hprio, htk2, htk1]
    exact h.taken

/-! Init asleep: its child runs. -/

theorem Duo.select_child (h : Duo .sleeping l w t3 t2 n x) (hl : l = 3 ∨ l = 2) :
    mlfqSelect x.sys.proc = some second := by
  cases hsel : mlfqSelect x.sys.proc with
  | none =>
    have hnone : findSlot (fun _ p => p.state = .runnable ∧ p.priority = l) x.sys.proc = none :=
      List.findSome?_eq_none_iff.mp hsel l (by rcases hl with rfl | rfl <;> simp)
    simpa [h.next.1, h.level] using findSlot_none hnone second
  | some j =>
    have hj := mlfqSelect_runnable hsel
    by_contra hne
    have hjs : j ≠ second := fun heq => hne (by rw [heq])
    rcases eq_or_ne j initproc with rfl | hji
    · rw [h.first.1] at hj
      cases hj
    · rw [h.rest j hji hjs] at hj
      cases hj

theorem Duo.ticks (h : Duo .sleeping l w t3 t2 n x) (k : Fin 4) (hl : l = 3 ∨ l = 2)
    (hk : l = (k : ℕ)) :
    ∃ y, Reach stayStep StayMlfq x y ∧ Back second y.sys ∧ y.sys.thread = x.sys.thread ∧
      y.sys.proc = update x.sys.proc second { x.sys.proc second with
        ticks := update (x.sys.proc second).ticks k
          (wrap ((x.sys.proc second).ticks k + 1)) } ∧
      y.taken second = n + 1 := by
  obtain ⟨hst, hks, hd⟩ := h.next
  obtain ⟨hstage, hpark, htick⟩ := h.child
  obtain ⟨y1, hr1, ho1, htk1, hth1, hpr1⟩ := h.idle.run (h.select_child hl) hks hd hpark
  have hlev : Ptable.level (y1.sys.proc second).priority = some k := by
    rw [hpr1, update_self]
    exact level_eq_some.mpr (h.level.trans hk)
  obtain ⟨y2, hr2, ho2, htk2, hth2, hpr2⟩ := ho1.tick (by rw [hth1]; exact htick)
    (by rw [Ptable.tick, hlev, map_some])
  obtain ⟨y3, hr3, hb3, htk3, hth3, hpr3⟩ := ho2.yield (by
    rw [hth2, update_self, hth1]
    exact hstage)
  refine ⟨y3, (hr1.tail hr2).tail hr3, hb3, ?_, ?_, ?_⟩
  · rw [hth3, hth2, hth1, update_idem]
    exact update_eq_self_iff.mpr (by rw [← hstage, ← hpark, ← htick])
  · rw [hpr3, hpr2, hpr1, update_self, update_idem, update_idem,
      update_self, ← hst]
  · rw [htk3, htk2, update_self, htk1, h.taken]

theorem demote_level {q : Proc} {k : Fin 4} (hk : k ≠ 0) (hq : q.priority = (k : ℕ)) :
    demote q = some (if q.ticks k ≥ slice k then
      { q with priority := q.priority - 1, ticks := update q.ticks k 0 } else q) := by
  have hpos : q.priority > 0 := by
    have : (k : ℕ) ≠ 0 := fun hx => hk (Fin.ext hx)
    omega
  rw [demote, if_pos hpos, level_eq_some.mpr hq, map_some]

theorem Duo.turn (h : Duo .sleeping l w t3 t2 n x) (hx : InOrder x.sys) (k : Fin 4)
    (hl : l = 3 ∨ l = 2) (hk : l = (k : ℕ)) {d : Proc}
    (hd : demote { x.sys.proc second with
      ticks := update (x.sys.proc second).ticks k
        (wrap ((x.sys.proc second).ticks k + 1)) } = some d) :
    ∃ y z, Reach stayStep StayMlfq x y ∧ stayStep y (.post ()) = some z ∧
      (y.sys.proc second).priority = l ∧ y.taken second = n + 1 ∧ Idle z.sys ∧
      z.sys.thread = x.sys.thread ∧ z.sys.proc = update x.sys.proc second d ∧
      z.taken second = if d.priority = l then n + 1 else 0 := by
  obtain ⟨y, hr, hb, hth, hpr, htk⟩ := h.ticks k hl hk
  have hy := (inOrder_of_stay hr hx).2
  have hself : y.sys.proc second = { x.sys.proc second with
      ticks := update (x.sys.proc second).ticks k
        (wrap ((x.sys.proc second).ticks k + 1)) } := by
    rw [hpr, update_self]
  have hprio : (y.sys.proc second).priority = l := by
    rw [hself]
    exact h.level
  obtain ⟨t, hafter⟩ := ne_none_iff_exists'.mp (mlfqAfter_ne_none hy second)
  obtain ⟨z, hs, hidle, hth', hpr', htk'⟩ := hb.post hafter
  obtain ⟨d', hdem, hsecond, hother⟩ := mlfqAfter_apply hafter
  rw [hself, hd, some.injEq] at hdem
  have hgood : Good d := (hy second).demote (by rw [hself]; exact hd)
  rw [← hdem, hgood.boost] at hsecond
  refine ⟨y, z, hr, hs, hprio, htk, hidle, hth'.trans hth, ?_, ?_⟩
  · rw [hpr']
    funext i
    rcases eq_or_ne i second with rfl | his
    · rw [hsecond, update_self]
    · have hi : y.sys.proc i = x.sys.proc i := by rw [hpr, update_of_ne his]
      rw [hother i his, update_of_ne his, hi]
      rcases eq_or_ne i initproc with rfl | hii
      · exact after_of_not_runnable (hx.2 _) (by rw [h.first.1]; exact nofun)
      · exact h.unused hx.2 hii his
  · rw [htk' second, hsecond, hprio, htk]

theorem Duo.spend (h : Duo .sleeping 3 w t3 t2 n x) (hx : InOrder x.sys) (h0 : 0 ≤ t3)
    (h7 : t3 < 7) :
    ∃ y, Reach stayStep StayMlfq x y ∧ InOrder y.sys ∧ Duo .sleeping 3 w (t3 + 1) t2 (n + 1) y := by
  have hwrap : wrap (t3 + 1) = t3 + 1 := wrap_of_nonneg (by omega) (by omega)
  have hp := h.level
  obtain ⟨y, z, hr, hs, _, _, hidle, hth, hpr, htk⟩ := h.turn hx 3 (.inl rfl) rfl
    (d := { x.sys.proc second with
      ticks := update (x.sys.proc second).ticks 3 (t3 + 1) }) (by
      have hlt : ¬ 8 ≤ t3 + 1 := by omega
      rw [demote_level (k := 3) (by decide) (by exact hp)]
      simp [h.ticks3, hwrap, slice, hlt])
  have hr : Reach stayStep StayMlfq x z := hr.tail ⟨.post (), trivial, hs⟩
  refine ⟨z, hr, inOrder_of_stay hr hx, ?_⟩
  refine h.child_after hidle hth hpr rfl hp h.waits (by simp) (by simpa using h.ticks2) ?_
  rw [htk]
  exact if_pos hp

theorem Duo.fall (h : Duo .sleeping 3 w 7 t2 n x) (hx : InOrder x.sys) :
    ∃ y, Reach stayStep StayMlfq x y ∧ InOrder y.sys ∧ Duo .sleeping 2 w 0 t2 0 y := by
  have hwrap : wrap 8 = 8 := by decide
  have hp := h.level
  obtain ⟨y, z, hr, hs, _, _, hidle, hth, hpr, htk⟩ := h.turn hx 3 (.inl rfl) rfl
    (d := { x.sys.proc second with
      priority := 2, ticks := update (x.sys.proc second).ticks 3 0 }) (by
      rw [demote_level (k := 3) (by decide) (by exact hp)]
      simp [hp, h.ticks3, hwrap, slice])
  have hr : Reach stayStep StayMlfq x z := hr.tail ⟨.post (), trivial, hs⟩
  refine ⟨z, hr, inOrder_of_stay hr hx, ?_⟩
  refine h.child_after hidle hth hpr rfl rfl h.waits (by simp) (by simpa using h.ticks2) ?_
  rw [htk]
  exact if_neg (by decide : (2 : ℤ) ≠ 3)

theorem Duo.slice : ∀ (k : ℕ) {t3 : ℤ} {n : ℕ} {x : Stay Unit}, t3 + k = 7 → 0 ≤ t3 →
    InOrder x.sys → Duo .sleeping 3 w t3 t2 n x →
    ∃ y, Reach stayStep StayMlfq x y ∧ InOrder y.sys ∧ Duo .sleeping 2 w 0 t2 0 y
  | 0, t3, n, x, hk, _, hx, h => by
    obtain rfl : t3 = 7 := by simpa using hk
    exact h.fall hx
  | k + 1, t3, n, x, hk, h0, hx, h => by
    push_cast at hk
    obtain ⟨y, hr, hy, hduo⟩ := h.spend hx h0 (by omega)
    obtain ⟨z, hr', hz, hduo'⟩ := Duo.slice k (by omega) (by omega) hy hduo
    exact ⟨z, hr.trans hr', hz, hduo'⟩

theorem Duo.cut (h : Duo .sleeping 2 w 0 15 0 x) (hx : InOrder x.sys) :
    ∃ y z, Reach stayStep StayMlfq x y ∧ stayStep y (.post ()) = some z ∧
      (y.sys.proc second).priority = 2 ∧ (z.sys.proc second).priority = 1 ∧ y.taken second = 1 := by
  have hwrap : wrap 16 = 16 := by decide
  have hp := h.level
  obtain ⟨y, z, hr, hs, hprio, htaken, _, _, hpr, _⟩ := h.turn hx 2 (.inr rfl) rfl
    (d := { x.sys.proc second with
      priority := 1, ticks := update (x.sys.proc second).ticks 2 0 }) (by
      rw [demote_level (k := 2) (by decide) (by exact hp)]
      simp [hp, h.ticks2, hwrap, Ptable.slice])
  exact ⟨y, z, hr, hs, hprio, by rw [hpr, update_self], htaken⟩

end Cut

/-- Init creates a child and sleeps; the child takes 8 ticks at the top and 15 at level 2; init
  wakes up and runs once. -/
def partSlice : List (Ev Unit) :=
  [.pass (), .resume (), .fork (), .kalloc () true, .copyuvm () true, .setParent (),
    .setRunnable (), .sleep () 0, .post ()] ++ (List.replicate 23 tickTurn).flatten ++
  [.wakeup 0, .pass (), .resume (), .yield (), .post ()]

/-- The child is boosted after 15 ticks at level 2, comes back after a full slice at the top, and is
  taken down from level 2 after one tick. -/
theorem slice_cut_short : ∃ (x y : Stay Unit), Reach stayStep StayMlfq (stayBoot fun _ => 2) x ∧
    stayStep x (.post ()) = some y ∧ (x.sys.proc second).priority = 2 ∧
    (y.sys.proc second).priority = 1 ∧ x.taken second = 1 := by
  obtain ⟨x0, hr0, hduo⟩ := exists_reach
    (f := fun x => decide (Duo .runnable 2 1 0 15 15 x)) (b := true)
    (show (follow stayStep StayMlfq (stayBoot fun _ => 2) partSlice).map
      (fun x => decide (Duo .runnable 2 1 0 15 15 x)) = some true by decide +kernel)
  have hx0 : InOrder x0.sys := inOrder_of_stay hr0 (inOrder_boot _)
  obtain ⟨x1, hr1, hx1, h1⟩ := Duo.boosted 158 (by norm_num) hx0 (of_decide_eq_true hduo)
  obtain ⟨x2, hr2, hx2, h2⟩ := h1.doze hx1
  obtain ⟨x3, hr3, hx3, h3⟩ := Duo.slice 7 (by norm_num) le_rfl hx2 h2
  obtain ⟨x, y, hr, hs, hpx, hpy, htaken⟩ := h3.cut hx3
  exact ⟨x, y, (((hr0.trans hr1).trans hr2).trans hr3).trans hr, hs, hpx, hpy, htaken⟩

end Xv6.Ptable

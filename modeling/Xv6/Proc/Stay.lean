import Xv6.Proc.Starve

/-! @src proc.c, trap.c | part:stays at a level | scheme:machine

  How a process moves between the levels of MLFQ. While it waits, the end of every round of every
  CPU adds one to its waiting time and takes it up at the limit; waiting times left over from
  earlier stays only shorten the way. While it runs, every tick counts at its level, cleared by a
  demotion and not by a boost.

      waits:   0 --500--> 1 --320--> 2 --160--> 3
      ticks:              0 <--32--- 1 <--16--- 2 <--8-- 3 -/

namespace Xv6.Ptable
open Schemes

variable {C : Type} [DecidableEq C] {s t u : Sys C} {e : Ev C} {c d : C} {p q i : Slot} {n : ℕ}

/-! ### Who is on the way back to a scheduler -/

theorem back_of_sched (s : Sys C) (k : Park) (hb : ((s.sched c p k).cpu d).loc = .back q) :
    (s.cpu d).loc = .back q ∨ p = q := by
  rcases eq_or_ne d c with rfl | hd
  · right
    simpa [Sys.sched, Sys.setLoc, Sys.setThread] using hb
  · left
    simpa [Sys.sched, Sys.setLoc, Sys.setThread, hd] using hb

theorem back_of_waitLoop (s : Sys C) (hb : ((s.waitLoop c p).cpu d).loc = .back q) :
    (s.cpu d).loc = .back q ∨ p = q := by
  rcases waitLoop_cases s c p with ⟨i, _, _, hw⟩ | ⟨_, _, hw⟩ | ⟨_, _, _, hw⟩
  · rw [hw] at hb
    exact .inl hb
  · rw [hw] at hb
    exact .inl hb
  · rw [hw] at hb
    exact back_of_sched (s.setProc p _) .waiting hb

theorem back_of_effect (h : Core s) (he : Effect s e u) (hb : (u.cpu d).loc = .back q) :
    (s.cpu d).loc = .back q ∨ (s.proc q).state = .running := by
  have hrun : ∀ {c p}, (s.cpu c).loc = .on p → (s.cpu d).loc = .back q ∨ p = q →
      (s.cpu d).loc = .back q ∨ (s.proc q).state = .running := by
    rintro c p ho (hq | rfl)
    · exact .inl hq
    · exact .inr (h.on c p ho)
  cases he with
  | stay | panic | postOut | tickOut | resume | resumeSlept | tick | wakeup | kill | fork | kalloc
  | kallocFail | copyuvm | copyuvmFail | setParent | setRunnable | fatalTrap => exact .inl hb
  | @passMlfq c r =>
    have hq := back_of_dispatch hb
    have hloc := loc_update s c d (x := { s.cpu c with rr := false }) rfl
    exact .inl (hloc.symm.trans hq)
  | @passRr c =>
    rcases eq_or_ne d c with rfl | hd
    · simp at hb
    · exact .inl (by simpa [hd] using hb)
  | scanRun => exact .inl (back_of_dispatch hb)
  | @scanEnd c => exact .inl (back_of_setLoc (s := s) (c := c) (l := .idle) (by simp) hb)
  | @postRr c r => exact .inl (back_of_setLoc (l := .scan (r + 1)) (by simp) hb)
  | @postMlfq c => exact .inl (back_of_setLoc (s := s) (c := c) (l := .idle) (by simp) hb)
  | @resumeWait c r hl ho => exact hrun ho (back_of_waitLoop (s.setProc r _) hb)
  | @yield c r ho => exact hrun ho (back_of_sched (s.setProc r _) _ hb)
  | @sleep c r chan hc => exact hrun hc.on (back_of_sched (s.setProc r _) _ hb)
  | @exit c r v hc => exact hrun hc.on (back_of_sched (s.setProc r (v r)) .exited hb)
  | @wait c r hc => exact hrun hc.on (back_of_waitLoop s hb)
  | @setSchedPolicy c r policy =>
    have hloc := loc_update s c d (x := { s.cpu c with policy := policy }) rfl
    exact .inl (hloc.symm.trans hb)

/-! ### Waiting -/

def endsRound (c : C) (s : Sys C) : Ev C → Bool
  | .post d => d = c && !(s.cpu c).rr
  | _ => false

/-- Process `q` is `RUNNABLE` all the way from `s` to `u`, and `n` MLFQ rounds end on CPU `c`. -/
inductive Passes (c : C) (q : Slot) : ℕ → Sys C → Sys C → Prop
  | refl {s : Sys C} (hr : (s.proc q).state = .runnable) : Passes c q 0 s s
  | tail {n : ℕ} {s t u : Sys C} {e : Ev C} (h : Passes c q n s t) (hs : step t e = some u)
      (hr : (u.proc q).state = .runnable) :
      Passes c q (if endsRound c t e then n + 1 else n) s u

theorem Passes.runnable (h : Passes c q n s u) : (u.proc q).state = .runnable := by
  cases h with
  | refl hr | tail _ _ hr => exact hr

theorem waits_step (h : Core s) (hg : ∀ i, Good (s.proc i)) (hq : (s.proc q).state = .runnable)
    (hb : ∀ d, (s.cpu d).loc ≠ .back q) (hs : step s e = some u)
    (hr : (u.proc q).state = .runnable) :
    (endsRound c s e = false ∧ (u.proc q).priority = (s.proc q).priority ∧
      (u.proc q).waitTicks = (s.proc q).waitTicks) ∨
    u.proc q = priorityBoost1 (updateWaitTicks1 (s.proc q)) := by
  obtain ⟨hh, he⟩ := effect_of_step hs
  have hround : endsRound c s e = true → ∃ p, (s.cpu c).loc = .back p ∧
      mlfqAfter p s.proc = some u.proc := by
    intro hend
    cases e with
    | post d =>
      simp only [endsRound, Bool.and_eq_true, decide_eq_true_eq, Bool.not_eq_true'] at hend
      obtain ⟨rfl, hrr⟩ := hend
      simp only [step, hh, Option.isSome_none, Bool.false_eq_true, if_false, stepSched, hrr] at hs
      split at hs
      · rename_i p hp
        obtain ⟨v, hv⟩ := Option.ne_none_iff_exists'.mp (mlfqAfter_ne_none hg p)
        rw [hv] at hs
        cases hs
        exact ⟨p, hp, hv⟩
      · cases hs
    | _ => cases hend
  have hafter : ∀ {d p}, (s.cpu d).loc = .back p → mlfqAfter p s.proc = some u.proc →
      u.proc q = priorityBoost1 (updateWaitTicks1 (s.proc q)) := by
    intro d p hp ht
    obtain ⟨_, _, _, hi⟩ := mlfqAfter_apply ht
    exact hi q fun hqp => hb d (by rw [hp, hqp])
  rcases Bool.eq_false_or_eq_true (endsRound c s e) with hend | hend
  · obtain ⟨p, hp, ht⟩ := hround hend
    exact .inr (hafter hp ht)
  · rcases he.changes with hsame | ⟨_, j, pid, _, _, hu⟩ | ⟨d, p, v, _, ho, _, _, hu, _⟩ |
      ⟨d, p, _, hp, ht⟩
    · exact .inl ⟨hend, (hsame q).priority, (hsame q).waitTicks⟩
    · -- a new process is not `RUNNABLE` yet
      have hqj : q ≠ j := by
        rintro rfl
        rw [hu, Function.update_self] at hr
        simp [embryo] at hr
      rw [hu, Function.update_of_ne hqj]
      exact .inl ⟨hend, rfl, rfl⟩
    · have hqp : q ≠ p := by
        rintro rfl
        rw [h.on d q ho] at hq
        cases hq
      rw [hu, Function.update_of_ne hqp]
      exact .inl ⟨hend, rfl, rfl⟩
    · exact .inr (hafter hp ht)

/-- The rounds a process can have waited through before it reached each level. -/
def reachedBy : Fin 4 → ℤ := ![0, 500, 820, 980]

/-- Below the top, the rounds so far are within the way up to the level and the waits there. -/
def Climbs (n : ℕ) (p : Proc) : Prop :=
  ∀ l : Fin 4, l ≠ 3 → p.priority = (l : ℕ) → (n : ℤ) ≤ reachedBy l + p.waitTicks l

theorem Good.wait_cases {r : Proc} (h : Good r) (hs : r.state = .runnable) {l : Fin 4} (hl : l ≠ 3)
    (hp : r.priority = (l : ℕ)) :
    ((priorityBoost1 (updateWaitTicks1 r)).priority = (l : ℕ) + 1 ∧ r.waitTicks l + 1 = limit l) ∨
    ((priorityBoost1 (updateWaitTicks1 r)).priority = (l : ℕ) ∧
      (priorityBoost1 (updateWaitTicks1 r)).waitTicks l = r.waitTicks l + 1) := by
  obtain ⟨hw, hle⟩ := h.waited hl hp
  rw [updateWaitTicks1_runnable hs (level_eq_some.mpr hp), hw, priorityBoost1_level
    (q := { r with waitTicks := Function.update r.waitTicks l (r.waitTicks l + 1) }) hl hp
    (by simp [hs])]
  split_ifs with hlim
  · simp only [Function.update_self] at hlim
    exact .inl ⟨rfl, le_antisymm hle hlim⟩
  · exact .inr ⟨hp, by simp⟩

theorem reachedBy_add {l k : Fin 4} (hl : l ≠ 3) (hk : ((k : ℕ) : ℤ) = (l : ℕ) + 1) :
    reachedBy l + limit l = reachedBy k := by
  fin_cases l <;> fin_cases k <;> simp [reachedBy, limit] at hk hl ⊢

theorem Climbs.wait {r : Proc} (h : Climbs n r) (hg : Good r) (hs : r.state = .runnable) :
    Climbs (n + 1) (priorityBoost1 (updateWaitTicks1 r)) ∧
      r.priority ≤ (priorityBoost1 (updateWaitTicks1 r)).priority := by
  obtain ⟨l, hp, hlev⟩ := hg.level
  rcases eq_or_ne l 3 with rfl | hl
  · -- at the top there is no boost
    have htop : (updateWaitTicks1 r).priority = 3 := by
      rw [updateWaitTicks1_runnable hs hlev]
      exact hp
    rw [priorityBoost1_top htop, htop]
    refine ⟨fun k hk hpk => ?_, hp.le⟩
    rw [htop] at hpk
    exact absurd (Fin.ext (by exact_mod_cast hpk.symm)) hk
  · have hn := h l hl hp
    rcases hg.wait_cases hs hl hp with ⟨hup, hlim⟩ | ⟨hstay, hwait⟩
    · refine ⟨fun k hk hpk => ?_, by omega⟩
      have hadd := reachedBy_add hl (hpk.symm.trans hup)
      have hnonneg := (hg.after.wait k hk).1
      push_cast
      omega
    · refine ⟨fun k hk hpk => ?_, by omega⟩
      obtain rfl : k = l := Fin.ext (by
        have := hpk.symm.trans hstay
        omega)
      push_cast
      omega

theorem climbs_zero {r : Proc} (hg : Good r) : Climbs 0 r := by
  intro l hl _
  have hpos := (hg.wait l hl).1
  have hreach : 0 ≤ reachedBy l := by fin_cases l <;> simp [reachedBy]
  push_cast
  omega

/-- Along the way: nobody picks the process, its level does not go down, and it climbs. -/
structure Waiting (q : Slot) (n : ℕ) (s u : Sys C) : Prop where
  core : Core u
  good : ∀ i, Good (u.proc i)
  back : ∀ d, (u.cpu d).loc ≠ .back q
  up : (s.proc q).priority ≤ (u.proc q).priority
  climbs : Climbs n (u.proc q)

theorem Climbs.mono {m : ℕ} {r : Proc} (h : Climbs n r) (hm : m ≤ n) : Climbs m r :=
  fun l hl hp => le_trans (by exact_mod_cast hm) (h l hl hp)

theorem Waiting.step (h : Waiting q n s t) (hq : (t.proc q).state = .runnable)
    (hs : Ptable.step t e = some u) (hr : (u.proc q).state = .runnable) :
    Waiting q (if endsRound c t e then n + 1 else n) s u := by
  have he := (effect_of_step hs).2
  have hback : ∀ d, (u.cpu d).loc ≠ .back q := by
    intro d hd
    rcases back_of_effect h.core he hd with hb | hrun
    · exact h.back d hb
    · rw [hq] at hrun
      cases hrun
  refine ⟨h.core.effect he, good_step h.good he, hback, ?_, ?_⟩
  all_goals rcases waits_step (c := c) h.core h.good hq h.back hs hr with ⟨hend, hp, hw⟩ | hu
  · rw [hp]
    exact h.up
  · rw [hu]
    exact h.up.trans (h.climbs.wait (h.good q) hq).2
  · rw [hend]
    intro l hl hpl
    rw [hw]
    exact h.climbs l hl (hp.symm.trans hpl)
  · rw [hu]
    refine (h.climbs.wait (h.good q) hq).1.mono ?_
    split_ifs <;> omega

theorem Waiting.passes (h : Passes c q n s u) (hc : Core s) (hg : ∀ i, Good (s.proc i))
    (hb : ∀ d, (s.cpu d).loc ≠ .back q) : Waiting q n s u := by
  induction h with
  | refl hr => exact ⟨hc, hg, hb, le_rfl, climbs_zero (hg q)⟩
  | tail h hs hr ih => exact (ih hc hg hb).step h.runnable hs hr

/-- Whatever the CPUs and processes did before and do in the meantime: a process that stays
  `RUNNABLE`, and that no round under way has selected, is not taken down, and it is at level 1
  after 500 rounds of a CPU, at level 2 after 820 and at the top after 980. -/
theorem boost_latency {policy : C → ℤ} (hs : Reach step (fun _ _ => True) (boot policy) s)
    (hb : ∀ d, (s.cpu d).loc ≠ .back q) (h : Passes c q n s u) :
    (s.proc q).priority ≤ (u.proc q).priority ∧ (500 ≤ n → 1 ≤ (u.proc q).priority) ∧
      (820 ≤ n → 2 ≤ (u.proc q).priority) ∧ (980 ≤ n → (u.proc q).priority = 3) := by
  have hw := Waiting.passes h (core_of_reach hs) ((inOrder_boot policy).reach hs).2 hb
  obtain ⟨l, hp, -⟩ := (hw.good q).level
  refine ⟨hw.up, ?_⟩
  rcases eq_or_ne l 3 with rfl | hl
  · simp [hp]
  · have hclimb := hw.climbs l hl hp
    have hlim := ((hw.good q).wait l hl).2
    fin_cases l
    · simp [reachedBy, limit] at hclimb hlim
      omega
    · simp [reachedBy, limit] at hp hclimb hlim
      omega
    · simp [reachedBy, limit] at hp hclimb hlim
      omega
    · exact absurd rfl hl

/-- Init creates a child, which waits through one round. -/
theorem boost_latency_one_round : ∃ s u : Sys Unit,
    Reach step (fun _ _ => True) (boot fun _ => 2) s ∧ Passes () second 1 s u ∧
    (s.proc second).priority ≤ (u.proc second).priority := by
  have hrun : ((follow step (fun _ _ => True) (boot fun _ : Unit => 2) [.pass (), .resume (),
      .fork (), .kalloc () true, .copyuvm () true, .setParent (), .setRunnable ()]).bind fun s =>
      (step s (.yield ())).bind fun t => (step t (.post ())).map fun u =>
        (((s.proc second).state, (s.cpu ()).loc),
          ((t.proc second).state, endsRound () s (.yield ())),
          (u.proc second).state, endsRound () t (.post ()))) =
      some ((.runnable, .on initproc), (.runnable, false), .runnable, true) := by decide +kernel
  obtain ⟨s, hs, hrest⟩ := Option.bind_eq_some_iff.mp hrun
  obtain ⟨t, ht, hrest⟩ := Option.bind_eq_some_iff.mp hrest
  obtain ⟨u, hu, hobs⟩ := Option.map_eq_some_iff.mp hrest
  simp only [Prod.mk.injEq] at hobs
  obtain ⟨⟨hq, hloc⟩, ⟨hq', he⟩, hq'', he'⟩ := hobs
  have hpass : Passes () second 1 s u := by
    have h1 := (Passes.refl (c := ()) hq).tail ht hq'
    have h2 := h1.tail hu hq''
    simpa [he, he'] using h2
  have hreach := reach_of_follow _ hs
  exact ⟨s, u, hreach, hpass, (boost_latency hreach (by simp [hloc]) hpass).1⟩

end Xv6.Ptable

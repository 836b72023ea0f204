import Xv6.Proc.Mlfq

/-! @src proc.c | part:waiting under MLFQ | scheme:machine

  How often the scheduler of one CPU can pass over a `RUNNABLE` process. Below the top level every
  dispatch of another process brings it one wait closer to a boost, so the waits that are left are a
  potential. At the top there is no boost: the scan starts at slot 0, and a process in a lower slot
  that gives the CPU up early is chosen again and again.

      level   0 --500 waits--> 1 --320--> 2 --160--> 3   (first slot first) -/

namespace Xv6.Ptable
open Schemes
open Function

/-! ### Starvation at the top level -/

/-- Init and its child are both `RUNNABLE` at the top, the CPU is in its scheduler, and the child has
  been passed over `n` times. -/
@[mk_iff]
structure Ready (n : ℕ) (s : Sys Unit) : Prop where
  halted : s.halted = none
  lock : s.lock = none
  idle : (s.cpu ()).loc = .idle
  mlfq : (s.cpu ()).mlfq = true
  thread : (s.thread initproc).stage = .user ∧ (s.thread initproc).park = .yielded ∧
    (s.thread initproc).ticked = false
  first : (s.proc initproc).state = .runnable ∧ (s.proc initproc).priority = 3 ∧
    (s.proc initproc).ticks 3 = 0 ∧ (s.proc initproc).kstack = true ∧
    (s.proc initproc).pgdir = true
  next : (s.proc second).state = .runnable ∧ (s.proc second).priority = 3
  passed : s.passed second = n

instance (n : ℕ) (s : Sys Unit) : Decidable (Ready n s) :=
  decidable_of_iff _ (ready_iff n s).symm

theorem findSlot_initproc {f : Slot → Proc → Bool} {t : Table} (h : f initproc (t initproc) = true) :
    findSlot f t = some initproc := by
  have hl : List.finRange NPROC = initproc :: (List.finRange NPROC).tail := by decide
  rw [findSlot, hl, List.find?_cons, h]

theorem Ready.select {n : ℕ} {s : Sys Unit} (h : Ready n s) : mlfqSelect s.proc = some initproc := by
  obtain ⟨hst, hp, _⟩ := h.first
  rw [mlfqSelect, List.findSome?_cons, findSlot_initproc (by simp [hst, hp])]

theorem Ready.pass {n : ℕ} {s : Sys Unit} (h : Ready n s) : ∃ u, step s (.pass ()) = some u ∧
    u.halted = none ∧ u.lock = some () ∧ (u.cpu ()).loc = .on initproc ∧
    (u.cpu ()).mlfq = true ∧ (u.cpu ()).rr = false ∧ u.thread = s.thread ∧
    u.proc = update s.proc initproc { s.proc initproc with state := .running } ∧
    u.passed second = n + 1 := by
  obtain ⟨hst, hp, ht, hk, hd⟩ := h.first
  refine ⟨_, by simp [step, stepSched, h.halted, h.lock, h.idle, h.mlfq, h.select]; rfl, ?_⟩
  have hne : second ≠ initproc := by decide
  simpa [Sys.dispatch, hk, hd, Sys.setLoc, Sys.setProc, h.halted, h.next.1, hne, h.passed, Cpu.mlfq]
    using h.mlfq

theorem Ready.again {n : ℕ} {s : Sys Unit} (h : Ready n s) (hg : ∀ i, Good (s.proc i)) :
    ∃ u, Reach step MlfqOnly s u ∧ Ready (n + 1) u := by
  obtain ⟨hst, hp, ht, hk, hd⟩ := h.first
  obtain ⟨hstage, hpark, htick⟩ := h.thread
  obtain ⟨s1, h1, hh, hl, ho, hm, hr, hth, hpr, hpass⟩ := h.pass
  have h2 : step s1 (.resume ()) = some { s1 with lock := none } := by
    simp [step, stepSched, hh, hl, ho, hth, hpark]
  have h3 : step { s1 with lock := none } (.yield ()) =
      some (Sys.sched { s1 with proc := s.proc, lock := none } () initproc .yielded) := by
    have hproc : update s1.proc initproc { s1.proc initproc with state := .runnable } =
        s.proc := by
      rw [hpr, update_self, update_idem]
      exact update_eq_self_iff.mpr (by rw [← hst])
    simp [step, stepSched, hh, ho, hth, hstage, Sys.setProc, hproc]
  obtain ⟨t, hafter⟩ := Option.ne_none_iff_exists'.mp (mlfqAfter_ne_none hg initproc)
  set s3 := Sys.sched { s1 with proc := s.proc, lock := none } () initproc .yielded with hs3
  have h4 : step s3 (.post ()) = some { s3.setLoc () .idle with proc := t, lock := none } := by
    have hcpu : (s3.cpu ()).loc = .back initproc ∧ (s3.cpu ()).rr = false := by
      simp [hs3, Sys.sched, Sys.setLoc, Sys.setThread, hr]
    simp [step, stepSched, hcpu, show s3.halted = none from hh, show s3.proc = s.proc from rfl, hafter]
  obtain ⟨d, hdem, hfirst, hother⟩ := mlfqAfter_apply hafter
  -- no tick has been counted, so init keeps its level
  have hd0 : d = s.proc initproc := by
    simpa [demote, hp, level, ht, slice, eq_comm] using hdem
  have hnext : (t second).state = .runnable ∧ (t second).priority = 3 := by
    have hpr : (updateWaitTicks1 (s.proc second)).priority = 3 := by
      have hlev : level (s.proc second).priority = some 3 := level_eq_some.mpr h.next.2
      rw [updateWaitTicks1_runnable h.next.1 hlev]
      exact h.next.2
    rw [hother second (by decide), priorityBoost1_top hpr, (accounts_updateWaitTicks1 _).state]
    exact ⟨h.next.1, hpr⟩
  refine ⟨_, reach_of_follow [.pass (), .resume (), .yield (), .post ()] (by
    simp [follow, MlfqOnly, h.mlfq, h1, h2, h3, h4]; rfl), ?_⟩
  have ht0 : t initproc = s.proc initproc := by rw [hfirst, hd0, priorityBoost1_top hp]
  exact {
    halted := hh
    lock := rfl
    idle := by simp [Sys.setLoc]
    mlfq := by simpa [Sys.setLoc, hs3, Sys.sched, Sys.setThread, Cpu.mlfq] using hm
    thread := by simp [Sys.setLoc, hs3, Sys.sched, Sys.setThread, hth, hstage]
    first := by simpa [ht0] using h.first
    next := hnext
    passed := hpass }

theorem Ready.starve {s : Sys Unit} (h : Ready 0 s) (hs : InOrder s) :
    ∀ n, ∃ u, Reach step MlfqOnly s u ∧ Ready n u
  | 0 => ⟨s, Relation.ReflTransGen.refl, h⟩
  | n + 1 => by
    obtain ⟨u, hu, hn⟩ := h.starve hs n
    obtain ⟨v, hv, hn'⟩ := hn.again (hs.reach hu).2
    exact ⟨v, hu.trans hv, hn'⟩

def forkChild : List (Ev Unit) :=
  [.fork (), .kalloc () true, .copyuvm () true, .setParent (), .setRunnable (), .yield (), .post ()]

/-- No bound holds for the child: not when the CPU uses MLFQ from the start, and not when init
  chooses MLFQ on a CPU that starts with round robin. -/
theorem passed_over_without_bound :
    (∀ B, ∃ s, Reach step MlfqOnly (boot fun _ : Unit => 2) s ∧
      (s.proc second).state = .runnable ∧ B < s.passed second) ∧
    ∀ B, ∃ s0 s, Reach step (fun _ _ => True) (boot fun _ : Unit => 0) s0 ∧
      Reach step MlfqOnly s0 s ∧ (s.proc second).state = .runnable ∧ B < s.passed second := by
  refine ⟨fun B => ?_, fun B => ?_⟩
  · obtain ⟨s0, hs0, hr⟩ := exists_reach (f := fun s => decide (Ready 0 s)) (b := true)
      (show (follow step MlfqOnly (boot fun _ : Unit => 2) (.pass () :: .resume () :: forkChild)).map
        (fun s => decide (Ready 0 s)) = some true by decide +kernel)
    obtain ⟨s, hs, hn⟩ := (of_decide_eq_true hr).starve ((inOrder_boot _).reach hs0) (B + 1)
    exact ⟨s, hs0.trans hs, hn.next.1, by rw [hn.passed]; exact Nat.lt_succ_self B⟩
  · -- the pass that was going on when init changed the policy still runs the child once
    obtain ⟨s0, hs0, hr⟩ := exists_reach (f := fun s => decide (Ready 0 s)) (b := true)
      (show (follow step (fun _ _ => True) (boot fun _ : Unit => 0)
        (.pass () :: .scan () :: .resume () :: .setSchedPolicy () 2 :: forkChild ++
          [.scan (), .resume (), .yield (), .post (), .scan ()])).map
        (fun s => decide (Ready 0 s)) = some true by decide +kernel)
    obtain ⟨s, hs, hn⟩ := (of_decide_eq_true hr).starve ((inOrder_boot _).reach hs0) (B + 1)
    exact ⟨s0, s, hs0, hs, hn.next.1, by rw [hn.passed]; exact Nat.lt_succ_self B⟩

/-! ### What a step does to the waiting processes -/

section Quiet

variable {C : Type} [DecidableEq C] {s u : Sys C} {e : Ev C} {c : C} {p q : Slot}

/-- A process that waits to be dispatched goes on waiting, at its level and with its waits so far. -/
def Waits (t t' : Table) : Prop := ∀ i, (t i).state = .runnable → (t' i).state = .runnable ∧
  (t' i).priority = (t i).priority ∧ (t' i).waitTicks = (t i).waitTicks

theorem Waits.refl (t : Table) : Waits t t := fun _ hi => ⟨hi, rfl, rfl⟩

theorem Wakes.waits {t t' : Table} (h : Wakes t t') (hs : SameAll t t') : Waits t t' := by
  intro i hi
  refine ⟨?_, (hs i).priority, (hs i).waitTicks⟩
  rcases h i with hw | ⟨hw, _⟩
  · rw [hw, hi]
  · rw [hi] at hw; cases hw

theorem waits_update {t : Table} {x : Proc} (h : (t p).state ≠ .runnable) :
    Waits t (update t p x) := by
  intro i hi
  have hip : i ≠ p := by rintro rfl; exact h hi
  rw [update_of_ne hip]
  exact ⟨hi, rfl, rfl⟩

structure Quiet (s u : Sys C) : Prop where
  passed : u.passed = s.passed
  idle : ∀ c, (u.cpu c).loc = .idle ↔ (s.cpu c).loc = .idle
  waits : Waits s.proc u.proc
  back : ∀ c p, (u.cpu c).loc = .back p → (s.cpu c).loc = .back p ∨ (s.proc p).state = .running
  scan : ∀ c k, (u.cpu c).loc = .scan k → (s.cpu c).loc = .scan k

omit [DecidableEq C] in
theorem Quiet.of_loc (hp : u.passed = s.passed) (hl : ∀ c, (u.cpu c).loc = (s.cpu c).loc)
    (hw : Waits s.proc u.proc) : Quiet s u :=
  ⟨hp, fun c => by rw [hl], hw, fun c p h => .inl ((hl c).symm.trans h),
    fun c k h => (hl c).symm.trans h⟩

theorem Quiet.sched (h : Core s) {t : Table} {k : Park} (ho : (s.cpu c).loc = .on p)
    (ht : Waits s.proc t) :
    Quiet s (Sys.sched { s with proc := t } c p k) := by
  have hrun := h.on c p ho
  have hloc : ∀ d, ((Sys.sched { s with proc := t } c p k).cpu d).loc =
      if d = c then .back p else (s.cpu d).loc := fun d => by
    rcases eq_or_ne d c with rfl | hd
    · simp [Sys.sched, Sys.setLoc, Sys.setThread]
    · simp [Sys.sched, Sys.setLoc, Sys.setThread, hd]
  refine ⟨rfl, fun d => ?_, ht, fun d i hd => ?_, fun d i hd => ?_⟩
  · rw [hloc]; split_ifs with hdc
    · simp [hdc, ho]
    · rfl
  · rw [hloc] at hd; split_ifs at hd
    · cases hd; exact .inr hrun
    · exact .inl hd
  · rw [hloc] at hd; split_ifs at hd
    exact hd

theorem Quiet.waitLoop (h : Core s) (ho : (s.cpu c).loc = .on p) : Quiet s (s.waitLoop c p) := by
  have hrun := h.on c p ho
  rcases waitLoop_cases s c p with ⟨i, _, hz, hw⟩ | ⟨_, _, hw⟩ | ⟨_, _, _, hw⟩
  · rw [hw]; exact .of_loc rfl (fun _ => rfl) (waits_update (by simp [hz]))
  · rw [hw]; exact .of_loc rfl (fun _ => rfl) (Waits.refl _)
  · rw [hw]; exact .sched h ho (waits_update (by simp [hrun]))

/-- A step under MLFQ is quiet, dispatches the process chosen, or ends a pass. -/
inductive Moves (s : Sys C) : Ev C → Sys C → Prop
  | quiet {e : Ev C} {u : Sys C} (h : Quiet s u) : Moves s e u
  | dispatch {c : C} {q : Slot} {u : Sys C} (hi : (s.cpu c).loc = .idle) (hq : mlfqSelect s.proc = some q)
      (hp : u.proc = update s.proc q { s.proc q with state := .running })
      (hc : ∀ d, (u.cpu d).loc = if d = c then .on q else (s.cpu d).loc)
      (hw : ∀ i, u.passed i =
        if i = q then 0 else if (s.proc i).state = .runnable then s.passed i + 1 else 0) :
      Moves s (.pass c) u
  | post {c : C} {p : Slot} {u : Sys C} (hb : (s.cpu c).loc = .back p)
    (hp : mlfqAfter p s.proc = some u.proc)
      (hc : ∀ d, (u.cpu d).loc = if d = c then .idle else (s.cpu d).loc)
      (hw : u.passed = s.passed) : Moves s (.post c) u

theorem Effect.moves (h : Core s) (hrr : ∀ c, (s.cpu c).rr = false)
    (hns : ∀ c k, (s.cpu c).loc ≠ .scan k) (hG : MlfqOnly s e) (he : Effect s e u) :
    Moves s e u := by
  cases he with
  | stay | panic | postOut | tickOut | resume =>
    exact .quiet (.of_loc rfl (fun _ => rfl) (Waits.refl _))
  | @passMlfq c q hl hi hp hq =>
    rcases dispatch_cases { s with cpu := update s.cpu c { s.cpu c with rr := false } } c q
      with ⟨msg, hd⟩ | hd
    · rw [hd]; exact .quiet (.of_loc rfl (fun d => loc_update s c d rfl) (Waits.refl _))
    · rw [hd]
      refine .dispatch hi hq rfl (fun d => ?_) fun _ => rfl
      rcases eq_or_ne d c with rfl | hdc
      · simp [Sys.setLoc]
      · simp [Sys.setLoc, Sys.setProc, hdc]
  | passRr hl hi hp => exact absurd (hp.symm.trans hG) (by simp)
  | @scanRun c k q hk | @scanEnd c k hk => exact absurd hk (hns c k)
  | @postRr c p hb hr => rw [hrr c] at hr; cases hr
  | @postMlfq c p t hb hr ht =>
    refine .post hb ht (fun d => ?_) rfl
    rcases eq_or_ne d c with rfl | hdc
    · simp [Sys.setLoc]
    · simp [Sys.setLoc, hdc]
  | @resumeSlept c p hl ho =>
    exact .quiet (.of_loc rfl (fun _ => rfl) (waits_update (by simp [h.on c p ho])))
  | @resumeWait c p hl ho =>
    have hst : ∀ i, ((s.setProc p { s.proc p with chan := none }).proc i).state =
        (s.proc i).state := setProc_state rfl
    have hcore : Core (s.setProc p { s.proc p with chan := none }) :=
      h.wakes (fun i => .inl (hst i)) rfl (fun _ => rfl) rfl
    obtain ⟨hpass, hidle, hw, hb, hk⟩ := Quiet.waitLoop hcore ho
    refine .quiet ⟨hpass, hidle, fun i hi => ?_, fun d i hd => ?_, hk⟩
    swap
    · exact (hb d i hd).imp id fun hr => (hst i).symm.trans hr
    have hwi := hw i ((hst i).trans hi)
    have hs := sameAll_update (t := s.proc) (i := p) (q := { s.proc p with chan := none })
      ⟨rfl, rfl, rfl⟩ i
    exact ⟨hwi.1, hwi.2.1.trans hs.priority, hwi.2.2.trans hs.waitTicks⟩
  | @tick c p q ho hl hn hq =>
    exact .quiet (.of_loc rfl (fun _ => rfl) (waits_update (by simp [h.on c p ho])))
  | @yield c p ho hl => exact .quiet (.sched h ho (waits_update (by simp [h.on c p ho])))
  | @sleep c p chan hc => exact .quiet (.sched h hc.on (waits_update (by simp [h.on c p hc.on])))
  | wakeup hl =>
    exact .quiet (.of_loc rfl (fun _ => rfl)
      ((wakes_wakeup1 _ _).waits (sameAll_wakeup1 _ _)))
  | @kill c p pid i hc hi =>
    refine .quiet (.of_loc rfl (fun _ => rfl) fun j hj => ?_)
    rcases eq_or_ne j i with rfl | hji
    · simp [Sys.setProc, kill1, hj]
    · simp [Sys.setProc, hji, hj]
  | @exit c p t hc hp ht =>
    have hrun := h.on c p hc.on
    have hw : Waits s.proc t := ht ▸ ((wakes_wakeup1 _ _).trans (wakes_reparent _ _)).waits
      fun i => (sameAll_wakeup1 _ _ i).trans (sameAll_reparent _ _ i)
    have hz : Waits s.proc (update t p { t p with state := .zombie }) := fun i hi => by
      rw [update_of_ne (by rintro rfl; rw [hrun] at hi; cases hi)]
      exact hw i hi
    have hq : Quiet s (Sys.sched { s with
        proc := update t p { t p with state := .zombie } } c p .exited) := .sched h hc.on hz
    exact .quiet ⟨hq.passed, hq.idle, hq.waits, hq.back, hq.scan⟩
  | wait hc => exact .quiet (.waitLoop h hc.on)
  | @fork c p i hc hi =>
    have hun := findSlot_some hi
    simp only [decide_eq_true_eq] at hun
    exact .quiet (.of_loc rfl (fun _ => rfl) (waits_update (by simp [hun])))
  | @kalloc c p np hf | @kallocFail c p np hf | @copyuvm c p np hf | @copyuvmFail c p np hf
  | @setParent c p np hf | @setRunnable c p np hf hl =>
    have hst := (h.child p np (by rw [hf.stage]; rfl)).1
    exact .quiet (.of_loc rfl (fun _ => rfl) (waits_update (by simp [hst])))
  | @fatalTrap c p ho hl =>
    exact .quiet (.of_loc rfl (fun _ => rfl) (waits_update (by simp [h.on c p ho])))
  | @setSchedPolicy c p policy =>
    exact .quiet (.of_loc rfl (fun d => loc_update s c d rfl) (Waits.refl _))

end Quiet

/-! ### The waits that are left -/

/-- How many dispatches of other processes a waiting process is away from the top level. -/
def waitsLeft (p : Proc) : ℤ :=
  ∑ l : Fin 3, if p.priority ≤ (l : ℕ) then limit l.castSucc - p.waitTicks l.castSucc else 0

theorem waitsLeft_eq (q : Proc) : waitsLeft q =
    (if q.priority ≤ 0 then 500 - q.waitTicks 0 else 0) +
      (if q.priority ≤ 1 then 320 - q.waitTicks 1 else 0) +
      (if q.priority ≤ 2 then 160 - q.waitTicks 2 else 0) := by
  simp [waitsLeft, Fin.sum_univ_three, limit]

theorem waitsLeft_top {q : Proc} (hq : q.priority = 3) : waitsLeft q = 0 := by
  simp [waitsLeft_eq, hq]

theorem Good.waitsLeft_bounds {q : Proc} (h : Good q) : 0 ≤ waitsLeft q ∧ waitsLeft q ≤ 980 ∧
    (q.priority ≠ 3 → 1 ≤ waitsLeft q) := by
  obtain ⟨h0, h0'⟩ := h.wait 0 (by decide)
  obtain ⟨h1, h1'⟩ := h.wait 1 (by decide)
  obtain ⟨h2, h2'⟩ := h.wait 2 (by decide)
  obtain ⟨_, hp⟩ := h.priority
  simp only [limit, Matrix.cons_val] at h0' h1' h2'
  rw [waitsLeft_eq]
  split_ifs <;> omega

theorem Good.waitsLeft_after {q : Proc} (h : Good q) (hs : q.state = .runnable)
    (hp : q.priority ≠ 3) : waitsLeft (priorityBoost1 (updateWaitTicks1 q)) = waitsLeft q - 1 := by
  obtain ⟨l, hq, hlev⟩ := h.level
  have hl : l ≠ 3 := by rintro rfl; exact hp hq
  obtain ⟨hw, hle⟩ := h.waited hl hq
  rw [updateWaitTicks1_runnable hs hlev, hw, priorityBoost1_level
    (q := { q with waitTicks := update q.waitTicks l (q.waitTicks l + 1) }) hl hq
    (by simp [hs])]
  simp only [update_self]
  -- at the limit the wait is cleared together with the level it was counted for
  split_ifs with hlim
  · have hmax : q.waitTicks l = limit l - 1 := by omega
    fin_cases l
    · simp [waitsLeft_eq, hq, limit] at hmax ⊢; omega
    · simp [waitsLeft_eq, hq, limit] at hmax ⊢; omega
    · simp [waitsLeft_eq, hq, limit] at hmax ⊢; omega
    · exact absurd rfl hl
  · fin_cases l
    · simp [waitsLeft_eq, hq]; omega
    · simp [waitsLeft_eq, hq]; omega
    · simp [waitsLeft_eq, hq]; omega
    · exact absurd rfl hl

theorem waitsLeft_congr {q r : Proc} (hp : r.priority = q.priority) (hw : r.waitTicks = q.waitTicks) :
    waitsLeft r = waitsLeft q := by
  simp only [waitsLeft, hp, hw]

/-! ### The bound -/

def FirstAtTop {C : Type} (q : Slot) (s : Sys C) : Ev C → Prop
  | .pass _ => (s.proc q).state = .runnable → (s.proc q).priority = 3 →
      ∀ i < q, ¬ ((s.proc i).state = .runnable ∧ (s.proc i).priority = 3)
  | _ => True

/-- The waits left and the dispatches that passed over slot `q` add up; a dispatch is counted in
  `passed` at its start and as a wait at its end. -/
structure Served (q : Slot) (s : Sys Unit) : Prop where
  scan : ∀ k, (s.cpu ()).loc ≠ .scan k
  fresh : (s.proc q).state ≠ .runnable → s.passed q = 0
  back : (s.cpu ()).loc = .back q → s.passed q = 0
  bound : (s.proc q).state = .runnable → s.passed q + waitsLeft (s.proc q) ≤
    980 + if (s.cpu ()).loc = .idle ∨ (s.proc q).priority = 3 then 0 else 1

instance {C : Type} (q : Slot) (s : Sys C) : ∀ e, Decidable (FirstAtTop q s e)
  | .pass _ => inferInstanceAs (Decidable (_ → _ → _))
  | .scan _ | .post _ | .resume _ | .tick _ | .yield _ | .sleep _ _ | .wakeup _ | .kill _ _ | .exit _
  | .wait _ | .fork _ | .kalloc _ _ | .copyuvm _ _ | .setParent _ | .setRunnable _ | .fatalTrap _
  | .setSchedPolicy _ _ => isTrue trivial

variable {s u : Sys Unit} {e : Ev Unit} {p q : Slot}

theorem mlfqSelect_top {t : Table} (hs : mlfqSelect t = some p) (hq : (t q).state = .runnable)
    (hp : (t q).priority = 3) : p = q ∨ p < q ∧ (t p).state = .runnable ∧ (t p).priority = 3 := by
  rw [mlfqSelect, List.findSome?_cons] at hs
  cases hf : findSlot (fun _ p => p.state = .runnable ∧ p.priority = 3) t with
  | none => simpa [hq, hp] using findSlot_none hf q
  | some i =>
    rw [hf, Option.some.injEq] at hs
    subst hs
    have hi := findSlot_some hf
    simp only [decide_eq_true_eq] at hi
    rcases lt_trichotomy i q with hlt | heq | hgt
    · exact .inr ⟨hlt, hi⟩
    · exact .inl heq
    · simpa [hq, hp] using findSlot_first hf hgt

theorem Served.quiet (h : Served q s) (hg : ∀ i, Good (u.proc i)) (hq : Quiet s u) : Served q u := by
  refine ⟨fun k hk => h.scan k (hq.scan () k hk), fun hn => ?_, fun hb => ?_, fun hr => ?_⟩
  · rw [hq.passed]
    exact h.fresh fun hs => hn (hq.waits q hs).1
  · rw [hq.passed]
    rcases hq.back () q hb with hb | hrun
    · exact h.back hb
    · exact h.fresh (by simp [hrun])
  · rw [hq.passed]
    rcases eq_or_ne (s.proc q).state .runnable with hs | hs
    · obtain ⟨_, hp, hw⟩ := hq.waits q hs
      simp only [waitsLeft_congr hp hw, hp, hq.idle]
      exact h.bound hs
    · -- it has just become `RUNNABLE`
      have := (hg q).waitsLeft_bounds.2.1
      rw [h.fresh hs]
      split_ifs <;> simp <;> omega

theorem Served.moves (h : Served q s) (hs : ∀ i, Good (s.proc i))
    (hg : ∀ i, Good (u.proc i)) (hF : FirstAtTop q s e) (hm : Moves s e u) : Served q u := by
  cases hm with
  | quiet hq => exact h.quiet hg hq
  | @dispatch c i _ hi hsel hp hloc hw =>
    have hon : (u.cpu ()).loc = .on i := by simpa using hloc ()
    refine ⟨by simp [hon], fun hn => ?_, by simp [hon], fun hr => ?_⟩
    · rw [hw]
      rcases eq_or_ne q i with rfl | hqi
      · simp
      · rw [hp, update_of_ne hqi] at hn
        simp [hqi, hn]
    · have hqi : q ≠ i := by rintro rfl; simp [hp] at hr
      rw [hp, update_of_ne hqi] at hr ⊢
      have hb := h.bound hr
      -- a process at the top would have been chosen itself
      have htop : (s.proc q).priority ≠ 3 := fun hx => by
        rcases mlfqSelect_top hsel hr hx with rfl | ⟨hlt, hi⟩
        · exact hqi rfl
        · exact hF hr hx i hlt hi
      simp only [hi, true_or, if_true] at hb
      simp only [hw, hqi, hr, hon, htop, if_true, if_false, reduceCtorEq, or_self]
      push_cast
      omega
  | @post c p _ hb hp hloc hw =>
    have hidle : (u.cpu ()).loc = .idle := by simpa using hloc ()
    obtain ⟨d, hd, hself, hother⟩ := mlfqAfter_apply hp
    refine ⟨by simp [hidle], fun hn => ?_, by simp [hidle], fun hr => ?_⟩
    · rw [hw]
      exact h.fresh ((accounts_mlfqAfter hp q).state ▸ hn)
    · rw [hw]
      rcases eq_or_ne q p with rfl | hqp
      · have := (hg q).waitsLeft_bounds.2.1
        simp only [h.back hb, hidle, true_or, if_true]
        push_cast
        omega
      · have hrs : (s.proc q).state = .runnable := (accounts_mlfqAfter hp q).state ▸ hr
        have hbound := h.bound hrs
        rw [hother q hqp]
        simp only [hidle, true_or, if_true]
        rcases eq_or_ne (s.proc q).priority 3 with htop | htop
        · have htop' : (updateWaitTicks1 (s.proc q)).priority = 3 := by
            obtain ⟨l, _, hlev⟩ := (hs q).level
            rw [updateWaitTicks1_runnable hrs hlev]
            exact htop
          rw [priorityBoost1_top htop', waitsLeft_top htop']
          simpa [htop, waitsLeft_top htop] using hbound
        · rw [(hs q).waitsLeft_after hrs htop]
          simp only [hb, htop, reduceCtorEq, or_self, if_false] at hbound
          omega

theorem served_boot (policy : Unit → ℤ) (q : Slot) : Served q (boot policy) := by
  refine ⟨by simp [boot], fun _ => rfl, fun _ => rfl, fun _ => ?_⟩
  have := (good_boot policy q).waitsLeft_bounds.2.1
  simpa [show ((boot policy).cpu ()).loc = .idle from rfl, show (boot policy).passed q = 0 from rfl]
    using this

theorem served_of_reach {policy : Unit → ℤ}
    (h : Reach step (fun s e => MlfqOnly s e ∧ FirstAtTop q s e) (boot policy) s) :
    (Core s ∧ (∀ i, Good (s.proc i)) ∧ Sliced s) ∧ Served q s := by
  refine h.invariant (I := fun s => (Core s ∧ (∀ i, Good (s.proc i)) ∧ Sliced s) ∧ Served q s)
    ⟨⟨core_boot policy, good_boot policy, sliced_boot policy⟩, served_boot policy q⟩ ?_
  rintro s e u ⟨⟨hc, hg, hsl⟩, hv⟩ ⟨hG, hF⟩ hs
  obtain ⟨_, he⟩ := effect_of_step hs
  have hu := good_step hg he
  exact ⟨⟨hc.effect he, hu, hsl.effect hc hg hG he⟩,
    hv.moves hg hu hF (he.moves hc hsl.rr (fun _ => hv.scan) hG)⟩

/-- On one CPU under MLFQ, as long as no pass finds the process waiting at the top behind another
  one, it is passed over at most `500 + 320 + 160` times. -/
theorem passed_over_bounded (policy : Unit → ℤ) (q : Slot) (s : Sys Unit)
    (h : Reach step (fun s e => MlfqOnly s e ∧ FirstAtTop q s e) (boot policy) s) :
    s.passed q ≤ 980 := by
  obtain ⟨⟨_, hg, _⟩, hv⟩ := served_of_reach h
  rcases eq_or_ne (s.proc q).state .runnable with hr | hr
  · have hb := hv.bound hr
    obtain ⟨h0, _, h1⟩ := (hg q).waitsLeft_bounds
    split_ifs at hb with hx
    · omega
    · -- a dispatch in flight is paid for by the wait it will bring
      have := h1 fun hp => hx (.inr hp)
      omega
  · rw [hv.fresh hr]
    exact Nat.zero_le _

/-- The child uses up its slice while init sleeps; then init passes over it. -/
theorem passed_over_bounded_demoted : ∃ s : Sys Unit,
    Reach step (fun s e => MlfqOnly s e ∧ FirstAtTop second s e) (boot fun _ => 2) s ∧
      (s.proc second).state = .runnable ∧ s.passed second = 1 ∧ s.passed second ≤ 980 := by
  obtain ⟨s, hs, hobs⟩ := exists_reach (show (follow step
    (fun s e => MlfqOnly s e ∧ FirstAtTop second s e) (boot fun _ : Unit => 2)
    ([.pass (), .resume (), .fork (), .kalloc () true, .copyuvm () true, .setParent (),
        .setRunnable (), .sleep () 5, .post ()] ++
      (List.replicate 8 [.pass (), .resume (), .tick (), .yield (), .post ()]).flatten ++
      [.wakeup 5, .pass ()])).map (fun s => ((s.proc second).state, s.passed second)) =
        some (.runnable, 1) by decide +kernel)
  rw [Prod.mk.injEq] at hobs
  exact ⟨s, hs, hobs.1, hobs.2, passed_over_bounded _ second s hs⟩

end Xv6.Ptable

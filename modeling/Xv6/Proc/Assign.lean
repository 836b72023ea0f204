import Xv6.Proc.Mlfq

/-! @src proc.c, vm.c | part:CPUs and their processes | scheme:machine

  `Core` says that the process of a CPU is `RUNNING`. The other direction, and what the process
  needs to run at all: a `RUNNING` process is on some CPU, and whatever may be dispatched has a
  kernel stack and a page directory. A `fork` earns the two for its child one after the other.

      EMBRYO --kalloc--> kstack --copyuvm--> kstack, pgdir --setRunnable--> RUNNABLE
             +--fail--> UNUSED  +--fail--> UNUSED -/

namespace Xv6.Ptable
open Schemes
open Function

variable {C : Type}

/-- `cpus[c].proc`: set before `swtch` to the process and cleared after the switch back. -/
def Sys.cpuProc (s : Sys C) (c : C) : Option Slot :=
  match (s.cpu c).loc with
  | .on p | .back p => some p
  | .idle | .scan _ => none

def Proc.Equipped (p : Proc) : Prop := p.kstack = true ∧ p.pgdir = true

def Stage.Earned (t : Table) : Stage → Prop
  | .user | .kalloc _ => True
  | .copyuvm np => (t np).kstack = true
  | .parent np | .run np => (t np).Equipped

structure Fit (s : Sys C) : Prop where
  placed : ∀ p, (s.proc p).state = .running → ∃ c, (s.cpu c).loc = .on p
  live : ∀ p, (s.proc p).state.live → (s.proc p).Equipped
  earned : ∀ p, (s.thread p).stage.Earned s.proc

variable {s u : Sys C} {e : Ev C} {c : C} {p : Slot}

/-! ### Steps that leave the stacks and page directories alone -/

def KeepsMem (t t' : Table) : Prop := ∀ i, (t' i).kstack = (t i).kstack ∧ (t' i).pgdir = (t i).pgdir

theorem keepsMem_update {t : Table} {i : Slot} {q : Proc} (hk : q.kstack = (t i).kstack)
    (hp : q.pgdir = (t i).pgdir) : KeepsMem t (update t i q) := by
  intro j
  rcases eq_or_ne j i with rfl | hj
  · simp [hk, hp]
  · simp [hj]

theorem keepsMem_wakeup1 (chan : Option Chan) (t : Table) : KeepsMem t (wakeup1 chan t) := by
  intro i
  unfold wakeup1
  split_ifs <;> exact ⟨rfl, rfl⟩

theorem keepsMem_reparent (cur : Slot) (t : Table) : KeepsMem t (reparent cur t) := by
  intro i
  rw [reparent_apply]
  exact ⟨rfl, rfl⟩

theorem KeepsMem.trans {t1 t2 t3 : Table} (h : KeepsMem t1 t2) (h' : KeepsMem t2 t3) :
    KeepsMem t1 t3 := fun i => ⟨(h' i).1.trans (h i).1, (h' i).2.trans (h i).2⟩

theorem KeepsMem.equipped {t t' : Table} (h : KeepsMem t t') {i : Slot} (hi : (t i).Equipped) :
    (t' i).Equipped := ⟨(h i).1.trans hi.1, (h i).2.trans hi.2⟩

theorem KeepsMem.earned {t t' : Table} (h : KeepsMem t t') {g : Stage} (hg : g.Earned t) :
    g.Earned t' := by
  cases g with
  | user | kalloc => trivial
  | copyuvm np => exact (h np).1.trans hg
  | parent np | run np => exact h.equipped hg

theorem Fit.keep (h : Fit s) (hm : KeepsMem s.proc u.proc)
    (hlive : ∀ i, (u.proc i).state.live → (s.proc i).state.live)
    (hrun : ∀ i, (u.proc i).state = .running → (s.proc i).state = .running)
    (hon : ∀ c i, (u.proc i).state = .running → (s.cpu c).loc = .on i → (u.cpu c).loc = .on i)
    (ht : ∀ i, (u.thread i).stage = (s.thread i).stage) : Fit u := by
  refine ⟨fun i hi => ?_, fun i hi => hm.equipped (h.live i (hlive i hi)), fun i => ?_⟩
  · obtain ⟨c, hc⟩ := h.placed i (hrun i hi)
    exact ⟨c, hon c i hi hc⟩
  · rw [ht i]
    exact hm.earned (h.earned i)

theorem Fit.wakes (h : Fit s) (hm : KeepsMem s.proc u.proc) (hw : Wakes s.proc u.proc)
    (hc : ∀ c, (u.cpu c).loc = (s.cpu c).loc) (ht : u.thread = s.thread) : Fit u := by
  refine h.keep hm (fun i hi => ?_) (fun i hi => ?_) (fun c i _ ho => (hc c).trans ho)
    (fun i => by rw [ht])
  · rcases hw i with he | ⟨hs, _⟩
    · exact he ▸ hi
    · exact .inl hs
  · rcases hw i with he | ⟨_, hr⟩
    · exact he ▸ hi
    · rw [hr] at hi
      cases hi

variable [DecidableEq C]

theorem Fit.sched (h : Fit s) {t : Table} {k : Park} (ho : (s.cpu c).loc = .on p)
    (hrun : (s.proc p).state = .running) (hm : KeepsMem s.proc t) (hp : (t p).state ≠ .running)
    (hw : ∀ i, i ≠ p → (t i).state = (s.proc i).state ∨
      (s.proc i).state = .sleeping ∧ (t i).state = .runnable) :
    Fit (Sys.sched { s with proc := t } c p k) := by
  refine h.keep hm (fun i hi => ?_) (fun i (hi : (t i).state = .running) => ?_)
    (fun d i (hi : (t i).state = .running) hd => ?_) (fun i => ?_)
  · rcases eq_or_ne i p with rfl | hip
    · exact .inr (.inr hrun)
    · rcases hw i hip with he | ⟨hs, _⟩
      · exact he ▸ hi
      · exact .inl hs
  · have hip : i ≠ p := fun hip => hp (hip ▸ hi)
    rcases hw i hip with he | ⟨_, hr⟩
    · exact he ▸ hi
    · rw [hr] at hi
      cases hi
  · have hdc : d ≠ c := by
      rintro rfl
      rw [ho] at hd
      cases hd
      exact hp hi
    simpa [Sys.sched, Sys.setLoc, Sys.setThread, hdc] using hd
  · rcases eq_or_ne i p with rfl | hip
    · simp [Sys.sched, Sys.setLoc, Sys.setThread]
    · simp [Sys.sched, Sys.setLoc, Sys.setThread, hip]

theorem Fit.dispatch (h : Fit s) {q : Slot} (hq : (s.proc q).state = .runnable)
    (hc : ∀ i, (s.cpu c).loc ≠ .on i) : Fit (s.dispatch c q) := by
  rcases dispatch_cases s c q with ⟨msg, hd⟩ | hd
  · rw [hd]
    exact ⟨h.placed, h.live, h.earned⟩
  rw [hd]
  have hm : KeepsMem s.proc (s.setProc q { s.proc q with state := .running }).proc :=
    keepsMem_update rfl rfl
  refine ⟨fun i hi => ?_, fun i hi => hm.equipped (h.live i ?_), fun i => hm.earned (h.earned i)⟩
  · rcases eq_or_ne i q with rfl | hiq
    · exact ⟨c, by simp [Sys.setLoc]⟩
    · obtain ⟨d, hd⟩ := h.placed i (by simpa [Sys.setProc, Sys.setLoc, hiq] using hi)
      have hdc : d ≠ c := fun hdc => hc i (hdc ▸ hd)
      exact ⟨d, by simpa [Sys.setProc, Sys.setLoc, hdc] using hd⟩
  · rcases eq_or_ne i q with rfl | hiq
    · exact .inr (.inl hq)
    · simpa [Sys.setProc, Sys.setLoc, hiq] using hi

omit [DecidableEq C] in
/-- A slot whose process does not run loses its stack when it is freed. -/
theorem Fit.reap (h : Fit s) (hcore : Core s) {i : Slot} (hz : (s.proc i).state = .zombie)
    {ns : List Note} : Fit { s.setProc i (reap (s.proc i)) with lock := none, hist := ns } := by
  have hother : ∀ j, j ≠ i → (s.setProc i (Ptable.reap (s.proc i))).proc j = s.proc j :=
    fun j hj => by simp [Sys.setProc, hj]
  have hself : ((s.setProc i (Ptable.reap (s.proc i))).proc i).state = .unused := by
    simp [Sys.setProc, Ptable.reap]
  refine ⟨fun j hj => ?_, fun j hj => ?_, fun j => ?_⟩
  · rcases eq_or_ne j i with rfl | hji
    · exact absurd (hself.symm.trans hj) (by decide)
    · exact h.placed j (hother j hji ▸ hj)
  · rcases eq_or_ne j i with rfl | hji
    · exact absurd hj (by simp [hself, PState.live])
    · dsimp only at hj ⊢
      rw [hother j hji] at hj ⊢
      exact h.live j hj
  · -- the slot a fork is building is an EMBRYO, so it is not the one that was reaped
    have hne : ∀ np, (s.thread j).stage.child = some np → np ≠ i := by
      rintro np hnp rfl
      rw [(hcore.child j np hnp).1] at hz
      cases hz
    have hg := h.earned j
    dsimp only [Sys.setProc_thread]
    cases hst : (s.thread j).stage with
    | user | kalloc => trivial
    | copyuvm np | parent np | run np =>
      rw [hst] at hg
      have hnp := hother np (hne np (by rw [hst]; rfl))
      simpa only [Stage.Earned, hnp] using hg

theorem Fit.waitLoop (h : Fit s) (hcore : Core s) (ho : (s.cpu c).loc = .on p) :
    Fit (s.waitLoop c p) := by
  rcases waitLoop_cases s c p with ⟨i, _, hz, hw⟩ | ⟨_, _, hw⟩ | ⟨_, _, _, hw⟩
  · rw [hw]
    exact h.reap hcore hz
  · rw [hw]
    exact ⟨h.placed, h.live, h.earned⟩
  · rw [hw]
    refine h.sched ho (hcore.on c p ho) (keepsMem_update rfl rfl) ?_ (fun i hi => .inl ?_)
    · simp
    · rw [update_of_ne hi]

omit [DecidableEq C] in
/-- `fork` goes on: its child, which nobody else is building, has what the new stage says. -/
theorem Fit.forks (h : Fit s) (hcore : Core s) {np : Slot} {q : Proc} {g : Stage}
    (hs : (s.thread p).stage.child = some np ∨ (s.proc np).state = .unused)
    (hq : q.state ≠ .running) (hlive : q.state.live → q.Equipped)
    (hg : g.Earned (update s.proc np q)) : Fit ((s.setProc np q).setStage p g) := by
  have hother : ∀ j, j ≠ np → ((s.setProc np q).setStage p g).proc j = s.proc j :=
    fun j hj => by simp [Sys.setProc, Sys.setStage, Sys.setThread, hj]
  have hself : ((s.setProc np q).setStage p g).proc np = q := by
    simp [Sys.setProc, Sys.setStage, Sys.setThread]
  refine ⟨fun j hj => ?_, fun j hj => ?_, fun j => ?_⟩
  · rcases eq_or_ne j np with rfl | hj'
    · exact absurd (hself ▸ hj) hq
    · exact h.placed j (hother j hj' ▸ hj)
  · rcases eq_or_ne j np with rfl | hj'
    · rw [hself] at hj ⊢
      exact hlive hj
    · rw [hother j hj'] at hj ⊢
      exact h.live j hj
  · rcases eq_or_ne j p with rfl | hjp
    · simpa [Sys.setProc, Sys.setStage, Sys.setThread] using hg
    · -- the child of another fork is another slot
      have hne : ∀ n, (s.thread j).stage.child = some n → n ≠ np := by
        rintro n hn rfl
        rcases hs with hs | hs
        · exact hjp (hcore.childInj j p n hn hs)
        · rw [(hcore.child j n hn).1] at hs
          cases hs
      have hst : (((s.setProc np q).setStage p g).thread j).stage = (s.thread j).stage := by
        simp [Sys.setProc, Sys.setStage, Sys.setThread, hjp]
      rw [hst]
      have hj := h.earned j
      cases hst' : (s.thread j).stage with
      | user | kalloc => trivial
      | copyuvm n | parent n | run n =>
        rw [hst'] at hj
        simpa only [Stage.Earned, hother n (hne n (by rw [hst']; rfl))] using hj

/-! ### Every step keeps it -/

theorem Fit.effect (h : Fit s) (hcore : Core s) (he : Effect s e u) : Fit u := by
  have hsame : ∀ v : Sys C, KeepsMem s.proc v.proc → (∀ i, (v.proc i).state = (s.proc i).state) →
      v.thread = s.thread → (∀ c, (v.cpu c).loc = (s.cpu c).loc) → Fit v := fun v hm hv ht hc =>
    h.wakes hm (fun i => .inl (hv i)) hc ht
  have hmem : KeepsMem s.proc s.proc := fun _ => ⟨rfl, rfl⟩
  -- a step of a CPU's scheduler that ends where nothing runs
  have hmove : ∀ v : Sys C, KeepsMem s.proc v.proc → (∀ i, (v.proc i).state = (s.proc i).state) →
      v.thread = s.thread → (∃ c, (∀ i, (s.cpu c).loc ≠ .on i) ∧
        ∀ d, d ≠ c → (v.cpu d).loc = (s.cpu d).loc) → Fit v := by
    rintro v hm hv ht ⟨c, hc, hd⟩
    refine h.keep hm (fun i hi => hv i ▸ hi) (fun i hi => hv i ▸ hi) (fun d i _ ho => ?_)
      (fun i => by rw [ht])
    have hdc : d ≠ c := fun hdc => hc i (hdc ▸ ho)
    exact (hd d hdc).trans ho
  cases he with
  | stay => exact h
  | panic | postOut | tickOut => exact ⟨h.placed, h.live, h.earned⟩
  | @passMlfq c q hl hi hp hq =>
    have hrr : Fit { s with cpu := update s.cpu c { s.cpu c with rr := false } } :=
      hsame _ hmem (fun _ => rfl) rfl fun d => by
        rcases eq_or_ne d c with rfl | hd
        · simp
        · simp [hd]
    exact hrr.dispatch (mlfqSelect_runnable hq) (fun i => by simp [hi])
  | @passRr c hl hi hp =>
    exact hmove _ hmem (fun _ => rfl) rfl ⟨c, fun i => by simp [hi], fun d hd => by simp [hd]⟩
  | @scanRun c k q hk hq => exact h.dispatch (rrNext_runnable hq) (fun i => by simp [hk])
  | @scanEnd c k hk hq =>
    exact hmove _ hmem (fun _ => rfl) rfl
      ⟨c, fun i => by simp [hk], fun d hd => by simp [Sys.setLoc, hd]⟩
  | @postRr c p hb hr =>
    exact hmove _ hmem (fun _ => rfl) rfl
      ⟨c, fun i => by simp [hb], fun d hd => by simp [Sys.setLoc, hd]⟩
  | @postMlfq c p t hb hr ht =>
    have hacc := accounts_mlfqAfter ht
    have hm : KeepsMem s.proc t := fun i => by
      rw [show t i = _ from hacc i]
      exact ⟨rfl, rfl⟩
    exact hmove _ hm (fun i => (hacc i).state) rfl
      ⟨c, fun i => by simp [hb], fun d hd => by simp [Sys.setLoc, hd]⟩
  | resume => exact ⟨h.placed, h.live, h.earned⟩
  | resumeSlept =>
    exact hsame _ (keepsMem_update rfl rfl) (setProc_state rfl) rfl (fun _ => rfl)
  | @resumeWait c p hl ho hp =>
    have hcore' : Core (s.setProc p { s.proc p with chan := none }) :=
      hcore.wakes (fun i => .inl (setProc_state (q := { s.proc p with chan := none }) rfl i)) rfl
        (fun _ => rfl) rfl
    have hfit : Fit (s.setProc p { s.proc p with chan := none }) :=
      hsame _ (keepsMem_update rfl rfl) (setProc_state rfl) rfl (fun _ => rfl)
    exact hfit.waitLoop hcore' ho
  | @tick c p q ho hl hn hq =>
    have hacc : Accounts (s.proc p) q := accounts_tick hq
    have hst : ∀ i, ((s.setProc p q).proc i).state = (s.proc i).state := setProc_state hacc.state
    refine h.keep (keepsMem_update (by rw [hacc]) (by rw [hacc])) (fun i hi => hst i ▸ hi)
      (fun i hi => hst i ▸ hi) (fun _ _ _ hd => hd) (fun i => ?_)
    rcases eq_or_ne i p with rfl | hip
    · simp [Sys.setThread]
    · simp [Sys.setThread, hip]
  | @yield c p ho hl =>
    exact h.sched ho (hcore.on c p ho) (keepsMem_update rfl rfl) (by simp)
      (fun i hi => .inl (by simp [hi]))
  | @sleep c p chan hc =>
    exact h.sched hc.on (hcore.on c p hc.on) (keepsMem_update rfl rfl) (by simp)
      (fun i hi => .inl (by simp [hi]))
  | wakeup => exact h.wakes (keepsMem_wakeup1 _ _) (wakes_wakeup1 _ _) (fun _ => rfl) rfl
  | @kill c p pid i hc hi =>
    refine h.wakes (keepsMem_update rfl rfl) (fun j => ?_) (fun _ => rfl) rfl
    rcases eq_or_ne j i with rfl | hj
    · rcases eq_or_ne (s.proc j).state .sleeping with hs | hs
      · exact .inr ⟨hs, by simp [Sys.setProc, kill1, hs]⟩
      · exact .inl (by simp [Sys.setProc, kill1, hs])
    · exact .inl (by simp [Sys.setProc, hj])
  | @exit c p t hc hp ht =>
    have hw : Wakes s.proc t := ht ▸ (wakes_wakeup1 _ _).trans (wakes_reparent _ _)
    have hm : KeepsMem s.proc t := ht ▸ (keepsMem_wakeup1 _ _).trans (keepsMem_reparent _ _)
    have hfit : Fit (Sys.sched { s with
        proc := update t p { t p with state := .zombie } } c p .exited) :=
      h.sched hc.on (hcore.on c p hc.on) (hm.trans (keepsMem_update rfl rfl)) (by simp)
        (fun i hi => by simpa [hi] using hw i)
    exact ⟨hfit.placed, hfit.live, hfit.earned⟩
  | @wait c p hc => exact h.waitLoop hcore hc.on
  | @fork c p i hc hi =>
    have hun := findSlot_some hi
    simp only [decide_eq_true_eq] at hun
    have hfit : Fit ((s.setProc i (embryo s.nextpid (s.proc i))).setStage p (.kalloc i)) :=
      h.forks hcore (.inr hun) (by simp [embryo]) (by simp [embryo, PState.live]) trivial
    exact ⟨hfit.placed, hfit.live, hfit.earned⟩
  | @kalloc c p np hf =>
    have hch : (s.thread p).stage.child = some np := by rw [hf.stage]; rfl
    have hst := (hcore.child p np hch).1
    have hfit : Fit ((s.setProc np { s.proc np with kstack := true }).setStage p (.copyuvm np)) :=
      h.forks hcore (.inl hch) (by simp [hst]) (by simp [hst, PState.live])
        (by simp [Stage.Earned])
    refine ⟨hfit.placed, hfit.live, fun i => ?_⟩
    rcases eq_or_ne i np with rfl | hi
    · simp [Sys.setThread, Stage.Earned]
    · have hg := hfit.earned i
      simpa [Sys.setThread, hi] using hg
  | @kallocFail c p np hf =>
    exact h.forks hcore (.inl (by rw [hf.stage]; rfl)) (by simp) (by simp [PState.live]) trivial
  | @copyuvm c p np hf =>
    have hch : (s.thread p).stage.child = some np := by rw [hf.stage]; rfl
    have hst := (hcore.child p np hch).1
    have hk : (s.proc np).kstack = true := by simpa [hf.stage, Stage.Earned] using h.earned p
    exact h.forks hcore (.inl hch) (by simp [hst]) (by simp [hst, PState.live])
      (by simp [Stage.Earned, Proc.Equipped, hk])
  | @copyuvmFail c p np hf =>
    exact h.forks hcore (.inl (by rw [hf.stage]; rfl)) (by simp) (by simp [PState.live]) trivial
  | @setParent c p np hf =>
    have hch : (s.thread p).stage.child = some np := by rw [hf.stage]; rfl
    have hst := (hcore.child p np hch).1
    have hk : (s.proc np).Equipped := by simpa [hf.stage, Stage.Earned] using h.earned p
    exact h.forks hcore (.inl hch) (by simp [hst]) (by simp [hst, PState.live])
      (by simpa [Stage.Earned, Proc.Equipped] using hk)
  | @setRunnable c p np hf hl =>
    have hk : (s.proc np).Equipped := by simpa [hf.stage, Stage.Earned] using h.earned p
    have hfit : Fit ((s.setProc np { s.proc np with state := .runnable }).setStage p .user) :=
      h.forks hcore (.inl (by rw [hf.stage]; rfl)) (by simp) (fun _ => hk) trivial
    exact ⟨hfit.placed, hfit.live, hfit.earned⟩
  | fatalTrap => exact hsame _ (keepsMem_update rfl rfl) (setProc_state rfl) rfl (fun _ => rfl)
  | @setSchedPolicy c p policy ho hl =>
    refine hsame _ hmem (fun _ => rfl) rfl (fun d => ?_)
    rcases eq_or_ne d c with rfl | hd
    · simp
    · simp [hd]

omit [DecidableEq C] in
theorem fit_boot (policy : C → ℤ) : Fit (boot policy) := by
  refine ⟨fun p hp => ?_, fun p hp => ?_, fun p => trivial⟩
  · rcases eq_or_ne p initproc with rfl | hi
    · simp [boot] at hp
    · simp [boot, zeroProc, hi] at hp
  · rcases eq_or_ne p initproc with rfl | hi
    · simp [boot, Proc.Equipped]
    · simp [boot, zeroProc, hi, PState.live] at hp

/-! ### The panics of the scheduler -/

def Halt.switchuvm (h : Option Halt) : Prop :=
  h = some (.panic "switchuvm: no kstack") ∨ h = some (.panic "switchuvm: no pgdir")

theorem dispatch_equipped (v : Sys C) {q : Slot} (hq : (v.proc q).Equipped) :
    (v.dispatch c q).halted = v.halted := by
  simp [Sys.dispatch, hq.1, hq.2, Sys.setProc, Sys.setLoc]

theorem stepSched_halted (h : Fit s) (hstep : stepSched s e = some u) : u.halted = s.halted ∨
    u.halted = some .outOfBounds ∨ u.halted = some (.panic "zombie exit") := by
  cases e with
  | pass c =>
    simp only [stepSched] at hstep
    split_ifs at hstep
    · split at hstep
      · rename_i q hq
        cases hstep
        exact .inl (dispatch_equipped { s with cpu := _ }
          (h.live q (.inr (.inl (mlfqSelect_runnable hq)))))
      · cases hstep
        exact .inl rfl
    · cases hstep
      exact .inl rfl
  | scan c =>
    simp only [stepSched] at hstep
    split at hstep
    · split at hstep
      · rename_i q hq
        cases hstep
        exact .inl (dispatch_equipped s (h.live q (.inr (.inl (rrNext_runnable hq)))))
      · cases hstep
        exact .inl rfl
    · cases hstep
  | post c =>
    simp only [stepSched] at hstep
    split at hstep
    · split_ifs at hstep
      · cases hstep
        exact .inl rfl
      · split at hstep <;> cases hstep
        · exact .inl rfl
        · exact .inr (.inl rfl)
    · cases hstep
  | resume c =>
    simp only [stepSched] at hstep
    split_ifs at hstep
    split at hstep
    · split at hstep <;> cases hstep
      · exact .inl rfl
      · exact .inl rfl
      · exact .inl rfl
      · exact .inl (waitLoop_halted _ _ _)
      · exact .inr (.inr rfl)
    · cases hstep
  | tick c =>
    simp only [stepSched] at hstep
    split at hstep
    · split at hstep <;> cases hstep
      · exact .inl rfl
      · exact .inr (.inl rfl)
    · cases hstep
  | yield c =>
    simp only [stepSched] at hstep
    split at hstep
    · split_ifs at hstep
      cases hstep
      exact .inl rfl
    · cases hstep
  | sleep | wakeup | kill | exit | wait | fork | kalloc | copyuvm | setParent | setRunnable
  | fatalTrap | setSchedPolicy => cases hstep

theorem stepCall_halted (hstep : stepCall s e = some u) : u.halted = s.halted ∨
    u.halted = some (.panic "init exiting") := by
  cases e with
  | pass | scan | post | resume | tick | yield => cases hstep
  | wakeup chan =>
    simp only [stepCall] at hstep
    split_ifs at hstep
    cases hstep
    exact .inl rfl
  | exit c =>
    simp only [stepCall] at hstep
    split at hstep
    · split_ifs at hstep <;> cases hstep
      · exact .inr rfl
      · exact .inl rfl
    · cases hstep
  | wait c =>
    simp only [stepCall] at hstep
    split at hstep
    · split_ifs at hstep
      cases hstep
      exact .inl (waitLoop_halted _ _ _)
    · cases hstep
  | kill | fork =>
    simp only [stepCall] at hstep
    split at hstep
    · split_ifs at hstep
      split at hstep <;> cases hstep <;> exact .inl rfl
    · cases hstep
  | kalloc | copyuvm | setRunnable =>
    simp only [stepCall] at hstep
    split at hstep
    · split at hstep
      · split_ifs at hstep <;> cases hstep <;> exact .inl rfl
      · cases hstep
    · cases hstep
  | setParent c =>
    simp only [stepCall] at hstep
    split at hstep
    · split at hstep <;> cases hstep
      exact .inl rfl
    · cases hstep
  | sleep | setSchedPolicy =>
    simp only [stepCall] at hstep
    split at hstep
    · split_ifs at hstep <;> cases hstep <;> exact .inl rfl
    · cases hstep
  | fatalTrap c =>
    simp only [stepCall] at hstep
    split at hstep <;> cases hstep
    exact .inl rfl

theorem not_switchuvm_step (h : Fit s) (hstep : step s e = some u) : ¬ Halt.switchuvm u.halted := by
  have hs : s.halted = none := (effect_of_step hstep).1
  have hu : u.halted = none ∨ u.halted = some .outOfBounds ∨
      u.halted = some (.panic "zombie exit") ∨ u.halted = some (.panic "init exiting") := by
    unfold step at hstep
    rw [hs] at hstep
    have hcall : stepCall s e = some u → _ := fun hc => (hs ▸ stepCall_halted hc :
      u.halted = none ∨ u.halted = some (.panic "init exiting"))
    have hsched : stepSched s e = some u → _ := fun hc => (hs ▸ stepSched_halted h hc :
      u.halted = none ∨ u.halted = some .outOfBounds ∨ u.halted = some (.panic "zombie exit"))
    cases e with
    | pass | scan | post | resume | tick | yield =>
      rcases hsched hstep with hn | ho | hz
      · exact .inl hn
      · exact .inr (.inl ho)
      · exact .inr (.inr (.inl hz))
    | sleep | wakeup | kill | exit | wait | fork | kalloc | copyuvm | setParent | setRunnable
    | fatalTrap | setSchedPolicy =>
      rcases hcall hstep with hn | hi
      · exact .inl hn
      · exact .inr (.inr (.inr hi))
  rcases hu with hu | hu | hu | hu <;> simp [Halt.switchuvm, hu]

/-! ### Over a whole run -/

structure Assigned (s : Sys C) : Prop where
  core : Core s
  fit : Fit s
  quiet : ¬ Halt.switchuvm s.halted

theorem assigned_of_reach {policy : C → ℤ} (h : Reach step (fun _ _ => True) (boot policy) s) :
    Assigned s :=
  h.invariant ⟨core_boot policy, fit_boot policy, by simp [Halt.switchuvm, boot]⟩
    fun _ _ _ hs _ hstep =>
      have he := (effect_of_step hstep).2
      ⟨hs.core.effect he, hs.fit.effect hs.core he, not_switchuvm_step hs.fit hstep⟩

omit [DecidableEq C] in
theorem cpuProc_eq_some : s.cpuProc c = some p ↔ (s.cpu c).loc = .on p ∨ (s.cpu c).loc = .back p := by
  unfold Sys.cpuProc
  split <;> simp_all

omit [DecidableEq C] in
/-- No process is that of two CPUs, whoever holds the lock. -/
theorem Core.cpuProc_inj (h : Core s) {d : C} (hc : s.cpuProc c = some p) (hd : s.cpuProc d = some p) :
    c = d := by
  -- a process that has called sched is not RUNNING, one that is on a CPU is
  have hsep : ∀ c d, (s.cpu c).loc = .on p → (s.cpu d).loc = .back p → False := by
    intro c d ho hb
    have hrun := h.on c p ho
    obtain ⟨_, hst⟩ := h.back d p hb
    rw [hrun] at hst
    simp at hst
  rcases cpuProc_eq_some.mp hc with hc | hc <;> rcases cpuProc_eq_some.mp hd with hd | hd
  · exact h.onInj c d p hc hd
  · exact (hsep c d hc hd).elim
  · exact (hsep d c hd hc).elim
  · exact Option.some.inj ((h.back c p hc).1.symm.trans (h.back d p hd).1)

/-- Any number of CPUs, any policies, any interleaving. With the lock free a process is `RUNNING` if
  and only if it is the process of exactly one CPU, and what is `RUNNABLE` or `RUNNING` has a kernel
  stack and a page directory; no process is ever that of two CPUs, and `switchuvm` never panics. -/
theorem cpu_assignment (policy : C → ℤ) (s : Sys C)
    (h : Reach step (fun _ _ => True) (boot policy) s) :
    (s.lock = none → ∀ p, ((s.proc p).state = .running ↔ ∃! c, s.cpuProc c = some p) ∧
      ((s.proc p).state = .runnable ∨ (s.proc p).state = .running →
        (s.proc p).kstack = true ∧ (s.proc p).pgdir = true)) ∧
    (∀ c d p, s.cpuProc c = some p → s.cpuProc d = some p → c = d) ∧
    s.halted ≠ some (.panic "switchuvm: no kstack") ∧
    s.halted ≠ some (.panic "switchuvm: no pgdir") := by
  obtain ⟨hcore, hfit, hquiet⟩ := assigned_of_reach h
  refine ⟨fun hl p => ⟨⟨fun hr => ?_, ?_⟩, fun hp => hfit.live p (.inr hp)⟩,
    fun c d p hc hd => hcore.cpuProc_inj hc hd, fun hk => hquiet (.inl hk),
    fun hp => hquiet (.inr hp)⟩
  · obtain ⟨c, hc⟩ := hfit.placed p hr
    have hcp : s.cpuProc c = some p := cpuProc_eq_some.mpr (.inl hc)
    exact ⟨c, hcp, fun d hd => hcore.cpuProc_inj hd hcp⟩
  · rintro ⟨c, hc, _⟩
    rcases cpuProc_eq_some.mp hc with hc | hc
    · exact hcore.on c p hc
    · -- a process on its way back has the lock
      exact absurd (hl.symm.trans (hcore.back c p hc).1) (by simp)

/-- One CPU by round robin and one by MLFQ; init runs on the first and its child on the second. -/
theorem cpu_assignment_two : ∃ s : Sys Bool,
    Reach step (fun _ _ => True) (boot fun c => if c then 1 else 0) s ∧ s.lock = none ∧
    ∃ p, p ≠ initproc ∧ (s.proc p).state = .running ∧ s.cpuProc false = some initproc ∧
      ∃! c, s.cpuProc c = some p := by
  obtain ⟨s, hs, hobs⟩ := exists_reach (show (follow step (fun _ _ => True)
    (boot fun c : Bool => if c then 1 else 0) [.pass false, .scan false, .resume false, .fork false,
      .kalloc false true, .copyuvm false true, .setParent false, .setRunnable false, .pass true,
      .resume true]).map (fun s => (s.lock, (s.proc ⟨1, by decide⟩).state, s.cpuProc false)) =
        some (none, .running, some initproc) by decide +kernel)
  simp only [Prod.mk.injEq] at hobs
  obtain ⟨hl, hr, hc⟩ := hobs
  have hall := cpu_assignment _ s hs
  exact ⟨s, hs, hl, ⟨1, by decide⟩, by decide, hr, hc, (hall.1 hl _).1.mp hr⟩

end Xv6.Ptable

import Xv6.Proc.Assign
import Xv6.Proc.Uthread

/-! @src proc.c, trap.c, pstat.h | part:getpinfo | scheme:machine

  What `getpinfo` reports against what happened, on one CPU under MLFQ. The two ghosts count timer
  interrupts: `ran i l` those that process `i` took while `RUNNING` at level `l`, `waited i l` those
  that came while it was `RUNNABLE` there. The kernel counts the first in `trap` and forgets them
  when it demotes; the second it counts at every switch to the scheduler.

      interrupt --> ticks[l]++ --> yield --> demote: ticks[l] = 0?  others: wait_ticks[l']++
                    sleep, yield, exit, wait -----------------------------> wait_ticks[l']++ -/

namespace Xv6.Ptable
open Schemes
open Function
open Option (map_eq_some_iff some)

/-- What `getpinfo` reports. -/
structure Pstat where
  inuse : Slot → Bool
  pid : Slot → ℤ
  priority : Slot → ℤ
  state : Slot → PState
  ticks : Slot → Fin 4 → ℤ
  waitTicks : Slot → Fin 4 → ℤ

def getpinfo (t : Table) : Pstat where
  inuse i := (t i).state ≠ .unused
  pid i := (t i).pid
  priority i := (t i).priority
  state i := (t i).state
  ticks i := (t i).ticks
  waitTicks i := (t i).waitTicks

/-- One CPU with the ghosts; `byTimer` tells whether the process that switched back to the scheduler
  did so in the timer's `yield`. -/
structure Timed where
  sys : Sys Unit
  ran : Slot → Fin 4 → ℕ
  waited : Slot → Fin 4 → ℕ
  byTimer : Bool

/-- The steps of the machine; a timer interrupt that finds no process; and one that finds a killed
  process in user space, which exits before the tick is counted. -/
inductive TimedEv where
  | base (e : Ev Unit)
  | idleTimer
  | timerExit

def counted (st : PState) (t : Table) (f : Slot → Fin 4 → ℕ) : Slot → Fin 4 → ℕ := fun i l =>
  if (t i).state = st ∧ level (t i).priority = some l then f i l + 1 else f i l

def Timed.interrupt (x : Timed) : Timed :=
  { x with
    ran := counted .running x.sys.proc x.ran
    waited := counted .runnable x.sys.proc x.waited }

def Timed.created (x : Timed) : Timed :=
  { x with
    ran := fun i => if allocSlot x.sys.proc = some i then fun _ => 0 else x.ran i
    waited := fun i => if allocSlot x.sys.proc = some i then fun _ => 0 else x.waited i }

def Timed.ghosts (x : Timed) : Ev Unit → Timed
  | .tick _ => x.interrupt
  | .fork _ => x.created
  | _ => x

def gives (s : Sys Unit) (b : Bool) (e : Ev Unit) : Bool :=
  match (s.cpu ()).loc, e with
  | .on p, .yield _ => (s.thread p).ticked
  | .on _, _ => false
  | _, _ => b

def Timed.step (x : Timed) : TimedEv → Option Timed
  | .base e => (Ptable.step x.sys e).map fun u =>
    { x.ghosts e with sys := u, byTimer := gives x.sys x.byTimer e }
  | .idleTimer =>
    if x.sys.halted = none ∧ (x.sys.cpu ()).loc = .idle then some x.interrupt else none
  | .timerExit =>
    match x.sys.acts () with
    | some p =>
      if (x.sys.proc p).killed then
        (Ptable.step x.sys (.exit ())).map fun u => { x.interrupt with sys := u, byTimer := false }
      else none
    | none => none

def Timed.boot (policy : ℤ) : Timed where
  sys := Ptable.boot fun _ => policy
  ran := fun _ _ => 0
  waited := fun _ _ => 0
  byTimer := false

def TrueAccounting (x : Timed) : Prop :=
  ∀ i, (getpinfo x.sys.proc).inuse i = true → ∀ l,
    (getpinfo x.sys.proc).ticks i l = x.ran i l ∧ (getpinfo x.sys.proc).waitTicks i l ≤ x.waited i l

def UnderMlfq (x : Timed) : TimedEv → Prop
  | .base e => MlfqOnly x.sys e
  | _ => True

def WithinSlice (p : Proc) : Prop :=
  ∀ l, level p.priority = some l → l = 0 ∨ p.ticks l < slice l

/-- What the calls and interrupts must not do: overflow a counter, use up a slice, switch while
  others wait other than by the timer, wake anybody between the tick and its `yield`, kill a
  process that the timer finds in user space. -/
def Timely (x : Timed) : TimedEv → Prop
  | .base (.tick _) => ∀ p, (x.sys.cpu ()).loc = .on p → ∀ l,
      level (x.sys.proc p).priority = some l → (x.sys.proc p).ticks l + 1 < 2 ^ 31
  | .base (.post _) => ∀ p, (x.sys.cpu ()).loc = .back p → WithinSlice (x.sys.proc p) ∧
      (x.byTimer = true ∨ ∀ i, i ≠ p → (x.sys.proc i).state ≠ .runnable)
  | .base (.wakeup _) => ∀ p, (x.sys.thread p).ticked = false
  | .timerExit => False
  | _ => True

variable {s u : Sys Unit} {e : Ev Unit} {b : Bool} {p : Slot}

/-! ### An interrupt that has not been accounted for yet -/

/-- Process `p` has taken an interrupt, and the scheduler has not counted the waiting time yet. -/
def Pending (s : Sys Unit) (b : Bool) (p : Slot) : Prop :=
  (s.thread p).ticked = true ∨ (s.cpu ()).loc = .back p ∧ b = true

theorem loc_of_ticked (hcore : Core s) (hfit : Fit s) (h : (s.thread p).ticked = true) :
    (s.cpu ()).loc = .on p := by
  obtain ⟨c, hc⟩ := hfit.placed p (hcore.ticked p h)
  exact hc

variable {q : Slot} {t : Table} {c : Unit}

theorem gives_back (h : (s.cpu ()).loc = .back q) : gives s b e = b := by
  unfold gives
  rw [h]

theorem not_pending_of_on (hcore : Core s) (hfit : Fit s) (ho : (s.cpu ()).loc = .on q)
    (hn : (s.thread q).ticked = false) : ¬ Pending s b p := by
  rintro (ht | ⟨hb, _⟩)
  · have hp := (loc_of_ticked hcore hfit ht).symm.trans ho
    rw [Loc.on.injEq] at hp
    rw [hp, hn] at ht
    cases ht
  · rw [ho] at hb
    cases hb

theorem not_pending_of_sched (hcore : Core s) (hfit : Fit s)
    (hl : (s.cpu ()).loc = .idle ∨ ∃ k, (s.cpu ()).loc = .scan k) : ¬ Pending s b p := by
  rintro (ht | ⟨hb, _⟩)
  · rw [loc_of_ticked hcore hfit ht] at hl
    simp at hl
  · rw [hb] at hl
    simp at hl

theorem Pending.same (hth : ∀ q, (u.thread q).ticked = true → (s.thread q).ticked = true)
    (hloc : (u.cpu ()).loc = (s.cpu ()).loc) (h : Pending u (gives s b e) p) : Pending s b p := by
  rcases h with ht | ⟨hb, hg⟩
  · exact .inl (hth p ht)
  · rw [hloc] at hb
    rw [gives_back hb] at hg
    exact .inr ⟨hb, hg⟩

theorem setStage_ticked (s : Sys Unit) (p q : Slot) (g : Stage) :
    ((s.setStage p g).thread q).ticked = (s.thread q).ticked := by
  rcases eq_or_ne q p with rfl | hq
  · simp [Sys.setStage, Sys.setThread]
  · simp [Sys.setStage, Sys.setThread, hq]

theorem Pending.of_sched (hcore : Core s) (hfit : Fit s) {k : Park} (ho : (s.cpu ()).loc = .on q)
    (h : Pending (Sys.sched { s with proc := t } () q k) b p) : p = q ∧ b = true := by
  rcases h with ht | ⟨hb, hg⟩
  · exfalso
    rcases eq_or_ne p q with rfl | hpq
    · simp [Sys.sched, Sys.setThread, Sys.setLoc] at ht
    · have hs : (s.thread p).ticked = true := by
        simpa [Sys.sched, Sys.setThread, Sys.setLoc, hpq] using ht
      have hp := (loc_of_ticked hcore hfit hs).symm.trans ho
      rw [Loc.on.injEq] at hp
      exact hpq hp
  · refine ⟨?_, hg⟩
    have hq : Loc.back q = Loc.back p := by
      simpa [Sys.sched, Sys.setThread, Sys.setLoc] using hb
    rw [Loc.back.injEq] at hq
    exact hq.symm

theorem gives_on (ho : (s.cpu ()).loc = .on q) (he : ∀ c, e ≠ .yield c) : gives s b e = false := by
  unfold gives
  rw [ho]
  cases e with
  | yield c => exact absurd rfl (he c)
  | _ => rfl

theorem not_pending_sched (hcore : Core s) (hfit : Fit s) {k : Park} (ho : (s.cpu ()).loc = .on q)
    (he : ∀ c, e ≠ .yield c) :
    ¬ Pending (Sys.sched { s with proc := t } () q k) (gives s b e) p := by
  intro h
  have hg := (Pending.of_sched hcore hfit ho h).2
  rw [gives_on ho he] at hg
  cases hg

theorem not_pending_posted (hcore : Core s) (hfit : Fit s) (hb : (s.cpu ()).loc = .back q)
    (hth : ∀ r, (u.thread r).ticked = (s.thread r).ticked) (hloc : ∀ r, (u.cpu ()).loc ≠ .back r) :
    ¬ Pending u b p := by
  rintro (h | ⟨h, _⟩)
  · have ho := loc_of_ticked hcore hfit ((hth p).symm.trans h)
    rw [hb] at ho
    cases ho
  · exact hloc p h

theorem Pending.before (hcore : Core s) (hfit : Fit s) (he : Effect s e u) (ht : ∀ c, e ≠ .tick c)
    (hw : ∀ chan, e = .wakeup chan → ∀ p, (s.thread p).ticked = false)
    (h : Pending u (gives s b e) p) : Pending s b p ∧
      ∀ i, i ≠ p → (u.proc i).state = .runnable → (s.proc i).state = .runnable := by
  -- steps of a process that may act: nothing is pending before, and nobody moves
  have hact : ∀ {q : Slot} {R : Prop}, (s.cpu ()).loc = .on q → (s.thread q).ticked = false →
      (∀ r, (u.thread r).ticked = true → (s.thread r).ticked = true) →
      (u.cpu ()).loc = (s.cpu ()).loc → R := fun ho hn hth hloc =>
    absurd (Pending.same hth hloc h) (not_pending_of_on hcore hfit ho hn)
  -- steps of a scheduler that runs nobody
  have hsch : ∀ {R : Prop}, (s.cpu ()).loc = .idle ∨ (∃ k, (s.cpu ()).loc = .scan k) →
      (∀ r, (u.thread r).ticked = (s.thread r).ticked) → (∀ q, (u.cpu ()).loc ≠ .back q) → R := by
    intro R hl hth hb
    rcases h with h | ⟨h, _⟩
    · exact absurd (.inl ((hth p).symm.trans h)) (not_pending_of_sched (b := b) hcore hfit hl)
    · exact absurd h (hb p)
  cases he with
  | stay | panic | postOut | tickOut =>
    exact ⟨Pending.same (fun _ h => h) rfl h, fun i _ hi => hi⟩
  | @passMlfq c q hl hi =>
    exact hsch (.inl hi) (fun r => by rw [thread_dispatch])
      fun r hb => by simpa [hi] using back_of_dispatch hb
  | @passRr c hl hi => exact hsch (.inl hi) (fun r => rfl) (fun q => by simp)
  | @scanRun c k q hk =>
    exact hsch (.inr ⟨k, hk⟩) (fun r => by rw [thread_dispatch])
      fun r hb => by simpa [hk] using back_of_dispatch hb
  | @scanEnd c k hk =>
    exact hsch (.inr ⟨k, hk⟩) (fun r => rfl) (fun q => by simp [Sys.setLoc])
  | @postRr c q hb =>
    exact absurd h (not_pending_posted hcore hfit hb (fun r => rfl) fun r => by simp [Sys.setLoc])
  | @postMlfq c q t hb =>
    exact absurd h (not_pending_posted hcore hfit hb (fun r => rfl) fun r => by simp [Sys.setLoc])
  | resume => exact ⟨Pending.same (fun _ h => h) rfl h, fun i _ hi => hi⟩
  | @resumeSlept c q hl ho =>
    refine ⟨Pending.same (fun _ h => h) rfl h, fun i _ hi => ?_⟩
    exact (setProc_state (q := { s.proc q with chan := none }) rfl i) ▸ hi
  | @resumeWait c q hl ho =>
    have hchan : ∀ i, ((s.setProc q { s.proc q with chan := none }).proc i).state =
        (s.proc i).state := setProc_state rfl
    rcases waitLoop_cases (s.setProc q { s.proc q with chan := none }) () q with
      ⟨j, _, _, hw'⟩ | ⟨_, _, hw'⟩ | ⟨_, _, _, hw'⟩
    · rw [hw'] at h ⊢
      refine ⟨Pending.same (fun _ h => h) rfl h, fun i _ hi => ?_⟩
      rcases eq_or_ne i j with rfl | hij
      · simp [Sys.note, Sys.setProc, reap] at hi
      · rw [← hchan i]
        simpa [Sys.note, Sys.setProc, hij] using hi
    · rw [hw'] at h ⊢
      exact ⟨Pending.same (fun _ h => h) rfl h, fun i _ hi => (hchan i) ▸ hi⟩
    · rw [hw'] at h
      exact absurd h (not_pending_sched hcore hfit ho (by simp))
  | @tick c => exact absurd rfl (ht c)
  | @yield c q ho hl =>
    obtain ⟨rfl, hg⟩ := Pending.of_sched hcore hfit ho h
    refine ⟨.inl ?_, fun i hi hr => ?_⟩
    · simpa [gives, ho] using hg
    · simpa [Sys.sched, Sys.setProc, Sys.setThread, Sys.setLoc, hi] using hr
  | @sleep c q chan hc =>
    exact absurd h (not_pending_sched hcore hfit hc.on (by simp))
  | @wakeup chan hl =>
    -- nothing is pending: no process has just been interrupted, and the lock is free
    rcases Pending.same (fun _ h => h) rfl h with hp | ⟨hb, _⟩
    · rw [hw chan rfl p] at hp
      cases hp
    · rw [(hcore.back () p hb).1] at hl
      cases hl
  | @exit c q t hc =>
    exact absurd h (not_pending_sched (t := update t q { t q with state := .zombie }) hcore
      hfit hc.on (by simp))
  | @wait c q hc =>
    rcases waitLoop_cases s () q with ⟨j, _, _, hw'⟩ | ⟨_, _, hw'⟩ | ⟨_, _, _, hw'⟩
    · rw [hw'] at h
      have hp : Pending s b p := Pending.same (fun _ h => h) rfl h
      exact absurd hp (not_pending_of_on hcore hfit hc.on hc.ticked)
    · rw [hw'] at h
      have hp : Pending s b p := Pending.same (fun _ h => h) rfl h
      exact absurd hp (not_pending_of_on hcore hfit hc.on hc.ticked)
    · rw [hw'] at h
      exact absurd h (not_pending_sched hcore hfit hc.on (by simp))
  | @kill c q pid i hc => exact hact hc.on hc.ticked (fun _ h => h) rfl
  | @fork c q i hc =>
    exact hact hc.on hc.ticked (fun r hr => by
      rw [← hr]
      exact (setStage_ticked (s.setProc i _) q r _).symm) rfl
  | @kalloc c q np hf =>
    refine hact hf.on hf.ticked (fun r hr => ?_) rfl
    rcases eq_or_ne r np with rfl | hrn
    · simp [Sys.setThread] at hr
    · have hst := setStage_ticked (s.setProc np { s.proc np with kstack := true }) q r (.copyuvm np)
      refine hst.symm.trans ?_
      simpa [Sys.setThread, hrn] using hr
  | @kallocFail c q np hf | @copyuvm c q np hf | @copyuvmFail c q np hf | @setParent c q np hf
  | @setRunnable c q np hf =>
    exact hact hf.on hf.ticked (fun r hr => by
      rw [← hr]
      exact (setStage_ticked (s.setProc np _) q r _).symm) rfl
  | @fatalTrap c q =>
    refine ⟨Pending.same (fun _ h => h) rfl h, fun i _ hi => ?_⟩
    exact (setProc_state (q := { s.proc q with killed := true }) rfl i) ▸ hi
  | setSchedPolicy => exact ⟨Pending.same (fun _ h => h) (by simp) h, fun i _ hi => hi⟩

/-! ### The kernel's counters against the ghosts -/

theorem wrap_le {x : ℤ} (h : -2 ^ 31 ≤ x) : -2 ^ 31 ≤ wrap x ∧ wrap x ≤ x := by
  have hlo : -2 ^ 31 ≤ wrap x := Int.le_bmod (by decide)
  refine ⟨hlo, ?_⟩
  rcases lt_or_ge x (2 ^ 31) with hx | hx
  · exact (Int.bmod_eq_of_le (by omega) (by omega)).le
  · have hhi : wrap x < 2 ^ 31 := Int.bmod_lt (by decide)
    omega

theorem le_counted (st : PState) (t : Table) (f : Slot → Fin 4 → ℕ) (i : Slot) (l : Fin 4) :
    f i l ≤ counted st t f i l := by
  unfold counted
  split_ifs
  · exact Nat.le_succ _
  · exact le_rfl

theorem counted_self {st : PState} {i : Slot} {l : Fin 4} (hs : (t i).state = st)
    (hl : level (t i).priority = some l) (f : Slot → Fin 4 → ℕ) :
    counted st t f i l = f i l + 1 := if_pos ⟨hs, hl⟩

theorem counted_other {st : PState} {i : Slot} (hs : (t i).state ≠ st) (f : Slot → Fin 4 → ℕ)
    (l : Fin 4) : counted st t f i l = f i l := if_neg fun h => hs h.1

theorem demote_within {q d : Proc} (h : WithinSlice q) (hd : demote q = some d) : d = q := by
  unfold demote at hd
  split_ifs at hd with hpos
  · obtain ⟨l, hl, rfl⟩ := map_eq_some_iff.mp hd
    have hq := level_eq_some.mp hl
    rcases h l hl with rfl | hlt
    · rw [hq] at hpos
      exact absurd hpos (by simp)
    · rw [if_neg (not_le.mpr hlt)]
  · exact (some.inj hd).symm

theorem priorityBoost1_wait (q : Proc) (l : Fin 4) :
    (priorityBoost1 q).waitTicks l = q.waitTicks l ∨ (priorityBoost1 q).waitTicks l = 0 := by
  unfold priorityBoost1
  split_ifs <;> simp only [update_apply, true_or] <;> split_ifs <;> simp

/-- The kernel's counters agree with the ghosts; and where an interrupt is still to be counted as
  waiting time, there is room for it. -/
structure Acct (x : Timed) : Prop where
  core : Core x.sys
  fit : Fit x.sys
  good : ∀ i, Good (x.sys.proc i)
  ticks : ∀ i l, (x.sys.proc i).ticks l = x.ran i l
  wait : ∀ i l, -2 ^ 31 ≤ (x.sys.proc i).waitTicks l ∧ (x.sys.proc i).waitTicks l ≤ x.waited i l
  pending : ∀ p, Pending x.sys x.byTimer p → ∀ i, i ≠ p → (x.sys.proc i).state = .runnable →
    ∀ l, level (x.sys.proc i).priority = some l → (x.sys.proc i).waitTicks l < x.waited i l

variable {x y : Timed}

theorem running_unique (hfit : Fit s) (ho : (s.cpu ()).loc = .on p) {i : Slot}
    (hi : (s.proc i).state = .running) : i = p := by
  obtain ⟨c, hc⟩ := hfit.placed i hi
  have hip : Loc.on i = Loc.on p := hc.symm.trans ho
  rwa [Loc.on.injEq] at hip

theorem Acct.quiet (h : Acct x) (he : Effect x.sys e u) (hs : SameAll x.sys.proc u.proc)
    (ht : ∀ c, e ≠ .tick c)
    (hw : ∀ chan, e = .wakeup chan → ∀ p, (x.sys.thread p).ticked = false) :
    Acct { x with sys := u, byTimer := gives x.sys x.byTimer e } := by
  refine ⟨h.core.effect he, h.fit.effect h.core he, good_step h.good he, fun i l => ?_,
    fun i l => ?_, fun p hp i hi hr l hl => ?_⟩
  · dsimp only
    rw [(hs i).ticks]
    exact h.ticks i l
  · dsimp only
    rw [(hs i).waitTicks]
    exact h.wait i l
  · obtain ⟨hbefore, hrun⟩ := Pending.before h.core h.fit he ht hw hp
    dsimp only at hl ⊢
    rw [(hs i).priority] at hl
    rw [(hs i).waitTicks]
    exact h.pending p hbefore i hi (hrun i hi hr) l hl

theorem Acct.tick (h : Acct x)
    (hG : ∀ p, (x.sys.cpu ()).loc = .on p → ∀ l, level (x.sys.proc p).priority = some l →
      (x.sys.proc p).ticks l + 1 < 2 ^ 31) (hs : Ptable.step x.sys (.tick c) = some u) :
    Acct { x.interrupt with sys := u, byTimer := gives x.sys x.byTimer (.tick c) } := by
  have he := (effect_of_step hs).2
  obtain ⟨p, q, hact, hq, rfl⟩ := step_tick h.good hs
  obtain ⟨ho, _, hn⟩ := acts_eq_some hact
  have hrun := h.core.on () p ho
  obtain ⟨k, hk, rfl⟩ := map_eq_some_iff.mp hq
  have hother : ∀ i, i ≠ p → (x.sys.proc i).state ≠ .running := fun i hi hr =>
    hi (running_unique h.fit ho hr)
  refine ⟨h.core.effect he, h.fit.effect h.core he, good_step h.good he, fun i l => ?_,
    fun i l => ?_, fun p' hp' i hi hr l hl => ?_⟩
  · rcases eq_or_ne i p with rfl | hip
    · rcases eq_or_ne l k with rfl | hlk
      · have hran := h.ticks i l
        have hwrap : wrap ((x.sys.proc i).ticks l + 1) = (x.sys.proc i).ticks l + 1 :=
          wrap_of_nonneg (by omega) (hG i ho l hk)
        rw [hran] at hwrap
        simp only [Timed.interrupt, Sys.setThread, Sys.setProc, update_self,
          counted_self hrun hk, hran, hwrap, Nat.cast_succ]
      · have hne : ¬ ((x.sys.proc i).state = .running ∧ level (x.sys.proc i).priority = some l) :=
          fun hx => hlk (some.inj (hx.2.symm.trans hk))
        simp only [Timed.interrupt, Sys.setThread, Sys.setProc, update_self,
          update_of_ne hlk, counted, if_neg hne]
        exact h.ticks i l
    · simp only [Timed.interrupt, Sys.setThread, Sys.setProc, update_of_ne hip,
        counted_other (hother i hip)]
      exact h.ticks i l
  · have hle := le_counted .runnable x.sys.proc x.waited i l
    obtain ⟨h0, h1⟩ := h.wait i l
    have hroom : -2 ^ 31 ≤ (x.sys.proc i).waitTicks l ∧
        (x.sys.proc i).waitTicks l ≤ (counted .runnable x.sys.proc x.waited i l : ℕ) :=
      ⟨h0, h1.trans (by exact_mod_cast hle)⟩
    rcases eq_or_ne i p with rfl | hip
    · simpa only [Timed.interrupt, Sys.setThread, Sys.setProc, update_self] using hroom
    · simpa only [Timed.interrupt, Sys.setThread, Sys.setProc, update_of_ne hip] using hroom
  · -- the process that took the interrupt is RUNNING, the others have just been counted
    have hip : i ≠ p := by
      rintro rfl
      simp [Sys.setThread, Sys.setProc, hrun] at hr
    simp only [Sys.setThread, Sys.setProc, update_of_ne hip] at hr hl ⊢
    have hc := counted_self hr hl x.waited
    have hle := (h.wait i l).2
    show (x.sys.proc i).waitTicks l < (counted .runnable x.sys.proc x.waited i l : ℕ)
    rw [hc]
    push_cast
    omega

theorem Acct.fork (h : Acct x) (hs : Ptable.step x.sys (.fork c) = some u) :
    Acct { x.created with sys := u, byTimer := gives x.sys x.byTimer (.fork c) } := by
  have he := (effect_of_step hs).2
  obtain ⟨⟨p, hc⟩, hu⟩ := step_fork hs
  have hslot : ∀ i, allocSlot x.sys.proc = some i ∧ (∀ l, (u.proc i).ticks l = 0) ∧
      (∀ l, (u.proc i).waitTicks l = 0) ∨
      allocSlot x.sys.proc ≠ some i ∧ u.proc i = x.sys.proc i := by
    intro i
    rcases hu with ⟨hn, hu⟩ | ⟨j, hj, hu⟩
    · exact .inr ⟨by simp [allocSlot, hn], by rw [hu]⟩
    · rcases eq_or_ne i j with rfl | hij
      · exact .inl ⟨hj, by simp [hu, embryo], by simp [hu, embryo]⟩
      · exact .inr ⟨by simpa [allocSlot, hj] using hij.symm, by simp [hu, hij]⟩
  refine ⟨h.core.effect he, h.fit.effect h.core he, good_step h.good he, fun i l => ?_,
    fun i l => ?_, fun p' hp' => ?_⟩
  · rcases hslot i with ⟨ha, ht, _⟩ | ⟨ha, hi⟩
    · simp only [Timed.created, if_pos ha, ht]
      rfl
    · simp only [Timed.created, if_neg ha, hi]
      exact h.ticks i l
  · rcases hslot i with ⟨ha, _, hw⟩ | ⟨ha, hi⟩
    · simp only [Timed.created, if_pos ha, hw]
      exact ⟨by decide, le_rfl⟩
    · simp only [Timed.created, if_neg ha, hi]
      exact h.wait i l
  · have hbefore := (Pending.before h.core h.fit he (by simp) (by simp) hp').1
    exact absurd hbefore (not_pending_of_on h.core h.fit hc.on hc.ticked)

theorem Acct.post (h : Acct x) (hb : (x.sys.cpu ()).loc = .back p)
    (hG : WithinSlice (x.sys.proc p) ∧
      (x.byTimer = true ∨ ∀ i, i ≠ p → (x.sys.proc i).state ≠ .runnable))
    (ht : mlfqAfter p x.sys.proc = some t) (i : Slot) (l : Fin 4) :
    (t i).ticks l = x.ran i l ∧ -2 ^ 31 ≤ (t i).waitTicks l ∧ (t i).waitTicks l ≤ x.waited i l := by
  obtain ⟨d, hd, hself, hother⟩ := mlfqAfter_apply ht
  have hboost : ∀ q : Proc, -2 ^ 31 ≤ q.waitTicks l ∧ q.waitTicks l ≤ x.waited i l →
      -2 ^ 31 ≤ (priorityBoost1 q).waitTicks l ∧ (priorityBoost1 q).waitTicks l ≤ x.waited i l := by
    intro q hq
    rcases priorityBoost1_wait q l with hw | hw
    · rwa [hw]
    · rw [hw]
      exact ⟨by decide, by positivity⟩
  rcases eq_or_ne i p with rfl | hip
  · rw [hself, demote_within hG.1 hd]
    refine ⟨?_, hboost _ (h.wait i l)⟩
    rw [priorityBoost1_ticks]
    exact h.ticks i l
  · rw [hother i hip]
    refine ⟨?_, hboost _ ?_⟩
    · rw [ticks_after]
      exact h.ticks i l
    · obtain ⟨k, _, hk⟩ := (h.good i).level
      rcases eq_or_ne (x.sys.proc i).state .runnable with hr | hr
      · -- it waits, so the switch was the timer's
        have hbt := hG.2.resolve_right fun hno => hno i hip hr
        have hroom := h.pending p (.inr ⟨hb, hbt⟩) i hip hr k hk
        rw [updateWaitTicks1_runnable hr hk]
        rcases eq_or_ne l k with rfl | hlk
        · have hw := wrap_le (show -2 ^ 31 ≤ (x.sys.proc i).waitTicks l + 1 by
            have := (h.wait i l).1
            omega)
          simp only [update_self]
          exact ⟨hw.1, by omega⟩
        · simp only [update_of_ne hlk]
          exact h.wait i l
      · rw [updateWaitTicks1, if_neg hr]
        exact h.wait i l

/-! ### Over a whole run -/

theorem Acct.step {e : TimedEv} (h : Acct x) (hG : Timely x e) (hs : x.step e = some y) : Acct y := by
  cases e with
  | base e =>
    obtain ⟨u, hu, rfl⟩ := map_eq_some_iff.mp hs
    have he := (effect_of_step hu).2
    -- the steps that touch no counter
    have hquiet : (∀ c, e ≠ .fork c) → (∀ c, e ≠ .tick c) → (∀ c, e ≠ .post c) →
        (∀ chan, e = .wakeup chan → ∀ p, (x.sys.thread p).ticked = false) →
        Acct { x with sys := u, byTimer := gives x.sys x.byTimer e } := by
      intro hf ht hp hw
      rcases he.changes with hc | ⟨c, _, _, hc, _⟩ | ⟨c, _, _, hc, _⟩ | ⟨c, _, hc, _⟩
      · exact h.quiet he hc ht hw
      · exact absurd hc (hf c)
      · exact absurd hc (ht c)
      · exact absurd hc (hp c)
    cases e with
    | tick c => exact h.tick hG hu
    | fork c => exact h.fork hu
    | post c =>
      have hsame : SameAll x.sys.proc x.sys.proc := fun i => Same.rfl' _
      have hcore := h.core.effect he
      have hfit := h.fit.effect h.core he
      have hgood := good_step h.good he
      cases he with
      | stay => exact h.quiet .stay hsame (by simp) (by simp)
      | panic msg => exact h.quiet (.panic msg) hsame (by simp) (by simp)
      | postOut hb ht => exact h.quiet (.postOut hb ht) hsame (by simp) (by simp)
      | postRr hb hr => exact h.quiet (.postRr hb hr) hsame (by simp) (by simp)
      | @postMlfq c p t hb hr ht =>
        have hall := h.post hb (hG p hb) ht
        refine ⟨hcore, hfit, hgood, fun i l => (hall i l).1, fun i l => (hall i l).2,
          fun p' hp' => absurd hp' (not_pending_of_sched hcore hfit (.inl ?_))⟩
        simp [Sys.setLoc]
    | wakeup chan => exact hquiet (by simp) (by simp) (by simp) (fun _ _ => hG)
    | _ => exact hquiet (by simp) (by simp) (by simp) (by simp)
  | idleTimer =>
    simp only [Timed.step] at hs
    split_ifs at hs with hi
    cases hs
    have hnone : ∀ i, (x.sys.proc i).state ≠ .running := by
      intro i hr
      obtain ⟨c, hc⟩ := h.fit.placed i hr
      have hc' := hc.symm.trans hi.2
      cases hc'
    refine ⟨h.core, h.fit, h.good, fun i l => ?_, fun i l => ⟨(h.wait i l).1, ?_⟩, fun p hp => ?_⟩
    · simp only [Timed.interrupt, counted_other (hnone i)]
      exact h.ticks i l
    · have hle := le_counted .runnable x.sys.proc x.waited i l
      exact (h.wait i l).2.trans (by exact_mod_cast hle)
    · exact absurd hp (not_pending_of_sched h.core h.fit (.inl hi.2))
  | timerExit => exact hG.elim

theorem acct_boot (policy : ℤ) : Acct (Timed.boot policy) := by
  have hzero : ∀ i l, ((Timed.boot policy).sys.proc i).ticks l = 0 ∧
      ((Timed.boot policy).sys.proc i).waitTicks l = 0 := by
    intro i l
    rcases eq_or_ne i initproc with rfl | hi
    · simp [Timed.boot, Ptable.boot, zeroProc]
    · simp [Timed.boot, Ptable.boot, zeroProc, hi]
  refine ⟨core_boot _, fit_boot _, good_boot _, fun i l => ?_, fun i l => ?_, fun p hp => ?_⟩
  · rw [(hzero i l).1]
    rfl
  · rw [(hzero i l).2]
    exact ⟨by decide, by positivity⟩
  · rcases hp with hp | ⟨hp, _⟩
    · cases hp
    · cases hp

/-- In every run on one CPU under MLFQ in which no counter overflows, no slice is used up, whoever
  switches while others wait is switched by the timer, nobody is woken between a tick and its
  `yield`, and the timer finds no killed process in user space, `getpinfo` reports the truth. -/
theorem pinfo_accounts (policy : ℤ) (x : Timed)
    (h : Reach Timed.step (fun x e => UnderMlfq x e ∧ Timely x e) (Timed.boot policy) x) :
    TrueAccounting x := by
  have hacct : Acct x := h.invariant (acct_boot policy) fun _ _ _ ht hG hs => ht.step hG.2 hs
  exact fun i _ l => ⟨hacct.ticks i l, (hacct.wait i l).2⟩

instance (p : Proc) : Decidable (WithinSlice p) := inferInstanceAs (Decidable (∀ _, _ → _ ∨ _))

instance (x : Timed) : (e : TimedEv) → Decidable (UnderMlfq x e)
  | .base e => inferInstanceAs (Decidable (MlfqOnly x.sys e))
  | .idleTimer | .timerExit => isTrue trivial

instance (x : Timed) : (e : TimedEv) → Decidable (Timely x e)
  | .base (.tick _) => inferInstanceAs (Decidable (∀ _, _ → ∀ _, _ → _))
  | .base (.post _) => inferInstanceAs (Decidable (∀ _, _ → _ ∧ (_ ∨ ∀ _, _ → _)))
  | .base (.wakeup _) => inferInstanceAs (Decidable (∀ _, _))
  | .timerExit => inferInstanceAs (Decidable False)
  | .idleTimer => isTrue trivial
  | .base (.pass _) | .base (.scan _) | .base (.resume _) | .base (.yield _) | .base (.sleep _ _)
  | .base (.kill _ _) | .base (.exit _) | .base (.wait _) | .base (.fork _) | .base (.kalloc _ _)
  | .base (.copyuvm _ _) | .base (.setParent _) | .base (.setRunnable _) | .base (.fatalTrap _)
  | .base (.setSchedPolicy _ _) => isTrue trivial

def initRuns : List TimedEv := [.base (.pass ()), .base (.resume ())]

def initForks : List TimedEv := [.base (.fork ()), .base (.kalloc () true),
  .base (.copyuvm () true), .base (.setParent ()), .base (.setRunnable ())]

/-- Init forks and takes two interrupts; its child waits, also for a third that finds the CPU idle. -/
theorem pinfo_accounts_two_ticks : ∃ x : Timed,
    Reach Timed.step (fun x e => UnderMlfq x e ∧ Timely x e) (Timed.boot 1) x ∧
      x.ran initproc 3 = 2 ∧ x.waited ⟨1, by decide⟩ 3 = 3 ∧ TrueAccounting x := by
  obtain ⟨x, hx, hobs⟩ := exists_reach (show (follow Timed.step
    (fun x e => UnderMlfq x e ∧ Timely x e) (Timed.boot 1) (initRuns ++ initForks ++
      [.base (.tick ()), .base (.yield ()), .base (.post ())] ++ initRuns ++
      [.base (.tick ()), .base (.yield ()), .base (.post ()), .idleTimer])).map
      (fun x => (x.ran initproc 3, x.waited ⟨1, by decide⟩ 3)) = some (2, 3) by decide +kernel)
  rw [Prod.mk.injEq] at hobs
  exact ⟨x, hx, hobs.1, hobs.2, pinfo_accounts 1 x hx⟩

/-- Init uses up its first slice of 8 ticks: `ticks[0][3]` is 0 again. And init forks and yields
  without any interrupt: `wait_ticks[1][3]` of its child is 1. -/
theorem pinfo_forgets : ∃ x y : Timed, Reach Timed.step UnderMlfq (Timed.boot 1) x ∧
    Reach Timed.step UnderMlfq (Timed.boot 1) y ∧
    ((getpinfo x.sys.proc).ticks initproc 3 = 0 ∧ x.ran initproc 3 = 8 ∧ ¬ TrueAccounting x) ∧
    ((getpinfo y.sys.proc).waitTicks ⟨1, by decide⟩ 3 = 1 ∧ y.waited ⟨1, by decide⟩ 3 = 0 ∧
      ¬ TrueAccounting y) := by
  let round : List TimedEv := initRuns ++ [.base (.tick ()), .base (.yield ()), .base (.post ())]
  obtain ⟨x, hx, hobs⟩ := exists_reach (show (follow Timed.step UnderMlfq (Timed.boot 1)
    (round ++ round ++ round ++ round ++ round ++ round ++ round ++ round)).map (fun x =>
      ((getpinfo x.sys.proc).inuse initproc, (getpinfo x.sys.proc).ticks initproc 3,
        x.ran initproc 3)) = some (true, 0, 8) by decide +kernel)
  obtain ⟨y, hy, hobs'⟩ := exists_reach (show (follow Timed.step UnderMlfq (Timed.boot 1)
    (initRuns ++ initForks ++ [.base (.yield ()), .base (.post ())])).map (fun x =>
      ((getpinfo x.sys.proc).inuse ⟨1, by decide⟩, (getpinfo x.sys.proc).waitTicks ⟨1, by decide⟩ 3,
        x.waited ⟨1, by decide⟩ 3)) = some (true, 1, 0) by decide +kernel)
  simp only [Prod.mk.injEq] at hobs hobs'
  obtain ⟨hu, ht, hr⟩ := hobs
  obtain ⟨hu', hw, hn⟩ := hobs'
  refine ⟨x, y, hx, hy, ⟨ht, hr, fun htrue => ?_⟩, ⟨hw, hn, fun htrue => ?_⟩⟩
  · have hticks := (htrue initproc hu 3).1
    rw [ht, hr] at hticks
    exact absurd hticks (by decide)
  · have hwait := (htrue _ hu' 3).2
    rw [hw, hn] at hwait
    exact absurd hwait (by decide)

end Xv6.Ptable

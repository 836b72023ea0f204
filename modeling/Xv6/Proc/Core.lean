import Xv6.Proc.Sys

/-! @src proc.c | part:who runs where | scheme:machine

  The invariant every other result about processes rests on: a CPU runs a `RUNNING` process, no
  two CPUs run the same one, the scheduler holds the lock while it works, and the slot a `fork` is
  building is an `EMBRYO` that belongs to that `fork` alone. -/

namespace Xv6.Ptable
open Schemes
open Function (update update_apply update_of_ne)

def PState.live (x : PState) : Prop := x = .sleeping ∨ x = .runnable ∨ x = .running

structure Core {C : Type} (s : Sys C) : Prop where
  on : ∀ c p, (s.cpu c).loc = .on p → (s.proc p).state = .running
  onInj : ∀ c d p, (s.cpu c).loc = .on p → (s.cpu d).loc = .on p → c = d
  back : ∀ c p, (s.cpu c).loc = .back p → s.lock = some c ∧
    ((s.proc p).state = .runnable ∨ (s.proc p).state = .sleeping ∨ (s.proc p).state = .zombie)
  scan : ∀ c k, (s.cpu c).loc = .scan k → s.lock = some c
  held : ∀ c, s.lock = some c → (s.cpu c).loc ≠ .idle
  ticked : ∀ p, (s.thread p).ticked = true → (s.proc p).state = .running
  child : ∀ p np, (s.thread p).stage.child = some np → (s.proc np).state = .embryo ∧
    (s.proc p).state.live
  childInj : ∀ p q np, (s.thread p).stage.child = some np → (s.thread q).stage.child = some np →
    p = q

variable {C : Type} [DecidableEq C] {s u : Sys C} {e : Ev C} {c : C} {p : Slot}

/-! ### Groups of steps -/

def Wakes (t t' : Table) : Prop := ∀ i, (t' i).state = (t i).state ∨
  (t i).state = .sleeping ∧ (t' i).state = .runnable

omit [DecidableEq C] in
/-- Waking sleepers up moves nobody. -/
theorem Core.wakes (h : Core s) (hp : Wakes s.proc u.proc) (ht : u.thread = s.thread)
    (hc : ∀ c, (u.cpu c).loc = (s.cpu c).loc) (hl : u.lock = s.lock) : Core u := by
  obtain ⟨on, onInj, back, scan, held, ticked, child, childInj⟩ := h
  constructor <;> simp only [ht, hc, hl, Wakes, PState.live] at *
  case on => grind
  case onInj => exact onInj
  case back => grind
  case scan => exact scan
  case held => exact held
  case ticked | child => grind
  case childInj => exact childInj

theorem Core.release (h : Core s) {l : Loc} (hp : ∀ i, (u.proc i).state = (s.proc i).state)
    (ht : u.thread = s.thread) (hs : s.lock = some c) (hl : u.lock = none)
    (hc : ∀ d, (u.cpu d).loc = if d = c then l else (s.cpu d).loc)
    (hcl : l = .idle ∨ ∃ p, l = .on p ∧ (s.cpu c).loc = .on p) : Core u := by
  obtain ⟨on, onInj, back, scan, held, ticked, child, childInj⟩ := h
  constructor <;> simp only [ht, hl, hp, hc]
  case on | onInj | back | scan => grind
  case held => simp
  case ticked => exact ticked
  case child => exact child
  case childInj => exact childInj

variable {q : Slot} {t : Table}

theorem Core.dispatch (h : Core s) (hq : (s.proc q).state = .runnable)
    (hc : (s.cpu c).loc = .idle ∧ s.lock = none ∨ ∃ k, (s.cpu c).loc = .scan k) :
    Core (s.dispatch c q) := by
  rcases dispatch_cases s c q with ⟨msg, hd⟩ | hd
  · rw [hd]; exact h.wakes (fun _ => .inl rfl) rfl (fun _ => rfl) rfl
  rw [hd]
  obtain ⟨on, onInj, back, scan, held, ticked, child, childInj⟩ := h
  constructor <;> simp only [Sys.setProc, Sys.setLoc, update_apply, PState.live] at *
  all_goals grind

theorem Core.sched (h : Core s) {k : Park} (ho : (s.cpu c).loc = .on p)
    (hl : s.lock = none ∨ s.lock = some c)
    (hp : (t p).state = .runnable ∨ (t p).state = .sleeping ∨
      (t p).state = .zombie ∧ (s.thread p).stage = .user)
    (ht : ∀ i, i ≠ p → (t i).state = (s.proc i).state ∨
      (s.proc i).state = .sleeping ∧ (t i).state = .runnable) :
    Core (Sys.sched { s with proc := t } c p k) := by
  obtain ⟨on, onInj, back, scan, held, ticked, child, childInj⟩ := h
  constructor <;> simp only [Sys.sched, Sys.setThread, Sys.setLoc, update_apply,
    PState.live] at *
  all_goals grind [Stage.child]

section
omit [DecidableEq C]

/-- A slot nobody is building changes between `UNUSED`, `ZOMBIE` and `EMBRYO`, or a `fork` moves on:
  the stage of `p` becomes `g`. -/
theorem Core.forks (h : Core s) {np : Slot} {q : Proc} {g : Stage} (ho : (s.cpu c).loc = .on p)
    (hs : (s.thread p).stage.child = some np ∨
      (s.thread p).stage = .user ∧ (s.proc np).state = .unused)
    (hg : g.child = some np ∧ q.state = .embryo ∨
      g = .user ∧ (q.state = .unused ∨ q.state = .runnable)) :
    Core ((s.setProc np q).setStage p g) := by
  obtain ⟨on, onInj, back, scan, held, ticked, child, childInj⟩ := h
  constructor <;> simp only [Sys.setProc, Sys.setStage, Sys.setThread, update_apply,
    PState.live] at *
  all_goals grind [Stage.child]

/-- A new thread has done nothing yet. -/
theorem Core.fresh (h : Core s) (i : Slot) : Core (s.setThread i ⟨.user, .forkret, false⟩) := by
  obtain ⟨on, onInj, back, scan, held, ticked, child, childInj⟩ := h
  constructor <;> simp only [Sys.setThread, update_apply]
  case on => exact on
  case onInj => exact onInj
  case back => exact back
  case scan => exact scan
  case held => exact held
  case ticked => grind
  case child | childInj => grind [Stage.child]

/-- A zombie's slot is freed. -/
theorem Core.reap (h : Core s) {i : Slot} (hz : (s.proc i).state = .zombie) (hl : s.lock = none ∨
    ∃ p, s.lock = some c ∧ (s.cpu c).loc = .on p) {ns : List Note} :
    Core { s.setProc i (reap (s.proc i)) with lock := none, hist := ns } := by
  obtain ⟨on, onInj, back, scan, held, ticked, child, childInj⟩ := h
  constructor <;> simp only [Sys.setProc, Ptable.reap, update_apply, PState.live] at *
  all_goals grind

/-- Who holds the lock is forgotten when its holder is running a process. -/
theorem Core.unlock (h : Core s) (ho : (s.cpu c).loc = .on p)
    (hl : s.lock = none ∨ s.lock = some c) {ns : List Note} :
    Core { s with lock := none, hist := ns } := by
  obtain ⟨on, onInj, back, scan, held, ticked, child, childInj⟩ := h
  constructor <;> simp only
  all_goals grind

end

theorem Core.waitLoop (h : Core s) (ho : (s.cpu c).loc = .on p)
    (hl : s.lock = none ∨ s.lock = some c) : Core (s.waitLoop c p) := by
  rcases waitLoop_cases s c p with ⟨i, _, hz, hw⟩ | ⟨_, _, hw⟩ | ⟨_, _, _, hw⟩
  · rw [hw]
    exact h.reap (c := c) hz (hl.imp id fun hl => ⟨p, hl, ho⟩)
  · rw [hw]
    exact h.unlock ho hl
  · rw [hw]
    refine h.sched ho hl (.inr (.inl ?_)) (fun i hi => .inl ?_)
    · simp
    · rw [update_of_ne hi]

/-! ### Every step keeps it -/

theorem mlfqSelect_runnable (h : mlfqSelect t = some q) : (t q).state = .runnable := by
  obtain ⟨prio, _, hf⟩ := List.exists_of_findSome?_eq_some h
  have := findSlot_some hf
  simp only [decide_eq_true_eq] at this
  exact this.1

theorem rrNext_runnable {k : ℕ} (h : rrNext k t = some q) : (t q).state = .runnable := by
  have := findSlot_some h
  simp only [decide_eq_true_eq] at this
  exact this.2

theorem wakes_wakeup1 (chan : Option Chan) (t : Table) : Wakes t (wakeup1 chan t) := by
  intro i
  unfold wakeup1
  split_ifs with hw
  · exact .inr ⟨hw.1, rfl⟩
  · exact .inl rfl

theorem wakes_reparent (cur : Slot) (t : Table) : Wakes t (reparent cur t) := by
  intro i
  rw [reparent_apply]
  dsimp only
  split_ifs with hw
  · exact .inr ⟨hw.2.1, rfl⟩
  · exact .inl rfl

theorem Wakes.trans {t1 t2 t3 : Table} (h : Wakes t1 t2) (h' : Wakes t2 t3) : Wakes t1 t3 := by
  intro i
  rcases h i with h1 | ⟨h1, h2⟩
  · rcases h' i with h3 | ⟨h3, h4⟩
    · exact .inl (h3.trans h1)
    · exact .inr ⟨h1 ▸ h3, h4⟩
  · rcases h' i with h3 | ⟨h3, _⟩
    · exact .inr ⟨h1, h3.trans h2⟩
    · rw [h2] at h3; cases h3

omit [DecidableEq C] in
theorem setProc_state {i : Slot} {q : Proc} (h : q.state = (s.proc i).state) (j : Slot) :
    ((s.setProc i q).proc j).state = (s.proc j).state := by
  rcases eq_or_ne j i with rfl | hj
  · simpa [Sys.setProc] using h
  · simp [Sys.setProc, hj]

theorem Core.effect (h : Core s) (he : Effect s e u) : Core u := by
  have hsame : ∀ v : Sys C, (∀ i, (v.proc i).state = (s.proc i).state) → v.thread = s.thread →
      (∀ c, (v.cpu c).loc = (s.cpu c).loc) → v.lock = s.lock → Core v := fun v hv ht hc hl =>
    h.wakes (fun i => .inl (hv i)) ht hc hl
  cases he with
  | stay => exact h
  | panic | postOut | tickOut => exact hsame _ (fun _ => rfl) rfl (fun _ => rfl) rfl
  | @passMlfq c q hl hi hp hq =>
    have hrr : Core { s with cpu := update s.cpu c { s.cpu c with rr := false } } :=
      hsame _ (fun _ => rfl) rfl (fun d => by
        rcases eq_or_ne d c with rfl | hd
        · simp
        · simp [hd]) rfl
    exact hrr.dispatch (mlfqSelect_runnable hq) (.inl ⟨by simpa using hi, hl⟩)
  | @passRr c hl hi hp =>
    obtain ⟨on, onInj, back, scan, held, ticked, child, childInj⟩ := h
    constructor <;> simp only [update_apply]
    all_goals grind
  | scanRun hk hq => exact h.dispatch (rrNext_runnable hq) (.inr ⟨_, hk⟩)
  | @scanEnd c k hk hq =>
    refine h.release (c := c) (fun _ => rfl) rfl (h.scan c k hk) rfl (l := .idle) (fun d => ?_)
      (.inl rfl)
    simp only [Sys.setLoc, update_apply]
    split_ifs <;> rfl
  | @postRr c p hb hr =>
    have hlock := (h.back c p hb).1
    obtain ⟨on, onInj, back, scan, held, ticked, child, childInj⟩ := h
    constructor <;> simp only [Sys.setLoc, update_apply]
    all_goals grind
  | @postMlfq c p t hb hr ht =>
    refine h.release (c := c) (fun i => (accounts_mlfqAfter ht i).state) rfl
      (h.back c p hb).1 rfl (l := .idle) (fun d => ?_) (.inl rfl)
    simp only [Sys.setLoc, update_apply]
    split_ifs <;> rfl
  | resume hl ho => exact h.unlock ho (.inr hl)
  | @resumeSlept c p hl ho hp =>
    have hcore : Core (s.setProc p { s.proc p with chan := none }) :=
      hsame _ (setProc_state rfl) rfl (fun _ => rfl) rfl
    exact hcore.unlock ho (.inr hl)
  | @resumeWait c p hl ho hp =>
    have hcore : Core (s.setProc p { s.proc p with chan := none }) :=
      hsame _ (setProc_state rfl) rfl (fun _ => rfl) rfl
    exact hcore.waitLoop ho (.inr hl)
  | @tick c p q ho hl hn hq =>
    have hrun := h.on c p ho
    have hst : ∀ i, ((s.setProc p q).proc i).state = (s.proc i).state :=
      setProc_state (accounts_tick hq).state
    obtain ⟨on, onInj, back, scan, held, ticked, child, childInj⟩ := h
    constructor <;> simp only [Sys.setThread, hst, update_apply, Sys.setProc_thread,
      Sys.setProc_cpu, Sys.setProc_lock]
    case ticked | child | childInj => grind
    case on => exact on
    case onInj => exact onInj
    case back => exact back
    case scan => exact scan
    case held => exact held
  | yield ho hl =>
    exact h.sched ho (.inl hl) (.inl (by simp)) (fun i hi => .inl (by simp [hi]))
  | sleep hc =>
    exact h.sched hc.on (.inl hc.lock) (.inr (.inl (by simp)))
      (fun i hi => .inl (by simp [hi]))
  | wakeup hl => exact h.wakes (wakes_wakeup1 _ _) rfl (fun _ => rfl) rfl
  | @kill c p pid i hc hi =>
    refine h.wakes (fun j => ?_) rfl (fun _ => rfl) rfl
    rcases eq_or_ne j i with rfl | hj
    · rcases eq_or_ne (s.proc j).state .sleeping with hs | hs
      · exact .inr ⟨hs, by simp [Sys.setProc, kill1, hs]⟩
      · exact .inl (by simp [Sys.setProc, kill1, hs])
    · exact .inl (by simp [Sys.setProc, hj])
  | @exit c p t hc hp ht =>
    have hw : Wakes s.proc t := ht ▸ (wakes_wakeup1 _ _).trans (wakes_reparent _ _)
    have hcore : Core (Sys.sched { s with
        proc := update t p { t p with state := .zombie } } c p .exited) :=
      h.sched hc.on (.inl hc.lock) (.inr (.inr ⟨by simp, hc.stage⟩))
        (fun i hi => by simpa [hi] using hw i)
    exact hcore.wakes (fun _ => .inl rfl) rfl (fun _ => rfl) rfl
  | wait hc => exact h.waitLoop hc.on (.inl hc.lock)
  | @fork c p i hc hi =>
    have hun := findSlot_some hi
    simp only [decide_eq_true_eq] at hun
    have hcore : Core ((s.setProc i (embryo s.nextpid (s.proc i))).setStage p (.kalloc i)) :=
      h.forks hc.on (.inr ⟨hc.stage, hun⟩) (.inl ⟨rfl, rfl⟩)
    exact hcore.wakes (fun _ => .inl rfl) rfl (fun _ => rfl) rfl
  | @kalloc c p np hf =>
    have hst := (h.child p np (by rw [hf.stage]; rfl)).1
    have hcore : Core ((s.setProc np { s.proc np with kstack := true }).setStage p (.copyuvm np)) :=
      h.forks hf.on (.inl (by rw [hf.stage]; rfl)) (.inl ⟨rfl, hst⟩)
    exact hcore.fresh np
  | kallocFail hf =>
    exact h.forks hf.on (.inl (by rw [hf.stage]; rfl)) (.inr ⟨rfl, .inl rfl⟩)
  | @copyuvm c p np hf =>
    have hst := (h.child p np (by rw [hf.stage]; rfl)).1
    exact h.forks hf.on (.inl (by rw [hf.stage]; rfl)) (.inl ⟨rfl, hst⟩)
  | copyuvmFail hf =>
    exact h.forks hf.on (.inl (by rw [hf.stage]; rfl)) (.inr ⟨rfl, .inl rfl⟩)
  | @setParent c p np hf =>
    have hst := (h.child p np (by rw [hf.stage]; rfl)).1
    exact h.forks hf.on (.inl (by rw [hf.stage]; rfl)) (.inl ⟨rfl, hst⟩)
  | @setRunnable c p np hf hl =>
    have hcore : Core ((s.setProc np { s.proc np with state := .runnable }).setStage p .user) :=
      h.forks hf.on (.inl (by rw [hf.stage]; rfl)) (.inr ⟨rfl, .inr rfl⟩)
    exact hcore.wakes (fun _ => .inl rfl) rfl (fun _ => rfl) rfl
  | fatalTrap ho hl => exact hsame _ (setProc_state rfl) rfl (fun _ => rfl) rfl
  | @setSchedPolicy c p policy ho hl =>
    refine hsame _ (fun _ => rfl) rfl (fun d => ?_) rfl
    rcases eq_or_ne d c with rfl | hd
    · simp
    · simp [hd]

omit [DecidableEq C] in
theorem core_boot (policy : C → ℤ) : Core (boot policy) := by
  constructor <;> simp [boot, Stage.child]

theorem core_of_reach {G : Sys C → Ev C → Prop} {policy : C → ℤ} (h : Reach step G (boot policy) s) :
    Core s :=
  h.invariant (core_boot policy) fun _ _ _ hc _ hs => hc.effect (effect_of_step hs).2

end Xv6.Ptable

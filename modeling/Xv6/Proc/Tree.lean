import Xv6.Proc.Core

/-! @src proc.c | part:parents and children | scheme:machine

  What the steps do to the process tree, and the two invariants of the tree: everybody's parent is
  alive, and nobody sleeps in `wait` past a dead child. A slot goes round

      UNUSED --alloc--> EMBRYO --adopt--> EMBRYO with a parent --born--> live --exit--> ZOMBIE
         ^                 | drop                                                        |
         +-----------------+                                                             |
         +---------------------------------- reap <--------------------------------------+ -/

namespace Xv6.Ptable
open Schemes
open Function
open Option (some)

variable {C : Type} [DecidableEq C] {s u : Sys C} {e : Ev C} {c : C} {i p : Slot}

/-! ### What a step does to the tree -/

variable {x : PState} {q : Proc} {t : Table}

theorem PState.live_of_running (h : x = .running) : x.live := .inr (.inr h)

theorem PState.not_live (h : x = .unused ∨ x = .embryo ∨ x = .zombie) : ¬ x.live := by
  rcases h with rfl | rfl | rfl <;> simp [PState.live]

structure Kept (p q : Proc) : Prop where
  state : q.state = p.state ∨ p.state.live ∧ q.state.live
  pid : q.pid = p.pid
  parent : q.parent = p.parent

theorem Kept.live {p : Proc} (h : Kept p q) : q.state.live ↔ p.state.live := by
  rcases h.state with hs | ⟨hp, hq⟩
  · rw [hs]
  · exact iff_of_true hq hp

theorem Kept.dead {p : Proc} (h : Kept p q) (hx : x = .unused ∨ x = .embryo ∨ x = .zombie)
    : q.state = x ↔ p.state = x := by
  rcases h.state with hs | ⟨hp, hq⟩
  · rw [hs]
  · constructor
    · rintro rfl; exact absurd hq (PState.not_live hx)
    · rintro rfl; exact absurd hp (PState.not_live hx)

structure Kin (p q : Proc) : Prop extends Kept p q where
  sleep : q.state = .sleeping → (p.state = .sleeping ∧ q.chan = p.chan ∧ q.killed = p.killed) ∨
    ∃ a, q.chan = some (.addr a)

theorem Kin.refl (p : Proc) : Kin p p := ⟨⟨.inl rfl, rfl, rfl⟩, fun h => .inl ⟨h, rfl, rfl⟩⟩

def Stages (s u : Sys C) : Prop := ∀ p np, (u.thread p).stage = .run np ↔ (s.thread p).stage = .run np

structure Ledger (s u : Sys C) : Prop where
  nextpid : u.nextpid = s.nextpid
  allocs : u.allocs = s.allocs

structure Left (p : Slot) (t t' : Table) : Prop where
  self : (t' p).state = .zombie
  state : ∀ i, i ≠ p → (t' i).state = (t i).state ∨ (t i).state = .sleeping ∧ (t' i).state = .runnable
  pid : ∀ i, (t' i).pid = (t i).pid
  parent : ∀ i, (t' i).parent = if (t i).parent = some p then some initproc else (t i).parent
  sleep : ∀ i, i ≠ p → (t' i).state = .sleeping → (t i).state = .sleeping ∧
    (t' i).chan = (t i).chan ∧ (t' i).killed = (t i).killed ∧
    (t i).chan ≠ (t p).parent.map .proc ∧
    ((t i).chan = some (.proc initproc) → ∀ j, (t j).parent = some p → (t j).state ≠ .zombie)

inductive Lineage (s u : Sys C) : Prop
  | same (k : ∀ i, Kin (s.proc i) (u.proc i)) (g : Stages s u) (l : Ledger s u) (h : u.hist = s.hist)
  | doze {p : Slot} (hr : (s.proc p).state = .running)
      (hz : ∀ i, (s.proc i).parent = some p → (s.proc i).state ≠ .zombie)
      (hc : ∃ i, (s.proc i).parent = some p) (hk : (s.proc p).killed = false)
      (k : ∀ i, i ≠ p → Kin (s.proc i) (u.proc i))
      (hp : u.proc p = { s.proc p with chan := some (.proc p), state := .sleeping })
      (g : Stages s u) (l : Ledger s u) (h : u.hist = s.hist)
  | childless {p : Slot} (hr : (s.proc p).state = .running)
      (hn : (∀ i, (s.proc i).parent ≠ some p) ∨ (s.proc p).killed = true)
      (k : ∀ i, Kin (s.proc i) (u.proc i)) (g : Stages s u) (l : Ledger s u)
      (h : u.hist = s.hist ++ [.waited (s.proc p).pid (-1)])
  | reap {p i : Slot} (hr : (s.proc p).state = .running) (hi : (s.proc i).parent = some p)
      (hz : (s.proc i).state = .zombie) (k : ∀ j, j ≠ i → Kin (s.proc j) (u.proc j))
      (hu : u.proc i = reap (s.proc i)) (g : Stages s u) (l : Ledger s u)
      (h : u.hist = s.hist ++ [.waited (s.proc p).pid (s.proc i).pid])
  | exit {p : Slot} (hr : (s.proc p).state = .running) (hp : p ≠ initproc)
      (hs : (s.thread p).stage = .user) (k : Left p s.proc u.proc) (g : Stages s u) (l : Ledger s u)
      (h : u.hist = s.hist ++ [.exited (s.proc p).pid])
  | alloc {i : Slot} (hi : (s.proc i).state = .unused)
      (hu : u.proc = update s.proc i (embryo s.nextpid (s.proc i))) (g : Stages s u)
      (hn : u.nextpid = wrap (s.nextpid + 1)) (ha : u.allocs = s.allocs + 1) (h : u.hist = s.hist)
  | drop {p np : Slot} (hs : (s.thread p).stage = .kalloc np ∨ (s.thread p).stage = .copyuvm np)
      (k : ∀ j, j ≠ np → u.proc j = s.proc j) (hu : (u.proc np).state = .unused)
      (hp : (u.proc np).parent = (s.proc np).parent)
      (g : Stages s u) (l : Ledger s u) (h : u.hist = s.hist)
  | adopt {p np : Slot} (hr : (s.proc p).state = .running) (hs : (s.thread p).stage = .parent np)
      (hu : u.proc = update s.proc np { s.proc np with parent := some p })
      (g : ∀ q x, (u.thread q).stage = .run x ↔ if q = p then x = np else (s.thread q).stage = .run x)
      (l : Ledger s u) (h : u.hist = s.hist)
  | born {p np : Slot} (hr : (s.proc p).state = .running) (hs : (s.thread p).stage = .run np)
      (hu : u.proc = update s.proc np { s.proc np with state := .runnable })
      (g : ∀ q x, (u.thread q).stage = .run x ↔ q ≠ p ∧ (s.thread q).stage = .run x)
      (l : Ledger s u) (h : u.hist = s.hist ++ [.forked (s.proc p).pid (s.proc np).pid])

omit [DecidableEq C] in
theorem Stages.refl (h : u.thread = s.thread) : Stages s u := fun p np => by rw [h]

theorem kin_update {x : Proc} (h : Kin (t p) x) (i : Slot) : Kin (t i) (update t p x i) := by
  rcases eq_or_ne i p with rfl | hip
  · rwa [update_self]
  · rw [update_of_ne hip]; exact Kin.refl _

theorem Kin.of_live {p : Proc} (hp : p.state.live)
    (hq : q.state = .runnable ∨ q.state = .running ∨
    q.state = .sleeping ∧ ∃ a, q.chan = some (.addr a)) (hpid : q.pid = p.pid)
    (hpar : q.parent = p.parent) : Kin p q := by
  rcases hq with hq | hq | ⟨hq, ha⟩
  · exact ⟨⟨.inr ⟨hp, .inr (.inl hq)⟩, hpid, hpar⟩, fun hs => by rw [hq] at hs; cases hs⟩
  · exact ⟨⟨.inr ⟨hp, .inr (.inr hq)⟩, hpid, hpar⟩, fun hs => by rw [hq] at hs; cases hs⟩
  · exact ⟨⟨.inr ⟨hp, .inl hq⟩, hpid, hpar⟩, fun _ => .inr ha⟩

omit [DecidableEq C] in
/-- Moving on in `fork` between stages that are not the last. -/
theorem stages_setStage {g : Stage} (hs : ∀ np, (s.thread p).stage ≠ .run np) (hg : ∀ np, g ≠ .run np) :
    Stages s (s.setStage p g) := by
  intro q np
  rcases eq_or_ne q p with rfl | hqp
  · simp [Sys.setStage, Sys.setThread, hs, hg]
  · simp [Sys.setStage, Sys.setThread, hqp]

theorem stages_sched {k : Park} : Stages s (Sys.sched { s with proc := t } c p k) := by
  intro q np
  rcases eq_or_ne q p with rfl | hqp
  · simp [Sys.sched, Sys.setLoc, Sys.setThread]
  · simp [Sys.sched, Sys.setLoc, Sys.setThread, hqp]

theorem Kin.of_eq {p : Proc} (hs : q.state = p.state) (hpid : q.pid = p.pid)
    (hpar : q.parent = p.parent) (hc : q.chan = p.chan) (hk : q.killed = p.killed) : Kin p q :=
  ⟨⟨.inl hs, hpid, hpar⟩, fun h => .inl ⟨hs.symm.trans h, hc, hk⟩⟩

theorem Accounts.kin {p : Proc} (h : Accounts p q) : Kin p q := by
  unfold Accounts at h
  rw [h]
  exact .of_eq rfl rfl rfl rfl rfl

theorem lineage_dispatch {q : Slot} (hq : (s.proc q).state = .runnable) (f : C → Cpu) :
    Lineage s (Sys.dispatch { s with cpu := f } c q) := by
  rcases dispatch_cases { s with cpu := f } c q with ⟨msg, hd⟩ | hd
  · rw [hd]; exact .same (fun i => Kin.refl _) (.refl rfl) ⟨rfl, rfl⟩ rfl
  · rw [hd]
    exact .same (kin_update (x := { s.proc q with state := .running })
      (.of_live (.inr (.inl hq)) (.inr (.inl rfl)) rfl rfl)) (.refl rfl) ⟨rfl, rfl⟩ rfl

theorem kin_wakeup1 (chan : Option Chan) (t : Table) (i : Slot) : Kin (t i) (wakeup1 chan t i) := by
  unfold wakeup1
  split_ifs with h
  · exact .of_live (.inl h.1) (.inl rfl) rfl rfl
  · exact Kin.refl _

theorem lineage_waitLoop (hr : (s.proc p).state = .running) {x : Option Chan} :
    Lineage s ((s.setProc p { s.proc p with chan := x }).waitLoop c p) := by
  set v := s.setProc p { s.proc p with chan := x } with hv
  have hkin : ∀ i, Kin (s.proc i) (v.proc i) := kin_update (x := { s.proc p with chan := x })
    (.of_live (PState.live_of_running hr) (.inr (.inl hr)) rfl rfl)
  have hpar : ∀ i, (v.proc i).parent = (s.proc i).parent := fun i => (hkin i).parent
  have hst : ∀ i, (v.proc i).state = (s.proc i).state := setProc_state rfl
  have hp : v.proc p = { s.proc p with chan := x } := update_self ..
  rcases waitLoop_cases v c p with ⟨i, hi, hz, hw⟩ | ⟨hz, hn, hw⟩ | ⟨hz, hc, hk, hw⟩
  · rw [hpar] at hi
    rw [hst] at hz
    have hip : i ≠ p := by rintro rfl; rw [hr] at hz; cases hz
    have hvi : v.proc i = s.proc i := update_of_ne hip ..
    rw [hw]
    refine .reap hr hi hz (fun j hj => ?_) ?_ (.refl rfl) ⟨rfl, rfl⟩ ?_
    · simpa [Sys.note, Sys.setProc, hj] using hkin j
    · simp [Sys.note, Sys.setProc, hvi]
    · simp [Sys.note, hp, hvi, show (v.setProc i (reap (s.proc i))).hist = s.hist from rfl]
  · rw [hw]
    simp only [hpar, hp] at hn
    refine .childless hr hn hkin (.refl rfl) ⟨rfl, rfl⟩ ?_
    simp [Sys.note, hp, show v.hist = s.hist from rfl]
  · simp only [hpar, hst] at hz hc
    simp only [hp] at hk
    rw [hw]
    refine .doze hr hz hc hk (fun i hi => ?_) ?_ stages_sched ⟨rfl, rfl⟩ rfl
    · simpa [Sys.sched, Sys.setLoc, Sys.setThread, Sys.setProc, hi] using hkin i
    · simp [Sys.sched, Sys.setLoc, Sys.setThread, Sys.setProc, hp]

theorem wakeup1_sleeping {chan : Option Chan} (h : (wakeup1 chan t i).state = .sleeping) :
    wakeup1 chan t i = t i ∧ (t i).chan ≠ chan := by
  unfold wakeup1 at h ⊢
  split_ifs at h ⊢ with hx
  exact ⟨rfl, fun hc => hx ⟨h, hc⟩⟩

theorem left_of_exit {t' : Table} (ht : t' = reparent p (wakeup1 ((t p).parent.map .proc) t)) :
    Left p t (update t' p { t' p with state := .zombie }) := by
  set w := wakeup1 ((t p).parent.map .proc) t with hw
  have hkin : ∀ i, Kin (t i) (w i) := kin_wakeup1 _ _
  have hwakes : Wakes t t' := ht ▸ (wakes_wakeup1 _ _).trans (wakes_reparent _ _)
  have hpid : ∀ i, (t' i).pid = (t i).pid := fun i => by rw [ht, reparent_apply, ← (hkin i).pid]
  have hpar : ∀ i, (t' i).parent = if (t i).parent = some p then some initproc else (t i).parent :=
    fun i => by rw [ht, reparent_apply, ← (hkin i).parent]
  refine ⟨by simp, fun i hi => ?_, fun i => ?_, fun i => ?_, fun i hi hs => ?_⟩
  · rw [update_of_ne hi]; exact hwakes i
  · rcases eq_or_ne i p with rfl | hi
    · rw [update_self]; exact hpid i
    · rw [update_of_ne hi]; exact hpid i
  · rcases eq_or_ne i p with rfl | hi
    · rw [update_self]; exact hpar i
    · rw [update_of_ne hi]; exact hpar i
  · rw [update_of_ne hi, ht, reparent_apply] at hs ⊢
    dsimp only at hs
    -- neither the loop nor the call before it has woken `i` up
    split_ifs at hs with hx
    obtain ⟨hwi, hchan⟩ := wakeup1_sleeping hs
    rw [← hw] at hwi
    rw [hwi] at hs hx ⊢
    refine ⟨hs, rfl, rfl, hchan, fun hc j hj hz => hx ⟨⟨j, ?_, ?_⟩, hs, hc⟩⟩
    · rw [(hkin j).parent]; exact hj
    · exact ((hkin j).dead (.inr (.inr rfl))).mpr hz

theorem kin_kill1 (p : Proc) : Kin p (kill1 p) := by
  rcases eq_or_ne p.state .sleeping with hs | hs
  · exact .of_live (.inl hs) (.inl (by simp [kill1, hs])) rfl rfl
  · refine ⟨⟨.inl (by simp [kill1, hs]), rfl, rfl⟩, fun hx => ?_⟩
    simp [kill1, hs] at hx

theorem Effect.lineage (h : Core s) (he : Effect s e u) : Lineage s u := by
  -- a running process that keeps its pid and parent and does not sleep in `wait`
  have hrun : ∀ {c p}, (s.cpu c).loc = .on p → ∀ {x : Proc}, (x.state = .runnable ∨
      x.state = .running ∨ x.state = .sleeping ∧ ∃ a, x.chan = some (.addr a)) →
      x.pid = (s.proc p).pid → x.parent = (s.proc p).parent →
      ∀ i, Kin (s.proc i) (update s.proc p x i) := fun ho _ hx hpid hpar =>
    kin_update (.of_live (PState.live_of_running (h.on _ _ ho)) hx hpid hpar)
  cases he with
  | stay | panic | postOut | tickOut | passRr | scanEnd | postRr | resume | setSchedPolicy =>
    exact .same (fun i => Kin.refl _) (.refl rfl) ⟨rfl, rfl⟩ rfl
  | passMlfq hl hi hp hq => exact lineage_dispatch (mlfqSelect_runnable hq) _
  | scanRun hk hq => exact lineage_dispatch (rrNext_runnable hq) s.cpu
  | postMlfq hb hr ht =>
    exact .same (fun i => (accounts_mlfqAfter ht i).kin) (.refl rfl) ⟨rfl, rfl⟩ rfl
  | @resumeSlept c p hl ho hp =>
    exact .same (hrun ho (.inr (.inl (h.on c p ho))) rfl rfl) (.refl rfl) ⟨rfl, rfl⟩ rfl
  | @resumeWait c p hl ho hp => exact lineage_waitLoop (h.on c p ho)
  | @tick c p q ho hl hn hq =>
    refine .same (kin_update (accounts_tick hq).kin) (fun i np => ?_) ⟨rfl, rfl⟩ rfl
    rcases eq_or_ne i p with rfl | hip
    · simp [Sys.setThread]
    · simp [Sys.setThread, hip]
  | yield ho hl => exact .same (hrun ho (.inl rfl) rfl rfl) stages_sched ⟨rfl, rfl⟩ rfl
  | sleep hc =>
    exact .same (hrun hc.on (.inr (.inr ⟨rfl, _, rfl⟩)) rfl rfl) stages_sched ⟨rfl, rfl⟩ rfl
  | wakeup hl => exact .same (kin_wakeup1 _ _) (.refl rfl) ⟨rfl, rfl⟩ rfl
  | kill hc hi => exact .same (kin_update (kin_kill1 _)) (.refl rfl) ⟨rfl, rfl⟩ rfl
  | @exit c p t hc hp ht =>
    exact .exit (h.on c p hc.on) hp hc.stage (left_of_exit ht) (stages_sched (c := c)) ⟨rfl, rfl⟩ rfl
  | @wait c p hc =>
    have hw := lineage_waitLoop (c := c) (x := (s.proc p).chan) (h.on c p hc.on)
    rwa [Sys.setProc, update_eq_self] at hw
  | @fork c p i hc hi =>
    have hun := findSlot_some hi
    simp only [decide_eq_true_eq] at hun
    exact .alloc hun rfl (stages_setStage (s := s) (by simp [hc.stage]) (by simp)) rfl rfl rfl
  | @kalloc c p np hf =>
    obtain ⟨hemb, _⟩ := h.child p np (by rw [hf.stage]; rfl)
    refine .same (kin_update (.of_eq rfl rfl rfl rfl rfl)) (fun q x => ?_) ⟨rfl, rfl⟩ rfl
    have hst : Stages s (s.setStage p (.copyuvm np)) :=
      stages_setStage (by simp [hf.stage]) (by simp)
    rcases eq_or_ne q np with rfl | hq
    · -- an `EMBRYO` is not in `fork`
      have hno : (s.thread q).stage ≠ .run x := fun hx => by
        have := (h.child q x (by rw [hx]; rfl)).2
        exact absurd this (PState.not_live (.inr (.inl hemb)))
      simp [Sys.setThread, hno]
    · rw [← hst q x]
      simp [Sys.setThread, Sys.setStage, hq]
  | @kallocFail c p np hf =>
    exact .drop (.inl hf.stage) (fun j hj => update_of_ne hj ..)
      (by simp [Sys.setStage, Sys.setThread, Sys.setProc])
      (by simp [Sys.setStage, Sys.setThread, Sys.setProc])
      (stages_setStage (s := s) (by simp [hf.stage]) (by simp)) ⟨rfl, rfl⟩ rfl
  | copyuvm hf =>
    exact .same (kin_update (.of_eq rfl rfl rfl rfl rfl))
      (stages_setStage (s := s) (by simp [hf.stage]) (by simp)) ⟨rfl, rfl⟩ rfl
  | @copyuvmFail c p np hf =>
    exact .drop (.inr hf.stage) (fun j hj => update_of_ne hj ..)
      (by simp [Sys.setStage, Sys.setThread, Sys.setProc])
      (by simp [Sys.setStage, Sys.setThread, Sys.setProc])
      (stages_setStage (s := s) (by simp [hf.stage]) (by simp)) ⟨rfl, rfl⟩ rfl
  | @setParent c p np hf =>
    refine .adopt (h.on c p hf.on) hf.stage rfl (fun q x => ?_) ⟨rfl, rfl⟩ rfl
    rcases eq_or_ne q p with rfl | hq
    · simp [Sys.setStage, Sys.setThread, eq_comm]
    · simp [Sys.setStage, Sys.setThread, hq]
  | @setRunnable c p np hf hl =>
    refine .born (h.on c p hf.on) hf.stage rfl (fun q x => ?_) ⟨rfl, rfl⟩ rfl
    rcases eq_or_ne q p with rfl | hq
    · simp [Sys.setStage, Sys.setThread, Sys.note]
    · simp [Sys.setStage, Sys.setThread, Sys.note, hq]
  | @fatalTrap c p ho hl =>
    exact .same (hrun ho (.inr (.inl (h.on c p ho))) rfl rfl) (.refl rfl) ⟨rfl, rfl⟩ rfl

/-! ### Parents are alive -/

structure Tree (s : Sys C) : Prop where
  parent : ∀ i p, (s.proc i).parent = some p → (s.proc p).state.live ∧ p ≠ i
  child : ∀ i, i ≠ initproc → (s.proc i).state.live ∨ (s.proc i).state = .zombie →
    ∃ p, (s.proc i).parent = some p
  unused : ∀ i, (s.proc i).state = .unused → (s.proc i).parent = none
  embryo : ∀ i p, (s.proc i).state = .embryo → (s.proc i).parent = some p →
    (s.thread p).stage = .run i
  run : ∀ p np, (s.thread p).stage = .run np → (s.proc np).parent = some p
  init : (s.proc initproc).state.live ∧ (s.proc initproc).parent = none

section
omit [DecidableEq C]

theorem Tree.kept (h : Tree s) (k : ∀ i, Kept (s.proc i) (u.proc i)) (g : Stages s u) : Tree u where
  parent i p hp := by
    obtain ⟨hl, hne⟩ := h.parent i p ((k i).parent ▸ hp)
    exact ⟨(k p).live.mpr hl, hne⟩
  child i hi hs := by
    rw [(k i).parent]
    exact h.child i hi (hs.imp (k i).live.mp ((k i).dead (.inr (.inr rfl))).mp)
  unused i hs := by
    rw [(k i).parent]
    exact h.unused i (((k i).dead (.inl rfl)).mp hs)
  embryo i p hs hp := by
    rw [(k i).parent] at hp
    exact (g p i).mpr (h.embryo i p (((k i).dead (.inr (.inl rfl))).mp hs) hp)
  run p np hs := by
    rw [(k np).parent]
    exact h.run p np ((g p np).mp hs)
  init := ⟨(k initproc).live.mpr h.init.1, by rw [(k initproc).parent]; exact h.init.2⟩

/-- A slot that is not live, and that no `fork` is about to make `RUNNABLE`, becomes `UNUSED` or a
  new `EMBRYO`. -/
theorem Tree.reset (h : Tree s) (hd : ¬ (s.proc i).state.live)
    (hn : ∀ q, (s.thread q).stage ≠ .run i) (k : ∀ j, j ≠ i → Kept (s.proc j) (u.proc j))
    (hs : (u.proc i).state = .unused ∨ (u.proc i).state = .embryo)
    (hp : (u.proc i).parent = none) (g : Stages s u) : Tree u where
  parent j p hj := by
    have hji : j ≠ i := by rintro rfl; rw [hp] at hj; cases hj
    obtain ⟨hl, hne⟩ := h.parent j p ((k j hji).parent ▸ hj)
    have hpi : p ≠ i := by rintro rfl; exact hd hl
    exact ⟨(k p hpi).live.mpr hl, hne⟩
  child j hj hx := by
    have hji : j ≠ i := by
      rintro rfl
      rcases hs with hs | hs <;> rw [hs] at hx <;> simp [PState.live] at hx
    rw [(k j hji).parent]
    exact h.child j hj (hx.imp (k j hji).live.mp ((k j hji).dead (.inr (.inr rfl))).mp)
  unused j hx := by
    rcases eq_or_ne j i with rfl | hji
    · exact hp
    · rw [(k j hji).parent]
      exact h.unused j (((k j hji).dead (.inl rfl)).mp hx)
  embryo j p hx hj := by
    have hji : j ≠ i := by rintro rfl; rw [hp] at hj; cases hj
    rw [(k j hji).parent] at hj
    exact (g p j).mpr (h.embryo j p (((k j hji).dead (.inr (.inl rfl))).mp hx) hj)
  run p np hx := by
    rw [g p np] at hx
    have hni : np ≠ i := by rintro rfl; exact hn p hx
    rw [(k np hni).parent]
    exact h.run p np hx
  init := by
    have hii : initproc ≠ i := by rintro rfl; exact hd h.init.1
    exact ⟨(k _ hii).live.mpr h.init.1, by rw [(k _ hii).parent]; exact h.init.2⟩

theorem Left.live {t' : Table} (k : Left p t t') (hi : i ≠ p) (hl : (t i).state.live) :
    (t' i).state.live := by
  rcases k.state i hi with hs | ⟨_, hs⟩
  · rwa [hs]
  · exact .inr (.inl hs)

theorem Left.dead {t' : Table} (k : Left p t t') (hi : i ≠ p)
    (hx : x = .unused ∨ x = .embryo ∨ x = .zombie) : (t' i).state = x ↔ (t i).state = x := by
  rcases k.state i hi with hs | ⟨hs, hs'⟩
  · rw [hs]
  · rw [hs, hs']
    rcases hx with rfl | rfl | rfl <;> simp

theorem Tree.exit (h : Tree s) (hr : (s.proc p).state = .running) (hp : p ≠ initproc) (hs :
    (s.thread p).stage = .user)
    (k : Left p s.proc u.proc) (g : Stages s u) : Tree u where
  parent i q hq := by
    rw [k.parent] at hq
    split_ifs at hq with hi
    · -- a child of `p`, now a child of init
      cases hq
      refine ⟨k.live hp.symm h.init.1, ?_⟩
      rintro rfl
      rw [h.init.2] at hi; cases hi
    · obtain ⟨hl, hne⟩ := h.parent i q hq
      exact ⟨k.live (by rintro rfl; exact hi hq) hl, hne⟩
  child i hi hx := by
    have hold : (s.proc i).state.live ∨ (s.proc i).state = .zombie → ∃ q, (u.proc i).parent = some q := by
      intro hx
      obtain ⟨q, hq⟩ := h.child i hi hx
      rw [k.parent]
      split_ifs
      · exact ⟨_, rfl⟩
      · exact ⟨q, hq⟩
    rcases eq_or_ne i p with rfl | hip
    · exact hold (.inl (PState.live_of_running hr))
    · refine hold (hx.imp (fun hx => ?_) (k.dead hip (.inr (.inr rfl))).mp)
      rcases k.state i hip with he | ⟨he, _⟩
      · exact he ▸ hx
      · exact .inl he
  unused i hx := by
    have hip : i ≠ p := by rintro rfl; rw [k.self] at hx; cases hx
    rw [k.parent, h.unused i ((k.dead hip (.inl rfl)).mp hx)]
    simp
  embryo i q hx hq := by
    have hip : i ≠ p := by rintro rfl; rw [k.self] at hx; cases hx
    have hemb := (k.dead hip (.inr (.inl rfl))).mp hx
    rw [k.parent] at hq
    split_ifs at hq with hi
    · -- `p` is not in `fork`
      have := h.embryo i p hemb hi
      rw [hs] at this; cases this
    · exact (g q i).mpr (h.embryo i q hemb hq)
  run q np hx := by
    rw [g q np] at hx
    have hq := h.run q np hx
    have hqp : q ≠ p := by rintro rfl; rw [hs] at hx; cases hx
    rw [k.parent, hq]
    simp [hqp]
  init := by
    refine ⟨k.live hp.symm h.init.1, ?_⟩
    rw [k.parent, h.init.2]
    simp

theorem Tree.adopt {np : Slot} (h : Tree s) (hc : Core s) (hr : (s.proc p).state = .running)
    (hs : (s.thread p).stage = .parent np)
    (hu : u.proc = update s.proc np { s.proc np with parent := some p })
    (g : ∀ q x, (u.thread q).stage = .run x ↔ if q = p then x = np else (s.thread q).stage = .run x) :
    Tree u := by
  have hch : (s.thread p).stage.child = some np := by rw [hs]; rfl
  obtain ⟨hemb, _⟩ := hc.child p np hch
  have hnp : np ≠ p := by rintro rfl; rw [hr] at hemb; cases hemb
  have hst : ∀ i, (u.proc i).state = (s.proc i).state := fun i => by
    rw [hu, update_apply]
    split_ifs with hi
    · rw [hi]
    · rfl
  have hother : ∀ i, i ≠ np → (u.proc i).parent = (s.proc i).parent := fun i hi => by
    rw [hu, update_of_ne hi]
  have hself : (u.proc np).parent = some p := by rw [hu, update_self]
  refine ⟨fun i q hq => ?_, fun i hi hx => ?_, fun i hx => ?_, fun i q hx hq => ?_, fun q x hx => ?_, ?_⟩
  · rw [hst]
    rcases eq_or_ne i np with rfl | hi
    · rw [hself, some.injEq] at hq
      subst hq
      exact ⟨PState.live_of_running hr, hnp.symm⟩
    · exact h.parent i q (hother i hi ▸ hq)
  · rw [hst] at hx
    have hin : i ≠ np := by rintro rfl; rw [hemb] at hx; simp [PState.live] at hx
    rw [hother i hin]
    exact h.child i hi hx
  · rw [hst] at hx
    have hin : i ≠ np := by rintro rfl; rw [hemb] at hx; cases hx
    rw [hother i hin]
    exact h.unused i hx
  · rw [hst] at hx
    rw [g]
    rcases eq_or_ne i np with rfl | hi
    · rw [hself, some.injEq] at hq
      rw [if_pos hq.symm]
    · have hrun := h.embryo i q hx (hother i hi ▸ hq)
      -- `p` was not at its last step yet
      have hqp : q ≠ p := by rintro rfl; rw [hs] at hrun; cases hrun
      rw [if_neg hqp]
      exact hrun
  · rw [g] at hx
    split_ifs at hx with hqp
    · rw [hx, hself, hqp]
    · have hxn : x ≠ np := by
        rintro rfl
        exact hqp (hc.childInj q p x (by rw [hx]; rfl) hch)
      rw [hother x hxn]
      exact h.run q x hx
  · have hin : initproc ≠ np := by
      rintro rfl
      exact PState.not_live (.inr (.inl hemb)) h.init.1
    rw [hst, hother _ hin]
    exact h.init

theorem Tree.born {np : Slot} (h : Tree s) (hc : Core s) (hs : (s.thread p).stage = .run np)
    (hu : u.proc = update s.proc np { s.proc np with state := .runnable })
    (g : ∀ q x, (u.thread q).stage = .run x ↔ q ≠ p ∧ (s.thread q).stage = .run x) : Tree u := by
  obtain ⟨hemb, _⟩ := hc.child p np (by rw [hs]; rfl)
  have hpar : ∀ i, (u.proc i).parent = (s.proc i).parent := fun i => by
    rw [hu, update_apply]
    split_ifs with hi
    · rw [hi]
    · rfl
  have hself : (u.proc np).state = .runnable := by rw [hu, update_self]
  have hst : ∀ i, i ≠ np → (u.proc i).state = (s.proc i).state := fun i hi => by
    rw [hu, update_of_ne hi]
  have hlive : ∀ i, (s.proc i).state.live → (u.proc i).state.live := fun i hl => by
    rcases eq_or_ne i np with rfl | hi
    · exact .inr (.inl hself)
    · rwa [hst i hi]
  refine ⟨fun i q hq => ?_, fun i hi hx => ?_, fun i hx => ?_, fun i q hx hq => ?_, fun q x hx => ?_, ?_⟩
  · obtain ⟨hl, hne⟩ := h.parent i q (hpar i ▸ hq)
    exact ⟨hlive q hl, hne⟩
  · rw [hpar]
    rcases eq_or_ne i np with rfl | hin
    · exact ⟨p, h.run p i hs⟩
    · exact h.child i hi (hst i hin ▸ hx)
  · have hin : i ≠ np := by rintro rfl; rw [hself] at hx; cases hx
    rw [hpar]
    exact h.unused i (hst i hin ▸ hx)
  · have hin : i ≠ np := by rintro rfl; rw [hself] at hx; cases hx
    have hrun := h.embryo i q (hst i hin ▸ hx) (hpar i ▸ hq)
    refine (g q i).mpr ⟨?_, hrun⟩
    rintro rfl
    rw [hs, Stage.run.injEq] at hrun
    exact hin hrun.symm
  · rw [hpar]
    exact h.run q x ((g q x).mp hx).2
  · exact ⟨hlive _ h.init.1, by rw [hpar]; exact h.init.2⟩

theorem Tree.lineage (h : Tree s) (hc : Core s) (hl : Lineage s u) : Tree u := by
  cases hl with
  | same k g l hh => exact h.kept (fun i => (k i).toKept) g
  | @doze p hr hz hcs hk k hp g l hh =>
    refine h.kept (fun i => ?_) g
    rcases eq_or_ne i p with rfl | hip
    · rw [hp]; exact ⟨.inr ⟨PState.live_of_running hr, .inl rfl⟩, rfl, rfl⟩
    · exact (k i hip).toKept
  | childless hr hn k g l hh => exact h.kept (fun i => (k i).toKept) g
  | @reap p i hr hi hz k hu g l hh =>
    refine h.reset (i := i) (PState.not_live (.inr (.inr hz))) (fun q hq => ?_)
      (fun j hj => (k j hj).toKept) (.inl (by rw [hu]; rfl)) (by rw [hu]; rfl) g
    have := (hc.child q i (by rw [hq]; rfl)).1
    rw [hz] at this; cases this
  | exit hr hp hs k g l hh => exact h.exit hr hp hs k g
  | @alloc i hi hu g hn ha hh =>
    refine h.reset (i := i) (PState.not_live (.inl hi)) (fun q hq => ?_) (fun j hj => ?_)
      (.inr (by simp [hu, Ptable.embryo])) (by simpa [hu, Ptable.embryo] using h.unused i hi) g
    · have := (hc.child q i (by rw [hq]; rfl)).1
      rw [hi] at this; cases this
    · rw [hu, update_of_ne hj]; exact (Kin.refl _).toKept
  | @drop p np hs k hu hp g l hh =>
    have hch : (s.thread p).stage.child = some np := by
      rcases hs with hs | hs <;> rw [hs] <;> rfl
    obtain ⟨hemb, _⟩ := hc.child p np hch
    have hno : ∀ q, (s.thread q).stage ≠ .run np := fun q hq => by
      obtain rfl := hc.childInj q p np (by rw [hq]; rfl) hch
      rcases hs with hs | hs <;> rw [hs] at hq <;> cases hq
    refine h.reset (i := np) (PState.not_live (.inr (.inl hemb))) hno
      (fun j hj => by rw [k j hj]; exact (Kin.refl _).toKept) (.inl hu) ?_ g
    rw [hp, Option.eq_none_iff_forall_ne_some]
    exact fun q hq => hno q (h.embryo np q hemb hq)
  | adopt hr hs hu g l hh => exact h.adopt hc hr hs hu g
  | born hr hs hu g l hh => exact h.born hc hs hu g

end

/-! ### Nobody sleeps past a dead child -/

/-- A process that sleeps in `wait` has children, none of them dead, and has not been killed. -/
structure Watches (s : Sys C) (p : Slot) : Prop where
  child : ∃ i, (s.proc i).parent = some p
  alive : ∀ i, (s.proc i).parent = some p → (s.proc i).state ≠ .zombie
  killed : (s.proc p).killed = false

def Watchful (s : Sys C) : Prop := ∀ p q, (s.proc p).state = .sleeping →
  (s.proc p).chan = some (.proc q) → q = p ∧ Watches s p

section
omit [DecidableEq C]

/-- A sleeper that is kin to what it was watched already. -/
theorem Watchful.kin (h : Watchful s) {p q : Slot} (k : Kin (s.proc p) (u.proc p))
    (hs : (u.proc p).state = .sleeping) (hq : (u.proc p).chan = some (.proc q)) :
    (s.proc p).state = .sleeping ∧ (u.proc p).killed = false ∧ q = p ∧ Watches s p := by
  rcases k.sleep hs with ⟨hs', hc, hk⟩ | ⟨a, ha⟩
  · obtain ⟨hqp, hw⟩ := h p q hs' (hc ▸ hq)
    exact ⟨hs', hk.trans hw.killed, hqp, hw⟩
  · rw [ha] at hq; cases hq

/-- The watch goes on when the children of `p` are the same, and alive if they were. -/
theorem Watches.of_children (h : Watches s p) (hk : (u.proc p).killed = false)
    (hp : ∀ i, (u.proc i).parent = some p ↔ (s.proc i).parent = some p)
    (hz : ∀ i, (s.proc i).parent = some p → (u.proc i).state = .zombie → (s.proc i).state = .zombie) :
    Watches u p := by
  obtain ⟨i, hi⟩ := h.child
  exact ⟨⟨i, (hp i).mpr hi⟩, fun j hj hx => h.alive j ((hp j).mp hj) (hz j ((hp j).mp hj) hx), hk⟩

theorem Watchful.exit (h : Watchful s) (ht : Tree s)
    (k : Left p s.proc u.proc) : Watchful u := by
  intro i q hs hq
  have hip : i ≠ p := by rintro rfl; rw [k.self] at hs; cases hs
  obtain ⟨hs', hc, hk, hnp, hinit⟩ := k.sleep i hip hs
  rw [hc] at hq
  obtain ⟨rfl, hw⟩ := h i q hs' hq
  obtain ⟨j, hj⟩ := hw.child
  refine ⟨rfl, ⟨j, ?_⟩, fun j hj hz => ?_, hk.trans hw.killed⟩
  · rw [k.parent, hj]
    simp [hip]
  · rw [k.parent] at hj
    split_ifs at hj with hjp
    · -- a child of `p`, passed to init: it was alive, or init would have been woken up
      cases hj
      have hne : j ≠ p := by rintro rfl; exact (ht.parent j j hjp).2 rfl
      exact hinit hq j hjp ((k.dead hne (.inr (.inr rfl))).mp hz)
    · rcases eq_or_ne j p with rfl | hne
      · -- `p` itself: its parent has been woken up
        rw [hj] at hnp
        exact hnp hq
      · exact hw.alive j hj ((k.dead hne (.inr (.inr rfl))).mp hz)

/-- One slot changes, to neither `SLEEPING` nor `ZOMBIE`, and remains or does not become the child of
  a sleeper. -/
theorem Watchful.other (h : Watchful s) (k : ∀ j, j ≠ i → Kin (s.proc j) (u.proc j))
    (hs : (u.proc i).state ≠ .sleeping) (hz : (u.proc i).state ≠ .zombie)
    (hp : ∀ p, (s.proc p).state = .sleeping →
      ((u.proc i).parent = some p ↔ (s.proc i).parent = some p)) : Watchful u := by
  intro p q hsp hq
  have hpi : p ≠ i := by rintro rfl; exact hs hsp
  obtain ⟨hs', hk, hqp, hw⟩ := h.kin (k p hpi) hsp hq
  refine ⟨hqp, hw.of_children hk (fun j => ?_) fun j _ hj => ?_⟩
  · rcases eq_or_ne j i with rfl | hji
    · exact hp p hs'
    · rw [(k j hji).parent]
  · have hji : j ≠ i := by rintro rfl; exact hz hj
    exact ((k j hji).dead (.inr (.inr rfl))).mp hj

theorem Watchful.lineage (h : Watchful s) (ht : Tree s) (hc : Core s) (hl : Lineage s u) :
    Watchful u := by
  have hzombie : ∀ {i}, Kept (s.proc i) (u.proc i) → (u.proc i).state = .zombie →
      (s.proc i).state = .zombie := fun k => (k.dead (.inr (.inr rfl))).mp
  cases hl with
  | same k g l hh | childless _ _ k g l hh =>
    intro p q hs hq
    obtain ⟨_, hk, hqp, hw⟩ := h.kin (k p) hs hq
    exact ⟨hqp, hw.of_children hk (fun i => by rw [(k i).parent]) fun i _ => hzombie (k i).toKept⟩
  | @doze x hr hz hcs hk k hp g l hh =>
    have hkept : ∀ i, Kept (s.proc i) (u.proc i) := fun i => by
      rcases eq_or_ne i x with rfl | hi
      · rw [hp]; exact ⟨.inr ⟨PState.live_of_running hr, .inl rfl⟩, rfl, rfl⟩
      · exact (k i hi).toKept
    intro p q hs hq
    rcases eq_or_ne p x with rfl | hpx
    · rw [hp] at hq
      have hw : Watches s p := ⟨hcs, hz, hk⟩
      refine ⟨by simpa [eq_comm] using hq, hw.of_children (by rw [hp]; exact hk)
        (fun i => by rw [(hkept i).parent]) fun i _ => hzombie (hkept i)⟩
    · obtain ⟨_, hk, hqp, hw⟩ := h.kin (k p hpx) hs hq
      exact ⟨hqp, hw.of_children hk (fun i => by rw [(hkept i).parent]) fun i _ =>
        hzombie (hkept i)⟩
  | @reap x i hr hi hz k hu g l hh =>
    refine h.other k (by simp [hu, Ptable.reap]) (by simp [hu, Ptable.reap]) fun p hs => ?_
    have hpx : x ≠ p := by rintro rfl; rw [hr] at hs; cases hs
    simp [hu, Ptable.reap, hi, hpx]
  | exit hr hp hs k g l hh => exact h.exit ht k
  | @alloc i hi hu g hn ha hh =>
    refine h.other (i := i) (fun j hj => ?_) (by simp [hu, embryo]) (by simp [hu, embryo]) fun p _ => ?_
    · rw [hu, update_of_ne hj]; exact Kin.refl _
    · simp [hu, embryo]
  | @drop x np hs k hu hp g l hh =>
    exact h.other (i := np) (fun j hj => by rw [k j hj]; exact Kin.refl _) (by simp [hu])
      (by simp [hu]) fun p _ => by rw [hp]
  | @adopt x np hr hs hu g l hh =>
    have hch : (s.thread x).stage.child = some np := by rw [hs]; rfl
    obtain ⟨hemb, _⟩ := hc.child x np hch
    refine h.other (i := np) (fun j hj => ?_) (by simp [hu, hemb]) (by simp [hu, hemb]) fun p hp => ?_
    · rw [hu, update_of_ne hj]; exact Kin.refl _
    · have hpx : x ≠ p := by rintro rfl; rw [hr] at hp; cases hp
      simp only [hu, update_self, some.injEq, hpx, false_iff]
      intro hpar
      have hrun := ht.embryo np p hemb hpar
      exact hpx (hc.childInj x p np hch (by rw [hrun]; rfl))
  | @born x np hr hs hu g l hh =>
    refine h.other (i := np) (fun j hj => ?_) (by simp [hu]) (by simp [hu]) fun p _ => ?_
    · rw [hu, update_of_ne hj]; exact Kin.refl _
    · simp [hu]

end

/-! ### Whole runs -/

omit [DecidableEq C] in
theorem tree_boot (policy : C → ℤ) : Tree (boot policy) := by
  have hst : ∀ i, i ≠ initproc → ((boot policy).proc i).state = .unused := fun i hi => by
    simp [boot, hi, zeroProc]
  have hpar : ∀ i, ((boot policy).proc i).parent = none := fun i => by
    rcases eq_or_ne i initproc with rfl | hi
    · simp [boot, zeroProc]
    · simp [boot, hi, zeroProc]
  refine ⟨fun i p hp => ?_, fun i hi hx => ?_, fun i _ => hpar i, fun i p _ hp => ?_, fun p np hx => ?_, ?_⟩
  · rw [hpar] at hp; cases hp
  · rw [hst i hi] at hx; simp [PState.live] at hx
  · rw [hpar] at hp; cases hp
  · cases hx
  · exact ⟨.inr (.inl (by simp [boot])), hpar _⟩

omit [DecidableEq C] in
theorem watchful_boot (policy : C → ℤ) : Watchful (boot policy) := by
  intro p q hs
  rcases eq_or_ne p initproc with rfl | hp
  · simp [boot] at hs
  · simp [boot, hp, zeroProc] at hs

theorem tree_of_reach {G : Sys C → Ev C → Prop} {policy : C → ℤ} (h : Reach step G (boot policy) s) :
    Core s ∧ Tree s ∧ Watchful s := by
  refine h.invariant (I := fun s => Core s ∧ Tree s ∧ Watchful s)
    ⟨core_boot policy, tree_boot policy, watchful_boot policy⟩ ?_
  rintro s e u ⟨hc, ht, hw⟩ _ hs
  have he := (effect_of_step hs).2
  have hl := he.lineage hc
  exact ⟨hc.effect he, ht.lineage hc hl, hw.lineage ht hc hl⟩

/-- In every state reached, whether or not the lock is free, a process that sleeps in `wait` has at
  least one child, no dead child, and has not been killed. -/
theorem no_sleep_past_dead_child (policy : C → ℤ) (s : Sys C)
    (h : Reach step (fun _ _ => True) (boot policy) s) (p : Slot)
    (hs : (s.proc p).state = .sleeping) (hc : (s.proc p).chan = some (.proc p)) :
    (∃ i, (s.proc i).parent = some p) ∧
      (∀ i, (s.proc i).parent = some p → (s.proc i).state ≠ .zombie) ∧
      (s.proc p).killed = false := by
  obtain ⟨hchild, halive, hkilled⟩ := ((tree_of_reach h).2.2 p p hs hc).2
  exact ⟨hchild, halive, hkilled⟩

/-- Init waits for a child that has not exited. -/
theorem no_sleep_past_dead_child_init : ∃ s : Sys Unit,
    Reach step (fun _ _ => True) (boot fun _ => 2) s ∧ s.lock = none ∧
      (s.proc initproc).state = .sleeping ∧ (∃ i, (s.proc i).parent = some initproc) ∧
      (s.proc initproc).killed = false := by
  obtain ⟨s, hs, hobs⟩ := exists_reach (show (follow step (fun _ _ => True)
    (boot fun _ : Unit => 2) [.pass (), .resume (), .fork (), .kalloc () true, .copyuvm () true,
      .setParent (), .setRunnable (), .wait (), .post ()]).map (fun s =>
        (s.lock, (s.proc initproc).state, (s.proc initproc).chan)) =
      some (none, .sleeping, some (.proc initproc)) by decide +kernel)
  simp only [Prod.mk.injEq] at hobs
  obtain ⟨hl, hst, hch⟩ := hobs
  obtain ⟨hchild, _, hkilled⟩ := no_sleep_past_dead_child _ s hs initproc hst hch
  exact ⟨s, hs, hl, hst, hchild, hkilled⟩

end Xv6.Ptable

import Xv6.Proc.Core

/-! @src proc.c, trap.c | part:who is killed | scheme:machine

  `kill` looks for a pid only: it does not look at the state of the slot, and `allocproc` does not
  clear `killed`. A slot that is not in use keeps the pid 0 it was zeroed or reaped to, or the pid
  of a `fork` that failed, so `kill` may hit it, and the next process in that slot is born killed.

      UNUSED, pid 0 --kill(0)--> UNUSED, killed --allocproc--> EMBRYO, killed

  The ghost `blamed` remembers who, since it was allocated, was called by its pid or took a fatal
  trap. -/

namespace Xv6.Ptable
open Schemes
open Function

def kill (pid : ℤ) (t : Table) : ℤ × Table :=
  match findSlot (fun _ q => q.pid = pid) t with
  | some i => (0, update t i (kill1 (t i)))
  | none => (-1, t)

/-- `kill` succeeds if and only if a process that is in use has the pid, and changes only it. -/
def KillsNamed (pid : ℤ) (t : Table) : Prop :=
  ((kill pid t).1 = 0 ↔ ∃ i, (t i).state ≠ .unused ∧ (t i).pid = pid) ∧
  ((kill pid t).1 = 0 → ∃ i, (t i).state ≠ .unused ∧ (t i).pid = pid ∧
    (kill pid t).2 i = kill1 (t i) ∧ ∀ j, j ≠ i → (kill pid t).2 j = t j) ∧
  ((kill pid t).1 ≠ 0 → (kill pid t).2 = t)

def Aims (pid : ℤ) (t : Table) : Prop :=
  ∀ i, findSlot (fun _ q => q.pid = pid) t = some i → (t i).state ≠ .unused

instance (pid : ℤ) (t : Table) : Decidable (Aims pid t) :=
  inferInstanceAs (Decidable (∀ _, _))

theorem kill_of_some {pid : ℤ} {t : Table} {i : Slot}
    (h : findSlot (fun _ q => q.pid = pid) t = some i) :
    kill pid t = (0, update t i (kill1 (t i))) := by
  rw [kill, h]

theorem kill_of_none {pid : ℤ} {t : Table} (h : findSlot (fun _ q => q.pid = pid) t = none) :
    kill pid t = (-1, t) := by
  rw [kill, h]

theorem kill_apply (pid : ℤ) (t : Table) (i : Slot) :
    (kill pid t).2 i = t i ∨
      findSlot (fun _ q => q.pid = pid) t = some i ∧ (kill pid t).2 i = kill1 (t i) := by
  cases hf : findSlot (fun _ q => q.pid = pid) t with
  | none => exact .inl (by rw [kill_of_none hf])
  | some j =>
    rw [kill_of_some hf]
    rcases eq_or_ne i j with rfl | hij
    · exact .inr ⟨rfl, by simp⟩
    · exact .inl (by simp [hij])

theorem kill1_awake (p : Proc) : (kill1 p).state ≠ .sleeping := by
  unfold kill1
  dsimp only
  split_ifs with hs
  · simp
  · exact hs

theorem killsNamed_of_aims {pid : ℤ} {t : Table} (h : Aims pid t) : KillsNamed pid t := by
  cases hf : findSlot (fun _ q => q.pid = pid) t with
  | none =>
    have hno : ∀ i, (t i).pid ≠ pid := fun i => by simpa using findSlot_none hf i
    rw [KillsNamed, kill_of_none hf]
    refine ⟨iff_of_false (by simp) ?_, fun h => absurd h (by simp), fun _ => rfl⟩
    rintro ⟨i, _, hi⟩
    exact hno i hi
  | some i =>
    have hpid : (t i).pid = pid := by simpa using findSlot_some hf
    have hi := h i hf
    rw [KillsNamed, kill_of_some hf]
    exact ⟨iff_of_true rfl ⟨i, hi, hpid⟩,
      fun _ => ⟨i, hi, hpid, by simp, fun j hj => by simp [hj]⟩, fun h => absurd rfl h⟩

variable {C : Type} [DecidableEq C] {s u : Sys C} {e : Ev C} {c : C} {p : Slot}

theorem step_kill (hh : s.halted = none) (hc : s.Calls c p) (pid : ℤ) :
    step s (.kill c pid) = some { s with proc := (kill pid s.proc).2 } := by
  have ha : s.acts c = some p := by simp [Sys.acts, hc.on, hc.lock, hc.ticked]
  cases hf : findSlot (fun _ q => q.pid = pid) s.proc with
  | none =>
    have hstay : step s (.kill c pid) = some s := by
      simp [step, hh, stepCall, ha, hc.lock, hc.stage, hf]
    rw [kill_of_none hf]
    exact hstay
  | some i => simp [step, hh, stepCall, ha, hc.lock, hc.stage, hf, kill, Sys.setProc]

/-! ### Who is to blame -/

def blame (s : Sys C) (b : Slot → Bool) : Ev C → Slot → Bool
  | .kill _ pid, i => b i || decide ((s.proc i).pid = pid)
  | .fatalTrap c, i => b i || decide ((s.cpu c).loc = .on i)
  | .fork _, i => if findSlot (fun _ q => q.state = .unused) s.proc = some i then false else b i
  | _, i => b i

structure Trial (C : Type) where
  sys : Sys C
  blamed : Slot → Bool

def Trial.step (x : Trial C) (e : Ev C) : Option (Trial C) :=
  (Ptable.step x.sys e).map fun u => ⟨u, blame x.sys x.blamed e⟩

def Sys.building (s : Sys C) (c : C) : Option Slot :=
  match (s.cpu c).loc with
  | .on p => (s.thread p).stage.child
  | _ => none

/-- `kill` hits slots that are in use only, and no `fork` fails whose child has been killed. -/
def Aimed (x : Trial C) : Ev C → Prop
  | .kill _ pid => Aims pid x.sys.proc
  | .kalloc c false | .copyuvm c false =>
    ∀ np, x.sys.building c = some np → (x.sys.proc np).killed = false
  | _ => True

instance (x : Trial C) : (e : Ev C) → Decidable (Aimed x e)
  | .kill _ pid => inferInstanceAs (Decidable (Aims pid x.sys.proc))
  | .kalloc _ false | .copyuvm _ false => inferInstanceAs (Decidable (∀ _, _))
  | .kalloc _ true | .copyuvm _ true | .pass _ | .scan _ | .post _ | .resume _ | .tick _ | .yield _
  | .sleep _ _ | .wakeup _ | .exit _ | .wait _ | .fork _ | .setParent _ | .setRunnable _
  | .fatalTrap _ | .setSchedPolicy _ _ => isTrue trivial

def Blamed (x : Trial C) : Prop :=
  ∀ i, (x.sys.proc i).killed = true → (x.sys.proc i).state ≠ .unused ∧ x.blamed i = true

/-- `q` has not been killed in place of `p`, nor taken out of use killed. -/
def Spared (p q : Proc) : Prop :=
  q.killed = true → p.killed = true ∧ (p.state ≠ .unused → q.state ≠ .unused)

theorem Spared.refl (p : Proc) : Spared p p := fun h => ⟨h, id⟩

theorem Spared.trans {p q r : Proc} (h : Spared p q) (h' : Spared q r) : Spared p r := fun hr =>
  ⟨(h (h' hr).1).1, fun hp => (h' hr).2 ((h (h' hr).1).2 hp)⟩

theorem spared_update {t : Table} {x : Proc} (h : Spared (t p) x) (i : Slot) :
    Spared (t i) (update t p x i) := by
  rcases eq_or_ne i p with rfl | hip
  · rwa [update_self]
  · rw [update_of_ne hip]; exact Spared.refl _

theorem Spared.of_used {p q : Proc} (hk : q.killed = p.killed) (hs : q.state ≠ .unused) :
    Spared p q := fun h => ⟨hk ▸ h, fun _ => hs⟩

theorem spared_wakeup1 (chan : Option Chan) (t : Table) (i : Slot) :
    Spared (t i) (wakeup1 chan t i) := by
  unfold wakeup1
  split_ifs with hw
  · exact Spared.of_used rfl (by simp)
  · exact Spared.refl _

theorem spared_reparent (cur : Slot) (t : Table) (i : Slot) : Spared (t i) (reparent cur t i) := by
  rw [reparent_apply]
  refine fun h => ⟨h, fun hp => ?_⟩
  dsimp only
  split_ifs
  · simp
  · exact hp

theorem Accounts.spared {p q : Proc} (h : Accounts p q) : Spared p q := by
  unfold Accounts at h
  intro hq
  rw [h] at hq
  exact ⟨hq, fun hp => h ▸ hp⟩

omit [DecidableEq C] in
/-- Whoever is killed stays to blame: only the slot that `allocproc` takes is forgotten. -/
theorem Blamed.blame {x : Trial C} (h : Blamed x) (e : Ev C) {i : Slot}
    (hk : (x.sys.proc i).killed = true) : blame x.sys x.blamed e i = true := by
  obtain ⟨hs, hb⟩ := h i hk
  cases e with
  | kill c pid | fatalTrap c => simp [Ptable.blame, hb]
  | fork c =>
    simp only [Ptable.blame]
    split_ifs with hf
    · exact absurd (by simpa using findSlot_some hf) hs
    · exact hb
  | _ => exact hb

omit [DecidableEq C] in
/-- A step that kills nobody. -/
theorem Blamed.spared {x : Trial C} (h : Blamed x) (k : ∀ i, Spared (x.sys.proc i) (u.proc i)) :
    Blamed ⟨u, Ptable.blame x.sys x.blamed e⟩ := by
  intro i hi
  obtain ⟨hk, hs⟩ := k i hi
  exact ⟨hs (h i hk).1, h.blame e hk⟩

theorem spared_waitLoop (s : Sys C) (c : C) (p i : Slot) :
    Spared (s.proc i) ((s.waitLoop c p).proc i) := by
  rcases waitLoop_cases s c p with ⟨j, _, _, hw⟩ | ⟨_, _, hw⟩ | ⟨_, _, _, hw⟩
  · rw [hw]
    exact spared_update (fun hk => by simp [reap] at hk) i
  · rw [hw]; exact Spared.refl _
  · rw [hw]
    exact spared_update (t := s.proc) (p := p)
      (x := { s.proc p with chan := some (.proc p), state := .sleeping })
      (Spared.of_used rfl (by simp)) i

theorem spared_dispatch (s : Sys C) (c : C) (q i : Slot) :
    Spared (s.proc i) ((s.dispatch c q).proc i) := by
  rcases dispatch_cases s c q with ⟨msg, hd⟩ | hd
  · rw [hd]; exact Spared.refl _
  · rw [hd]
    exact spared_update (t := s.proc) (p := q) (x := { s.proc q with state := .running })
      (Spared.of_used rfl (by simp)) i

theorem Blamed.effect {x : Trial C} (h : Blamed x) (hc : Core x.sys) (hG : Aimed x e)
    (he : Effect x.sys e u) : Blamed ⟨u, Ptable.blame x.sys x.blamed e⟩ := by
  cases he with
  | stay | panic | postOut | tickOut | passRr | scanEnd | postRr | resume | setSchedPolicy =>
    exact h.spared fun i => Spared.refl _
  | passMlfq | scanRun => exact h.spared (spared_dispatch _ _ _)
  | postMlfq _ _ ht => exact h.spared fun i => (accounts_mlfqAfter ht i).spared
  | @resumeSlept c p =>
    exact h.spared (spared_update (x := { x.sys.proc p with chan := none }) fun hk => ⟨hk, id⟩)
  | @resumeWait c p =>
    refine h.spared fun i => Spared.trans ?_ (spared_waitLoop _ _ _ i)
    exact spared_update (x := { x.sys.proc p with chan := none }) (fun hk => ⟨hk, id⟩) i
  | tick _ _ _ hq => exact h.spared (spared_update (accounts_tick hq).spared)
  | @yield c p =>
    exact h.spared (spared_update (x := { x.sys.proc p with state := .runnable })
      (Spared.of_used rfl (by simp)))
  | @sleep c p chan =>
    exact h.spared (spared_update
      (x := { x.sys.proc p with chan := some (.addr chan), state := .sleeping })
      (Spared.of_used rfl (by simp)))
  | wakeup => exact h.spared (spared_wakeup1 _ _)
  | @kill c p pid i hcall hi =>
    intro j hj
    rcases eq_or_ne j i with rfl | hji
    · have hpid := findSlot_some hi
      refine ⟨?_, by simpa [Ptable.blame] using Or.inr hpid⟩
      have hst := hG j hi
      simp only [Sys.setProc, update_self, kill1]
      split_ifs
      · simp
      · exact hst
    · simp only [Sys.setProc, update_of_ne hji] at hj ⊢
      exact ⟨(h j hj).1, h.blame _ hj⟩
  | @exit c p t hcall hp ht =>
    refine h.spared fun i => Spared.trans (q := t i) ?_ ?_
    · rw [ht]; exact (spared_wakeup1 _ _ i).trans (spared_reparent _ _ i)
    · exact spared_update (x := { t p with state := .zombie }) (Spared.of_used rfl (by simp)) i
  | wait => exact h.spared (spared_waitLoop _ _ _)
  | @fork c p i =>
    exact h.spared (spared_update (x := embryo x.sys.nextpid (x.sys.proc i))
      (Spared.of_used rfl (by simp [embryo])))
  | @kalloc c p np =>
    exact h.spared (spared_update (x := { x.sys.proc np with kstack := true }) fun hk => ⟨hk, id⟩)
  | @kallocFail c p np hf =>
    have hk : (x.sys.proc np).killed = false :=
      hG np (by simp [Sys.building, hf.on, hf.stage, Stage.child])
    exact h.spared (spared_update
      (x := { x.sys.proc np with kstack := false, state := .unused }) fun hx => by simp [hk] at hx)
  | @copyuvm c p np =>
    exact h.spared (spared_update (x := { x.sys.proc np with pgdir := true }) fun hk => ⟨hk, id⟩)
  | @copyuvmFail c p np hf =>
    have hk : (x.sys.proc np).killed = false :=
      hG np (by simp [Sys.building, hf.on, hf.stage, Stage.child])
    exact h.spared (spared_update (x := { x.sys.proc np with
      pgdir := false, kstack := false, state := .unused }) fun hx => by simp [hk] at hx)
  | @setParent c p np =>
    exact h.spared (spared_update (x := { x.sys.proc np with parent := some p }) fun hk => ⟨hk, id⟩)
  | @setRunnable c p np =>
    exact h.spared (spared_update (x := { x.sys.proc np with state := .runnable })
      (Spared.of_used rfl (by simp)))
  | @fatalTrap c p ho =>
    intro j hj
    rcases eq_or_ne j p with rfl | hjp
    · refine ⟨?_, by simp [Ptable.blame, ho]⟩
      simp [Sys.setProc, hc.on c j ho]
    · simp only [Sys.setProc, update_of_ne hjp] at hj ⊢
      exact ⟨(h j hj).1, h.blame _ hj⟩

def Trial.boot (policy : C → ℤ) : Trial C := ⟨Ptable.boot policy, fun _ => false⟩

omit [DecidableEq C] in
theorem blamed_boot (policy : C → ℤ) : Blamed (Trial.boot policy) := by
  intro i hi
  rcases eq_or_ne i initproc with rfl | hne
  · simp [Trial.boot, Ptable.boot, zeroProc] at hi
  · simp [Trial.boot, Ptable.boot, zeroProc, hne] at hi

theorem Trial.step_eq_some {x y : Trial C} (h : x.step e = some y) :
    Ptable.step x.sys e = some y.sys ∧ y.blamed = blame x.sys x.blamed e := by
  obtain ⟨u, hu, rfl⟩ := Option.map_eq_some_iff.mp h
  exact ⟨hu, rfl⟩

/-- In every run whose calls of `kill` hit slots that are in use and in which no `fork` fails whose
  child has been killed: such a call of `kill` succeeds if and only if a process in use has the
  pid, and changes only it; and whoever is killed was called by its pid, or took a fatal trap,
  since it was allocated. -/
theorem kill_named (policy : C → ℤ) (x : Trial C)
    (h : Reach Trial.step Aimed (Trial.boot policy) x) :
    (∀ pid, Aims pid x.sys.proc → KillsNamed pid x.sys.proc) ∧
    (∀ i, (x.sys.proc i).state ≠ .unused → (x.sys.proc i).killed = true → x.blamed i = true) := by
  refine ⟨fun pid hp => killsNamed_of_aims hp, fun i _ hi => ?_⟩
  have hinv : Core x.sys ∧ Blamed x := by
    refine h.invariant (I := fun x => Core x.sys ∧ Blamed x)
      ⟨core_boot policy, blamed_boot policy⟩ ?_
    rintro ⟨s, b⟩ e ⟨u, b'⟩ ⟨hc, hb⟩ hG hs
    obtain ⟨hstep, rfl⟩ := Trial.step_eq_some hs
    have he := (effect_of_step hstep).2
    exact ⟨hc.effect he, hb.effect hc hG he⟩
  exact (hinv.2 i hi).2

def crowd : Table := fun i => { zeroProc with state := .running, pid := i + 1 }

/-- Init kills its child: the child is to blame, and nobody else is killed. -/
theorem kill_named_child : ∃ x : Trial Unit,
    Reach Trial.step Aimed (Trial.boot fun _ => 2) x ∧ (x.sys.proc second).killed = true ∧
      (∀ i, (x.sys.proc i).state ≠ .unused → (x.sys.proc i).killed = true → x.blamed i = true) := by
  obtain ⟨x, hx, hk⟩ := exists_reach (show (follow Trial.step Aimed
    (Trial.boot fun _ : Unit => 2) [.pass (), .resume (), .fork (), .kalloc () true,
      .copyuvm () true, .setParent (), .setRunnable (), .kill () 2]).map
      (fun x => (x.sys.proc second).killed) = some true by decide +kernel)
  exact ⟨x, hx, hk, (kill_named _ x hx).2⟩

/-- Init calls `kill(0)`, which hits the empty slot 1 and succeeds although nobody has the pid 0, and
  then forks into that slot: the child is killed, and not to blame. -/
theorem kill_unnamed : ∃ x y : Trial Unit,
    Reach Trial.step (fun _ _ => True) (Trial.boot fun _ => 2) x ∧
    Reach Trial.step (fun _ _ => True) (Trial.boot fun _ => 2) y ∧
    ((kill 0 x.sys.proc).1 = 0 ∧ ∀ i, (x.sys.proc i).state ≠ .unused → (x.sys.proc i).pid ≠ 0) ∧
    (y.sys.proc second).state = .runnable ∧ (y.sys.proc second).killed = true ∧
      y.blamed second = false := by
  obtain ⟨x, hx, hk⟩ := exists_reach (show (follow Trial.step (fun _ _ => True)
    (Trial.boot fun _ : Unit => 2) [.pass (), .resume ()]).map (fun x => decide
      ((kill 0 x.sys.proc).1 = 0 ∧ ∀ i, (x.sys.proc i).state ≠ .unused → (x.sys.proc i).pid ≠ 0)) =
      some true by decide +kernel)
  obtain ⟨y, hy, hb⟩ := exists_reach (show (follow Trial.step (fun _ _ => True)
    (Trial.boot fun _ : Unit => 2) [.pass (), .resume (), .kill () 0, .fork (), .kalloc () true,
      .copyuvm () true, .setParent (), .setRunnable ()]).map (fun x => decide
      ((x.sys.proc second).state = .runnable ∧ (x.sys.proc second).killed = true ∧
        x.blamed second = false)) =
      some true by decide +kernel)
  exact ⟨x, y, hx, hy, of_decide_eq_true hk, of_decide_eq_true hb⟩

end Xv6.Ptable

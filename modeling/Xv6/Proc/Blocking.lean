import Xv6.Proc.Sleep

/-! @src pipe.c, console.c, sysproc.c, proc.c | part:killed while blocking | scheme:machine

  The calls that block until data or time arrives: `piperead`, `pipewrite`, `consoleread` and
  `sys_sleep`, each a loop under a spinlock that tests `killed` before it sleeps. `kill` takes
  `ptable.lock` only, so it may come between the test and `SLEEPING`:

      enter --acquire--> loop --blocked--> test --not killed--> (notify) --> call --sleep--+
                          | ^                | killed: release, return -1         exposed   |
                          | +----------------+---------------- loop, asleep <---------------+
                          +--> body --> fin --> leave --release--> user

  Only the counters that decide whether a call blocks are kept of the data. -/

namespace Xv6.Ptable
open Schemes
open Option (map_eq_some_iff)

inductive DevLock where
  | pipe | cons | ticks
  deriving DecidableEq

instance : Fintype DevLock := ⟨{.pipe, .cons, .ticks}, fun l => by cases l <;> decide⟩

structure Shared where
  nread : ℕ
  nwrite : ℕ
  readopen : Bool
  writeopen : Bool
  r : ℕ
  w : ℕ
  ticks : ℕ

/-- The calls, with the number of bytes or ticks still to go; `ticks0` is the local variable. -/
inductive BlockingCall where
  | piperead (n : ℕ)
  | pipewrite (n : ℕ)
  | consoleread (n : ℕ)
  | sysSleep (ticks0 n : ℕ)
  deriving DecidableEq

namespace BlockingCall

def lock : BlockingCall → DevLock
  | piperead _ | pipewrite _ => .pipe
  | consoleread _ => .cons
  | sysSleep _ _ => .ticks

def chan : BlockingCall → Chan
  | piperead _ => .addr 0
  | pipewrite _ => .addr 1
  | consoleread _ => .addr 2
  | sysSleep _ _ => .addr 3

def blocked (d : Shared) : BlockingCall → Bool
  | piperead _ => d.nread = d.nwrite ∧ d.writeopen = true
  | pipewrite _ => d.nwrite = (d.nread + PIPESIZE) % 2 ^ 32
  | consoleread _ => d.r = d.w
  | sysSleep ticks0 n => (d.ticks + 2 ^ 32 - ticks0) % 2 ^ 32 < n

def quits (d : Shared) (killed : Bool) : BlockingCall → Bool
  | pipewrite _ => !d.readopen || killed
  | piperead _ | consoleread _ | sysSleep _ _ => killed

def start (d : Shared) : BlockingCall → BlockingCall
  | sysSleep _ n => sysSleep d.ticks n
  | k => k

def idle : BlockingCall → Bool
  | pipewrite n | consoleread n => n = 0
  | piperead _ | sysSleep _ _ => false

/-- What the call does when it is not blocked; `more` is whether `consoleread` goes on (a `^D` that it
  puts back is taken here). The result is the data, and the call to go on with if it loops. -/
def work (d : Shared) (more : Bool) : BlockingCall → Shared × Option BlockingCall
  | piperead n =>
    ({ d with nread := (d.nread + min n ((d.nwrite + 2 ^ 32 - d.nread) % 2 ^ 32)) % 2 ^ 32 }, none)
  | pipewrite n =>
    ({ d with nwrite := (d.nwrite + 1) % 2 ^ 32 }, if n ≤ 1 then none else some (pipewrite (n - 1)))
  | consoleread n =>
    ({ d with r := (d.r + 1) % 2 ^ 32 }, if n ≤ 1 ∨ !more then none else some (consoleread (n - 1)))
  | sysSleep _ _ => (d, none)

def wakes : BlockingCall → Option Chan
  | piperead _ => some (.addr 1)
  | pipewrite _ => some (.addr 0)
  | consoleread _ | sysSleep _ _ => none

end BlockingCall

inductive CallPc where
  | user
  | enter (k : BlockingCall)
  | loop (k : BlockingCall)
  | test (k : BlockingCall)
  | notify (k : BlockingCall)
  | call (k : BlockingCall)
  | body (k : BlockingCall)
  | fin (k : BlockingCall)
  | leave (k : BlockingCall)
  deriving DecidableEq

structure Blk where
  kern : Kern DevLock
  data : Shared
  pc : Slot → CallPc

/-- The steps: of the kernel (`base`), a call, the next step of `p` in its call, and a write to the
  data by other code that holds one of the locks. -/
inductive BlkEv where
  | base (e : KernEv DevLock)
  | call (p : Slot) (k : BlockingCall)
  | next (p : Slot) (more : Bool)
  | write (p : Slot) (lk : DevLock) (d : Shared)

namespace Blk

def goto (x : Blk) (p : Slot) (a : CallPc) : Blk := { x with pc := Function.update x.pc p a }

/-- What a process in a call does by itself: the calls of `acquire`, `sleep` and so on are part of
  `next`. -/
def allows (x : Blk) : KernEv DevLock → Bool
  | .acquire p _ | .release p _ | .sleep p _ _ | .wakeup p _ | .kill p _ => x.pc p = .user
  | .go _ | .dispatch _ | .yield _ => true

def next (x : Blk) (p : Slot) (more : Bool) : Option Blk :=
  match x.pc p with
  | .user => none
  | .enter k =>
    (x.kern.step (.acquire p k.lock)).map fun u =>
      Blk.goto { x with kern := u } p (if k.idle then .fin k else .loop (k.start x.data))
  | .loop k => some (x.goto p (if k.blocked x.data then .test k else .body k))
  | .test k =>
    if k.quits x.data (x.kern.proc p).killed then
      (x.kern.step (.release p k.lock)).map fun u => Blk.goto { x with kern := u } p .user
    else
      match k with
      | .pipewrite _ => some (x.goto p (.notify k))
      | _ => some (x.goto p (.call k))
  | .notify k =>
    (x.kern.step (.wakeup p (.addr 0))).map fun u => Blk.goto { x with kern := u } p (.call k)
  | .call k =>
    (x.kern.step (.sleep p k.chan k.lock)).map fun u => Blk.goto { x with kern := u } p (.loop k)
  | .body k =>
    let w := k.work x.data more
    some (Blk.goto { x with data := w.1 } p (match w.2 with | some k' => .loop k' | none => .fin k))
  | .fin k =>
    match k.wakes with
    | some chan =>
      (x.kern.step (.wakeup p chan)).map fun u => Blk.goto { x with kern := u } p (.leave k)
    | none => some (x.goto p (.leave k))
  | .leave k =>
    (x.kern.step (.release p k.lock)).map fun u => Blk.goto { x with kern := u } p .user

def step (x : Blk) : BlkEv → Option Blk
  | .base e => if x.allows e then (x.kern.step e).map fun u => { x with kern := u } else none
  | .call p k =>
    -- `trap` lets no killed process into a system call
    if x.kern.Free p ∧ x.pc p = .user ∧ (x.kern.proc p).killed = false then
      some (x.goto p (.enter k))
    else none
  | .next p more => if x.kern.Free p then x.next p more else none
  | .write p lk d =>
    if x.kern.Free p ∧ x.pc p = .user ∧ x.kern.held lk = some p then some { x with data := d }
    else none

def Exposed (x : Blk) (p : Slot) : Prop :=
  (∃ k, x.pc p = .notify k ∨ x.pc p = .call k) ∨
  (∃ k, x.pc p = .loop k) ∧
    ∃ chan lk, x.kern.pc p = .entered chan lk ∨ x.kern.pc p = .locked chan lk ∨
      x.kern.pc p = .unlocked chan lk

def Timely (x : Blk) : BlkEv → Prop
  | .base (.kill _ pid) =>
    ∀ i, findSlot (fun _ q => q.pid = pid) x.kern.proc = some i → ¬ x.Exposed i
  | _ => True

/-- Whoever has tested `killed`, and whoever sleeps in a call, has not been killed. -/
def Unhurt (x : Blk) : Prop := ∀ p,
  x.Exposed p ∨ (∃ k, x.pc p = .loop k) ∧ (x.kern.proc p).state = .sleeping →
    (x.kern.proc p).killed = false

variable {x y : Blk} {p : Slot}

variable {s u : Kern DevLock} {e : KernEv DevLock}

theorem killed_of_effect (he : KernEffect s e u) (i : Slot) :
    (u.proc i).killed = (s.proc i).killed ∨ ∃ q pid, e = .kill q pid ∧
      findSlot (fun _ q => q.pid = pid) s.proc = some i ∧ (u.proc i).state ≠ .sleeping := by
  cases he with
  | acquire | release | sleep | wakeup | lock | unlock | relock | sweep => exact .inl rfl
  | doze | tidy | resume | dispatch | yield =>
    refine .inl ?_
    simp only [Kern.setPc, Kern.setProc, Function.update_apply]
    split_ifs with hi
    · rw [hi]
    · rfl
  | swept =>
    refine .inl ?_
    simp only [wakeup1]
    split_ifs <;> rfl
  | @kill q pid =>
    rcases kill_apply pid s.proc i with hk | ⟨hf, hk⟩
    · exact .inl (congrArg Proc.killed hk)
    · refine .inr ⟨q, pid, rfl, hf, ?_⟩
      have := kill1_awake (s.proc i)
      rwa [← hk] at this

theorem sleeping_of_effect (he : KernEffect s e u) {i : Slot} (h : (u.proc i).state = .sleeping) :
    (s.proc i).state = .sleeping ∨ ∃ chan lk, s.pc i = .unlocked chan lk := by
  cases he with
  | acquire | release | sleep | wakeup | lock | unlock | relock | sweep => exact .inl h
  | doze | tidy | resume | dispatch | yield =>
    simp only [Kern.setPc, Kern.setProc, Function.update_apply] at h
    grind
  | swept =>
    simp only [wakeup1] at h
    grind
  | @kill q pid =>
    rcases kill_apply pid s.proc i with hk | ⟨_, hk⟩
    · exact .inl (hk ▸ h)
    · exact absurd (hk ▸ h) (kill1_awake (s.proc i))

theorem entering_of_effect (he : KernEffect s e u) {i : Slot} {chan : Chan} {lk : DevLock}
    (h : u.pc i = .entered chan lk ∨ u.pc i = .locked chan lk ∨
      u.pc i = .unlocked chan lk) :
    (s.pc i = .entered chan lk ∨ s.pc i = .locked chan lk ∨ s.pc i = .unlocked chan lk) ∨
      e = .sleep i chan lk := by
  cases he <;> simp only [Kern.setPc, Kern.setHeld, Kern.setProc, Function.update_apply] at h
  all_goals grind

theorem Unhurt.base (h : Unhurt x) (hG : Timely x (.base e)) (ha : x.allows e = true)
    (he : KernEffect x.kern e u) : Unhurt { x with kern := u } := by
  intro p hp
  have hexp : Exposed { x with kern := u } p → x.Exposed p := by
    rintro (hp | ⟨⟨k, hk⟩, chan, lk, hp⟩)
    · exact .inl hp
    · rcases entering_of_effect he hp with hold | rfl
      · exact .inr ⟨⟨k, hk⟩, chan, lk, hold⟩
      · have hk : x.pc p = .loop k := hk
        simp [allows, hk] at ha
  have hold : x.Exposed p ∨ (∃ k, x.pc p = .loop k) ∧ (x.kern.proc p).state = .sleeping := by
    rcases hp with hp | ⟨hk, hp⟩
    · exact .inl (hexp hp)
    · rcases sleeping_of_effect he hp with hs | ⟨chan, lk, hs⟩
      · exact .inr ⟨hk, hs⟩
      · exact .inl (.inr ⟨hk, chan, lk, .inr (.inr hs)⟩)
  rcases killed_of_effect he p with hk | ⟨q, pid, rfl, hf, hs⟩
  · exact hk.trans (h p hold)
  · rcases hp with hp | ⟨_, hp⟩
    · exact absurd (hexp hp) (hG p hf)
    · exact absurd hp hs

theorem Unhurt.move (h : Unhurt x) (hf : x.kern.Free p) (hproc : u.proc = x.kern.proc)
    (hpc : ∀ q, q ≠ p → u.pc q = x.kern.pc q) {d : Shared} {a : CallPc}
    (ha : (x.kern.proc p).killed = false ∨ (∀ k, a ≠ .notify k ∧ a ≠ .call k) ∧
      (u.pc p = .out ∨ ∀ k, a ≠ .loop k)) : Unhurt (Blk.goto ⟨u, d, x.pc⟩ p a) := by
  intro q hq
  rcases eq_or_ne q p with rfl | hqp
  · have hrun := hf.1
    simp only [Exposed, goto, Function.update_self, hproc] at hq ⊢
    grind
  · refine (congrArg (fun t => (t q).killed) hproc).trans (h q ?_)
    simpa only [Exposed, goto, Function.update_of_ne hqp, hpc q hqp, hproc] using hq

theorem free_step {lk : DevLock} (h : s.step (.acquire p lk) = some u ∨
    s.step (.release p lk) = some u) : u.proc = s.proc ∧ u.pc = s.pc := by
  rcases h with h | h
  · cases kernEffect_of_step h with | acquire => exact ⟨rfl, rfl⟩
  · cases kernEffect_of_step h with | release => exact ⟨rfl, rfl⟩

theorem enter_step (he : (∃ chan, e = .wakeup p chan) ∨ ∃ chan lk, e = .sleep p chan lk)
    (h : s.step e = some u) : u.proc = s.proc ∧ ∀ q, q ≠ p → u.pc q = s.pc q := by
  rcases he with ⟨chan, rfl⟩ | ⟨chan, lk, rfl⟩
  · cases kernEffect_of_step h with
    | wakeup => exact ⟨rfl, fun q hq => by simp [Kern.setPc, hq]⟩
  · cases kernEffect_of_step h with
    | sleep => exact ⟨rfl, fun q hq => by simp [Kern.setPc, hq]⟩

theorem Unhurt.next {more : Bool} (h : Unhurt x) (hf : x.kern.Free p) (hn : x.next p more = some y) :
    Unhurt y := by
  unfold Blk.next at hn
  split at hn
  · cases hn
  · -- enter
    obtain ⟨u, hu, rfl⟩ := map_eq_some_iff.mp hn
    obtain ⟨hproc, hpc⟩ := free_step (.inl hu)
    refine h.move hf hproc (fun q _ => by rw [hpc]) (.inr ⟨fun k => ?_, .inl (by rw [hpc, hf.2])⟩)
    split_ifs <;> simp
  · -- loop
    cases hn
    refine h.move hf rfl (fun _ _ => rfl) (.inr ⟨fun k => ?_, .inl hf.2⟩)
    split_ifs <;> simp
  · -- test
    rename_i k hk
    split_ifs at hn with hq
    · obtain ⟨u, hu, rfl⟩ := map_eq_some_iff.mp hn
      obtain ⟨hproc, hpc⟩ := free_step (.inr hu)
      exact h.move hf hproc (fun q _ => by rw [hpc]) (.inr ⟨by simp, .inr (by simp)⟩)
    · have hkilled : (x.kern.proc p).killed = false := by
        cases k with
        | pipewrite n =>
          have hq : x.data.readopen = true ∧ (x.kern.proc p).killed = false := by
            simpa [BlockingCall.quits] using hq
          exact hq.2
        | piperead | consoleread | sysSleep => simpa [BlockingCall.quits] using hq
      split at hn
      · cases hn
        exact h.move hf rfl (fun _ _ => rfl) (.inl hkilled)
      · cases hn
        exact h.move hf rfl (fun _ _ => rfl) (.inl hkilled)
  · -- notify
    rename_i k hk
    obtain ⟨u, hu, rfl⟩ := map_eq_some_iff.mp hn
    obtain ⟨hproc, hpc⟩ := enter_step (.inl ⟨_, rfl⟩) hu
    exact h.move hf hproc hpc (.inl (h p (.inl (.inl ⟨k, .inl hk⟩))))
  · -- call
    rename_i k hk
    obtain ⟨u, hu, rfl⟩ := map_eq_some_iff.mp hn
    obtain ⟨hproc, hpc⟩ := enter_step (.inr ⟨_, _, rfl⟩) hu
    exact h.move hf hproc hpc (.inl (h p (.inl (.inl ⟨k, .inr hk⟩))))
  · -- body
    cases hn
    refine h.move hf rfl (fun _ _ => rfl) (.inr ⟨fun k => ?_, .inl hf.2⟩)
    split <;> simp
  · -- fin
    split at hn
    · obtain ⟨u, hu, rfl⟩ := map_eq_some_iff.mp hn
      obtain ⟨hproc, hpc⟩ := enter_step (.inl ⟨_, rfl⟩) hu
      exact h.move hf hproc hpc (.inr ⟨by simp, .inr (by simp)⟩)
    · cases hn
      exact h.move hf rfl (fun _ _ => rfl) (.inr ⟨by simp, .inr (by simp)⟩)
  · -- leave
    obtain ⟨u, hu, rfl⟩ := map_eq_some_iff.mp hn
    obtain ⟨hproc, hpc⟩ := free_step (.inr hu)
    exact h.move hf hproc (fun q _ => by rw [hpc]) (.inr ⟨by simp, .inr (by simp)⟩)

theorem Unhurt.step {e : BlkEv} (h : Unhurt x) (hG : Timely x e) (hs : x.step e = some y) :
    Unhurt y := by
  cases e with
  | base e =>
    simp only [Blk.step] at hs
    split_ifs at hs with ha
    obtain ⟨u, hu, rfl⟩ := map_eq_some_iff.mp hs
    exact h.base hG ha (kernEffect_of_step hu)
  | call p k =>
    simp only [Blk.step] at hs
    split_ifs at hs with hg
    cases hs
    exact h.move hg.1 rfl (fun _ _ => rfl) (.inl hg.2.2)
  | next p more =>
    simp only [Blk.step] at hs
    split_ifs at hs with hf
    exact h.next hf hs
  | write p lk d =>
    simp only [Blk.step] at hs
    split_ifs at hs
    cases hs
    exact h

/-- Any table in which nobody sleeps, with all locks free and nobody in a call. -/
def init (t : Table) (d : Shared) : Blk := ⟨⟨t, none, fun _ => none, fun _ => .out⟩, d, fun _ => .user⟩

/-- In every run in which `kill` hits nobody between its test of `killed` and its sleep, nobody sleeps
  killed in one of the calls. -/
theorem not_asleep_killed (t : Table) (d : Shared) (x : Blk)
    (h : Reach Blk.step Timely (init t d) x) (p : Slot) (k : BlockingCall) (hp : x.pc p = .loop k)
    (hs : (x.kern.proc p).state = .sleeping) : (x.kern.proc p).killed = false := by
  have hinit : Unhurt (init t d) := by
    rintro p ((⟨k, hk⟩ | ⟨⟨k, hk⟩, _⟩) | ⟨⟨k, hk⟩, _⟩)
    · simp [init] at hk
    · simp [init] at hk
    · simp [init] at hk
  have hinv : Unhurt x := h.invariant hinit fun _ _ _ hx hG hy => hx.step hG hy
  exact hinv p (.inr ⟨⟨k, hp⟩, hs⟩)

def quiet (n : ℕ) : Shared := ⟨0, n, true, true, 0, 0, 0⟩

instance (x : Blk) (p : Slot) : Decidable (x.Exposed p) :=
  decidable_of_iff
    ((match x.pc p with | .notify _ | .call _ => true | _ => false) = true ∨
      (match x.pc p with | .loop _ => true | _ => false) = true ∧
      (match x.kern.pc p with
        | .entered _ _ | .locked _ _ | .unlocked _ _ => true | _ => false) = true) (by
    unfold Exposed
    refine or_congr ?_ (and_congr ?_ ?_)
    · cases x.pc p <;> simp
    · cases x.pc p <;> simp
    · cases x.kern.pc p <;> simp)

instance (x : Blk) : (e : BlkEv) → Decidable (Timely x e)
  | .base (.kill _ _) => inferInstanceAs (Decidable (∀ _, _))
  | .base (.acquire _ _) | .base (.release _ _) | .base (.sleep _ _ _) | .base (.wakeup _ _)
  | .base (.go _) | .base (.dispatch _) | .base (.yield _) | .call _ _ | .next _ _ | .write _ _ _ =>
    isTrue trivial

/-- Slot 0 kills the process in slot 1 and sleeps in `piperead`. -/
theorem not_asleep_killed_piperead : ∃ x : Blk, Reach Blk.step Timely (init crowd (quiet 0)) x ∧
    (x.kern.proc second).killed = true ∧ (x.kern.proc initproc).state = .sleeping ∧ (x.kern.proc initproc).killed = false := by
  obtain ⟨x, hx, hobs⟩ := exists_reach (show (follow Blk.step Timely
    (init crowd (quiet 0)) [.base (.kill initproc 2), .call initproc (.piperead 1),
      .next initproc false, .next initproc false, .next initproc false, .next initproc false,
      .base (.go initproc), .base (.go initproc), .base (.go initproc)]).map
      (fun x => (x.pc initproc, (x.kern.proc initproc).state, (x.kern.proc second).killed)) =
      some (.loop (.piperead 1), .sleeping, true) by decide +kernel)
  rw [Prod.mk.injEq, Prod.mk.injEq] at hobs
  obtain ⟨hpc, hst, hkill⟩ := hobs
  exact ⟨x, hx, hkill, hst, not_asleep_killed _ _ x hx initproc _ hpc hst⟩

def killedLate (k : BlockingCall) : List BlkEv :=
  [.call initproc k, .next initproc false, .next initproc false, .next initproc false] ++
    (match k with
    | .pipewrite _ => [.next initproc false, .base (.go initproc), .base (.go initproc)]
    | _ => []) ++
    [.base (.kill second 1), .next initproc false, .base (.go initproc), .base (.go initproc),
      .base (.go initproc)]

/-- With `n` bytes in the pipe, slot 0 can come to sleep in call `k` on its channel although it has been
  killed. -/
def SleepsKilled (k : BlockingCall) (n : ℕ) : Prop :=
  ∃ x : Blk, Reach Blk.step (fun _ _ => True) (init crowd (quiet n)) x ∧ x.pc initproc = .loop k ∧
    (x.kern.proc initproc).state = .sleeping ∧
    (x.kern.proc initproc).chan = some (BlockingCall.chan k) ∧ (x.kern.proc initproc).killed = true

theorem sleepsKilled_of_run {k : BlockingCall} {n : ℕ}
    (hrun : (follow Blk.step (fun _ _ => True) (init crowd (quiet n)) (killedLate k)).map
      (fun x => (x.pc initproc, (x.kern.proc initproc).state, (x.kern.proc initproc).chan,
        (x.kern.proc initproc).killed)) =
      some (.loop k, .sleeping, some (BlockingCall.chan k), true)) : SleepsKilled k n := by
  obtain ⟨x, hx, hobs⟩ := exists_reach hrun
  simp only [Prod.mk.injEq] at hobs
  exact ⟨x, hx, hobs⟩

/-- In each of the four calls a process may sleep on although it has been killed. -/
theorem asleep_killed : SleepsKilled (.piperead 1) 0 ∧ SleepsKilled (.pipewrite 1) 512 ∧
    SleepsKilled (.consoleread 1) 0 ∧ SleepsKilled (.sysSleep 0 1) 0 := by
  refine ⟨?_, ?_, ?_, ?_⟩
  · exact sleepsKilled_of_run (by decide +kernel)
  · exact sleepsKilled_of_run (by decide +kernel)
  · exact sleepsKilled_of_run (by decide +kernel)
  · exact sleepsKilled_of_run (by decide +kernel)

end Blk

end Xv6.Ptable

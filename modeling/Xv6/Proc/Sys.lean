import Xv6.Proc.Table
import Xv6.Schemes.Machine

/-! @src proc.c, trap.c | part:processes and CPUs | scheme:machine

  All CPUs and processes, at the granularity of `ptable.lock`: a locked section is one step, and
  what is done without the lock (the timer's `ticks[priority]++`, the middle of `fork`) is a step
  of its own. `swtch` hands the lock over: a process just dispatched starts with the lock held by
  its CPU, and so does the scheduler after a `sched`.

      idle --pass--> on p, locked --resume--> on p --yield, sleep, exit, wait--> back p, locked
       ^    (round robin: scan k)                                                     |
       +--------------------------------- post <--------------------------------------+

  A process keeps its place in `fork` (`stage`) and the place where `swtch` will return (`park`)
  while it does not run. -/

namespace Xv6.Ptable
open Schemes
open Function (update)

/-- Where a process is in `fork`; `np` is the slot it got from `allocproc`. -/
inductive Stage where
  | user
  | kalloc (np : Slot)
  | copyuvm (np : Slot)
  | parent (np : Slot)
  | run (np : Slot)
  deriving DecidableEq

def Stage.child : Stage → Option Slot
  | .user => none
  | .kalloc np | .copyuvm np | .parent np | .run np => some np

inductive Park where
  | forkret
  | yielded
  | slept
  | waiting
  | exited
  deriving DecidableEq

/-- The kernel thread of a process; `ticked` holds between the timer's increment and `yield`. -/
structure Thread where
  stage : Stage
  park : Park
  ticked : Bool

/-- Where a CPU is: in its scheduler, or running a process. `back p` means that `p` has called
  `sched`; `cpu->proc` is `p` in the last two. -/
inductive Loc where
  | idle
  | scan (k : ℕ)
  | on (p : Slot)
  | back (p : Slot)
  deriving DecidableEq

/-- `struct cpu`; `rr` tells which branch of `scheduler` the current pass took. -/
structure Cpu where
  loc : Loc
  policy : ℤ
  rr : Bool

inductive Halt where
  | panic (msg : String)
  | outOfBounds
  deriving DecidableEq

/-- What user programs can observe of process creation and death, by pid. -/
inductive Note where
  | forked (parent child : ℤ)
  | exited (pid : ℤ)
  | waited (by_ ret : ℤ)
  deriving DecidableEq

/-- The machine. The last three fields are history: the number of allocations, the notes so far,
  and how many dispatches have passed over a `RUNNABLE` slot. -/
structure Sys (C : Type) where
  proc : Table
  thread : Slot → Thread
  cpu : C → Cpu
  lock : Option C
  nextpid : ℤ
  halted : Option Halt
  allocs : ℕ
  hist : List Note
  passed : Slot → ℕ

variable {C : Type}

namespace Sys

def setProc (s : Sys C) (i : Slot) (p : Proc) : Sys C :=
  { s with proc := update s.proc i p }

@[simp] theorem setProc_thread (s : Sys C) (i : Slot) (p : Proc) :
    (s.setProc i p).thread = s.thread := rfl

@[simp] theorem setProc_cpu (s : Sys C) (i : Slot) (p : Proc) : (s.setProc i p).cpu = s.cpu := rfl

@[simp] theorem setProc_lock (s : Sys C) (i : Slot) (p : Proc) : (s.setProc i p).lock = s.lock := rfl

def setThread (s : Sys C) (i : Slot) (t : Thread) : Sys C :=
  { s with thread := update s.thread i t }

def setStage (s : Sys C) (i : Slot) (g : Stage) : Sys C :=
  s.setThread i { s.thread i with stage := g }

def note (s : Sys C) (n : Note) : Sys C := { s with hist := s.hist ++ [n] }

variable [DecidableEq C]

def setLoc (s : Sys C) (c : C) (l : Loc) : Sys C :=
  { s with cpu := update s.cpu c { s.cpu c with loc := l } }

def acts (s : Sys C) (c : C) : Option Slot :=
  match (s.cpu c).loc with
  | .on p => if s.lock = some c ∨ (s.thread p).ticked then none else some p
  | _ => none

def dispatch (s : Sys C) (c : C) (q : Slot) : Sys C :=
  if !(s.proc q).kstack then { s with halted := some (.panic "switchuvm: no kstack") }
  else if !(s.proc q).pgdir then { s with halted := some (.panic "switchuvm: no pgdir") }
  else { (s.setProc q { s.proc q with state := .running }).setLoc c (.on q) with
    lock := some c
    passed := fun i =>
      if i = q then 0 else if (s.proc i).state = .runnable then s.passed i + 1 else 0 }

def sched (s : Sys C) (c : C) (p : Slot) (k : Park) : Sys C :=
  { (s.setThread p { s.thread p with park := k, ticked := false }).setLoc c (.back p) with
    lock := some c }

def waitLoop (s : Sys C) (c : C) (p : Slot) : Sys C :=
  match findSlot (fun _ q => q.parent = some p ∧ q.state = .zombie) s.proc with
  | some i =>
    { (s.setProc i (reap (s.proc i))).note (.waited (s.proc p).pid (s.proc i).pid) with
      lock := none }
  | none =>
    if findSlot (fun _ q => q.parent = some p) s.proc = none ∨ (s.proc p).killed then
      { s.note (.waited (s.proc p).pid (-1)) with lock := none }
    else
      (s.setProc p { s.proc p with chan := some (.proc p), state := .sleeping }).sched c p .waiting

end Sys

variable [DecidableEq C]

inductive Ev (C : Type) where
  | pass (c : C)
  | scan (c : C)
  | post (c : C)
  | resume (c : C)
  | tick (c : C)
  | yield (c : C)
  | sleep (c : C) (chan : ℕ)
  | wakeup (chan : ℕ)
  | kill (c : C) (pid : ℤ)
  | exit (c : C)
  | wait (c : C)
  | fork (c : C)
  | kalloc (c : C) (ok : Bool)
  | copyuvm (c : C) (ok : Bool)
  | setParent (c : C)
  | setRunnable (c : C)
  | fatalTrap (c : C)
  | setSchedPolicy (c : C) (policy : ℤ)

def Cpu.mlfq (c : Cpu) : Bool := c.policy = 1 ∨ c.policy = 2

/-- Steps of the scheduler and the timer. -/
def stepSched (s : Sys C) : Ev C → Option (Sys C)
  | .pass c =>
    if s.lock = none ∧ (s.cpu c).loc = .idle then
      if (s.cpu c).mlfq then
        match mlfqSelect s.proc with
        | some q =>
          some (Sys.dispatch { s with cpu := update s.cpu c { s.cpu c with rr := false } } c q)
        | none => some s
      else
        some { s with
          cpu := update s.cpu c { s.cpu c with loc := .scan 0, rr := true }
          lock := some c }
    else none
  | .scan c =>
    match (s.cpu c).loc with
    | .scan k =>
      match rrNext k s.proc with
      | some q => some (s.dispatch c q)
      | none => some { s.setLoc c .idle with lock := none }
    | _ => none
  | .post c =>
    match (s.cpu c).loc with
    | .back p =>
      if (s.cpu c).rr then some (s.setLoc c (.scan (p + 1)))
      else
        match mlfqAfter p s.proc with
        | some t => some { s.setLoc c .idle with proc := t, lock := none }
        | none => some { s with halted := some .outOfBounds }
    | _ => none
  | .resume c =>
    if s.lock = some c then
      match (s.cpu c).loc with
      | .on p =>
        match (s.thread p).park with
        | .forkret | .yielded => some { s with lock := none }
        | .slept => some { s.setProc p { s.proc p with chan := none } with lock := none }
        | .waiting => some ((s.setProc p { s.proc p with chan := none }).waitLoop c p)
        | .exited => some { s with halted := some (.panic "zombie exit") }
      | _ => none
    else none
  | .tick c =>
    match s.acts c with
    | some p =>
      match tick (s.proc p) with
      | some q => some ((s.setProc p q).setThread p { s.thread p with ticked := true })
      | none => some { s with halted := some .outOfBounds }
    | none => none
  | .yield c =>
    -- the system call, or the `yield` that follows the timer's increment
    match (s.cpu c).loc with
    | .on p =>
      if s.lock = none ∧ ((s.thread p).ticked ∨ (s.thread p).stage = .user) then
        some ((s.setProc p { s.proc p with state := .runnable }).sched c p .yielded)
      else none
    | _ => none
  | _ => none

/-- Steps of the system calls. -/
def stepCall (s : Sys C) : Ev C → Option (Sys C)
  | .sleep c chan =>
    match s.acts c with
    | some p =>
      if s.lock = none ∧ (s.thread p).stage = .user then
        some ((s.setProc p { s.proc p with chan := some (.addr chan), state := .sleeping }).sched c p
          .slept)
      else none
    | none => none
  | .wakeup chan =>
    if s.lock = none then some { s with proc := wakeup1 (some (.addr chan)) s.proc } else none
  | .kill c pid =>
    match s.acts c with
    | some p =>
      if s.lock = none ∧ (s.thread p).stage = .user then
        match findSlot (fun _ q => q.pid = pid) s.proc with
        | some i => some (s.setProc i (kill1 (s.proc i)))
        | none => some s
      else none
    | none => none
  | .exit c =>
    match s.acts c with
    | some p =>
      if s.lock = none ∧ (s.thread p).stage = .user then
        if p = initproc then some { s with halted := some (.panic "init exiting") }
        else
          let t := reparent p (wakeup1 ((s.proc p).parent.map .proc) s.proc)
          some ((Sys.setProc { s with proc := t } p { t p with state := .zombie }).sched c p .exited
            |>.note (.exited (s.proc p).pid))
      else none
    | none => none
  | .wait c =>
    match s.acts c with
    | some p =>
      if s.lock = none ∧ (s.thread p).stage = .user then some (s.waitLoop c p) else none
    | none => none
  | .fork c =>
    match s.acts c with
    | some p =>
      if s.lock = none ∧ (s.thread p).stage = .user then
        match findSlot (fun _ q => q.state = .unused) s.proc with
        | some i =>
          some { (s.setProc i (embryo s.nextpid (s.proc i))).setStage p (.kalloc i) with
            nextpid := wrap (s.nextpid + 1)
            allocs := s.allocs + 1 }
        | none => some s
      else none
    | none => none
  | .kalloc c ok =>
    match s.acts c with
    | some p =>
      match (s.thread p).stage with
      | .kalloc np =>
        if ok then
          some (((s.setProc np { s.proc np with kstack := true }).setStage p (.copyuvm np)).setThread
            np ⟨.user, .forkret, false⟩)
        else
          some ((s.setProc np { s.proc np with kstack := false, state := .unused }).setStage p .user)
      | _ => none
    | none => none
  | .copyuvm c ok =>
    match s.acts c with
    | some p =>
      match (s.thread p).stage with
      | .copyuvm np =>
        if ok then
          some ((s.setProc np { s.proc np with pgdir := true }).setStage p (.parent np))
        else
          some ((s.setProc np { s.proc np with pgdir := false, kstack := false, state := .unused })
            |>.setStage p .user)
      | _ => none
    | none => none
  | .setParent c =>
    match s.acts c with
    | some p =>
      match (s.thread p).stage with
      | .parent np => some ((s.setProc np { s.proc np with parent := some p }).setStage p (.run np))
      | _ => none
    | none => none
  | .setRunnable c =>
    match s.acts c with
    | some p =>
      match (s.thread p).stage with
      | .run np =>
        if s.lock = none then
          some (((s.setProc np { s.proc np with state := .runnable }).setStage p .user).note
            (.forked (s.proc p).pid (s.proc np).pid))
        else none
      | _ => none
    | none => none
  | .fatalTrap c =>
    match s.acts c with
    | some p => some (s.setProc p { s.proc p with killed := true })
    | none => none
  | .setSchedPolicy c policy =>
    match s.acts c with
    | some _ =>
      if policy < 0 ∨ policy > 3 then some s
      else some { s with cpu := update s.cpu c { s.cpu c with policy := policy } }
    | none => none
  | _ => none

def step (s : Sys C) (e : Ev C) : Option (Sys C) :=
  if s.halted.isSome then none
  else match e with
    | .pass _ | .scan _ | .post _ | .resume _ | .tick _ | .yield _ => stepSched s e
    | _ => stepCall s e

def zeroProc : Proc :=
  ⟨.unused, 0, none, none, false, false, false, 0, fun _ => 0, fun _ => 0⟩

/-- After `userinit`: one process, in the first slot, and all CPUs in their schedulers. -/
def boot (policy : C → ℤ) : Sys C where
  proc := update (fun _ => zeroProc) initproc
    { zeroProc with state := .runnable, pid := 1, kstack := true, pgdir := true, priority := 3 }
  thread := fun _ => ⟨.user, .forkret, false⟩
  cpu := fun c => ⟨.idle, policy c, false⟩
  lock := none
  nextpid := 2
  halted := none
  allocs := 1
  hist := []
  passed := fun _ => 0

/-! ### What a step can do -/

structure Sys.Calls (s : Sys C) (c : C) (p : Slot) : Prop where
  on : (s.cpu c).loc = .on p
  lock : s.lock = none
  ticked : (s.thread p).ticked = false
  stage : (s.thread p).stage = .user

structure Sys.Forks (s : Sys C) (c : C) (p : Slot) (g : Stage) : Prop where
  on : (s.cpu c).loc = .on p
  lock : s.lock ≠ some c
  ticked : (s.thread p).ticked = false
  stage : (s.thread p).stage = g

theorem acts_eq_some {s : Sys C} {c : C} {p : Slot} (h : s.acts c = some p) :
    (s.cpu c).loc = .on p ∧ s.lock ≠ some c ∧ (s.thread p).ticked = false := by
  unfold Sys.acts at h
  split at h
  · rename_i q hq
    split_ifs at h with hb
    rw [Option.some.injEq] at h
    subst h
    rw [not_or] at hb
    exact ⟨hq, hb.1, by simpa using hb.2⟩
  · cases h

inductive Effect (s : Sys C) : Ev C → Sys C → Prop
  | stay {e} : Effect s e s
  | panic {e} (msg : String) : Effect s e { s with halted := some (.panic msg) }
  | postOut {c p} (hb : (s.cpu c).loc = .back p) (ht : mlfqAfter p s.proc = none) :
      Effect s (.post c) { s with halted := some .outOfBounds }
  | tickOut {c p} (ho : (s.cpu c).loc = .on p) (hq : tick (s.proc p) = none) :
      Effect s (.tick c) { s with halted := some .outOfBounds }
  | passMlfq {c q} (hl : s.lock = none) (hi : (s.cpu c).loc = .idle) (hp : (s.cpu c).mlfq = true)
      (hq : mlfqSelect s.proc = some q) :
      Effect s (.pass c)
        (Sys.dispatch { s with cpu := update s.cpu c { s.cpu c with rr := false } } c q)
  | passRr {c} (hl : s.lock = none) (hi : (s.cpu c).loc = .idle) (hp : (s.cpu c).mlfq = false) :
      Effect s (.pass c) { s with
        cpu := update s.cpu c { s.cpu c with loc := .scan 0, rr := true }
        lock := some c }
  | scanRun {c k q} (hk : (s.cpu c).loc = .scan k) (hq : rrNext k s.proc = some q) :
      Effect s (.scan c) (s.dispatch c q)
  | scanEnd {c k} (hk : (s.cpu c).loc = .scan k) (hq : rrNext k s.proc = none) :
      Effect s (.scan c) { s.setLoc c .idle with lock := none }
  | postRr {c p} (hb : (s.cpu c).loc = .back p) (hr : (s.cpu c).rr = true) :
      Effect s (.post c) (s.setLoc c (.scan (p + 1)))
  | postMlfq {c p t} (hb : (s.cpu c).loc = .back p) (hr : (s.cpu c).rr = false)
      (ht : mlfqAfter p s.proc = some t) :
      Effect s (.post c) { s.setLoc c .idle with proc := t, lock := none }
  | resume {c p} (hl : s.lock = some c) (ho : (s.cpu c).loc = .on p) :
      Effect s (.resume c) { s with lock := none }
  | resumeSlept {c p} (hl : s.lock = some c) (ho : (s.cpu c).loc = .on p)
      (hp : (s.thread p).park = .slept) :
      Effect s (.resume c) { s.setProc p { s.proc p with chan := none } with lock := none }
  | resumeWait {c p} (hl : s.lock = some c) (ho : (s.cpu c).loc = .on p)
      (hp : (s.thread p).park = .waiting) :
      Effect s (.resume c) ((s.setProc p { s.proc p with chan := none }).waitLoop c p)
  | tick {c p q} (ho : (s.cpu c).loc = .on p) (hl : s.lock ≠ some c)
      (hn : (s.thread p).ticked = false) (hq : tick (s.proc p) = some q) :
      Effect s (.tick c) ((s.setProc p q).setThread p { s.thread p with ticked := true })
  | yield {c p} (ho : (s.cpu c).loc = .on p) (hl : s.lock = none) :
      Effect s (.yield c) ((s.setProc p { s.proc p with state := .runnable }).sched c p .yielded)
  | sleep {c p chan} (hc : s.Calls c p) :
      Effect s (.sleep c chan) ((s.setProc p
        { s.proc p with chan := some (.addr chan), state := .sleeping }).sched c p .slept)
  | wakeup {chan} (hl : s.lock = none) :
      Effect s (.wakeup chan) { s with proc := wakeup1 (some (.addr chan)) s.proc }
  | kill {c p pid i} (hc : s.Calls c p) (hi : findSlot (fun _ q => q.pid = pid) s.proc = some i) :
      Effect s (.kill c pid) (s.setProc i (kill1 (s.proc i)))
  | exit {c p t} (hc : s.Calls c p) (hp : p ≠ initproc)
      (ht : t = reparent p (wakeup1 ((s.proc p).parent.map .proc) s.proc)) :
      Effect s (.exit c) ((Sys.setProc { s with proc := t } p { t p with state := .zombie }).sched c p
        .exited |>.note (.exited (s.proc p).pid))
  | wait {c p} (hc : s.Calls c p) : Effect s (.wait c) (s.waitLoop c p)
  | fork {c p i} (hc : s.Calls c p)
      (hi : findSlot (fun _ q => q.state = .unused) s.proc = some i) :
      Effect s (.fork c) { (s.setProc i (embryo s.nextpid (s.proc i))).setStage p (.kalloc i) with
        nextpid := wrap (s.nextpid + 1)
        allocs := s.allocs + 1 }
  | kalloc {c p np} (hf : s.Forks c p (.kalloc np)) :
      Effect s (.kalloc c true) (((s.setProc np { s.proc np with kstack := true }).setStage p
        (.copyuvm np)).setThread np ⟨.user, .forkret, false⟩)
  | kallocFail {c p np} (hf : s.Forks c p (.kalloc np)) :
      Effect s (.kalloc c false) ((s.setProc np
        { s.proc np with kstack := false, state := .unused }).setStage p .user)
  | copyuvm {c p np} (hf : s.Forks c p (.copyuvm np)) :
      Effect s (.copyuvm c true) ((s.setProc np { s.proc np with pgdir := true }).setStage p
        (.parent np))
  | copyuvmFail {c p np} (hf : s.Forks c p (.copyuvm np)) :
      Effect s (.copyuvm c false) ((s.setProc np
        { s.proc np with pgdir := false, kstack := false, state := .unused }).setStage p .user)
  | setParent {c p np} (hf : s.Forks c p (.parent np)) :
      Effect s (.setParent c) ((s.setProc np { s.proc np with parent := some p }).setStage p
        (.run np))
  | setRunnable {c p np} (hf : s.Forks c p (.run np)) (hl : s.lock = none) :
      Effect s (.setRunnable c) (((s.setProc np { s.proc np with state := .runnable }).setStage p
        .user).note (.forked (s.proc p).pid (s.proc np).pid))
  | fatalTrap {c p} (ho : (s.cpu c).loc = .on p) (hl : s.lock ≠ some c) :
      Effect s (.fatalTrap c) (s.setProc p { s.proc p with killed := true })
  | setSchedPolicy {c p policy} (ho : (s.cpu c).loc = .on p) (hl : s.lock ≠ some c) :
      Effect s (.setSchedPolicy c policy)
        { s with cpu := update s.cpu c { s.cpu c with policy := policy } }

variable {s u : Sys C} {e : Ev C}

theorem effect_of_stepSched (h : stepSched s e = some u) : Effect s e u := by
  cases e with
  | pass c =>
    simp only [stepSched] at h
    split_ifs at h with hg hp
    · split at h
      · cases h; exact .passMlfq hg.1 hg.2 hp ‹_›
      · cases h; exact .stay
    · cases h; exact .passRr hg.1 hg.2 (by simpa using hp)
  | scan c =>
    simp only [stepSched] at h
    split at h
    · split at h
      · cases h; exact .scanRun ‹_› ‹_›
      · cases h; exact .scanEnd ‹_› ‹_›
    · cases h
  | post c =>
    simp only [stepSched] at h
    split at h
    · split_ifs at h with hr
      · cases h; exact .postRr ‹_› hr
      · split at h
        · cases h; exact .postMlfq ‹_› (by simpa using hr) ‹_›
        · cases h; exact .postOut ‹_› ‹_›
    · cases h
  | resume c =>
    simp only [stepSched] at h
    split_ifs at h with hl
    split at h
    · split at h
      · cases h; exact .resume hl ‹_›
      · cases h; exact .resume hl ‹_›
      · cases h; exact .resumeSlept hl ‹_› ‹_›
      · cases h; exact .resumeWait hl ‹_› ‹_›
      · cases h; exact .panic _
    · cases h
  | tick c =>
    simp only [stepSched] at h
    split at h
    · obtain ⟨ho, hl, hn⟩ := acts_eq_some ‹_›
      split at h
      · cases h; exact .tick ho hl hn ‹_›
      · cases h; exact .tickOut ho ‹_›
    · cases h
  | yield c =>
    simp only [stepSched] at h
    split at h
    · split_ifs at h with hg
      cases h; exact .yield ‹_› hg.1
    · cases h
  | sleep | wakeup | kill | exit | wait | fork | kalloc | copyuvm | setParent | setRunnable
  | fatalTrap | setSchedPolicy => cases h

theorem effect_of_stepCall (h : stepCall s e = some u) : Effect s e u := by
  cases e with
  | pass | scan | post | resume | tick | yield => cases h
  | sleep c chan =>
    simp only [stepCall] at h
    split at h
    · obtain ⟨ho, _, hn⟩ := acts_eq_some ‹_›
      split_ifs at h with hg
      cases h; exact .sleep ⟨ho, hg.1, hn, hg.2⟩
    · cases h
  | wakeup chan =>
    simp only [stepCall] at h
    split_ifs at h with hl
    cases h; exact .wakeup hl
  | kill c pid =>
    simp only [stepCall] at h
    split at h
    · obtain ⟨ho, _, hn⟩ := acts_eq_some ‹_›
      split_ifs at h with hg
      split at h
      · cases h; exact .kill ⟨ho, hg.1, hn, hg.2⟩ ‹_›
      · cases h; exact .stay
    · cases h
  | exit c =>
    simp only [stepCall] at h
    split at h
    · obtain ⟨ho, _, hn⟩ := acts_eq_some ‹_›
      split_ifs at h with hg hp
      · cases h; exact .panic _
      · cases h; exact .exit ⟨ho, hg.1, hn, hg.2⟩ hp rfl
    · cases h
  | wait c =>
    simp only [stepCall] at h
    split at h
    · obtain ⟨ho, _, hn⟩ := acts_eq_some ‹_›
      split_ifs at h with hg
      cases h; exact .wait ⟨ho, hg.1, hn, hg.2⟩
    · cases h
  | fork c =>
    simp only [stepCall] at h
    split at h
    · obtain ⟨ho, _, hn⟩ := acts_eq_some ‹_›
      split_ifs at h with hg
      split at h
      · cases h; exact .fork ⟨ho, hg.1, hn, hg.2⟩ ‹_›
      · cases h; exact .stay
    · cases h
  | kalloc c ok =>
    simp only [stepCall] at h
    split at h
    · obtain ⟨ho, hl, hn⟩ := acts_eq_some ‹_›
      split at h
      · cases ok with
        | true => cases h; exact .kalloc ⟨ho, hl, hn, ‹_›⟩
        | false => cases h; exact .kallocFail ⟨ho, hl, hn, ‹_›⟩
      · cases h
    · cases h
  | copyuvm c ok =>
    simp only [stepCall] at h
    split at h
    · obtain ⟨ho, hl, hn⟩ := acts_eq_some ‹_›
      split at h
      · cases ok with
        | true => cases h; exact .copyuvm ⟨ho, hl, hn, ‹_›⟩
        | false => cases h; exact .copyuvmFail ⟨ho, hl, hn, ‹_›⟩
      · cases h
    · cases h
  | setParent c =>
    simp only [stepCall] at h
    split at h
    · obtain ⟨ho, hl, hn⟩ := acts_eq_some ‹_›
      split at h
      · cases h; exact .setParent ⟨ho, hl, hn, ‹_›⟩
      · cases h
    · cases h
  | setRunnable c =>
    simp only [stepCall] at h
    split at h
    · obtain ⟨ho, hl, hn⟩ := acts_eq_some ‹_›
      split at h
      · split_ifs at h with hlock
        cases h; exact .setRunnable ⟨ho, hl, hn, ‹_›⟩ hlock
      · cases h
    · cases h
  | fatalTrap c =>
    simp only [stepCall] at h
    split at h
    · obtain ⟨ho, hl, _⟩ := acts_eq_some ‹_›
      cases h; exact .fatalTrap ho hl
    · cases h
  | setSchedPolicy c policy =>
    simp only [stepCall] at h
    split at h
    · obtain ⟨ho, hl, _⟩ := acts_eq_some ‹_›
      split_ifs at h
      · cases h; exact .stay
      · cases h; exact .setSchedPolicy ho hl
    · cases h

theorem effect_of_step (h : step s e = some u) : s.halted = none ∧ Effect s e u := by
  unfold step at h
  split_ifs at h with hh
  refine ⟨by simpa using hh, ?_⟩
  cases e with
  | pass | scan | post | resume | tick | yield => exact effect_of_stepSched h
  | sleep | wakeup | kill | exit | wait | fork | kalloc | copyuvm | setParent | setRunnable
  | fatalTrap | setSchedPolicy => exact effect_of_stepCall h

theorem waitLoop_cases (s : Sys C) (c : C) (p : Slot) :
    (∃ i, (s.proc i).parent = some p ∧ (s.proc i).state = .zombie ∧ s.waitLoop c p =
      { (s.setProc i (reap (s.proc i))).note (.waited (s.proc p).pid (s.proc i).pid) with
        lock := none }) ∨
    ((∀ i, (s.proc i).parent = some p → (s.proc i).state ≠ .zombie) ∧
      ((∀ i, (s.proc i).parent ≠ some p) ∨ (s.proc p).killed = true) ∧
      s.waitLoop c p = { s.note (.waited (s.proc p).pid (-1)) with lock := none }) ∨
    ((∀ i, (s.proc i).parent = some p → (s.proc i).state ≠ .zombie) ∧
      (∃ i, (s.proc i).parent = some p) ∧ (s.proc p).killed = false ∧ s.waitLoop c p =
      (s.setProc p { s.proc p with chan := some (.proc p), state := .sleeping }).sched c p
        .waiting) := by
  unfold Sys.waitLoop
  cases hz : findSlot (fun _ q => q.parent = some p ∧ q.state = .zombie) s.proc with
  | some i =>
    have hi := findSlot_some hz
    simp only [decide_eq_true_eq] at hi
    exact .inl ⟨i, hi.1, hi.2, rfl⟩
  | none =>
    have hno : ∀ i, (s.proc i).parent = some p → (s.proc i).state ≠ .zombie := by
      intro i hi hs
      have := findSlot_none hz i
      simp [hi, hs] at this
    refine .inr ?_
    cases hk : findSlot (fun _ q => q.parent = some p) s.proc with
    | none =>
      exact .inl ⟨hno, .inl fun i => by simpa using findSlot_none hk i, by simp⟩
    | some i =>
      have hi := findSlot_some hk
      simp only [decide_eq_true_eq] at hi
      cases hkill : (s.proc p).killed with
      | true => exact .inl ⟨hno, .inr rfl, by simp⟩
      | false => exact .inr ⟨hno, ⟨i, hi⟩, rfl, by simp⟩

theorem dispatch_cases (s : Sys C) (c : C) (q : Slot) :
    (∃ msg, s.dispatch c q = { s with halted := some (.panic msg) }) ∨
    s.dispatch c q = { (s.setProc q { s.proc q with state := .running }).setLoc c (.on q) with
      lock := some c
      passed := fun i =>
        if i = q then 0 else if (s.proc i).state = .runnable then s.passed i + 1 else 0 } := by
  unfold Sys.dispatch
  split_ifs
  · exact .inl ⟨_, rfl⟩
  · exact .inl ⟨_, rfl⟩
  · exact .inr rfl

theorem thread_dispatch (s : Sys C) (c : C) (q : Slot) : (s.dispatch c q).thread = s.thread := by
  rcases dispatch_cases s c q with ⟨msg, hd⟩ | hd
  · rw [hd]
  · rw [hd]
    rfl

theorem back_of_setLoc {s : Sys C} {c d : C} {q : Slot} {l : Loc} (hl : l ≠ .back q)
    (hb : ((s.setLoc c l).cpu d).loc = .back q) : (s.cpu d).loc = .back q := by
  rcases eq_or_ne d c with rfl | hd
  · exact absurd (by simpa [Sys.setLoc] using hb) hl
  · simpa [Sys.setLoc, hd] using hb

theorem back_of_dispatch {s : Sys C} {c d : C} {p q : Slot}
    (hb : ((s.dispatch c p).cpu d).loc = .back q) : (s.cpu d).loc = .back q := by
  rcases dispatch_cases s c p with ⟨msg, hd⟩ | hd
  · rwa [hd] at hb
  · rw [hd] at hb
    exact back_of_setLoc (s := s) (l := .on p) (by simp) hb

end Xv6.Ptable

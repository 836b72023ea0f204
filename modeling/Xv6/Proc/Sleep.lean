import Xv6.Proc.Kill

/-! @src proc.c | part:sleep and wakeup, step by step | scheme:machine

  `sleep`, `wakeup` and `kill` under the spinlocks of their callers, one lock operation a step.
  `sleep(chan, lk)` goes from `lk` to `ptable.lock` in two steps and comes back in two:

      out --sleep--> entered --acquire pt--> locked --release lk--> unlocked --sched--> switched
       ^                                                                                  | woken,
       +------acquire lk------ relock <--chan = 0, release pt-- back <------dispatch------+ then

  What nobody else can see under `ptable.lock` is part of the step that lets it go: the change to
  `SLEEPING` and `sched`, the loop of `wakeup1`, the whole of `kill`. -/

namespace Xv6.Ptable
open Schemes
open Function

/-- Where a process is in `sleep` or `wakeup`; `Lk` are the spinlocks other than `ptable.lock`. -/
inductive SleepPc (Lk : Type) where
  | out
  | entered (chan : Chan) (lk : Lk)
  | locked (chan : Chan) (lk : Lk)
  | unlocked (chan : Chan) (lk : Lk)
  | switched (lk : Lk)
  | back (lk : Lk)
  | relock (lk : Lk)
  | waking (chan : Chan)
  | sweeping (chan : Chan)
  deriving DecidableEq

/-- The table, who holds `ptable.lock` and the other spinlocks, and where everybody is. -/
structure Kern (Lk : Type) where
  proc : Table
  ptable : Option Slot
  held : Lk → Option Slot
  pc : Slot → SleepPc Lk

inductive KernEv (Lk : Type) where
  | acquire (p : Slot) (lk : Lk)
  | release (p : Slot) (lk : Lk)
  | sleep (p : Slot) (chan : Chan) (lk : Lk)
  | wakeup (p : Slot) (chan : Chan)
  | go (p : Slot)
  | kill (p : Slot) (pid : ℤ)
  | dispatch (p : Slot)
  | yield (p : Slot)

variable {Lk : Type}

namespace Kern

def Free (s : Kern Lk) (p : Slot) : Prop := (s.proc p).state = .running ∧ s.pc p = .out

def setPc (s : Kern Lk) (p : Slot) (a : SleepPc Lk) : Kern Lk :=
  { s with pc := update s.pc p a }

def setProc (s : Kern Lk) (p : Slot) (q : Proc) : Kern Lk :=
  { s with proc := update s.proc p q }

variable [DecidableEq Lk]

instance (s : Kern Lk) (p : Slot) : Decidable (s.Free p) := inferInstanceAs (Decidable (_ ∧ _))

def setHeld (s : Kern Lk) (l : Lk) (o : Option Slot) : Kern Lk :=
  { s with held := update s.held l o }

def go (s : Kern Lk) (p : Slot) : Option (Kern Lk) :=
  match s.pc p with
  | .out | .switched _ => none
  | .entered chan lk =>
    if s.ptable = none then some { s.setPc p (.locked chan lk) with ptable := some p } else none
  | .locked chan lk => some ((s.setHeld lk none).setPc p (.unlocked chan lk))
  | .unlocked chan lk =>
    some { (s.setProc p { s.proc p with chan := some chan, state := .sleeping }).setPc p
      (.switched lk) with ptable := none }
  | .back lk =>
    some { (s.setProc p { s.proc p with chan := none }).setPc p (.relock lk) with ptable := none }
  | .relock lk =>
    if s.held lk = none then some ((s.setHeld lk (some p)).setPc p .out) else none
  | .waking chan =>
    if s.ptable = none then some { s.setPc p (.sweeping chan) with ptable := some p } else none
  | .sweeping chan =>
    some { s.setPc p .out with proc := wakeup1 (some chan) s.proc, ptable := none }

variable [Fintype Lk]

def step (s : Kern Lk) : KernEv Lk → Option (Kern Lk)
  | .acquire p lk => if s.Free p ∧ s.held lk = none then some (s.setHeld lk (some p)) else none
  | .release p lk => if s.Free p ∧ s.held lk = some p then some (s.setHeld lk none) else none
  | .sleep p chan lk =>
    if s.Free p ∧ s.held lk = some p then some (s.setPc p (.entered chan lk)) else none
  | .wakeup p chan => if s.Free p then some (s.setPc p (.waking chan)) else none
  | .go p => if (s.proc p).state = .running then s.go p else none
  | .kill p pid =>
    if s.Free p ∧ s.ptable = none then some { s with proc := (kill pid s.proc).2 } else none
  | .dispatch p =>
    if s.ptable = none ∧ (s.proc p).state = .runnable then
      let u := s.setProc p { s.proc p with state := .running }
      match s.pc p with
      | .switched lk => some { u.setPc p (.back lk) with ptable := some p }
      | _ => some u
    else none
  | .yield p =>
    -- the timer interrupts no process that holds a spinlock
    if (s.proc p).state = .running ∧ s.ptable = none ∧ ∀ lk, s.held lk ≠ some p then
      some (s.setProc p { s.proc p with state := .runnable })
    else none

end Kern

/-! ### What a step can do -/

inductive KernEffect [DecidableEq Lk] (s : Kern Lk) : KernEv Lk → Kern Lk → Prop
  | acquire {p lk} (hf : s.Free p) (hl : s.held lk = none) :
      KernEffect s (.acquire p lk) (s.setHeld lk (some p))
  | release {p lk} (hf : s.Free p) (hl : s.held lk = some p) :
      KernEffect s (.release p lk) (s.setHeld lk none)
  | sleep {p chan lk} (hf : s.Free p) (hl : s.held lk = some p) :
      KernEffect s (.sleep p chan lk) (s.setPc p (.entered chan lk))
  | wakeup {p chan} (hf : s.Free p) : KernEffect s (.wakeup p chan) (s.setPc p (.waking chan))
  | lock {p chan lk} (hp : s.pc p = .entered chan lk) (ht : s.ptable = none) :
      KernEffect s (.go p) { s.setPc p (.locked chan lk) with ptable := some p }
  | unlock {p chan lk} (hp : s.pc p = .locked chan lk) :
      KernEffect s (.go p) ((s.setHeld lk none).setPc p (.unlocked chan lk))
  | doze {p chan lk} (hp : s.pc p = .unlocked chan lk) :
      KernEffect s (.go p)
        { (s.setProc p { s.proc p with chan := some chan, state := .sleeping }).setPc p
          (.switched lk) with ptable := none }
  | tidy {p lk} (hr : (s.proc p).state = .running) (hp : s.pc p = .back lk) :
      KernEffect s (.go p)
        { (s.setProc p { s.proc p with chan := none }).setPc p (.relock lk) with ptable := none }
  | relock {p lk} (hp : s.pc p = .relock lk) (hl : s.held lk = none) :
      KernEffect s (.go p) ((s.setHeld lk (some p)).setPc p .out)
  | sweep {p chan} (hp : s.pc p = .waking chan) (ht : s.ptable = none) :
      KernEffect s (.go p) { s.setPc p (.sweeping chan) with ptable := some p }
  | swept {p chan} (hp : s.pc p = .sweeping chan) :
      KernEffect s (.go p)
        { s.setPc p .out with proc := wakeup1 (some chan) s.proc, ptable := none }
  | kill {p pid} (hf : s.Free p) (ht : s.ptable = none) :
      KernEffect s (.kill p pid) { s with proc := (kill pid s.proc).2 }
  | resume {p lk} (ht : s.ptable = none) (hr : (s.proc p).state = .runnable)
      (hp : s.pc p = .switched lk) :
      KernEffect s (.dispatch p)
        { (s.setProc p { s.proc p with state := .running }).setPc p (.back lk) with
          ptable := some p }
  | dispatch {p} (hr : (s.proc p).state = .runnable) :
      KernEffect s (.dispatch p) (s.setProc p { s.proc p with state := .running })
  | yield {p} (hr : (s.proc p).state = .running) :
      KernEffect s (.yield p) (s.setProc p { s.proc p with state := .runnable })

variable [DecidableEq Lk] {s u : Kern Lk} {e : KernEv Lk}

theorem kernEffect_of_go {p : Slot} (hr : (s.proc p).state = .running) (h : s.go p = some u) :
    KernEffect s (.go p) u := by
  unfold Kern.go at h
  split at h
  · cases h
  · cases h
  · split_ifs at h with ht
    cases h; exact .lock ‹_› ht
  · cases h; exact .unlock ‹_›
  · cases h; exact .doze ‹_›
  · cases h; exact .tidy hr ‹_›
  · split_ifs at h with hl
    cases h; exact .relock ‹_› hl
  · split_ifs at h with ht
    cases h; exact .sweep ‹_› ht
  · cases h; exact .swept ‹_›

theorem kernEffect_of_step [Fintype Lk] (h : s.step e = some u) : KernEffect s e u := by
  cases e with
  | acquire p lk =>
    simp only [Kern.step] at h
    split_ifs at h with hg
    cases h; exact .acquire hg.1 hg.2
  | release p lk =>
    simp only [Kern.step] at h
    split_ifs at h with hg
    cases h; exact .release hg.1 hg.2
  | sleep p chan lk =>
    simp only [Kern.step] at h
    split_ifs at h with hg
    cases h; exact .sleep hg.1 hg.2
  | wakeup p chan =>
    simp only [Kern.step] at h
    split_ifs at h with hg
    cases h; exact .wakeup hg
  | go p =>
    simp only [Kern.step] at h
    split_ifs at h with hr
    exact kernEffect_of_go hr h
  | kill p pid =>
    simp only [Kern.step] at h
    split_ifs at h with hg
    cases h; exact .kill hg.1 hg.2
  | dispatch p =>
    simp only [Kern.step] at h
    split_ifs at h with hg
    split at h
    · cases h; exact .resume hg.1 hg.2 ‹_›
    · cases h; exact .dispatch hg.2
  | yield p =>
    simp only [Kern.step] at h
    split_ifs at h with hg
    cases h; exact .yield hg.1

/-! ### Who holds what in `sleep` and `wakeup` -/

structure Holds (s : Kern Lk) : Prop where
  entered : ∀ p chan lk, s.pc p = .entered chan lk → s.held lk = some p
  locked : ∀ p chan lk, s.pc p = .locked chan lk → s.held lk = some p ∧ s.ptable = some p
  unlocked : ∀ p chan lk, s.pc p = .unlocked chan lk → s.ptable = some p
  back : ∀ p lk, s.pc p = .back lk → s.ptable = some p
  sweeping : ∀ p chan, s.pc p = .sweeping chan → s.ptable = some p

theorem Holds.effect (h : Holds s) (he : KernEffect s e u) : Holds u := by
  obtain ⟨entered, locked, unlocked, back, sweeping⟩ := h
  cases he <;> constructor <;>
    simp only [Kern.setPc, Kern.setHeld, Kern.setProc, Kern.Free, update_apply] at *
  all_goals grind

end Xv6.Ptable

import Xv6.Proc.Sys

/-! @src sysproc.c, trap.c, exec.c, proc.c | part:user-level schedulers | scheme:machine

  `sys_uthread_init` stores the address of a user-level scheduler in the process, and the timer
  branch of `trap` calls it. No other code writes the two fields: they outlive the program and the
  process that set them.

      uthread_init(a) --> is_threaded, scheduler = a --exec, or exit, wait, fork--> still set

  The ghost `asked` is the argument of the latest `uthread_init` since the process was allocated and
  since its last `exec`. -/

namespace Xv6.Ptable
open Schemes
open Function

/-- The machine with the fields `is_threaded` and `scheduler` of the slots, and the ghost. -/
structure Uth (C : Type) where
  sys : Sys C
  isThreaded : Slot → Bool
  scheduler : Slot → ℕ
  asked : Slot → Option ℕ

inductive UthEv (C : Type) where
  | base (e : Ev C)
  | uthreadInit (c : C) (sched : ℤ)
  | exec (c : C)

def allocSlot (t : Table) : Option Slot := findSlot (fun _ q => q.state = .unused) t

variable {C : Type}

/-- The ghost after event `e`: a process that is allocated has asked for nothing. -/
def forget (s : Sys C) (a : Slot → Option ℕ) : Ev C → Slot → Option ℕ
  | .fork _, i => if allocSlot s.proc = some i then none else a i
  | _, i => a i

variable [DecidableEq C]

def Sys.caller (s : Sys C) (c : C) : Option Slot :=
  (s.acts c).filter fun p => (s.thread p).stage = .user

def Uth.step (x : Uth C) : UthEv C → Option (Uth C)
  | .base e => (Ptable.step x.sys e).map fun u => { x with sys := u, asked := forget x.sys x.asked e }
  | .uthreadInit c sched =>
    (x.sys.caller c).map fun p =>
      let a := (sched % 2 ^ 32).toNat
      { x with
        scheduler := update x.scheduler p a
        isThreaded := update x.isThreaded p true
        asked := update x.asked p (some a) }
  | .exec c => (x.sys.caller c).map fun p => { x with asked := update x.asked p none }

/-- The process on `c` and the address that the timer branch of `trap` calls there, if it does. -/
def Uth.timerCalls (x : Uth C) (c : C) : Option (Slot × ℕ) :=
  match (x.sys.cpu c).loc with
  | .on p =>
    if (x.sys.proc p).state = .running ∧ x.isThreaded p = true ∧ x.scheduler p ≠ 0 then
      some (p, x.scheduler p)
    else none
  | _ => none

def Uth.Registered (x : Uth C) (i : Slot) : Prop := x.isThreaded i = true ∧ x.scheduler i ≠ 0

instance (x : Uth C) (i : Slot) : Decidable (x.Registered i) := inferInstanceAs (Decidable (_ ∧ _))

/-- No process is allocated in a slot with a registration, and no process with one calls `exec`. -/
def Fresh (x : Uth C) : UthEv C → Prop
  | .base (.fork _) => ∀ i, allocSlot x.sys.proc = some i → ¬ x.Registered i
  | .exec c => ∀ p, x.sys.caller c = some p → ¬ x.Registered p
  | _ => True

def Asked (x : Uth C) : Prop := ∀ i, x.Registered i → x.asked i = some (x.scheduler i)

variable {x y : Uth C}

omit [DecidableEq C] in
theorem forget_eq {s : Sys C} {a : Slot → Option ℕ} {e : Ev C} {i : Slot}
    (h : ∀ c, e = .fork c → allocSlot s.proc ≠ some i) : forget s a e i = a i := by
  cases e with
  | fork c => exact if_neg (h c rfl)
  | _ => rfl

theorem Asked.step {e : UthEv C} (h : Asked x) (hG : Fresh x e) (hs : x.step e = some y) :
    Asked y := by
  cases e with
  | base e =>
    obtain ⟨u, _, rfl⟩ := Option.map_eq_some_iff.mp hs
    intro i hi
    -- the fields of the slot are those of before; was the slot allocated just now?
    have hreg : x.Registered i := hi
    have hkeep : forget x.sys x.asked e i = x.asked i := by
      refine forget_eq ?_
      rintro c rfl hf
      exact hG i hf hreg
    show forget x.sys x.asked e i = some (x.scheduler i)
    rw [hkeep]
    exact h i hreg
  | uthreadInit c sched =>
    obtain ⟨p, _, rfl⟩ := Option.map_eq_some_iff.mp hs
    intro i hi
    rcases eq_or_ne i p with rfl | hip
    · simp
    · simp only [Uth.Registered, update_of_ne hip] at hi ⊢
      exact h i hi
  | exec c =>
    obtain ⟨p, hp, rfl⟩ := Option.map_eq_some_iff.mp hs
    intro i hi
    have hreg : x.Registered i := hi
    rcases eq_or_ne i p with rfl | hip
    · exact absurd hreg (hG i hp)
    · show update x.asked p none i = some (x.scheduler i)
      rw [update_of_ne hip]
      exact h i hreg

def Uth.boot (policy : C → ℤ) : Uth C := ⟨Ptable.boot policy, fun _ => false, fun _ => 0, fun _ => none⟩

omit [DecidableEq C] in
theorem timerCalls_eq_some {c : C} {p : Slot} {a : ℕ} (h : x.timerCalls c = some (p, a)) :
    (x.sys.cpu c).loc = .on p ∧ x.Registered p ∧ x.scheduler p = a := by
  unfold Uth.timerCalls at h
  split at h
  · rename_i q hq
    split_ifs at h with hc
    cases h
    exact ⟨hq, hc.2, rfl⟩
  · cases h

/-- In every run in which no slot is allocated and no program is executed over a registration, the
  timer calls the address that the interrupted process passed in its latest `uthread_init` since it
  was allocated and since its last `exec`. -/
theorem timer_calls_asked (policy : C → ℤ) (x : Uth C) (h : Reach Uth.step Fresh (Uth.boot policy) x)
    (c : C) (p : Slot) (a : ℕ) (hc : x.timerCalls c = some (p, a)) : x.asked p = some a := by
  have hinv : Asked x := h.invariant (fun i hi => absurd hi.1 (by simp [Uth.boot]))
    fun _ _ _ ht hG hs => ht.step hG hs
  obtain ⟨_, hreg, rfl⟩ := timerCalls_eq_some hc
  exact hinv p hreg

instance (x : Uth C) : (e : UthEv C) → Decidable (Fresh x e)
  | .exec _ => inferInstanceAs (Decidable (∀ _, _))
  | .uthreadInit _ _ => isTrue trivial
  | .base (.fork _) => inferInstanceAs (Decidable (∀ _, _))
  | .base (.pass _) | .base (.scan _) | .base (.post _) | .base (.resume _) | .base (.tick _)
  | .base (.yield _) | .base (.sleep _ _) | .base (.wakeup _) | .base (.kill _ _) | .base (.exit _)
  | .base (.wait _) | .base (.kalloc _ _) | .base (.copyuvm _ _) | .base (.setParent _)
  | .base (.setRunnable _) | .base (.fatalTrap _) | .base (.setSchedPolicy _ _) =>
    isTrue trivial

/-- Init registers a scheduler, and the timer calls it. -/
theorem timer_calls_asked_init : ∃ x : Uth Unit, Reach Uth.step Fresh (Uth.boot fun _ => 2) x ∧
    x.timerCalls () = some (initproc, 4096) ∧ x.asked initproc = some 4096 := by
  obtain ⟨x, hx, hc⟩ := exists_reach (show (follow Uth.step Fresh
    (Uth.boot fun _ : Unit => 2) [.base (.pass ()), .base (.resume ()), .uthreadInit () 4096]).map
      (fun x => x.timerCalls ()) = some (some (initproc, 4096)) by decide +kernel)
  exact ⟨x, hx, hc, timer_calls_asked _ x hx () initproc 4096 hc⟩

/-- A registration outlives `exec`; and that of a child that has exited and been reaped is taken over
  by the next child of init, which has never called `uthread_init`. -/
theorem timer_calls_unasked : ∃ x y : Uth Unit,
    Reach Uth.step (fun _ _ => True) (Uth.boot fun _ => 2) x ∧
    Reach Uth.step (fun _ _ => True) (Uth.boot fun _ => 2) y ∧
    (x.timerCalls () = some (initproc, 4096) ∧ x.asked initproc = none) ∧
    ∃ p, p ≠ initproc ∧ y.timerCalls () = some (p, 4096) ∧ y.asked p = none := by
  obtain ⟨x, hx, hc⟩ := exists_reach (show (follow Uth.step (fun _ _ => True)
    (Uth.boot fun _ : Unit => 2) [.base (.pass ()), .base (.resume ()), .uthreadInit () 4096,
      .exec ()]).map (fun x => (x.timerCalls (), x.asked initproc)) =
      some (some (initproc, 4096), none) by decide +kernel)
  let forkChild : List (UthEv Unit) := [.base (.fork ()), .base (.kalloc () true),
    .base (.copyuvm () true), .base (.setParent ()), .base (.setRunnable ()), .base (.wait ()),
    .base (.post ()), .base (.pass ()), .base (.resume ())]
  obtain ⟨y, hy, hd⟩ := exists_reach (show (follow Uth.step (fun _ _ => True)
    (Uth.boot fun _ : Unit => 2) ([.base (.pass ()), .base (.resume ())] ++ forkChild ++
      [.uthreadInit () 4096, .base (.exit ()), .base (.post ()), .base (.pass ()),
        .base (.resume ())] ++ forkChild)).map
      (fun x => (x.timerCalls (), (x.timerCalls ()).bind fun c => x.asked c.1)) =
      some (some (⟨1, by decide⟩, 4096), none) by decide +kernel)
  rw [Prod.mk.injEq] at hc hd
  refine ⟨x, y, hx, hy, hc, ⟨1, by decide⟩, by decide, hd.1, ?_⟩
  rw [hd.1] at hd
  exact hd.2

end Xv6.Ptable

import Xv6.Proc.Uthread
import Xv6.Fs.Inode

/-! @src syscall.c, trap.c, fs.c, sysfile.c, sysproc.c, console.c | part:indirect calls | scheme:machine

  The kernel calls through a pointer in four places, chosen by user code: a system call number comes
  with the trap, a major device number was narrowed to `short` by `create` and read back from the
  disk, and the address of a user-level scheduler was stored by `uthread_init`.

      eax ---------------> syscalls[num]          num > 0 && num < NELEM(syscalls)
      mknod(major) -disk-> devsw[major].read      major >= 0 && major < NDEV
                           devsw[major].write
      uthread_init(a) ---> proc->scheduler        no check -/

namespace Xv6.Ptable
open Schemes Xv6.Fs
open Option (map_eq_some_iff)

inductive KFun where
  | sysFork | sysExit | sysWait | sysPipe | sysRead | sysKill | sysExec | sysFstat | sysChdir
  | sysDup | sysGetpid | sysSbrk | sysSleep | sysUptime | sysOpen | sysWrite | sysMknod | sysUnlink
  | sysLink | sysMkdir | sysClose | sysUthreadInit | sysGetpinfo | sysSetSchedPolicy | sysYield
  | consoleread | consolewrite
  deriving DecidableEq

def syscalls : List (Option KFun) :=
  [none, some .sysFork, some .sysExit, some .sysWait, some .sysPipe, some .sysRead, some .sysKill,
    some .sysExec, some .sysFstat, some .sysChdir, some .sysDup, some .sysGetpid, some .sysSbrk,
    some .sysSleep, some .sysUptime, some .sysOpen, some .sysWrite, some .sysMknod,
    some .sysUnlink, some .sysLink, some .sysMkdir, some .sysClose, some .sysUthreadInit,
    some .sysGetpinfo, some .sysSetSchedPolicy, some .sysYield]

def CONSOLE : ℕ := 1

/-- The `read` and the `write` pointers of `devsw`, as `consoleinit` leaves them. -/
def devswRead : List (Option KFun) := (List.replicate NDEV none).set CONSOLE (some .consoleread)
def devswWrite : List (Option KFun) := (List.replicate NDEV none).set CONSOLE (some .consolewrite)

/-- Where an indirect call goes: to a function, to whatever pointer lies at index `i` outside a
  table, or to an address. -/
inductive Target where
  | fn (f : KFun)
  | stray (i : ℤ)
  | address (a : ℕ)
  deriving DecidableEq

def fetch (tab : List (Option KFun)) (i : ℤ) : Option Target :=
  if 0 ≤ i then
    match tab[i.toNat]? with
    | some f => f.map .fn
    | none => some (.stray i)
  else some (.stray i)

def syscallTarget (eax : ℤ) : Option Target :=
  let num := wrap eax
  if num > 0 ∧ num % 2 ^ 32 < syscalls.length then fetch syscalls num else none

def devTarget (tab : List (Option KFun)) (ip : Dinode) : Option Target :=
  if ip.type = T_DEV then
    if ip.major < 0 ∨ ip.major ≥ NDEV then none else fetch tab ip.major
  else none

def short (x : ℤ) : ℤ := Int.bmod x (2 ^ 16)

structure Ctl (C : Type) where
  uth : Uth C
  inode : ℕ → Dinode

/-- The steps: those of the processes, `create` with the arguments of `mknod`, `open` or `mkdir` for
  an inode that `ialloc` finds free, and the end of an inode in `iput`. -/
inductive CtlEv (C : Type) where
  | base (e : UthEv C)
  | create (c : C) (inum type : ℕ) (major minor : ℤ)
  | free (inum : ℕ)

inductive Site (C : Type) where
  | syscall (eax : ℤ)
  | readi (inum : ℕ)
  | writei (inum : ℕ)
  | timer (c : C)

variable {C : Type} [DecidableEq C]

def Ctl.step (x : Ctl C) : CtlEv C → Option (Ctl C)
  | .base e => (x.uth.step e).map fun u => { x with uth := u }
  | .create c inum type major minor =>
    if (x.uth.sys.caller c).isSome ∧ (x.inode inum).type = 0 then
      some { x with inode := Function.update x.inode inum { x.inode inum with
        type := type, major := short major, minor := short minor, nlink := 1 } }
    else none
  | .free inum =>
    some { x with inode := Function.update x.inode inum { x.inode inum with type := 0 } }

def Ctl.target (x : Ctl C) : Site C → Option Target
  | .syscall eax => syscallTarget eax
  | .readi inum => devTarget devswRead (x.inode inum)
  | .writei inum => devTarget devswWrite (x.inode inum)
  | .timer c => (x.uth.timerCalls c).map fun q => .address q.2

def Site.table : Site C → List (Option KFun)
  | .syscall _ => syscalls
  | .readi _ => devswRead
  | .writei _ => devswWrite
  | .timer _ => []

def InKernel (x : Ctl C) : Prop :=
  ∀ site t, x.target site = some t → ∃ f, t = .fn f ∧ some f ∈ site.table

def Ctl.boot (policy : C → ℤ) (image : ℕ → Dinode) : Ctl C := ⟨Uth.boot policy, image⟩

/-- No process registers a user-level scheduler: `uthread_init` gets a null pointer. -/
def NoScheduler (_ : Ctl C) : CtlEv C → Prop
  | .base (.uthreadInit _ sched) => sched % 2 ^ 32 = 0
  | _ => True

variable {x y : Ctl C}

/-! ### The tables are read within their bounds -/

omit [DecidableEq C] in
theorem fetch_in_table {tab : List (Option KFun)} {i : ℤ} {t : Target} (h0 : 0 ≤ i)
    (h1 : i < tab.length) (h : fetch tab i = some t) : ∃ f, t = .fn f ∧ some f ∈ tab := by
  have hlt : i.toNat < tab.length := by omega
  rw [fetch, if_pos h0, List.getElem?_eq_getElem hlt] at h
  obtain ⟨f, hf, rfl⟩ := map_eq_some_iff.mp h
  exact ⟨f, rfl, hf ▸ List.getElem_mem hlt⟩

theorem syscallTarget_in_table {eax : ℤ} {t : Target} (h : syscallTarget eax = some t) :
    ∃ f, t = .fn f ∧ some f ∈ syscalls := by
  simp only [syscallTarget] at h
  split_ifs at h with hnum
  -- a positive int is what it is as an unsigned number
  have hhi : wrap eax < 2 ^ 31 := Int.bmod_lt (by decide)
  have hmod : wrap eax % 2 ^ 32 = wrap eax := Int.emod_eq_of_lt (by omega) (by omega)
  exact fetch_in_table hnum.1.le (by omega) h

theorem devTarget_in_table {tab : List (Option KFun)} (htab : tab.length = NDEV) {ip : Dinode}
    {t : Target} (h : devTarget tab ip = some t) : ∃ f, t = .fn f ∧ some f ∈ tab := by
  unfold devTarget at h
  split_ifs at h with _ hmajor
  rw [not_or, not_lt, not_le] at hmajor
  exact fetch_in_table hmajor.1 (by rw [htab]; exact hmajor.2) h

theorem devswRead_length : devswRead.length = NDEV := by
  simp [devswRead]

theorem devswWrite_length : devswWrite.length = NDEV := by
  simp [devswWrite]

omit [DecidableEq C] in
/-- All that is left is the timer. -/
theorem inKernel_iff : InKernel x ↔ ∀ c, x.uth.timerCalls c = none := by
  constructor
  · intro h c
    cases hc : x.uth.timerCalls c with
    | none => rfl
    | some q =>
      obtain ⟨f, hf, _⟩ := h (.timer c) (.address q.2) (by simp [Ctl.target, hc])
      cases hf
  · intro h site t ht
    cases site with
    | syscall eax => exact syscallTarget_in_table ht
    | readi inum => exact devTarget_in_table devswRead_length ht
    | writei inum => exact devTarget_in_table devswWrite_length ht
    | timer c =>
      simp only [Ctl.target, h c, Option.map_none] at ht
      cases ht

/-! ### Runs without user-level schedulers -/

theorem noScheduler_step {e : CtlEv C} (h : ∀ p, x.uth.scheduler p = 0) (hG : NoScheduler x e)
    (hs : x.step e = some y) : ∀ p, y.uth.scheduler p = 0 := by
  intro p
  cases e with
  | base e =>
    obtain ⟨u, hu, rfl⟩ := map_eq_some_iff.mp hs
    cases e with
    | base e =>
      obtain ⟨v, _, rfl⟩ := map_eq_some_iff.mp hu
      exact h p
    | uthreadInit c sched =>
      obtain ⟨q, _, rfl⟩ := map_eq_some_iff.mp hu
      have hnull : sched % 2 ^ 32 = 0 := hG
      rcases eq_or_ne p q with rfl | hpq
      · simp only [Function.update_self, hnull, Int.toNat_zero]
      · simpa [hpq] using h p
    | exec c =>
      obtain ⟨q, _, rfl⟩ := map_eq_some_iff.mp hu
      exact h p
  | create c inum type major minor =>
    simp only [Ctl.step] at hs
    split_ifs at hs
    cases hs
    exact h p
  | free inum =>
    cases hs
    exact h p

/-- In every run in which `uthread_init` is called with null pointers only, whatever system calls,
  device numbers and inodes there are, every indirect call goes to a function in its table. -/
theorem control_stays_in_kernel (policy : C → ℤ) (image : ℕ → Dinode) (x : Ctl C)
    (h : Reach Ctl.step NoScheduler (Ctl.boot policy image) x) : InKernel x := by
  have hnull : ∀ p, x.uth.scheduler p = 0 :=
    h.invariant (I := fun x => ∀ p, x.uth.scheduler p = 0) (fun p => rfl)
      fun _ _ _ ht hG hs => noScheduler_step ht hG hs
  refine inKernel_iff.mpr fun c => ?_
  cases hc : x.uth.timerCalls c with
  | none => rfl
  | some q => exact absurd (hnull q.1) (timerCalls_eq_some hc).2.1.2

instance (x : Ctl C) : (e : CtlEv C) → Decidable (NoScheduler x e)
  | .base (.uthreadInit _ _) => inferInstanceAs (Decidable (_ = _))
  | .base (.base _) | .base (.exec _) | .create _ _ _ _ _ | .free _ =>
    isTrue trivial

def noInodes : ℕ → Dinode := fun _ => ⟨0, 0, 0, 0, 0, fun _ => 0⟩

/-- Init makes the console and a device whose number becomes negative as a `short`, and reads both:
  the first call goes to `consoleread`, the second is not made. -/
theorem control_stays_in_kernel_console : ∃ x : Ctl Unit,
    Reach Ctl.step NoScheduler (Ctl.boot (fun _ => 0) noInodes) x ∧
      x.target (.readi 2) = some (.fn .consoleread) ∧ x.target (.readi 3) = none ∧ InKernel x := by
  obtain ⟨x, hx, hobs⟩ := exists_reach (show (follow Ctl.step NoScheduler
    (Ctl.boot (fun _ : Unit => 0) noInodes) [.base (.base (.pass ())), .base (.base (.scan ())),
      .base (.base (.resume ())), .create () 2 T_DEV 65537 1, .create () 3 T_DEV 32768 1]).map
      (fun x => (x.target (.readi 2), x.target (.readi 3))) = some (some (.fn .consoleread), none) by
    decide +kernel)
  rw [Prod.mk.injEq] at hobs
  exact ⟨x, hx, hobs.1, hobs.2, control_stays_in_kernel _ _ x hx⟩

/-- Init calls `uthread_init(4096)`: at the next timer interrupt the kernel calls address 4096. -/
theorem control_leaves_kernel : ∃ x : Ctl Unit,
    Reach Ctl.step (fun _ _ => True) (Ctl.boot (fun _ => 0) noInodes) x ∧
      x.target (.timer ()) = some (.address 4096) ∧ ¬ InKernel x := by
  obtain ⟨x, hx, ht⟩ := exists_reach (show (follow Ctl.step (fun _ _ => True)
    (Ctl.boot (fun _ : Unit => 0) noInodes) [.base (.base (.pass ())), .base (.base (.scan ())),
      .base (.base (.resume ())), .base (.uthreadInit () 4096)]).map
      (fun x => x.target (.timer ())) = some (some (.address 4096)) by decide +kernel)
  refine ⟨x, hx, ht, fun hin => ?_⟩
  obtain ⟨f, hf, _⟩ := hin _ _ ht
  cases hf

end Xv6.Ptable

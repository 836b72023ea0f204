import Xv6.Proc.Wakeup

/-! @src sleeplock.c, proc.c | part:sleep locks | scheme:machine

  A sleep lock is data under a spinlock, a condition and a channel: `locked` under `lk->lk`, "not
  locked", and the address of the lock. The code of `acquiresleep` and `releasesleep` is one walk
  from place to place, and each move is a move of the monitor of `sleep` and `wakeup`:

      out -acquire-> testing -locked = 1-> got -release-> holding -acquire-> dropping
       ^              |  ^                                                     | locked = 0
       |              +sleep (while locked)                                    v
       +----------------release------------ dropped <------wakeup---------- cleared -/

namespace Xv6.Ptable
open Schemes
open Function
open Option (map_eq_some_iff)

inductive LockPc where
  | out | testing | got | holding | dropping | cleared | dropped
  deriving DecidableEq

structure SleepLock where
  locked : Bool
  pid : ℤ

def SleepLock.free (d : SleepLock) : Bool := !d.locked

structure LockSys (Lk : Type) where
  mon : Monitor Lk SleepLock
  pc : Slot → LockPc

inductive LockEv (Lk : Type) where
  | code (p : Slot)
  | other (e : KernEv Lk)

variable {Lk : Type} [DecidableEq Lk] [Fintype Lk] (chan : Chan) (lk : Lk)

/-- The next move of a process in the code of the lock, and where it gets to. -/
def LockSys.next (x : LockSys Lk) (p : Slot) : LockPc × MonitorEv Lk SleepLock :=
  match x.pc p with
  | .out => (.testing, .base (.acquire p lk))
  | .testing =>
    if x.mon.data.locked then (.testing, .base (.sleep p chan lk))
    else (.got, .write p ⟨true, (x.mon.kern.proc p).pid⟩)
  | .got => (.holding, .base (.release p lk))
  | .holding => (.dropping, .base (.acquire p lk))
  | .dropping => (.cleared, .write p ⟨false, 0⟩)
  | .cleared => (.dropped, .base (.wakeup p chan))
  | .dropped => (.out, .base (.release p lk))

/-- Nobody but the code of the lock uses its spinlock and sleeps on its channel; a process is in
  other code of the kernel when it is outside, or has the lock. -/
def Elsewhere (pc : Slot → LockPc) : KernEv Lk → Prop
  | .acquire p l | .release p l => l ≠ lk ∧ (pc p = .out ∨ pc p = .holding)
  | .sleep p ch l => ch ≠ chan ∧ l ≠ lk ∧ (pc p = .out ∨ pc p = .holding)
  | .wakeup p _ | .kill p _ => pc p = .out ∨ pc p = .holding
  | .go _ | .dispatch _ | .yield _ => True

instance (pc : Slot → LockPc) : (e : KernEv Lk) → Decidable (Elsewhere chan lk pc e)
  | .acquire p l | .release p l =>
    inferInstanceAs (Decidable (l ≠ lk ∧ (pc p = .out ∨ pc p = .holding)))
  | .sleep p ch l =>
    inferInstanceAs (Decidable (ch ≠ chan ∧ l ≠ lk ∧ (pc p = .out ∨ pc p = .holding)))
  | .wakeup p _ | .kill p _ => inferInstanceAs (Decidable (pc p = .out ∨ pc p = .holding))
  | .go _ | .dispatch _ | .yield _ => isTrue trivial

def LockSys.step (x : LockSys Lk) : LockEv Lk → Option (LockSys Lk)
  | .code p =>
    (x.mon.step chan lk SleepLock.free (x.next chan lk p).2).map fun m =>
      ⟨m, update x.pc p (x.next chan lk p).1⟩
  | .other e =>
    if Elsewhere chan lk x.pc e then
      (x.mon.step chan lk SleepLock.free (.base e)).map fun m => ⟨m, x.pc⟩
    else none

/-! ### Where everybody is -/

/-- What goes with a place in the code: the place in `sleep` or `wakeup`, the inner spinlock, and
  whether a wakeup is owed. -/
def Place (q : Slot) (a : LockPc) (pc : SleepPc Lk) (held : Option Slot) (owes : Bool) : Prop :=
  match a with
  | .out | .holding =>
    held ≠ some q ∧ owes = false ∧ (∀ ch, pc ≠ .entered ch lk ∧ pc ≠ .locked ch lk ∧
      pc ≠ .unlocked ch lk) ∧ pc ≠ .switched lk ∧ pc ≠ .back lk ∧ pc ≠ .relock lk
  | .testing => owes = false ∧
    (held = some q ∧ (pc = .out ∨ pc = .entered chan lk ∨ pc = .locked chan lk) ∨
      held ≠ some q ∧
        (pc = .unlocked chan lk ∨ pc = .switched lk ∨ pc = .back lk ∨ pc = .relock lk))
  | .got | .dropping => held = some q ∧ pc = .out ∧ owes = false
  | .cleared => held = some q ∧ pc = .out
  | .dropped => held = some q ∧ (pc = .waking chan ∨ pc = .sweeping chan ∨ pc = .out ∧ owes = false)

/-- The process has the lock: from the write of `locked` to the write that clears it. -/
def LockPc.owns : LockPc → Bool
  | .got | .holding | .dropping => true
  | _ => false

def Naps (s : Kern Lk) (q : Slot) : Prop :=
  Dozes chan s q ∨ ∃ l, s.pc q = .entered chan l ∨ s.pc q = .locked chan l

structure LockInv (x : LockSys Lk) : Prop where
  heard : Heard chan lk SleepLock.free x.mon
  place : ∀ q, Place chan lk q (x.pc q) (x.mon.kern.pc q) (x.mon.kern.held lk) (x.mon.owes q)
  naps : ∀ q, Naps chan x.mon.kern q → x.pc q = .testing
  owner : ∀ q, (x.pc q).owns = true → x.mon.data.locked = true
  unique : ∀ p q, (x.pc p).owns = true → (x.pc q).owns = true → p = q
  owned : x.mon.data.locked = true → ∃ q, (x.pc q).owns = true

variable {chan lk} {x y : LockSys Lk}

def KernEv.actor : KernEv Lk → Slot
  | .acquire p _ | .release p _ | .sleep p _ _ | .wakeup p _ | .go p | .kill p _ | .dispatch p
  | .yield p => p

omit [DecidableEq Lk] [Fintype Lk] in
theorem Place.congr {q : Slot} {a : LockPc} {c : SleepPc Lk} {h h' : Option Slot} {o : Bool}
    (hp : Place chan lk q a c h o) (hh : h' = some q ↔ h = some q) : Place chan lk q a c h' o := by
  cases a <;> simpa only [Place, ne_eq, hh] using hp

variable {s u : Kern Lk} {e : KernEv Lk} {p : Slot}

omit [Fintype Lk] in
/-- A step does not move the others, in `sleep` and `wakeup` or with the spinlocks. -/
theorem bystander (chan : Chan) (lk : Lk) (hs : Holds s) (he : KernEffect s e u) {q : Slot}
    (hq : q ≠ e.actor) (owes : Slot → Bool) : u.pc q = s.pc q ∧
      (u.held lk = some q ↔ s.held lk = some q) ∧ settle chan s owes e q = owes q := by
  cases he with
  | acquire hf hl | release hf hl | relock hp hl =>
    simp only [Kern.setPc, Kern.setHeld, settle, KernEv.actor, update_apply] at *
    grind
  | @unlock p ch l hp =>
    have hl := (hs.locked p ch l hp).1
    simp only [Kern.setPc, Kern.setHeld, settle, KernEv.actor, update_apply] at *
    grind
  | sleep | wakeup | lock | doze | tidy | sweep | swept | resume | dispatch | yield | kill =>
    simp only [Kern.setPc, Kern.setProc, settle, KernEv.actor, update_apply] at *
    grind

omit [Fintype Lk] in
/-- A step of other code leaves the process that takes it in place. -/
theorem Place.actor {pc : Slot → LockPc} {owes : Slot → Bool} (hp : e.actor = p)
    (h : Place chan lk p (pc p) (s.pc p) (s.held lk) (owes p)) (hs : Holds s)
    (hE : Elsewhere chan lk pc e) (he : KernEffect s e u) :
    Place chan lk p (pc p) (u.pc p) (u.held lk) (settle chan s owes e p) := by
  cases he with
  | acquire hf hl | release hf hl | sleep hf hl | wakeup hf =>
    subst hp
    simp only [Kern.Free, Elsewhere, KernEv.actor, Kern.setPc, Kern.setHeld, settle,
      update_apply] at *
    cases hc : pc _ <;> simp only [Place, hc] at * <;> grind
  | kill | dispatch | yield => exact h
  | @unlock p ch l hx =>
    subst hp
    have hl := (hs.locked p ch l hx).1
    simp only [KernEv.actor, Kern.setPc, Kern.setHeld, settle, update_apply] at *
    cases hc : pc p <;> simp only [Place, hc] at * <;> grind
  | lock hx | doze hx | tidy hr hx | relock hx hl | sweep hx | swept hx | resume ht hr hx =>
    subst hp
    simp only [KernEv.actor, Kern.setPc, Kern.setHeld, Kern.setProc, settle,
      update_apply] at *
    cases hc : pc _ <;> simp only [Place, hc] at * <;> grind

/-! ### One step -/

omit [DecidableEq Lk] [Fintype Lk] in
theorem not_naps (hf : s.Free p) : ¬ Naps chan s p := by
  obtain ⟨hr, hc⟩ := hf
  rintro ((⟨l, hl⟩ | ⟨hs, -⟩) | ⟨l, hl | hl⟩)
  · rw [hc] at hl; cases hl
  · rw [hr] at hs; cases hs
  · rw [hc] at hl; cases hl
  · rw [hc] at hl; cases hl

section
omit [Fintype Lk]

theorem naps_of_effect (he : KernEffect s e u) {q : Slot} (h : Naps chan u q)
    : Naps chan s q ∨ ∃ l, e = .sleep q chan l := by
  rcases h with hd | ⟨l, hl⟩
  · rcases dozes_of_effect he hd with hold | ⟨l, hl⟩
    · exact .inl (.inl hold)
    · exact .inl (.inr ⟨l, .inr hl⟩)
  · rcases seen_of_effect he hl with hold | hs
    · exact .inl (.inr ⟨l, hold⟩)
    · exact .inr ⟨l, hs⟩

theorem LockInv.other (h : LockInv chan lk x) (hE : Elsewhere chan lk x.pc e)
    (he : KernEffect x.mon.kern e u) : LockInv chan lk
      ⟨{ x.mon with kern := u, owes := settle chan x.mon.kern x.mon.owes e }, x.pc⟩ := by
  have hD : Disciplined chan lk SleepLock.free x.mon (.base e) := by
    cases e with
    | sleep p ch l => exact fun hch => absurd hch hE.1
    | _ => trivial
  refine ⟨h.heard.base hD he, fun q => ?_, fun q hq => ?_, h.owner, h.unique, h.owned⟩
  · rcases eq_or_ne q e.actor with hq | hq
    · exact Place.actor hq.symm (h.place q) h.heard.holds hE he
    · obtain ⟨hpc, hheld, ho⟩ := bystander chan lk h.heard.holds he hq x.mon.owes
      have hplace := h.place q
      rw [← hpc, ← ho] at hplace
      exact hplace.congr hheld
  · rcases naps_of_effect he hq with hold | ⟨l, rfl⟩
    · exact h.naps q hold
    · exact absurd rfl hE.1

/-- A move of the lock's code other than a write: the process that makes it gets to its next place
  and has the lock as before. -/
theorem LockInv.move {a : LockPc} (h : LockInv chan lk x) (hp : e.actor = p)
    (hf : x.mon.kern.Free p) (he : KernEffect x.mon.kern e u)
    (hD : Disciplined chan lk SleepLock.free x.mon (.base e))
    (hplace : Place chan lk p a (u.pc p) (u.held lk) (settle chan x.mon.kern x.mon.owes e p))
    (hsleep : ∀ l, e = .sleep p chan l → a = .testing) (ha : a.owns = (x.pc p).owns) :
    LockInv chan lk ⟨{ x.mon with kern := u, owes := settle chan x.mon.kern x.mon.owes e },
      update x.pc p a⟩ := by
  have howns : ∀ q, (update x.pc p a q).owns = (x.pc q).owns := by
    intro q
    rcases eq_or_ne q p with rfl | hq
    · rw [update_self, ha]
    · rw [update_of_ne hq]
  refine ⟨h.heard.base hD he, fun q => ?_, fun q hq => ?_, fun q hq => ?_, fun q r hq hr => ?_,
    fun hl => ?_⟩
  · rcases eq_or_ne q p with rfl | hqp
    · simpa using hplace
    · obtain ⟨hpc, hheld, ho⟩ :=
        bystander chan lk h.heard.holds he (hp ▸ hqp) x.mon.owes
      have hq := h.place q
      rw [← hpc, ← ho] at hq
      simpa [hqp] using hq.congr hheld
  · rcases naps_of_effect he hq with hold | ⟨l, hl⟩
    · rcases eq_or_ne q p with rfl | hqp
      · exact absurd hold (not_naps hf)
      · simpa [hqp] using h.naps q hold
    · have hqp : q = p := by rw [← hp, hl]; rfl
      subst hqp
      simpa using hsleep l hl
  · exact h.owner q ((howns q).symm.trans hq)
  · exact h.unique q r ((howns q).symm.trans hq) ((howns r).symm.trans hr)
  · obtain ⟨q, hq⟩ := h.owned hl
    exact ⟨q, (howns q).trans hq⟩

end

omit [DecidableEq Lk] [Fintype Lk] in
/-- A write of the lock's code. The writer has the inner spinlock, and `locked` says whether it has
  the lock from now on. -/
theorem LockInv.write {a : LockPc} {d : SleepLock} (h : LockInv chan lk x)
    (hf : x.mon.kern.Free p) (hl : x.mon.kern.held lk = some p)
    (hplace : Place chan lk p a .out (some p) (x.mon.owes p || d.free && !x.mon.data.free))
    (hd : a.owns = d.locked) (hothers : ∀ q, q ≠ p → (x.pc q).owns = false) :
    LockInv chan lk ⟨{ x.mon with
      data := d
      owes := fun i => x.mon.owes i || decide (i = p) && d.free && !x.mon.data.free },
      update x.pc p a⟩ := by
  have howns : ∀ q, (update x.pc p a q).owns = true → q = p ∧ d.locked = true := by
    intro q hq
    rcases eq_or_ne q p with rfl | hqp
    · rw [update_self, hd] at hq
      exact ⟨rfl, hq⟩
    · rw [update_of_ne hqp, hothers q hqp] at hq
      cases hq
  refine ⟨h.heard.write hf hl, fun q => ?_, fun q hq => ?_, fun q hq => (howns q hq).2,
    fun q r hq hr => (howns q hq).1.trans (howns r hr).1.symm, fun hlocked => ⟨p, ?_⟩⟩
  · rcases eq_or_ne q p with rfl | hqp
    · have hout := hf.2
      simpa [hl, hout] using hplace
    · simpa [hqp] using h.place q
  · rcases eq_or_ne q p with rfl | hqp
    · exact absurd hq (not_naps hf)
    · simpa [hqp] using h.naps q hq
  · simpa [hd] using hlocked

theorem LockInv.code (h : LockInv chan lk x) (hs : x.step chan lk (.code p) = some y)
    : LockInv chan lk y := by
  obtain ⟨m, hm, rfl⟩ := map_eq_some_iff.mp hs
  have hp := h.place p
  unfold LockSys.next at *
  cases hc : x.pc p with
  | out | holding =>
    simp only [hc] at hm ⊢
    obtain ⟨u, hu, rfl⟩ := map_eq_some_iff.mp hm
    cases kernEffect_of_step hu with
    | acquire hf hl =>
      refine h.move rfl hf (.acquire hf hl) trivial ?_ (by simp) (by rw [hc]; rfl)
      have hout : x.mon.kern.pc p = .out := hf.2
      simp only [Place, hc] at hp
      simp [Place, Kern.setHeld, settle, hout, hp.2.1]
  | testing =>
    simp only [hc] at hm ⊢
    simp only [Place, hc] at hp
    by_cases hlocked : x.mon.data.locked = true
    · simp only [hlocked, if_true] at hm ⊢
      obtain ⟨u, hu, rfl⟩ := map_eq_some_iff.mp hm
      cases kernEffect_of_step hu with
      | sleep hf hl =>
        refine h.move rfl hf (.sleep hf hl) (fun _ => ⟨rfl, by simp [SleepLock.free, hlocked]⟩) ?_
          (fun _ _ => rfl) (by rw [hc])
        simp [Place, Kern.setPc, settle, hl, hp.1]
    · simp only [hlocked, Bool.false_eq_true, if_false, Monitor.step] at hm ⊢
      split_ifs at hm with hg
      cases hm
      refine h.write hg.1 hg.2 ?_ rfl fun q _ => ?_
      · simp [Place, SleepLock.free, hp.1]
      · -- nobody has the lock, or `locked` would be set
        exact Bool.eq_false_iff.mpr fun hq => hlocked (h.owner q hq)
  | got | dropped =>
    simp only [hc] at hm ⊢
    obtain ⟨u, hu, rfl⟩ := map_eq_some_iff.mp hm
    cases kernEffect_of_step hu with
    | release hf hl =>
      refine h.move rfl hf (.release hf hl) trivial ?_ (by simp) (by rw [hc]; rfl)
      have hout : x.mon.kern.pc p = .out := hf.2
      simp only [Place, hc, hout] at hp
      simpa [Place, Kern.setHeld, settle, hout] using hp.2
  | dropping =>
    simp only [hc, Monitor.step] at hm ⊢
    split_ifs at hm with hg
    cases hm
    refine h.write hg.1 hg.2 ?_ rfl fun q hq => ?_
    · simp [Place]
    · exact Bool.eq_false_iff.mpr fun hx => hq (h.unique q p hx (by rw [hc]; rfl))
  | cleared =>
    simp only [hc] at hm ⊢
    obtain ⟨u, hu, rfl⟩ := map_eq_some_iff.mp hm
    cases kernEffect_of_step hu with
    | wakeup hf =>
      refine h.move rfl hf (.wakeup hf) trivial ?_ (by simp) (by rw [hc]; rfl)
      simp only [Place, hc] at hp
      simp [Place, Kern.setPc, settle, hp.1]

theorem LockInv.step {e : LockEv Lk} (h : LockInv chan lk x) (hs : x.step chan lk e = some y) :
    LockInv chan lk y := by
  cases e with
  | code p => exact h.code hs
  | other e =>
    simp only [LockSys.step] at hs
    split_ifs at hs with hE
    obtain ⟨m, hm, rfl⟩ := map_eq_some_iff.mp hs
    obtain ⟨u, hu, rfl⟩ := map_eq_some_iff.mp hm
    exact h.other hE (kernEffect_of_step hu)

/-! ### Whole runs -/

/-- The lock after `initsleeplock`, nobody in its code and nobody asleep on its address. -/
def LockSys.init (t : Table) : LockSys Lk := ⟨Monitor.init t ⟨false, 0⟩, fun _ => .out⟩

omit [DecidableEq Lk] [Fintype Lk] in
theorem lockInv_init {t : Table} (ht : ∀ i, (t i).state = .sleeping → (t i).chan ≠ some chan) :
    LockInv chan lk (LockSys.init t) := by
  have hnone : ∀ q, ¬ Dozes chan (LockSys.init t : LockSys Lk).mon.kern q := by
    rintro q (⟨l, hl⟩ | ⟨hs, hc⟩)
    · simp [LockSys.init, Monitor.init] at hl
    · exact ht q hs hc
  refine ⟨⟨by constructor <;> simp [LockSys.init, Monitor.init],
    by simp [LockSys.init, Monitor.init], fun q hq => absurd hq (hnone q)⟩, fun q => ?_,
    fun q hq => ?_, by simp [LockSys.init, LockPc.owns], by simp [LockSys.init, LockPc.owns],
    by simp [LockSys.init, Monitor.init]⟩
  · simp [LockSys.init, Monitor.init, Place]
  · rcases hq with hd | ⟨l, hl⟩
    · exact absurd hd (hnone q)
    · simp [LockSys.init, Monitor.init] at hl

/-- Sleep locks exclude, and strand nobody: at most one process is past its `acquiresleep` and not
  yet through with its `releasesleep`, and while the inner spinlock is free a process sleeps on the
  lock only when another process has it. -/
theorem sleeplock_excludes {t : Table}
    (ht : ∀ i, (t i).state = .sleeping → (t i).chan ≠ some chan)
    (h : Reach (LockSys.step chan lk) (fun _ _ => True) (LockSys.init t) x) :
    (∀ p q, (x.pc p).owns = true → (x.pc q).owns = true → p = q) ∧
    (x.mon.kern.held lk = none → ∀ i, (x.mon.kern.proc i).state = .sleeping →
      (x.mon.kern.proc i).chan = some chan →
      x.mon.data.locked = true ∧ ∃ q, q ≠ i ∧ x.pc q = .holding) := by
  have hinv : LockInv chan lk x := h.invariant (lockInv_init ht) fun _ _ _ hx _ hy => hx.step hy
  refine ⟨hinv.unique, fun hfree i hi hc => ?_⟩
  have hat := hinv.naps i (.inl (.inr ⟨hi, hc⟩))
  -- with the spinlock free nobody owes a wakeup, so the sleeper's test would still succeed
  have hlocked : x.mon.data.locked = true := by
    by_contra hno
    obtain ⟨q, hq⟩ := hinv.heard.owed i (.inr ⟨hi, hc⟩) (by simpa [SleepLock.free] using hno)
    have hplace := hinv.place q
    cases hcq : x.pc q <;> simp [Place, hcq, hfree, hq] at hplace
  obtain ⟨q, hq⟩ := hinv.owned hlocked
  refine ⟨hlocked, q, ?_, ?_⟩
  · rintro rfl
    rw [hat] at hq
    cases hq
  · have hplace := hinv.place q
    cases hcq : x.pc q <;> simp [hcq, LockPc.owns, Place, hfree] at hq hplace ⊢

/-- Slot 0 has the lock and slot 1 has gone to sleep on it. -/
theorem sleeplock_excludes_two : ∃ x : LockSys Unit,
    Reach (LockSys.step (.addr 8) ()) (fun _ _ => True)
      (LockSys.init fun _ => { zeroProc with state := .running }) x ∧
    (x.mon.kern.proc second).state = .sleeping ∧ ∃ q, q ≠ second ∧
      x.pc q = .holding := by
  obtain ⟨x, hx, hobs⟩ := exists_reach (show (follow (LockSys.step (.addr 8) ())
    (fun _ _ => True) (LockSys.init fun _ => { zeroProc with state := .running })
    [.code initproc, .code initproc, .code initproc, .code second, .code second,
      .other (.go second), .other (.go second), .other (.go second)]).map
      (fun x => decide ((x.mon.kern.proc second).state = .sleeping ∧
        (x.mon.kern.proc second).chan = some (.addr 8) ∧ x.mon.kern.held () = none)) =
      some true by decide +kernel)
  obtain ⟨hs, hc, hh⟩ := of_decide_eq_true hobs
  exact ⟨x, hx, hs, ((sleeplock_excludes (by simp) hx).2 hh _ hs hc).2⟩

/-! ### The guards -/

def holdingsleep (d : SleepLock) : ℕ := if d.locked then 1 else 0

/-- The functions that begin with a check of the lock of the buffer or inode they are given. -/
inductive Guarded where
  | bwrite | brelse | iderw
  | iunlock (null : Bool) (ref : ℤ)

def Guarded.check (d : SleepLock) : Guarded → Option String
  | .bwrite => if holdingsleep d = 0 then some "bwrite" else none
  | .brelse => if holdingsleep d = 0 then some "brelse" else none
  | .iderw => if holdingsleep d = 0 then some "iderw: buf not locked" else none
  | .iunlock null ref =>
    if null = true ∨ holdingsleep d = 0 ∨ ref < 1 then some "iunlock" else none

theorem holdingsleep_ne_zero {d : SleepLock} : holdingsleep d ≠ 0 ↔ d.locked = true := by
  unfold holdingsleep
  split
  · case isTrue h => exact ⟨fun _ => h, fun _ => Nat.one_ne_zero⟩
  · case isFalse h => exact ⟨fun hne => absurd rfl hne, fun hl => absurd hl h⟩

theorem Guarded.check_free {d : SleepLock} (h : holdingsleep d = 0) (g : Guarded) :
    (g.check d).isSome = true := by
  cases g with
  | bwrite | brelse | iderw => rw [check, if_pos h]; rfl
  | iunlock null ref => rw [check, if_pos (.inr (.inl h))]; rfl

/-- For a process outside the code of the lock, `holdingsleep` tells whether it is the holder exactly
  when nobody else holds the lock; then the guards stop every process that is not. -/
theorem guards_exact {t : Table}
    (ht : ∀ i, (t i).state = .sleeping → (t i).chan ≠ some chan)
    (h : Reach (LockSys.step chan lk) (fun _ _ => True) (LockSys.init t) x)
    (p : Slot) (hp : x.pc p = .out ∨ x.pc p = .holding) :
    ((holdingsleep x.mon.data ≠ 0 ↔ x.pc p = .holding) ↔ ∀ q, q ≠ p → (x.pc q).owns = false) ∧
    ((∀ q, q ≠ p → (x.pc q).owns = false) → x.pc p ≠ .holding →
      ∀ g : Guarded, (g.check x.mon.data).isSome = true) := by
  have hinv : LockInv chan lk x := h.invariant (lockInv_init ht) fun _ _ _ hx _ hy => hx.step hy
  have hown : (x.pc p).owns = true ↔ x.pc p = .holding := by
    rcases hp with hp | hp <;> simp [hp, LockPc.owns]
  have hexact : (∀ q, q ≠ p → (x.pc q).owns = false) →
      (holdingsleep x.mon.data ≠ 0 ↔ x.pc p = .holding) := by
    intro hothers
    rw [holdingsleep_ne_zero, ← hown]
    constructor
    · intro hl
      obtain ⟨q, hq⟩ := hinv.owned hl
      by_cases hqp : q = p
      · exact hqp ▸ hq
      · rw [hothers q hqp] at hq
        cases hq
    · exact hinv.owner p
  refine ⟨⟨fun hiff q hqp => ?_, hexact⟩, fun hothers hno g => ?_⟩
  · -- another holder would make the answer yes for `p` too
    by_contra hq
    have hq' : (x.pc q).owns = true := by simpa using hq
    have hhold := hiff.mp (holdingsleep_ne_zero.mpr (hinv.owner q hq'))
    exact hqp (hinv.unique q p hq' (hown.mpr hhold))
  · have hzero : holdingsleep x.mon.data = 0 := by
      by_contra hne
      exact hno ((hexact hothers).mp hne)
    exact Guarded.check_free hzero g

theorem exists_holder : ∃ x : LockSys Unit, Reach (LockSys.step (.addr 8) ()) (fun _ _ => True)
      (LockSys.init fun _ => { zeroProc with state := .running }) x ∧
    x.pc initproc = .holding ∧ x.pc second = .out ∧ x.mon.data.locked = true ∧
      ∀ q, q ≠ initproc → (x.pc q).owns = false := by
  obtain ⟨x, hx, hobs⟩ := exists_reach (show (follow (LockSys.step (.addr 8) ())
    (fun _ _ => True) (LockSys.init fun _ => { zeroProc with state := .running })
    [.code initproc, .code initproc, .code initproc]).map
      (fun x => decide (x.pc initproc = .holding ∧ x.pc second = .out ∧
        x.mon.data.locked = true ∧ ∀ q, q ≠ initproc → (x.pc q).owns = false)) =
      some true by decide +kernel)
  exact ⟨x, hx, of_decide_eq_true hobs⟩

/-- Slot 0 has taken the lock, and `holdingsleep` says so. -/
theorem guards_exact_held : ∃ x : LockSys Unit,
    Reach (LockSys.step (.addr 8) ()) (fun _ _ => True)
      (LockSys.init fun _ => { zeroProc with state := .running }) x ∧
    x.pc initproc = .holding ∧ holdingsleep x.mon.data ≠ 0 := by
  obtain ⟨x, hx, hp, -, -, hothers⟩ := exists_holder
  exact ⟨x, hx, hp, ((guards_exact (by simp) hx initproc (.inr hp)).1.mpr hothers).mpr hp⟩

/-- Slot 0 has the lock; slot 1 does not, and none of the guards stops it. -/
theorem guards_pass_bystander : ∃ x : LockSys Unit,
    Reach (LockSys.step (.addr 8) ()) (fun _ _ => True)
      (LockSys.init fun _ => { zeroProc with state := .running }) x ∧
    x.pc initproc = .holding ∧ x.pc second = .out ∧ holdingsleep x.mon.data ≠ 0 ∧
      Guarded.check x.mon.data .bwrite = none ∧ Guarded.check x.mon.data .brelse = none ∧
      Guarded.check x.mon.data .iderw = none ∧
      Guarded.check x.mon.data (.iunlock false 1) = none := by
  obtain ⟨x, hx, hp, hq, hl, -⟩ := exists_holder
  exact ⟨x, hx, hp, hq, holdingsleep_ne_zero.mpr hl, by simp [Guarded.check, holdingsleep, hl]⟩

end Xv6.Ptable

import Xv6.Proc.Sleep

/-! @src proc.c, sleep1.p | part:no lost wakeups | scheme:machine

  Data under a spinlock `lk`, a condition on it, and a channel. Sleepers hold `lk` and have seen the
  condition false; whoever makes it true holds `lk`, and *owes* a `wakeup(chan)` until its next
  sweep of the table for `chan`. Between the release of `lk` in `sleep` and `SLEEPING` the condition
  may become true, but the sweep has to wait for `ptable.lock`:

      sleeper   sees false, --release lk-- … --SLEEPING, release pt--
      waker                      acquire lk, true, owes ----------- acquire pt, sweep - -/

namespace Xv6.Ptable
open Schemes
open Function

structure Monitor (Lk D : Type) where
  kern : Kern Lk
  data : D
  owes : Slot → Bool

inductive MonitorEv (Lk D : Type) where
  | base (e : KernEv Lk)
  | write (p : Slot) (d : D)

section

variable {Lk D : Type} [DecidableEq Lk] [Fintype Lk] (chan : Chan) (lk : Lk) (cond : D → Bool)

def settle (s : Kern Lk) (owes : Slot → Bool) : KernEv Lk → Slot → Bool
  | .go p, i => if i = p ∧ s.pc p = .sweeping chan then false else owes i
  | _, i => owes i

/-- The holder of `lk` may write the data; whoever makes the condition true owes a wakeup. -/
def Monitor.step (x : Monitor Lk D) : MonitorEv Lk D → Option (Monitor Lk D)
  | .base e => (x.kern.step e).map fun u => { x with kern := u, owes := settle chan x.kern x.owes e }
  | .write p d =>
    if x.kern.Free p ∧ x.kern.held lk = some p then
      some { x with
        data := d
        owes := fun i => x.owes i || decide (i = p) && cond d && !cond x.data }
    else none

def Disciplined (x : Monitor Lk D) : MonitorEv Lk D → Prop
  | .base (.sleep _ ch l) => ch = chan → l = lk ∧ cond x.data = false
  | _ => True

instance (x : Monitor Lk D) : (e : MonitorEv Lk D) → Decidable (Disciplined chan lk cond x e)
  | .base (.sleep _ ch l) =>
    inferInstanceAs (Decidable (ch = chan → l = lk ∧ cond x.data = false))
  | .base (.acquire _ _) | .base (.release _ _) | .base (.wakeup _ _) | .base (.go _)
  | .base (.kill _ _) | .base (.dispatch _) | .base (.yield _) | .write _ _ =>
    isTrue trivial

/-- `i` sleeps on `chan`, or will before anybody else gets `ptable.lock`. -/
def Dozes (s : Kern Lk) (i : Slot) : Prop :=
  (∃ l, s.pc i = .unlocked chan l) ∨ (s.proc i).state = .sleeping ∧ (s.proc i).chan = some chan

/-- On the way to sleep the condition is false as long as `lk` is held; after that, if it is true
  somebody owes a wakeup. -/
structure Heard (x : Monitor Lk D) : Prop where
  holds : Holds x.kern
  seen : ∀ i l, x.kern.pc i = .entered chan l ∨ x.kern.pc i = .locked chan l →
    l = lk ∧ cond x.data = false
  owed : ∀ i, Dozes chan x.kern i → cond x.data = true → ∃ q, x.owes q = true

variable {chan lk cond} {x y : Monitor Lk D}

variable {s u : Kern Lk} {e : KernEv Lk}

omit [Fintype Lk] in
/-- The steps other than a sweep for `chan` bring nobody new to sleep, except from `locked`. -/
theorem dozes_of_effect (he : KernEffect s e u) {i : Slot} (h : Dozes chan u i)
    : Dozes chan s i ∨ ∃ l, s.pc i = .locked chan l := by
  cases he with
  | acquire | release | sleep | wakeup | lock | unlock | relock | sweep =>
    simp only [Dozes, Kern.setPc, Kern.setHeld, update_apply] at *
    grind
  | doze | tidy | resume | dispatch | yield =>
    simp only [Dozes, Kern.setPc, Kern.setProc, update_apply] at *
    grind
  | swept =>
    simp only [Dozes, Kern.setPc, wakeup1, update_apply] at *
    grind
  | kill =>
    refine .inl (h.imp id ?_)
    rintro ⟨hs, hc⟩
    rcases kill_apply _ s.proc i with hk | ⟨_, hk⟩
    · rw [← hk]; exact ⟨hs, hc⟩
    · have hs : ((kill _ s.proc).2 i).state = .sleeping := hs
      rw [hk] at hs
      exact absurd hs (kill1_awake _)

omit [DecidableEq Lk] [Fintype Lk] in
/-- After a sweep for `chan` nobody sleeps on it, or is about to. -/
theorem not_dozes_swept (h : Holds s) {p : Slot} (hp : s.pc p = .sweeping chan) (i : Slot)
    : ¬ Dozes chan
      { s.setPc p .out with proc := wakeup1 (some chan) s.proc, ptable := none } i := by
  have hpt := h.sweeping p chan hp
  rintro (⟨l, hl⟩ | ⟨hs, hc⟩)
  · -- whoever is about to sleep holds `ptable.lock`, but `p` has it
    rcases eq_or_ne i p with rfl | hip
    · simp [Kern.setPc] at hl
    · have hl : s.pc i = .unlocked chan l := by simpa [Kern.setPc, hip] using hl
      have := h.unlocked i chan l hl
      rw [hpt, Option.some.injEq] at this
      exact hip this.symm
  · simp only [wakeup1] at hs hc
    split_ifs at hs hc with hw
    exact hw ⟨hs, hc⟩

section
omit [Fintype Lk]

/-- Who is on the way to sleep was, or calls `sleep` now. -/
theorem seen_of_effect (he : KernEffect s e u) {i : Slot} {l : Lk}
    (h : u.pc i = .entered chan l ∨ u.pc i = .locked chan l) :
    (s.pc i = .entered chan l ∨ s.pc i = .locked chan l) ∨ e = .sleep i chan l := by
  cases he <;> simp only [Kern.setPc, Kern.setHeld, Kern.setProc, update_apply] at *
  all_goals grind

/-- Only a sweep for `chan` clears a debt. -/
theorem settle_eq {owes : Slot → Bool} (hn : ∀ p, e = .go p → s.pc p ≠ .sweeping chan) (i : Slot)
    : settle chan s owes e i = owes i := by
  cases e with
  | go p => exact if_neg fun hx => hn p rfl hx.2
  | _ => rfl

theorem eq_of_sweeping {p : Slot} (hp : s.pc p = .sweeping chan) (he : KernEffect s (.go p) u) :
    u = { s.setPc p .out with proc := wakeup1 (some chan) s.proc, ptable := none } := by
  cases he with
  | swept hp' =>
    rw [hp] at hp'
    cases hp'
    rfl
  | lock hp' | unlock hp' | doze hp' | relock hp' | sweep hp' => rw [hp] at hp'; cases hp'
  | tidy _ hp' => rw [hp] at hp'; cases hp'

theorem Heard.base (h : Heard chan lk cond x) (hG : Disciplined chan lk cond x (.base e))
    (he : KernEffect x.kern e u) :
    Heard chan lk cond { x with kern := u, owes := settle chan x.kern x.owes e } := by
  refine ⟨h.holds.effect he, fun i l hi => ?_, fun i hi hc => ?_⟩
  · rcases seen_of_effect he hi with hold | rfl
    · exact h.seen i l hold
    · exact hG rfl
  · by_cases hsw : ∃ p, e = .go p ∧ x.kern.pc p = .sweeping chan
    · obtain ⟨p, rfl, hp⟩ := hsw
      have hi : Dozes chan u i := hi
      rw [eq_of_sweeping hp he] at hi
      exact absurd hi (not_dozes_swept h.holds hp i)
    · have hset : ∀ j, settle chan x.kern x.owes e j = x.owes j :=
        settle_eq fun p he hp => hsw ⟨p, he, hp⟩
      rcases dozes_of_effect he hi with hold | ⟨l, hl⟩
      · obtain ⟨q, hq⟩ := h.owed i hold hc
        exact ⟨q, (hset q).trans hq⟩
      · have := (h.seen i l (.inr hl)).2
        rw [this] at hc
        cases hc

end

omit [DecidableEq Lk] [Fintype Lk] in
/-- The holder of `lk` writes: nobody is on the way to sleep with `lk` held. -/
theorem Heard.write {p : Slot} {d : D} (h : Heard chan lk cond x) (hf : x.kern.Free p)
    (hl : x.kern.held lk = some p) : Heard chan lk cond { x with
      data := d
      owes := fun i => x.owes i || decide (i = p) && cond d && !cond x.data } := by
  refine ⟨h.holds, fun i l hi => ?_, fun i hi hc => ?_⟩
  · obtain ⟨rfl, _⟩ := h.seen i l hi
    have hheld : x.kern.held l = some i :=
      hi.elim (h.holds.entered i chan l) fun hx => (h.holds.locked i chan l hx).1
    rw [hl, Option.some.injEq] at hheld
    have hout := hf.2
    rw [hheld] at hout
    rcases hi with hi | hi
    · rw [hout] at hi; cases hi
    · rw [hout] at hi; cases hi
  · have hc : cond d = true := hc
    cases hold : cond x.data with
    | true =>
      obtain ⟨q, hq⟩ := h.owed i hi hold
      exact ⟨q, by simp [hq]⟩
    | false => exact ⟨p, by simp [hc]⟩

theorem Heard.step {e : MonitorEv Lk D} (h : Heard chan lk cond x)
    (hG : Disciplined chan lk cond x e) (hs : x.step chan lk cond e = some y) :
    Heard chan lk cond y := by
  cases e with
  | base e =>
    obtain ⟨u, hu, rfl⟩ := Option.map_eq_some_iff.mp hs
    exact h.base hG (kernEffect_of_step hu)
  | write p d =>
    simp only [Monitor.step] at hs
    split_ifs at hs with hg
    cases hs
    exact h.write hg.1 hg.2

variable (chan lk cond)

/-- Any table in which nobody sleeps, all locks free, nobody in `sleep` or `wakeup`. -/
def Monitor.init (t : Table) (d : D) : Monitor Lk D where
  kern := ⟨t, none, fun _ => none, fun _ => .out⟩
  data := d
  owes := fun _ => false

/-- No lost wakeups: when nobody who made the condition true still owes its wakeup, nobody sleeps on
  the channel while the condition is true. -/
theorem no_lost_wakeup (t : Table) (ht : ∀ i, (t i).state ≠ .sleeping) (d : D) (x : Monitor Lk D)
    (h : Reach (Monitor.step chan lk cond) (Disciplined chan lk cond) (Monitor.init t d) x)
    (hpaid : ∀ q, x.owes q = false) (i : Slot) (hs : (x.kern.proc i).state = .sleeping)
    (hc : (x.kern.proc i).chan = some chan) : cond x.data = false := by
  have hinit : Heard chan lk cond (Monitor.init t d) := by
    refine ⟨by constructor <;> simp [Monitor.init], by simp [Monitor.init], fun i hi => ?_⟩
    rcases hi with ⟨l, hl⟩ | ⟨hi, _⟩
    · simp [Monitor.init] at hl
    · exact absurd hi (ht i)
  have hinv : Heard chan lk cond x := h.invariant hinit fun _ _ _ hx hG hy => hx.step hG hy
  by_contra hne
  obtain ⟨q, hq⟩ := hinv.owed i (.inr ⟨hs, hc⟩) (by simpa using hne)
  rw [hpaid q] at hq
  cases hq

end

/-- Slot 0 has gone to sleep because the flag is false; nobody owes a wakeup. -/
theorem no_lost_wakeup_asleep : ∃ x : Monitor Unit Bool,
    Reach (Monitor.step (.addr 8) () id) (Disciplined (.addr 8) () id)
      (Monitor.init (fun _ => { zeroProc with state := .running }) false) x ∧
    (x.kern.proc initproc).state = .sleeping ∧ x.data = false := by
  obtain ⟨x, hx, hobs⟩ := exists_reach (show (follow (Monitor.step (.addr 8) () id)
    (Disciplined (.addr 8) () id) (Monitor.init (fun _ => { zeroProc with state := .running }) false)
    [.base (.acquire initproc ()), .base (.sleep initproc (.addr 8) ()), .base (.go initproc),
      .base (.go initproc), .base (.go initproc)]).map (fun x => decide
      ((x.kern.proc initproc).state = .sleeping ∧ (x.kern.proc initproc).chan = some (.addr 8) ∧
        ∀ q, x.owes q = false)) = some true by decide +kernel)
  obtain ⟨hs, hc, hq⟩ := of_decide_eq_true hobs
  exact ⟨x, hx, hs, no_lost_wakeup (.addr 8) () id _ (by simp) false x hx hq initproc hs hc⟩

end Xv6.Ptable

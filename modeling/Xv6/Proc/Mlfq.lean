import Xv6.Proc.Core

/-! @src proc.c, trap.c | part:MLFQ accounting | scheme:machine

  Four pieces of code change `priority`, `ticks` and `wait_ticks`: `allocproc` resets them, the
  timer counts a tick without the lock, and after a switch the scheduler demotes the process that
  ran, lets the others wait and boosts. A level the process has left keeps its stale counters.

      level 3 --8 ticks--> level 2 --16--> level 1 --32--> level 0
               <--160 waits--     <--320--        <--500-- -/

namespace Xv6.Ptable
open Schemes
open Function
open Option (map_eq_some_iff some)

variable {C : Type} [DecidableEq C] {s u : Sys C} {e : Ev C} {c : C} {i p : Slot}

/-! ### Which steps touch the counters -/

structure Same (p q : Proc) : Prop where
  priority : q.priority = p.priority
  ticks : q.ticks = p.ticks
  waitTicks : q.waitTicks = p.waitTicks

theorem Same.rfl' (p : Proc) : Same p p := ⟨rfl, rfl, rfl⟩

variable {q r : Proc} {t : Table} {l : Fin 4}

theorem Same.trans {p : Proc} (h : Same p q) (h' : Same q r) : Same p r :=
  ⟨h'.1.trans h.1, h'.2.trans h.2, h'.3.trans h.3⟩

def SameAll (t t' : Table) : Prop := ∀ i, Same (t i) (t' i)

theorem sameAll_update (h : Same (t i) q) : SameAll t (update t i q) := by
  intro j
  rcases eq_or_ne j i with rfl | hj
  · simpa using h
  · simpa [hj] using Same.rfl' (t j)

theorem sameAll_wakeup1 (chan : Option Chan) (t : Table) : SameAll t (wakeup1 chan t) := by
  intro i
  unfold wakeup1
  split_ifs <;> exact ⟨rfl, rfl, rfl⟩

theorem sameAll_reparent (cur : Slot) (t : Table) : SameAll t (reparent cur t) := by
  intro i
  rw [reparent_apply]
  exact ⟨rfl, rfl, rfl⟩

theorem sameAll_dispatch (s : Sys C) (c : C) (q : Slot) : SameAll s.proc (s.dispatch c q).proc := by
  rcases dispatch_cases s c q with ⟨msg, hd⟩ | hd
  · rw [hd]; exact fun i => Same.rfl' _
  · rw [hd]; exact sameAll_update ⟨rfl, rfl, rfl⟩

theorem sameAll_waitLoop (s : Sys C) (c : C) (p : Slot) : SameAll s.proc (s.waitLoop c p).proc := by
  rcases waitLoop_cases s c p with ⟨i, _, _, hw⟩ | ⟨_, _, hw⟩ | ⟨_, _, _, hw⟩
  · rw [hw]; exact sameAll_update ⟨rfl, rfl, rfl⟩
  · rw [hw]; exact fun i => Same.rfl' _
  · rw [hw]; exact sameAll_update ⟨rfl, rfl, rfl⟩

inductive Counts (s u : Sys C) : Prop
  | same (h : SameAll s.proc u.proc)
  | alloc {i : Slot} {pid : ℤ} (h : u.proc = update s.proc i (embryo pid (s.proc i)))
  | tick {c : C} {p : Slot} {q : Proc} (ho : (s.cpu c).loc = .on p) (hn : (s.thread p).ticked = false)
      (hq : tick (s.proc p) = some q) (h : u.proc = update s.proc p q)
      (ht : (u.thread p).ticked = true)
  | post {c : C} {p : Slot} (hb : (s.cpu c).loc = .back p) (h : mlfqAfter p s.proc = some u.proc)

theorem Effect.changes (he : Effect s e u) : SameAll s.proc u.proc ∨
    (∃ c i pid, e = .fork c ∧ (s.proc i).state = .unused ∧
      u.proc = update s.proc i (embryo pid (s.proc i))) ∨
    (∃ c p q, e = .tick c ∧ (s.cpu c).loc = .on p ∧ (s.thread p).ticked = false ∧
      Ptable.tick (s.proc p) = some q ∧ u.proc = update s.proc p q ∧
      (u.thread p).ticked = true) ∨
    ∃ c p, e = .post c ∧ (s.cpu c).loc = .back p ∧ mlfqAfter p s.proc = some u.proc := by
  cases he with
  | stay | panic | postOut | tickOut | passRr | scanEnd | postRr | resume | setSchedPolicy =>
    exact .inl fun i => Same.rfl' _
  | @passMlfq c q =>
    exact .inl (sameAll_dispatch
      { s with cpu := update s.cpu c { s.cpu c with rr := false } } c q)
  | scanRun => exact .inl (sameAll_dispatch _ _ _)
  | @postMlfq c p t hb _ ht => exact .inr (.inr (.inr ⟨c, p, rfl, hb, ht⟩))
  | @resumeWait c p =>
    have hchan : SameAll s.proc (s.setProc p { s.proc p with chan := none }).proc :=
      sameAll_update ⟨rfl, rfl, rfl⟩
    exact .inl fun i => (hchan i).trans (sameAll_waitLoop _ c p i)
  | @tick c p q ho _ hn hq =>
    exact .inr (.inr (.inl ⟨c, p, q, rfl, ho, hn, hq, rfl, by simp [Sys.setThread]⟩))
  | wakeup => exact .inl (sameAll_wakeup1 _ _)
  | @exit c p t hc hp ht =>
    have hall : SameAll s.proc t := fun i => by
      rw [ht]; exact (sameAll_wakeup1 _ _ i).trans (sameAll_reparent _ _ i)
    have hz : SameAll t (update t p { t p with state := .zombie }) :=
      sameAll_update ⟨rfl, rfl, rfl⟩
    exact .inl fun i => (hall i).trans (hz i)
  | wait => exact .inl (sameAll_waitLoop _ _ _)
  | @fork c p i hc hi => exact .inr (.inl ⟨c, i, _, rfl, by simpa using findSlot_some hi, rfl⟩)
  | resumeSlept | yield | sleep | kill | kalloc | kallocFail | copyuvm | copyuvmFail | setParent
  | setRunnable | fatalTrap => exact .inl (sameAll_update ⟨rfl, rfl, rfl⟩)

theorem Effect.counts (he : Effect s e u) : Counts s u := by
  rcases he.changes with hs | ⟨_, _, _, _, _, hu⟩ | ⟨_, _, _, _, ho, hn, hq, hu, ht⟩ |
    ⟨_, _, _, hb, ht⟩
  · exact .same hs
  · exact .alloc hu
  · exact .tick ho hn hq hu ht
  · exact .post hb ht

/-! ### Levels and waiting times -/

/-- A priority is a level, and below the top nobody has waited up to the limit. -/
structure Good (p : Proc) : Prop where
  priority : 0 ≤ p.priority ∧ p.priority ≤ 3
  wait : ∀ l : Fin 4, l ≠ 3 → 0 ≤ p.waitTicks l ∧ p.waitTicks l < limit l

theorem Good.same (h : Good q) (hs : Same q r) : Good r :=
  ⟨hs.priority ▸ h.priority, fun l hl => hs.waitTicks ▸ h.wait l hl⟩

theorem good_embryo (pid : ℤ) (q : Proc) : Good (embryo pid q) := by
  refine ⟨⟨by simp [embryo], by simp [embryo]⟩, fun l hl => ⟨le_rfl, ?_⟩⟩
  fin_cases l
  · simp [embryo, limit]
  · simp [embryo, limit]
  · simp [embryo, limit]
  · exact absurd rfl hl

theorem Good.level (h : Good q) :
    ∃ l : Fin 4, q.priority = (l : ℕ) ∧ level q.priority = some l := by
  obtain ⟨h0, h3⟩ := h.priority
  have hl : q.priority = ((⟨q.priority.toNat, by omega⟩ : Fin 4) : ℕ) := by
    show q.priority = (q.priority.toNat : ℤ)
    omega
  exact ⟨_, hl, level_eq_some.mpr hl⟩

theorem Good.demote (h : Good q) (hd : demote q = some r) : Good r := by
  unfold Ptable.demote at hd
  split_ifs at hd with hpos
  · obtain ⟨l, _, rfl⟩ := map_eq_some_iff.mp hd
    split_ifs
    · refine ⟨⟨?_, ?_⟩, h.wait⟩
      · show 0 ≤ q.priority - 1
        omega
      · show q.priority - 1 ≤ 3
        have := h.priority.2
        omega
    · exact h
  · cases hd; exact h

theorem Good.boost (h : Good q) : priorityBoost1 q = q := by
  have h0 := (h.wait 0 (by decide)).2
  have h1 := (h.wait 1 (by decide)).2
  have h2 := (h.wait 2 (by decide)).2
  unfold priorityBoost1
  rw [if_neg (c := _ ∧ _) (by omega), if_neg (c := _ ∧ _) (by omega),
    if_neg (c := _ ∧ _) (by omega), ite_self]

theorem Good.waited (h : Good q) (hl : l ≠ 3) (hq : q.priority = (l : ℕ)) :
    wrap (q.waitTicks l + 1) = q.waitTicks l + 1 ∧ q.waitTicks l + 1 ≤ limit l := by
  obtain ⟨h0, h1⟩ := h.wait l hl
  have hlim : limit l ≤ 500 := by fin_cases l <;> simp [limit]
  exact ⟨wrap_of_nonneg (by omega) (by omega), by omega⟩

theorem priorityBoost1_top (hq : q.priority = 3) : priorityBoost1 q = q := by
  simp [priorityBoost1, hq]

theorem priorityBoost1_level (hl : l ≠ 3) (hq : q.priority = (l : ℕ)) (hs : q.state ≠ .unused)
    : priorityBoost1 q =
      if q.waitTicks l ≥ limit l then
        { q with priority := (l : ℕ) + 1, waitTicks := update q.waitTicks l 0 }
      else q := by
  unfold priorityBoost1
  rw [if_neg hs]
  fin_cases l
  · simp [hq]
  · simp [hq]
  · simp [hq]
  · exact absurd rfl hl

theorem Good.after (h : Good q) : Good (priorityBoost1 (updateWaitTicks1 q)) := by
  rcases ne_or_eq q.state .runnable with hrun | hrun
  · rw [updateWaitTicks1, if_neg hrun, h.boost]; exact h
  obtain ⟨l, hq, hlev⟩ := h.level
  rw [updateWaitTicks1_runnable hrun hlev]
  set r : Proc := { q with waitTicks := update q.waitTicks l (wrap (q.waitTicks l + 1)) }
    with hr
  have hwait : ∀ k, k ≠ l → r.waitTicks k = q.waitTicks k := fun k hk => by simp [hr, hk]
  have hrq : r.priority = (l : ℕ) := hq
  have hrs : r.state ≠ .unused := by simp [hr, hrun]
  rcases eq_or_ne l 3 with rfl | hl
  · rw [priorityBoost1_top hrq]
    exact ⟨h.priority, fun k hk => by rw [hwait k hk]; exact h.wait k hk⟩
  · obtain ⟨hw, hle⟩ := h.waited hl hq
    have hrl : r.waitTicks l = q.waitTicks l + 1 := by simp [hr, hw]
    rw [priorityBoost1_level hl hrq hrs]
    split_ifs with hlim
    · refine ⟨⟨?_, ?_⟩, fun k hk => ?_⟩
      · show (0 : ℤ) ≤ (l : ℕ) + 1
        omega
      · have : (l : ℕ) ≠ 3 := fun hx => hl (Fin.ext hx)
        have := l.isLt
        show ((l : ℕ) : ℤ) + 1 ≤ 3
        omega
      · rcases eq_or_ne k l with rfl | hkl
        · have := h.wait k hk
          simp only [update_self]
          omega
        · simp only [update_of_ne hkl, hwait k hkl]
          exact h.wait k hk
    · refine ⟨h.priority, fun k hk => ?_⟩
      rcases eq_or_ne k l with rfl | hkl
      · have := h.wait k hk
        rw [hrl] at hlim ⊢
        omega
      · rw [hwait k hkl]
        exact h.wait k hk

theorem good_mlfqAfter {t' : Table} (h : ∀ i, Good (t i)) (ht : mlfqAfter p t = some t')
    (i : Slot) : Good (t' i) := by
  obtain ⟨d, hd, hp, hi⟩ := mlfqAfter_apply ht
  rcases eq_or_ne i p with rfl | hip
  · have hg := (h i).demote hd
    rw [hp, hg.boost]
    exact hg
  · rw [hi i hip]
    exact (h i).after

theorem Good.tick (h : Good q) (ht : tick q = some r) : Good r := by
  obtain ⟨l, _, rfl⟩ := map_eq_some_iff.mp ht
  exact ⟨h.priority, h.wait⟩

theorem good_step (h : ∀ i, Good (s.proc i)) (he : Effect s e u) (i : Slot) : Good (u.proc i) := by
  cases he.counts with
  | same hs => exact (h i).same (hs i)
  | @alloc j pid hu =>
    rw [hu]
    rcases eq_or_ne i j with rfl | hij
    · rw [update_self]; exact good_embryo pid _
    · rw [update_of_ne hij]; exact h i
  | @tick c p q ho hn hq hu _ =>
    rw [hu]
    rcases eq_or_ne i p with rfl | hip
    · rw [update_self]; exact (h i).tick hq
    · rw [update_of_ne hip]; exact h i
  | post hb ht => exact good_mlfqAfter h ht i

theorem Good.demote_ne_none (h : Good q) : Ptable.demote q ≠ none := by
  obtain ⟨l, _, hlev⟩ := h.level
  unfold Ptable.demote
  split_ifs
  · rw [hlev]; simp
  · simp

theorem Good.tick_ne_none (h : Good q) : Ptable.tick q ≠ none := by
  obtain ⟨l, _, hlev⟩ := h.level
  rw [Ptable.tick, hlev]
  simp

theorem step_tick (hg : ∀ i, Good (s.proc i)) (h : step s (.tick c) = some u) :
    ∃ p q, s.acts c = some p ∧ tick (s.proc p) = some q ∧
      u = (s.setProc p q).setThread p { s.thread p with ticked := true } := by
  unfold step at h
  split_ifs at h
  simp only [stepSched] at h
  split at h
  · rename_i p hp
    split at h
    · rename_i q hq
      exact ⟨p, q, hp, hq, (some.inj h).symm⟩
    · rename_i hq
      exact absurd hq (hg p).tick_ne_none
  · cases h

theorem step_fork (h : step s (.fork c) = some u) :
    (∃ p, s.Calls c p) ∧ (findSlot (fun _ q => q.state = .unused) s.proc = none ∧
      u.proc = s.proc ∨ ∃ i, findSlot (fun _ q => q.state = .unused) s.proc = some i ∧
        u.proc = update s.proc i (embryo s.nextpid (s.proc i))) := by
  unfold step at h
  split_ifs at h
  simp only [stepCall] at h
  split at h
  · rename_i p hp
    obtain ⟨ho, _, hn⟩ := acts_eq_some hp
    split_ifs at h with hg
    refine ⟨⟨p, ho, hg.1, hn, hg.2⟩, ?_⟩
    split at h
    · rename_i i hi
      cases h
      exact .inr ⟨i, hi, rfl⟩
    · rename_i hi
      cases h
      exact .inl ⟨hi, rfl⟩
  · cases h

theorem mlfqAfter_ne_none (h : ∀ i, Good (t i)) (p : Slot) : mlfqAfter p t ≠ none := by
  obtain ⟨d, hd⟩ := Option.ne_none_iff_exists'.mp (h p).demote_ne_none
  rw [mlfqAfter, hd]
  simp

theorem dispatch_halted (s : Sys C) (c : C) (q : Slot) (hs : s.halted = none) :
    (s.dispatch c q).halted ≠ some .outOfBounds := by
  rcases dispatch_cases s c q with ⟨msg, hd⟩ | hd
  · rw [hd]; simp
  · rw [hd]; exact fun hx => by cases hs.symm.trans hx

theorem waitLoop_halted (s : Sys C) (c : C) (p : Slot) : (s.waitLoop c p).halted = s.halted := by
  rcases waitLoop_cases s c p with ⟨i, _, _, hw⟩ | ⟨_, _, hw⟩ | ⟨_, _, _, hw⟩ <;> rw [hw] <;> rfl

theorem in_bounds_step (h : ∀ i, Good (s.proc i)) (hs : s.halted = none) (he : Effect s e u) :
    u.halted ≠ some .outOfBounds := by
  cases he with
  | panic => simp
  | @postOut c p hb ht => exact absurd ht (mlfqAfter_ne_none h p)
  | @tickOut c p ho hq => exact absurd hq (h p).tick_ne_none
  | passMlfq | scanRun => exact dispatch_halted _ _ _ hs
  | resumeWait | wait => rw [waitLoop_halted]; exact fun hx => by cases hs.symm.trans hx
  | stay | passRr | scanEnd | postRr | postMlfq | resume | resumeSlept | tick | yield | sleep | wakeup
  | kill | exit | fork | kalloc | kallocFail | copyuvm | copyuvmFail | setParent | setRunnable
  | fatalTrap | setSchedPolicy =>
    exact fun hx => by cases hs.symm.trans hx

/-! ### Time slices -/

def MlfqOnly (s : Sys C) : Ev C → Prop
  | .pass c => (s.cpu c).mlfq = true
  | _ => True

instance (s : Sys C) : ∀ e, Decidable (MlfqOnly s e)
  | .pass c => inferInstanceAs (Decidable ((s.cpu c).mlfq = true))
  | .scan _ | .post _ | .resume _ | .tick _ | .yield _ | .sleep _ _ | .wakeup _ | .kill _ _ | .exit _
  | .wait _ | .fork _ | .kalloc _ _ | .copyuvm _ _ | .setParent _ | .setRunnable _ | .fatalTrap _
  | .setSchedPolicy _ _ => isTrue trivial

def Over (s : Sys C) (i : Slot) : Prop :=
  (s.thread i).ticked = true ∨ ∃ c, (s.cpu c).loc = .back i

omit [DecidableEq C] in
theorem Over.of_eq {v : Sys C} (h : Over s i) (ht : (v.thread i).ticked = (s.thread i).ticked)
    (hc : ∀ c, (v.cpu c).loc = (s.cpu c).loc) : Over v i := by
  rcases h with h | ⟨c, h⟩
  · exact .inl (ht.trans h)
  · exact .inr ⟨c, (hc c).trans h⟩

theorem Over.setLoc (h : Over s i) {l : Loc} (hc : (s.cpu c).loc ≠ .back i) :
    Over (s.setLoc c l) i := by
  rcases h with h | ⟨d, h⟩
  · exact .inl h
  · refine .inr ⟨d, ?_⟩
    have hd : d ≠ c := by rintro rfl; exact hc h
    simpa [Sys.setLoc, hd] using h

theorem Over.sched (h : Over s i) {k : Park} (ho : (s.cpu c).loc = .on p) :
    Over (Sys.sched { s with proc := t } c p k) i := by
  rcases eq_or_ne i p with rfl | hip
  · exact .inr ⟨c, by simp [Sys.sched, Sys.setLoc, Sys.setThread]⟩
  · rcases h with h | ⟨d, h⟩
    · exact .inl (by simpa [Sys.sched, Sys.setLoc, Sys.setThread, hip] using h)
    · have hd : d ≠ c := by rintro rfl; rw [ho] at h; cases h
      exact .inr ⟨d, by simpa [Sys.sched, Sys.setLoc, Sys.setThread, hd] using h⟩

theorem Over.dispatch (h : Over s i) {q : Slot} (hc : (s.cpu c).loc ≠ .back i) :
    Over (s.dispatch c q) i := by
  rcases dispatch_cases s c q with ⟨msg, hd⟩ | hd
  · rw [hd]; exact h
  · rw [hd]; exact (Over.setLoc (l := .on q) h hc).of_eq rfl (fun _ => rfl)

theorem Over.waitLoop (h : Over s i) (ho : (s.cpu c).loc = .on p) : Over (s.waitLoop c p) i := by
  rcases waitLoop_cases s c p with ⟨j, _, _, hw⟩ | ⟨_, _, hw⟩ | ⟨_, _, _, hw⟩
  · rw [hw]; exact h
  · rw [hw]; exact h
  · rw [hw]; exact h.sched ho

omit [DecidableEq C] in
/-- Moving on in `fork` leaves the pending ticks alone. -/
theorem Over.setStage (h : Over s i) {g : Stage} : Over (s.setStage p g) i := by
  refine h.of_eq ?_ (fun _ => rfl)
  rcases eq_or_ne i p with rfl | hip
  · simp [Sys.setStage, Sys.setThread]
  · simp [Sys.setStage, Sys.setThread, hip]

theorem loc_update (s : Sys C) (c d : C) {x : Cpu} (h : x.loc = (s.cpu c).loc) :
    (update s.cpu c x d).loc = (s.cpu d).loc := by
  rcases eq_or_ne d c with rfl | hd
  · simpa using h
  · simp [hd]

theorem Over.effect (h : Core s) (hrr : ∀ c, (s.cpu c).rr = false) (hG : MlfqOnly s e)
    (he : Effect s e u) (ho : Over s i) :
    Over u i ∨ ∃ c, (s.cpu c).loc = .back i ∧ mlfqAfter i s.proc = some u.proc := by
  cases he with
  | stay | panic | postOut | tickOut | resume | resumeSlept | wakeup | kill | fatalTrap =>
    exact .inl ho
  | @passMlfq c q hl hi =>
    have hov : Over { s with cpu := update s.cpu c { s.cpu c with rr := false } } i :=
      ho.of_eq rfl fun d => loc_update s c d rfl
    exact .inl (hov.dispatch (by simp [hi]))
  | passRr hl hi hp => exact absurd (hp.symm.trans hG) (by simp)
  | scanRun hk => exact .inl (ho.dispatch (by simp [hk]))
  | scanEnd hk => exact .inl (Over.setLoc (l := .idle) ho (by simp [hk]))
  | @postRr c p hb hr => rw [hrr c] at hr; cases hr
  | @postMlfq c p t hb hr ht =>
    rcases eq_or_ne p i with rfl | hpi
    · exact .inr ⟨c, hb, ht⟩
    · exact .inl (Over.setLoc (l := .idle) ho (by simp [hb, hpi]))
  | @resumeWait c p hl hp =>
    have hov : Over (s.setProc p { s.proc p with chan := none }) i := ho
    exact .inl (hov.waitLoop hp)
  | @tick c p q ho' hl hn hq =>
    rcases eq_or_ne i p with rfl | hip
    · exact .inl (.inl (by simp [Sys.setThread]))
    · exact .inl (ho.of_eq (by simp [Sys.setThread, hip]) fun _ => rfl)
  | yield hp hl => exact .inl (ho.sched hp)
  | sleep hc | exit hc hp ht => exact .inl (ho.sched hc.on)
  | wait hc => exact .inl (ho.waitLoop hc.on)
  | @fork c p j hc hi =>
    have hov : Over (s.setProc j (embryo s.nextpid (s.proc j))) i := ho
    exact .inl hov.setStage
  | @kalloc c p np hf =>
    -- the slot being built has no thread yet
    have hemb := (h.child p np (by rw [hf.stage]; rfl)).1
    have hov : Over (s.setProc np { s.proc np with kstack := true }) i := ho
    refine .inl ((hov.setStage (p := p) (g := .copyuvm np)).of_eq ?_ fun _ => rfl)
    rcases eq_or_ne i np with rfl | hin
    · exfalso
      rcases ho with ho | ⟨d, ho⟩
      · rw [h.ticked i ho] at hemb; cases hemb
      · have := (h.back d i ho).2
        rw [hemb] at this
        simp at this
    · simp [Sys.setThread, hin]
  | @kallocFail c p np hf =>
    have hov : Over (s.setProc np { s.proc np with kstack := false, state := .unused }) i := ho
    exact .inl hov.setStage
  | @copyuvm c p np hf =>
    have hov : Over (s.setProc np { s.proc np with pgdir := true }) i := ho
    exact .inl hov.setStage
  | @copyuvmFail c p np hf =>
    have hov : Over (s.setProc np
      { s.proc np with pgdir := false, kstack := false, state := .unused }) i := ho
    exact .inl hov.setStage
  | @setParent c p np hf =>
    have hov : Over (s.setProc np { s.proc np with parent := some p }) i := ho
    exact .inl hov.setStage
  | @setRunnable c p np hf hl =>
    have hov : Over (s.setProc np { s.proc np with state := .runnable }) i := ho
    exact .inl hov.setStage
  | @setSchedPolicy c p policy => exact .inl (ho.of_eq rfl fun d => loc_update s c d rfl)

/-- Within its slices: a level above 0 has seen fewer ticks than its slice, or exactly its slice with
  the last tick still pending. -/
structure Sliced (s : Sys C) : Prop where
  rr : ∀ c, (s.cpu c).rr = false
  ticks : ∀ i (l : Fin 4), l ≠ 0 → 0 ≤ (s.proc i).ticks l ∧ ((s.proc i).ticks l < slice l ∨
    (s.proc i).ticks l = slice l ∧ (s.proc i).priority = (l : ℕ) ∧ Over s i)

theorem rr_setLoc (h : ∀ c, (s.cpu c).rr = false) (d : C) (l : Loc) (c : C) :
    ((s.setLoc d l).cpu c).rr = false := by
  rcases eq_or_ne c d with rfl | hc
  · simpa [Sys.setLoc] using h c
  · simpa [Sys.setLoc, hc] using h c

theorem rr_dispatch (h : ∀ c, (s.cpu c).rr = false) (d : C) (q : Slot) (c : C) :
    ((s.dispatch d q).cpu c).rr = false := by
  rcases dispatch_cases s d q with ⟨msg, hd⟩ | hd
  · rw [hd]; exact h c
  · rw [hd]; exact rr_setLoc h d _ c

theorem rr_waitLoop (h : ∀ c, (s.cpu c).rr = false) (d : C) (p : Slot) (c : C) :
    ((s.waitLoop d p).cpu c).rr = false := by
  rcases waitLoop_cases s d p with ⟨i, _, _, hw⟩ | ⟨_, _, hw⟩ | ⟨_, _, _, hw⟩
  · rw [hw]; exact h c
  · rw [hw]; exact h c
  · rw [hw]; exact rr_setLoc (s := s) h d _ c

theorem rr_effect (h : ∀ c, (s.cpu c).rr = false) (hG : MlfqOnly s e) (he : Effect s e u) (c : C) :
    (u.cpu c).rr = false := by
  cases he with
  | stay | panic | postOut | tickOut | resume | resumeSlept | tick | wakeup | kill | fork | kalloc
  | kallocFail | copyuvm | copyuvmFail | setParent | setRunnable | fatalTrap => exact h c
  | @passMlfq d q =>
    refine rr_dispatch (fun d' => ?_) d q c
    rcases eq_or_ne d' d with rfl | hd
    · simp
    · simpa [hd] using h d'
  | passRr hl hi hp => exact absurd (hp.symm.trans hG) (by simp)
  | scanRun => exact rr_dispatch h _ _ c
  | scanEnd | postRr | postMlfq | yield | sleep | exit => exact rr_setLoc (s := s) h _ _ c
  | resumeWait => exact rr_waitLoop (s := s.setProc _ _) h _ _ c
  | wait => exact rr_waitLoop h _ _ c
  | @setSchedPolicy d p policy =>
    rcases eq_or_ne c d with rfl | hc
    · simpa using h c
    · simpa [hc] using h c

theorem slice_pos (l : Fin 4) : 0 < slice l := by fin_cases l <;> simp [slice]

theorem slice_le (hl : l ≠ 0) : slice l ≤ 32 := by
  fin_cases l
  · exact absurd rfl hl
  · simp [slice]
  · simp [slice]
  · simp [slice]

theorem priority_ne {k : Fin 4} (hk : r.priority = (k : ℕ)) (hlk : l ≠ k) :
    r.priority ≠ (l : ℕ) := by
  rw [hk]
  exact fun hx => hlk (Fin.ext (by omega))

theorem demote_ticks (hd : demote q = some r) (hl : l ≠ 0) (h0 : 0 ≤ q.ticks l)
    (h : q.ticks l < slice l ∨ q.ticks l = slice l ∧ q.priority = (l : ℕ)) :
    0 ≤ r.ticks l ∧ r.ticks l < slice l := by
  have hpos := slice_pos l
  unfold demote at hd
  split_ifs at hd with hp
  · obtain ⟨k, hk, rfl⟩ := map_eq_some_iff.mp hd
    rcases eq_or_ne l k with rfl | hlk
    · split_ifs with ht
      · simpa using hpos
      · exact ⟨h0, by omega⟩
    · -- another level than the current one
      have hne : q.priority ≠ (l : ℕ) := priority_ne (level_eq_some.mp hk) hlk
      have hlt : q.ticks l < slice l := h.resolve_right fun hx => hne hx.2
      split_ifs
      · simpa [hlk] using ⟨h0, hlt⟩
      · exact ⟨h0, hlt⟩
  · cases hd
    have : (l : ℕ) ≠ 0 := fun hx => hl (Fin.ext hx)
    exact ⟨h0, h.resolve_right fun hx => by omega⟩

theorem priorityBoost1_ticks (q : Proc) : (priorityBoost1 q).ticks = q.ticks := by
  unfold priorityBoost1
  split_ifs <;> rfl

theorem ticks_after (q : Proc) : (priorityBoost1 (updateWaitTicks1 q)).ticks = q.ticks := by
  rw [priorityBoost1_ticks]
  unfold updateWaitTicks1
  split_ifs
  · split <;> rfl
  · rfl

theorem tick_ticks (ht : tick q = some r) (hl : l ≠ 0) (h0 : 0 ≤ q.ticks l)
    (h : q.ticks l < slice l) : 0 ≤ r.ticks l ∧
      (r.ticks l < slice l ∨ r.ticks l = slice l ∧ r.priority = (l : ℕ)) := by
  obtain ⟨k, hk, rfl⟩ := map_eq_some_iff.mp ht
  rcases eq_or_ne l k with rfl | hlk
  · have hle := slice_le hl
    have hw : wrap (q.ticks l + 1) = q.ticks l + 1 := wrap_of_nonneg (by omega) (by omega)
    simp only [update_self, hw]
    exact ⟨by omega, (lt_or_eq_of_le (by omega : q.ticks l + 1 ≤ slice l)).imp id fun hx =>
      ⟨hx, level_eq_some.mp hk⟩⟩
  · simp only [update_of_ne hlk]
    exact ⟨h0, .inl h⟩

omit [DecidableEq C] in
/-- A slot with a pending tick that is not the one switching back is `RUNNING`. -/
theorem Over.running (h : Core s) (hb : (s.cpu c).loc = .back p) (hip : i ≠ p) (ho : Over s i) :
    (s.proc i).state = .running := by
  rcases ho with ho | ⟨d, ho⟩
  · exact h.ticked i ho
  · -- both schedulers would hold the lock
    have hcd : some d = some c := (h.back d i ho).1.symm.trans (h.back c p hb).1
    rw [some.injEq] at hcd
    rw [hcd, hb, Loc.back.injEq] at ho
    exact absurd ho.symm hip

theorem Sliced.effect (h : Sliced s) (hc : Core s) (hg : ∀ i, Good (s.proc i)) (hG : MlfqOnly s e)
    (he : Effect s e u) : Sliced u := by
  refine ⟨rr_effect h.rr hG he, fun i l hl => ?_⟩
  obtain ⟨h0, h1⟩ := h.ticks i l hl
  have hover : Over s i → Over u i ∨ ∃ c, (s.cpu c).loc = .back i ∧
      mlfqAfter i s.proc = some u.proc := fun ho => ho.effect hc h.rr hG he
  -- the scheduler has looked at slot `i`
  have hself : mlfqAfter i s.proc = some u.proc →
      0 ≤ (u.proc i).ticks l ∧ (u.proc i).ticks l < slice l := by
    intro ht
    obtain ⟨d, hd, hp, _⟩ := mlfqAfter_apply ht
    rw [hp, ((hg i).demote hd).boost]
    exact demote_ticks hd hl h0 (h1.imp id fun hx => ⟨hx.1, hx.2.1⟩)
  -- the step leaves the ticks of slot `i` alone, and its level too while a tick is pending
  have hkeep : (u.proc i).ticks = (s.proc i).ticks →
      (Over s i → (u.proc i).priority = (s.proc i).priority) →
      0 ≤ (u.proc i).ticks l ∧ ((u.proc i).ticks l < slice l ∨
        (u.proc i).ticks l = slice l ∧ (u.proc i).priority = (l : ℕ) ∧ Over u i) := by
    intro ht hp
    rcases h1 with h1 | ⟨h1, hl, ho⟩
    · rw [ht]; exact ⟨h0, .inl h1⟩
    · rcases hover ho with hu | ⟨_, _, ha⟩
      · rw [ht]; exact ⟨h0, .inr ⟨h1, (hp ho).trans hl, hu⟩⟩
      · exact (hself ha).imp id .inl
  cases he.counts with
  | same hs => exact hkeep (hs i).ticks fun _ => (hs i).priority
  | @alloc j pid hu =>
    rcases eq_or_ne i j with rfl | hij
    · rw [hu]
      simpa [embryo] using .inl (slice_pos l)
    · have hi : u.proc i = s.proc i := by rw [hu, update_of_ne hij]
      exact hkeep (by rw [hi]) fun _ => by rw [hi]
  | @tick c p q ho hn hq hu ht =>
    rcases eq_or_ne i p with rfl | hip
    · -- the thread acts, so no tick of it is pending
      have hno : ¬ Over s i := by
        rintro (hx | ⟨d, hx⟩)
        · rw [hn] at hx; cases hx
        · have := (hc.back d i hx).2
          rw [hc.on c i ho] at this
          simp at this
      rw [hu, update_self]
      have hlt := h1.resolve_right fun hx => hno hx.2.2
      exact (tick_ticks hq hl h0 hlt).imp id (Or.imp id fun hx => ⟨hx.1, hx.2, .inl ht⟩)
    · have hi : u.proc i = s.proc i := by rw [hu, update_of_ne hip]
      exact hkeep (by rw [hi]) fun _ => by rw [hi]
  | @post c p hb ht =>
    rcases eq_or_ne i p with rfl | hip
    · exact (hself ht).imp id .inl
    · obtain ⟨_, _, _, hi⟩ := mlfqAfter_apply ht
      refine hkeep (by rw [hi i hip, ticks_after]) fun ho => ?_
      -- a `RUNNING` process does not wait
      have hrun := ho.running hc hb hip
      rw [hi i hip, updateWaitTicks1, if_neg (by simp [hrun]), (hg i).boost]

/-! ### Whole runs -/

omit [DecidableEq C] in
theorem good_boot (policy : C → ℤ) (i : Slot) : Good ((boot policy).proc i) := by
  have hlim : ∀ l : Fin 4, l ≠ 3 → 0 < limit l := by decide
  rcases eq_or_ne i initproc with rfl | hi
  · exact ⟨by simp [boot], fun l hl => by simpa [boot, zeroProc] using hlim l hl⟩
  · exact ⟨by simp [boot, hi, zeroProc], fun l hl => by simpa [boot, hi, zeroProc] using hlim l hl⟩

omit [DecidableEq C] in
theorem sliced_boot (policy : C → ℤ) : Sliced (boot policy) := by
  refine ⟨fun _ => rfl, fun i l _ => ?_⟩
  rcases eq_or_ne i initproc with rfl | hi
  · simpa [boot, zeroProc] using .inl (slice_pos l)
  · simpa [boot, hi, zeroProc] using .inl (slice_pos l)

def InOrder (s : Sys C) : Prop := s.halted ≠ some .outOfBounds ∧ ∀ i, Good (s.proc i)

theorem InOrder.reach {G : Sys C → Ev C → Prop} (hs : InOrder s) (h : Reach step G s u) : InOrder u := by
  refine h.invariant hs ?_
  rintro s e u ⟨_, hg⟩ _ hs
  obtain ⟨hh, he⟩ := effect_of_step hs
  exact ⟨in_bounds_step hg hh he, good_step hg he⟩

omit [DecidableEq C] in
theorem inOrder_boot (policy : C → ℤ) : InOrder (boot policy) :=
  ⟨by simp [boot], good_boot policy⟩

theorem sliced_of_reach {policy : C → ℤ} (h : Reach step MlfqOnly (boot policy) s) :
    Core s ∧ (∀ i, Good (s.proc i)) ∧ Sliced s := by
  refine h.invariant (I := fun s => Core s ∧ (∀ i, Good (s.proc i)) ∧ Sliced s)
    ⟨core_boot policy, good_boot policy, sliced_boot policy⟩ ?_
  rintro s e u ⟨hc, hg, hsl⟩ hG hs
  obtain ⟨_, he⟩ := effect_of_step hs
  exact ⟨hc.effect he, good_step hg he, hsl.effect hc hg hG he⟩

omit [DecidableEq C] in
/-- A process that does not run, with the lock free, has no tick pending. -/
theorem Core.not_over (h : Core s) (hl : s.lock = none) (hi : (s.proc i).state ≠ .running) :
    ¬ Over s i := by
  rintro (ho | ⟨c, ho⟩)
  · exact hi (h.ticked i ho)
  · have := (h.back c i ho).1
    rw [hl] at this
    cases this

/-- Whatever the CPUs and processes do, priorities are levels and waiting times stay below their
  limits; while every scheduler takes the MLFQ branch, a process that does not run is within its
  time slices. -/
theorem mlfq_invariant (policy : C → ℤ) :
    (∀ s, Reach step (fun _ _ => True) (boot policy) s → s.halted ≠ some .outOfBounds ∧
      (s.lock = none → ∀ i, 0 ≤ (s.proc i).priority ∧ (s.proc i).priority ≤ 3 ∧
        (s.proc i).waitTicks 0 < 500 ∧ (s.proc i).waitTicks 1 < 320 ∧
        (s.proc i).waitTicks 2 < 160)) ∧
    (∀ s, Reach step MlfqOnly (boot policy) s → s.lock = none →
      ∀ i, (s.proc i).state ≠ .running →
        (s.proc i).ticks 3 < 8 ∧ (s.proc i).ticks 2 < 16 ∧ (s.proc i).ticks 1 < 32) := by
  refine ⟨fun s hs => ?_, fun s hs hl i hi => ?_⟩
  · obtain ⟨hb, hg⟩ := (inOrder_boot policy).reach hs
    refine ⟨hb, fun _ i => ⟨(hg i).priority.1, (hg i).priority.2, ?_, ?_, ?_⟩⟩
    · exact ((hg i).wait 0 (by decide)).2
    · exact ((hg i).wait 1 (by decide)).2
    · exact ((hg i).wait 2 (by decide)).2
  · obtain ⟨hc, _, hsl⟩ := sliced_of_reach hs
    have hlt : ∀ l : Fin 4, l ≠ 0 → (s.proc i).ticks l < slice l := fun l hl' =>
      (hsl.ticks i l hl').2.resolve_right fun hx => hc.not_over hl hi hx.2.2
    exact ⟨hlt 3 (by decide), hlt 2 (by decide), hlt 1 (by decide)⟩

/-- Two CPUs: the first runs init for one tick, the other stays in its scheduler. -/
theorem mlfq_invariant_one_tick : ∃ s : Sys (Fin 2),
    Reach step MlfqOnly (boot fun _ => 2) s ∧ s.lock = none ∧
      (s.proc initproc).state = .runnable ∧ (s.proc initproc).ticks 3 = 1 ∧
      (s.proc initproc).ticks 3 < 8 ∧ (s.proc initproc).waitTicks 2 < 160 := by
  obtain ⟨s, hs, hobs⟩ := exists_reach (show (follow step MlfqOnly
    (boot fun _ : Fin 2 => 2) [.pass 0, .resume 0, .tick 0, .yield 0, .post 0]).map (fun s =>
      (s.lock, (s.proc initproc).state, (s.proc initproc).ticks 3)) = some (none, .runnable, 1) by
    decide +kernel)
  simp only [Prod.mk.injEq] at hobs
  obtain ⟨hl, hst, ht⟩ := hobs
  have hfree := (mlfq_invariant fun _ : Fin 2 => 2).1 s (hs.mono fun _ _ _ => trivial)
  have hslice := (mlfq_invariant fun _ : Fin 2 => 2).2 s hs hl initproc (by simp [hst])
  exact ⟨s, hs, hl, hst, ht, hslice.1, (hfree.2 hl initproc).2.2.2.2⟩

end Xv6.Ptable

import Xv6.Param

/-! @src proc.h, proc.c | part:process table

  The process table and the loops over it, as functions on tables. A pointer into `ptable.proc` is
  a slot number, the null pointer is `none`; `kstack` and `pgdir` only tell whether the pointer is
  non-null. `int` counters wrap. A subscript that may leave its array is an `Option`. -/

namespace Xv6.Ptable
open List
open Function

abbrev Slot := Fin NPROC

/-- The state of a slot. -/
inductive PState where
  | unused | embryo | sleeping | runnable | running | zombie
  deriving DecidableEq

/-- A sleep channel: the address of a process (`wait`) or of something else. -/
inductive Chan where
  | proc (i : Slot)
  | addr (a : ℕ)
  deriving DecidableEq

@[ext]
structure Proc where
  state : PState
  pid : ℤ
  parent : Option Slot
  chan : Option Chan
  killed : Bool
  kstack : Bool
  pgdir : Bool
  priority : ℤ
  ticks : Fin 4 → ℤ
  waitTicks : Fin 4 → ℤ

abbrev Table := Slot → Proc

/-- `initproc`: `userinit` runs on an empty table and gets its first slot. -/
def initproc : Slot := ⟨0, zero_lt_NPROC⟩

def second : Slot := ⟨1, one_lt_NPROC⟩

def wrap (x : ℤ) : ℤ := Int.bmod x (2 ^ 32)

theorem wrap_of_nonneg {x : ℤ} (h0 : 0 ≤ x) (h1 : x < 2 ^ 31) : wrap x = x :=
  Int.bmod_eq_of_le (by omega) (by omega)

def level (x : ℤ) : Option (Fin 4) :=
  if h : 0 ≤ x ∧ x ≤ 3 then some ⟨x.toNat, by omega⟩ else none

theorem level_eq_some {x : ℤ} {l : Fin 4} : level x = some l ↔ x = (l : ℕ) := by
  unfold level
  split_ifs with h
  · rw [Option.some.injEq, Fin.ext_iff]
    show x.toNat = (l : ℕ) ↔ _
    omega
  · have := l.isLt
    simp only [false_iff]
    omega

def findSlot (f : Slot → Proc → Bool) (t : Table) : Option Slot :=
  (finRange NPROC).find? fun i => f i (t i)

section FindSlot

variable {f : Slot → Proc → Bool} {t : Table} {i j : Slot}

theorem findSlot_some (h : findSlot f t = some i) : f i (t i) = true := by
  simpa using List.find?_some h

theorem findSlot_none (h : findSlot f t = none) (i : Slot) : f i (t i) = false := by
  simpa using List.find?_eq_none.mp h i (mem_finRange i)

theorem findSlot_first (h : findSlot f t = some i) (hj : j < i) : f j (t j) = false := by
  obtain ⟨_, as, bs, hl, hno⟩ := List.find?_eq_some_iff_append.mp h
  have hsorted : (finRange NPROC).Pairwise (· < ·) := pairwise_lt_finRange NPROC
  have hmem := mem_finRange j
  rw [hl] at hsorted hmem
  rcases mem_append.mp hmem with hm | hm
  · simpa using hno j hm
  · rcases mem_cons.mp hm with rfl | hm
    · exact absurd hj (lt_irrefl _)
    · have := rel_of_pairwise_cons (pairwise_append.mp hsorted).2.1 hm
      exact absurd hj (not_lt.mpr this.le)

end FindSlot

/-! ### Sleeping and waking -/

/-- Wake the sleepers on a channel. -/
def wakeup1 (chan : Option Chan) (t : Table) : Table := fun i =>
  if (t i).state = .sleeping ∧ (t i).chan = chan then { t i with state := .runnable } else t i

/-- One turn of the loop in `exit` that passes abandoned children to init. -/
def reparent1 (cur : Slot) (t : Table) (p : Slot) : Table :=
  if (t p).parent = some cur then
    let t := update t p { t p with parent := some initproc }
    if (t p).state = .zombie then wakeup1 (some (.proc initproc)) t else t
  else t

def reparent (cur : Slot) (t : Table) : Table := (finRange NPROC).foldl (reparent1 cur) t

theorem reparent1_apply (cur : Slot) (t : Table) (p i : Slot) :
    reparent1 cur t p i = { t i with
      parent := if i = p ∧ (t p).parent = some cur then some initproc else (t i).parent
      state := if ((t p).parent = some cur ∧ (t p).state = .zombie) ∧
          (t i).state = .sleeping ∧ (t i).chan = some (.proc initproc)
        then .runnable else (t i).state } := by
  unfold reparent1
  rcases eq_or_ne (t p).parent (some cur) with hcur | hcur
  · rcases eq_or_ne i p with rfl | hip
    · rcases eq_or_ne (t i).state .zombie with hz | hz
      · simp [hcur, hz, wakeup1]
      · simp [hcur, hz]
    · rcases eq_or_ne (t p).state .zombie with hz | hz
      · simp only [hcur, if_true, update_self, hz, wakeup1, update_of_ne hip, hip,
          false_and, if_false, and_self, true_and]
        split_ifs <;> rfl
      · simp [hcur, hz, hip]
  · simp [hcur]

theorem foldl_reparent1 (cur : Slot) (t : Table) : ∀ (l : List Slot), l.Nodup → ∀ i,
    l.foldl (reparent1 cur) t i = { t i with
      parent := if i ∈ l ∧ (t i).parent = some cur then some initproc else (t i).parent
      state := if (∃ j ∈ l, (t j).parent = some cur ∧ (t j).state = .zombie) ∧
          (t i).state = .sleeping ∧ (t i).chan = some (.proc initproc)
        then .runnable else (t i).state } := by
  intro l
  induction l using reverseRecOn with
  | nil => intro _ i; simp
  | append_singleton l p ih =>
    intro hnd i
    obtain ⟨hl, _, hd⟩ := nodup_append.mp hnd
    have hp : p ∉ l := fun hm => hd p hm p (mem_singleton_self p) rfl
    have ih := ih hl
    rw [foldl_append, foldl_cons, foldl_nil, reparent1_apply]
    have hup : (l.foldl (reparent1 cur) t p).parent = (t p).parent := by rw [ih p]; simp [hp]
    have hus : (l.foldl (reparent1 cur) t p).state = .zombie ↔ (t p).state = .zombie := by
      rw [ih p]; dsimp only; split_ifs with hx
      · simp [hx.2.1]
      · rfl
    simp only [hup, hus, ih i]
    refine Proc.ext ?_ rfl ?_ rfl rfl rfl rfl rfl rfl rfl
    · -- a sleeper that is already awake stays awake
      have hex : (∃ j ∈ l ++ [p], (t j).parent = some cur ∧ (t j).state = .zombie) ↔
          (∃ j ∈ l, (t j).parent = some cur ∧ (t j).state = .zombie) ∨
            (t p).parent = some cur ∧ (t p).state = .zombie := by
        simp only [mem_append, mem_singleton, or_and_right, exists_or, exists_eq_left]
      dsimp only
      simp only [hex]
      rcases em ((t i).state = .sleeping ∧ (t i).chan = some (.proc initproc)) with hw | hw
      · rcases em (∃ j ∈ l, (t j).parent = some cur ∧ (t j).state = .zombie) with hz | hz
        · simp [hw, hz]
        · simp [hw, hz]
      · simp [hw]
    · dsimp only
      rcases eq_or_ne i p with rfl | hip
      · simp [hp]
      · simp [hip]

theorem reparent_apply (cur : Slot) (t : Table) (i : Slot) :
    reparent cur t i = { t i with
      parent := if (t i).parent = some cur then some initproc else (t i).parent
      state := if (∃ j, (t j).parent = some cur ∧ (t j).state = .zombie) ∧
          (t i).state = .sleeping ∧ (t i).chan = some (.proc initproc)
        then .runnable else (t i).state } := by
  rw [reparent, foldl_reparent1 cur t _ (nodup_finRange NPROC)]
  simp [mem_finRange]

/-! ### Scheduling -/

def slice : Fin 4 → ℤ := ![1000000, 32, 16, 8]

/-- The MLFQ choice: the first `RUNNABLE` slot of the highest level that has one. -/
def mlfqSelect (t : Table) : Option Slot :=
  [3, 2, 1, 0].findSome? fun prio =>
    findSlot (fun _ p => p.state = .runnable ∧ p.priority = prio) t

def rrNext (k : ℕ) (t : Table) : Option Slot :=
  findSlot (fun i p => k ≤ i ∧ p.state = .runnable) t

/-- Demote a process that has used up its time slice; `none` if a subscript leaves its array. -/
def demote (p : Proc) : Option Proc :=
  if p.priority > 0 then
    (level p.priority).map fun l =>
      if p.ticks l ≥ slice l then
        { p with priority := p.priority - 1, ticks := update p.ticks l 0 }
      else p
  else some p

def updateWaitTicks1 (p : Proc) : Proc :=
  if p.state = .runnable then
    match level p.priority with
    | some l => { p with waitTicks := update p.waitTicks l (wrap (p.waitTicks l + 1)) }
    | none => p
  else p

variable {p q : Proc}

theorem updateWaitTicks1_runnable {l : Fin 4} (hp : p.state = .runnable)
    (hl : level p.priority = some l) : updateWaitTicks1 p =
      { p with waitTicks := update p.waitTicks l (wrap (p.waitTicks l + 1)) } := by
  rw [updateWaitTicks1, if_pos hp, hl]

/-- All that wait count one more round. -/
def updateWaitTicks (running : Slot) (t : Table) : Table :=
  fun i => if i = running then t i else updateWaitTicks1 (t i)

/-- Waiting limits of the levels below the top: ten slices, and 500 at level 0. -/
def limit : Fin 4 → ℤ := ![500, 10 * 32, 10 * 16, 0]

def priorityBoost1 (p : Proc) : Proc :=
  if p.state = .unused then p
  else if p.priority = 2 ∧ p.waitTicks 2 ≥ limit 2 then
    { p with priority := p.priority + 1, waitTicks := update p.waitTicks 2 0 }
  else if p.priority = 1 ∧ p.waitTicks 1 ≥ limit 1 then
    { p with priority := p.priority + 1, waitTicks := update p.waitTicks 1 0 }
  else if p.priority = 0 ∧ p.waitTicks 0 ≥ limit 0 then
    { p with priority := 1, waitTicks := update p.waitTicks 0 0 }
  else p

/-- Raise who has waited long enough. -/
def priorityBoost (t : Table) : Table := fun i => priorityBoost1 (t i)

/-- What the scheduler does when a process comes back. -/
def mlfqAfter (p : Slot) (t : Table) : Option Table :=
  (demote (t p)).map fun d => priorityBoost (updateWaitTicks p (update t p d))

/-- One timer tick of the running process; `none` if the subscript leaves the array. -/
def tick (p : Proc) : Option Proc :=
  (level p.priority).map fun l =>
    { p with ticks := update p.ticks l (wrap (p.ticks l + 1)) }

def Accounts (p q : Proc) : Prop :=
  q = { p with priority := q.priority, ticks := q.ticks, waitTicks := q.waitTicks }

theorem Accounts.trans {r : Proc} (h : Accounts p q) (h' : Accounts q r) : Accounts p r := by
  unfold Accounts at *
  rw [h', h]

theorem Accounts.state (h : Accounts p q) : q.state = p.state := by
  unfold Accounts at h
  rw [h]

theorem accounts_demote (h : demote p = some q) : Accounts p q := by
  unfold demote at h
  split_ifs at h
  · obtain ⟨l, _, rfl⟩ := Option.map_eq_some_iff.mp h
    split_ifs <;> rfl
  · cases h; rfl

theorem accounts_tick (h : tick p = some q) : Accounts p q := by
  obtain ⟨l, _, rfl⟩ := Option.map_eq_some_iff.mp h
  rfl

theorem accounts_updateWaitTicks1 (p : Proc) : Accounts p (updateWaitTicks1 p) := by
  unfold updateWaitTicks1
  split_ifs
  · split <;> rfl
  · rfl

theorem accounts_priorityBoost1 (p : Proc) : Accounts p (priorityBoost1 p) := by
  unfold priorityBoost1
  split_ifs <;> rfl

theorem mlfqAfter_apply {p : Slot} {t t' : Table} (h : mlfqAfter p t = some t') :
    ∃ d, demote (t p) = some d ∧ t' p = priorityBoost1 d ∧
      ∀ i, i ≠ p → t' i = priorityBoost1 (updateWaitTicks1 (t i)) := by
  obtain ⟨d, hd, rfl⟩ := Option.map_eq_some_iff.mp h
  refine ⟨d, hd, ?_, fun i hi => ?_⟩
  · simp [priorityBoost, updateWaitTicks]
  · simp [priorityBoost, updateWaitTicks, hi]

theorem accounts_mlfqAfter {p : Slot} {t t' : Table} (h : mlfqAfter p t = some t') (i : Slot) :
    Accounts (t i) (t' i) := by
  obtain ⟨d, hd, hp, hi⟩ := mlfqAfter_apply h
  rcases eq_or_ne i p with rfl | hip
  · rw [hp]; exact (accounts_demote hd).trans (accounts_priorityBoost1 d)
  · rw [hi i hip]; exact (accounts_updateWaitTicks1 _).trans (accounts_priorityBoost1 _)

/-! ### Creation, kill and reaping -/

/-- The locked part of `allocproc`: the slot found becomes a fresh `EMBRYO`. -/
def embryo (pid : ℤ) (p : Proc) : Proc :=
  { p with state := .embryo, pid := pid, priority := 3, ticks := fun _ => 0, waitTicks := fun _ => 0 }

def kill1 (p : Proc) : Proc :=
  { p with killed := true, state := if p.state = .sleeping then .runnable else p.state }

/-- Free the slot of a zombie. -/
def reap (p : Proc) : Proc :=
  { p with kstack := false, pid := 0, parent := none, killed := false, state := .unused }

end Xv6.Ptable

import Xv6.Param
import Xv6.Schemes.Machine

/-! @src uthread1.c, uthread_switch.S | part:user-level threads | scheme:machine

  The table of user-level threads, in two views. In the first a stack pointer is known by the thread
  whose stack it points into; `thread_switch` saves it in `current_thread` and loads it from
  `next_thread`, and nobody ever moves `current_thread` on:

      thread_init          thread_create        thread_schedule
      0: RUNNING  < cur    0: RUNNING  < cur    0: RUNNABLE < cur
      1: FREE              1: RUNNABLE          1: RUNNING  < esp

  The second view is the processor at `thread_switch`: memory words and registers. -/

namespace Xv6.Uthread1
open Schemes
open Function

/-! ### The table -/

abbrev MAX_THREAD : ℕ := 4

inductive TState where
  | free | running | runnable
  deriving DecidableEq

/-- `sp` and `esp` are known by the thread whose stack they point into. `outside` says that memory
  past the table was written, `ended` that the thread has set its state to `FREE` and has not been
  created again. -/
structure Threads where
  state : Fin MAX_THREAD → TState
  sp : Fin MAX_THREAD → Fin MAX_THREAD
  current : Fin MAX_THREAD
  next : Option (Fin MAX_THREAD)
  esp : Fin MAX_THREAD
  outside : Bool
  exited : Bool
  ended : Fin MAX_THREAD → Bool

inductive Ev where
  | init | create | schedule | exit

namespace Threads

def init (x : Threads) : Threads :=
  { x with current := 0, state := update x.state 0 .running }

/-- The loop of `thread_create`: without a `FREE` thread it ends at `all_thread + MAX_THREAD`. -/
def firstFree (x : Threads) : Option (Fin MAX_THREAD) :=
  (List.finRange MAX_THREAD).find? fun t => x.state t = .free

def create (x : Threads) : Threads :=
  match x.firstFree with
  | some t =>
    { x with
      sp := update x.sp t t
      state := update x.state t .runnable
      ended := update x.ended t false }
  | none => { x with outside := true }

def otherRunnable (x : Threads) : Option (Fin MAX_THREAD) :=
  (List.finRange MAX_THREAD).find? fun t => x.state t = .runnable ∧ t ≠ x.current

def switch (x : Threads) (n : Fin MAX_THREAD) : Threads :=
  { x with sp := update x.sp x.current x.esp, esp := update x.sp x.current x.esp n }

def schedule (x : Threads) : Threads :=
  match x.otherRunnable with
  | some n =>
    switch { x with
      next := some n
      state := update (update x.state n .running) x.current .runnable } n
  | none =>
    if x.state x.current = .runnable then { x with next := none }
    else { x with next := none, exited := true }

def exit (x : Threads) : Threads :=
  schedule { x with
    state := update x.state x.current .free
    ended := update x.ended x.current true }

def step (x : Threads) (e : Ev) : Option Threads :=
  if x.exited then none else
  match e with
  | .init => some x.init
  | .create => some x.create
  | .schedule => some x.schedule
  | .exit => some x.exit

def start : Threads :=
  init ⟨fun _ => .free, fun _ => 0, 0, none, 0, false, false, fun _ => false⟩

/-- What a thread table is for: only the table is written, exactly one thread is `RUNNING`,
  `current_thread` is that thread and its stack is in use, and it has not ended. After `exit` there
  is no table. -/
def Sound (x : Threads) : Prop :=
  x.exited = true ∨ x.outside = false ∧
    (∀ t, x.state t = .running ↔ t = x.current) ∧ x.esp = x.current ∧ x.ended x.esp = false

/-- Threads are created while there is a `FREE` one, and nobody schedules while there is another
  thread to run. -/
def Alone (x : Threads) : Ev → Prop
  | .init => True
  | .create => ∃ t, x.state t = .free
  | .schedule | .exit => ∀ t, t ≠ x.current → x.state t ≠ .runnable

instance (x : Threads) : Decidable x.Sound :=
  inferInstanceAs (Decidable (x.exited = true ∨ x.outside = false ∧
    (∀ t, x.state t = .running ↔ t = x.current) ∧ x.esp = x.current ∧ x.ended x.esp = false))

instance (x : Threads) : (e : Ev) → Decidable (x.Alone e)
  | .init => isTrue trivial
  | .create => inferInstanceAs (Decidable (∃ t, x.state t = .free))
  | .schedule | .exit => inferInstanceAs (Decidable (∀ t, t ≠ x.current → x.state t ≠ .runnable))

end Threads

open Threads

variable {x y : Threads} {t : Fin MAX_THREAD}

theorem firstFree_eq_none : x.firstFree = none ↔ ∀ t, x.state t ≠ .free := by
  simp [firstFree, List.find?_eq_none]

theorem otherRunnable_eq_none :
    x.otherRunnable = none ↔ ∀ t, t ≠ x.current → x.state t ≠ .runnable := by
  simp only [otherRunnable, List.find?_eq_none, List.mem_finRange, forall_true_left,
    decide_eq_true_eq, not_and, not_not]
  exact ⟨fun h t ht hs => ht (h t hs), fun h t hs => not_not.mp fun ht => h t ht hs⟩

theorem otherRunnable_some (h : x.otherRunnable = some t) :
    x.state t = .runnable ∧ t ≠ x.current := by
  simpa using List.find?_some h

/-- While nobody switches, the first thread runs on its own stack and no thread has ended. -/
structure First (x : Threads) : Prop where
  current : x.current = 0
  esp : x.esp = 0
  outside : x.outside = false
  running : ∀ t, x.state t = .running ↔ t = 0
  ended : ∀ t, x.ended t = false

theorem First.sound (h : First x) : x.Sound := by
  refine .inr ⟨h.outside, fun t => ?_, ?_, h.ended _⟩
  · rw [h.current]
    exact h.running t
  · rw [h.esp, h.current]

theorem First.init (h : First x) : First x.init := by
  refine ⟨rfl, h.esp, h.outside, fun t => ?_, h.ended⟩
  rcases eq_or_ne t 0 with rfl | ht
  · simp [Threads.init]
  · simpa [Threads.init, ht] using h.running t

theorem First.create (h : First x) (hf : x.Alone .create) : First x.create := by
  obtain ⟨f, hfree⟩ := hf
  cases hc : x.firstFree with
  | none => exact absurd hfree (firstFree_eq_none.mp hc f)
  | some t =>
    have ht : x.state t = .free := by simpa using List.find?_some hc
    have ht0 : t ≠ 0 := by
      rintro rfl
      rw [(h.running 0).mpr rfl] at ht
      cases ht
    unfold Threads.create
    rw [hc]
    refine ⟨h.current, h.esp, h.outside, fun u => ?_, fun u => ?_⟩
    · rcases eq_or_ne u t with rfl | hut
      · simp [ht0]
      · simpa [hut] using h.running u
    · rcases eq_or_ne u t with rfl | hut
      · simp
      · simpa [hut] using h.ended u

theorem not_sound_create (hx : x.exited = false) (hf : ¬ x.Alone .create) : ¬ x.create.Sound := by
  have hnone : x.firstFree = none := firstFree_eq_none.mpr fun t ht => hf ⟨t, ht⟩
  unfold Threads.create
  rw [hnone]
  rintro (hs | ⟨hs, -⟩)
  · rw [hx] at hs
    cases hs
  · cases hs

theorem exited_schedule (hf : ∀ t, t ≠ x.current → x.state t ≠ .runnable)
    (hc : x.state x.current ≠ .runnable) : x.schedule.exited = true := by
  unfold Threads.schedule
  rw [otherRunnable_eq_none.mpr hf]
  simp [hc]

theorem not_sound_schedule (hx : x.exited = false)
    (hf : ¬ ∀ t, t ≠ x.current → x.state t ≠ .runnable) : ¬ x.schedule.Sound := by
  cases hc : x.otherRunnable with
  | none => exact absurd (otherRunnable_eq_none.mp hc) hf
  | some n =>
    obtain ⟨-, hn⟩ := otherRunnable_some hc
    unfold Threads.schedule
    rw [hc]
    rintro (hs | ⟨-, hs, -⟩)
    · have hs : x.exited = true := hs
      rw [hx] at hs
      cases hs
    · -- the new thread is `RUNNING` and is not the current one
      have hrun := (hs n).mp (by simp [switch, hn])
      exact hn hrun

theorem sound_step_iff {e : Ev} (h : First x) (hx : x.exited = false) (hs : x.step e = some y) :
    (y.Sound ↔ x.Alone e) ∧ (x.Alone e → y.exited = true ∨ First y) := by
  have hcur : x.state x.current = .running := by
    rw [h.current]
    exact (h.running 0).mpr rfl
  simp only [Threads.step, hx, Bool.false_eq_true, if_false] at hs
  cases e with
  | init =>
    cases hs
    exact ⟨iff_of_true h.init.sound trivial, fun _ => .inr h.init⟩
  | create =>
    cases hs
    exact ⟨⟨fun hy => not_not.mp fun hf => not_sound_create hx hf hy,
      fun hf => (h.create hf).sound⟩, fun hf => .inr (h.create hf)⟩
  | schedule =>
    cases hs
    have hex : x.Alone .schedule → x.schedule.exited = true := fun hf =>
      exited_schedule hf (by rw [hcur]; decide)
    exact ⟨⟨fun hy => not_not.mp fun hf => not_sound_schedule hx hf hy, fun hf => .inl (hex hf)⟩,
      fun hf => .inl (hex hf)⟩
  | exit =>
    cases hs
    set z : Threads := { x with
      state := update x.state x.current .free
      ended := update x.ended x.current true } with hz
    have hsame : (∀ t, t ≠ z.current → z.state t ≠ .runnable) ↔ x.Alone .exit := by
      refine forall₂_congr fun t ht => ?_
      have ht : t ≠ x.current := ht
      simp [hz, ht]
    have hex : x.Alone .exit → z.schedule.exited = true := fun hf =>
      exited_schedule (hsame.mpr hf) (by simp [hz])
    exact ⟨⟨fun hy => hsame.mp (not_not.mp fun hf => not_sound_schedule (x := z) hx hf hy),
      fun hf => .inl (hex hf)⟩, fun hf => .inl (hex hf)⟩

/-- The thread table is sound as long as, and only as long as, threads are created while there is a
  `FREE` one and nobody schedules while there is another thread to run. -/
theorem threads_sound (h : Reach Threads.step Alone start x) :
    x.Sound ∧ ∀ e y, x.step e = some y → (y.Sound ↔ x.Alone e) := by
  have hstart : First start := by
    refine ⟨rfl, rfl, rfl, fun t => ?_, fun _ => rfl⟩
    rcases eq_or_ne t 0 with rfl | ht
    · simp [start, Threads.init]
    · simp [start, Threads.init, ht]
  have hinv : x.exited = true ∨ First x := by
    refine h.invariant (I := fun x => x.exited = true ∨ First x) (.inr hstart) ?_
    intro x e y hx hG hs
    cases hex : x.exited with
    | true => simp [Threads.step, hex] at hs
    | false =>
      have hfirst := hx.resolve_left (by rw [hex]; decide)
      exact (sound_step_iff hfirst hex hs).2 hG
  refine ⟨hinv.elim .inl First.sound, fun e y hs => ?_⟩
  cases hex : x.exited with
  | true => simp [Threads.step, hex] at hs
  | false => exact (sound_step_iff (hinv.resolve_left (by rw [hex]; decide)) hex hs).1

/-- A second thread is created. -/
theorem threads_sound_create : ∃ x, start.create.step .create = some x ∧ x.Sound := by
  have hreach : Reach Threads.step Alone start start.create :=
    Relation.ReflTransGen.single ⟨.create, by decide, rfl⟩
  have hstep : start.create.step .create = some start.create.create := rfl
  exact ⟨_, hstep, ((threads_sound hreach).2 .create _ hstep).mpr (by decide)⟩

/-- One thread is created and the first one yields to it: it runs, on its own stack, but
  `current_thread` is still the first. -/
theorem threads_unsound_switch : ∃ x, Reach Threads.step (fun _ _ => True) start x ∧
    x.exited = false ∧ x.current = 0 ∧ x.state 0 = .runnable ∧ x.state 1 = .running ∧ x.esp = 1 ∧
    ¬ x.Sound := by
  obtain ⟨x, hx, hobs⟩ := exists_reach (show (follow Threads.step (fun _ _ => True) start
    [.create, .schedule]).map (fun x => decide (x.exited = false ∧ x.current = 0 ∧
      x.state 0 = .runnable ∧ x.state 1 = .running ∧ x.esp = 1 ∧ ¬ x.Sound)) = some true by decide)
  exact ⟨x, hx, of_decide_eq_true hobs⟩

/-! ### The switch -/

abbrev Word := BitVec 32

/-- Memory by words, the registers that matter, and the two thread pointers. -/
structure Machine where
  mem : Word → Word
  eax : Word
  ebx : Word
  esi : Word
  edi : Word
  ebp : Word
  esp : Word
  eip : Word
  current : Word
  next : Word

def STACK_SIZE : Word := 8192

/-- `t->stack + STACK_SIZE`; `sp` is the first word of a thread, `state` the one after the stack. -/
def stackTop (t : Word) : Word := t + 4 + STACK_SIZE

def threadCreate (m : Machine) (t func : Word) : Machine :=
  { m with mem := update (update (update m.mem (stackTop t - 4) func)
      t (stackTop t - 4 - 32)) (stackTop t) 2 }

/-- `thread_switch`, entered with the return address on the stack; the last step is `ret`. -/
def threadSwitch (m : Machine) : Machine :=
  let mem := update m.mem m.current m.esp
  let esp := mem m.next
  { m with mem := mem, eax := m.current, ebx := m.next, eip := mem esp, esp := esp + 4 }

/-- The processor runs other threads: their code leaves the words in `S` alone, and switches save to
  other words and do not go to the thread at `c`. -/
inductive Elsewhere (c : Word) (S : Word → Prop) (m : Machine) : Machine → Prop
  | refl : Elsewhere c S m m
  | code {m' m''} (h : Elsewhere c S m m') (hk : ∀ a, S a → m''.mem a = m'.mem a) :
      Elsewhere c S m m''
  | switch {m'} (h : Elsewhere c S m m') (hc : ¬ S m'.current) (hn : m'.next ≠ c) :
      Elsewhere c S m (threadSwitch m')

variable {m m' : Machine}

theorem Elsewhere.kept {c : Word} {S : Word → Prop} (h : Elsewhere c S m m') :
    ∀ a, S a → m'.mem a = m.mem a := by
  induction h with
  | refl => exact fun _ _ => rfl
  | code _ hk ih => exact fun a ha => (hk a ha).trans (ih a ha)
  | @switch m' _ hc _ ih =>
    intro a ha
    have hne : a ≠ m'.current := fun heq => hc (heq ▸ ha)
    exact (update_of_ne hne ..).trans (ih a ha)

def Own (t a : Word) : Prop := a = t ∨ (a - (t + 4)).toNat < STACK_SIZE.toNat

/-- The words that hold the frame of a thread that is switched away from. -/
def Frame (m : Machine) (a : Word) : Prop := a = m.current ∨ a = m.esp

/-- The thread that called `thread_switch` in `m` goes on in `r` as after a call. -/
def Resumes (m r : Machine) : Prop :=
  r.eip = m.mem m.esp ∧ r.esp = m.esp + 4 ∧ r.ebx = m.ebx ∧ r.esi = m.esi ∧ r.edi = m.edi ∧
    r.ebp = m.ebp

theorem threadSwitch_created {t func : Word} (h : Elsewhere t (Own t) (threadCreate m t func) m')
    (hn : m'.next = t) (hc : ¬ Own t m'.current) :
    (threadSwitch m').eip = m.mem (stackTop t - 36) ∧ (threadSwitch m').esp = stackTop t - 32 := by
  have hkept := h.kept
  have hsp : (threadCreate m t func).mem t = stackTop t - 36 := by
    have hne : t ≠ stackTop t := by
      simp only [stackTop, STACK_SIZE]
      bv_omega
    simp only [threadCreate, update_of_ne hne, update_self]
    bv_omega
  have hword : (threadCreate m t func).mem (stackTop t - 36) = m.mem (stackTop t - 36) := by
    have h1 : stackTop t - 36 ≠ stackTop t := by bv_omega
    have h2 : stackTop t - 36 ≠ t := by
      simp only [stackTop, STACK_SIZE]
      bv_omega
    have h3 : stackTop t - 36 ≠ stackTop t - 4 := by bv_omega
    simp only [threadCreate, update_of_ne h1, update_of_ne h2,
      update_of_ne h3]
  have hown : Own t (stackTop t - 36) := by
    right
    simp only [stackTop, STACK_SIZE]
    bv_omega
  have ht : t ≠ m'.current := fun heq => hc (.inl heq.symm)
  have hw : stackTop t - 36 ≠ m'.current := fun heq => hc (heq ▸ hown)
  have hload : m'.mem t = stackTop t - 36 := (hkept t (.inl rfl)).trans hsp
  simp only [threadSwitch, hn, update_of_ne ht, hload, update_of_ne hw]
  exact ⟨(hkept _ hown).trans hword, by bv_omega⟩

theorem threadSwitch_back (hne : m.esp ≠ m.current)
    (h : Elsewhere m.current (Frame m) (threadSwitch m) m') (hn : m'.next = m.current)
    (hc : ¬ Frame m m'.current) :
    (threadSwitch m').eip = m.mem m.esp ∧ (threadSwitch m').esp = m.esp + 4 := by
  have hsaved : m'.mem m.current = m.esp := by
    rw [h.kept _ (.inl rfl)]
    exact update_self ..
  have hret : m'.mem m.esp = m.mem m.esp := by
    rw [h.kept _ (.inr rfl)]
    exact update_of_ne hne ..
  have h1 : m.current ≠ m'.current := fun heq => hc (.inl heq.symm)
  have h2 : m.esp ≠ m'.current := fun heq => hc (.inr heq.symm)
  simp only [threadSwitch, hn, update_of_ne h1, hsaved, update_of_ne h2, hret]
  exact ⟨trivial, trivial⟩

/-- `thread_create` and `thread_switch` do not agree on the frame. A new thread never starts at its
  function with the stack pointer at the top of its stack; and one switched away from and back to
  has its registers exactly if `%ebx` was its own address and the thread that switches back has its
  `%esi`, `%edi` and `%ebp`. -/
theorem switch_frames (m m' : Machine) (t func : Word) :
    (Elsewhere t (Own t) (threadCreate m t func) m' → m'.next = t → ¬ Own t m'.current →
      ¬ ((threadSwitch m').eip = func ∧ (threadSwitch m').esp = stackTop t)) ∧
    (m.esp ≠ m.current → Elsewhere m.current (Frame m) (threadSwitch m) m' →
      m'.next = m.current → ¬ Frame m m'.current →
      (Resumes m (threadSwitch m') ↔
        m.ebx = m.current ∧ m'.esi = m.esi ∧ m'.edi = m.edi ∧ m'.ebp = m.ebp)) := by
  refine ⟨fun h hn hc hfirst => ?_, fun hne h hn hc => ?_⟩
  · have hesp := (threadSwitch_created h hn hc).2
    rw [hfirst.2] at hesp
    revert hesp
    bv_omega
  · obtain ⟨heip, hesp⟩ := threadSwitch_back hne h hn hc
    have hebx : (threadSwitch m').ebx = m.current := hn
    rw [Resumes, hebx]
    exact ⟨fun ⟨_, _, hb, hrest⟩ => ⟨hb.symm, hrest⟩,
      fun ⟨hb, hrest⟩ => ⟨heip, hesp, hb.symm, hrest⟩⟩

def machine0 : Machine := ⟨fun _ => 7, 0, 4096, 1, 2, 3, 8000, 0, 4096, 16384⟩

/-- It is switched back to at once, from the other thread with the same registers. -/
theorem switch_frames_back : Resumes machine0 (threadSwitch { threadSwitch machine0 with
    current := 16384, next := 4096 }) := by
  refine ((switch_frames machine0 { threadSwitch machine0 with current := 16384, next := 4096 }
    4096 64).2 (by decide) (.code .refl fun _ _ => rfl) rfl ?_).mpr ⟨rfl, rfl, rfl, rfl⟩
  rintro (h | h)
  · exact absurd h (by decide)
  · exact absurd h (by decide)

/-- The thread at 16384 is created for the function at 64 and switched to: the processor goes on at
  whatever the stack held, 32 bytes below its top. And a thread whose `%ebx` is 5 has another value
  there when it is switched back to. -/
theorem switch_frames_lost :
    ((threadSwitch (threadCreate machine0 16384 64)).eip ≠ 64 ∧
      (threadSwitch (threadCreate machine0 16384 64)).esp ≠ stackTop 16384) ∧
    ¬ Resumes { machine0 with ebx := 5 } (threadSwitch
      { threadSwitch { machine0 with ebx := 5 } with current := 16384, next := 4096 }) := by
  refine ⟨⟨by decide, by decide⟩, ?_⟩
  rintro ⟨-, -, h, -⟩
  exact absurd h (by decide)

/-! ### From the processor to the table -/

/-- The table sees of a machine whose stack every stack pointer points into. -/
structure Views (addr : Fin MAX_THREAD → Word) (owner : Word → Fin MAX_THREAD) (m : Machine)
    (x : Threads) : Prop where
  sp : ∀ t, x.sp t = owner (m.mem (addr t))
  esp : x.esp = owner m.esp
  current : m.current = addr x.current

theorem Views.switch {addr : Fin MAX_THREAD → Word} {owner : Word → Fin MAX_THREAD}
    {n : Fin MAX_THREAD} (h : Views addr owner m x) (hinj : Injective addr)
    (hn : m.next = addr n)
    (hpop : owner (threadSwitch m).esp = owner (update m.mem m.current m.esp m.next)) :
    Views addr owner (threadSwitch m) (x.switch n) := by
  have hsp : ∀ t, update x.sp x.current x.esp t =
      owner (update m.mem (addr x.current) m.esp (addr t)) := by
    intro t
    rcases eq_or_ne t x.current with rfl | ht
    · rw [update_self, update_self, h.esp]
    · rw [update_of_ne ht, update_of_ne (fun heq => ht (hinj heq)), h.sp]
  refine ⟨fun t => ?_, ?_, h.current⟩
  · simp only [threadSwitch, h.current]
    exact hsp t
  · rw [hpop, h.current, hn]
    exact hsp n

end Xv6.Uthread1

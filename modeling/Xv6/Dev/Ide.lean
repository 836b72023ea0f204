import Xv6.Param
import Xv6.Schemes.Chain
import Xv6.Schemes.Machine

/-! @src ide.c | part:disk request queue | scheme:machine, chain

  Processes append their buffer to `idequeue` under `idelock`, whoever finds the queue empty starts
  the disk, and the interrupt takes the first buffer off and starts the next. Requests are numbered
  as they are appended; the queue is the log after the completed ones, and the log of started
  commands is one entry ahead while the disk works.

      appended   b0 b1 b2 | b3 b4 b5        queue = b3 b4 b5
      started    b0 b1 b2 | b3
                          completed = 3 -/

namespace Xv6.Ide
open List
open Schemes
open Function
open Option (some isSome_none)
open Prod (fst snd mk)

def FSSIZE : ℕ := 1000

def SECTOR_SIZE : ℕ := 512

/-- A buffer, as the disk driver sees it. -/
structure Buf (D : Type) where
  valid : Bool
  dirty : Bool
  dev : ℕ
  blockno : ℕ
  data : D

structure Cmd (D : Type) where
  drive : ℕ
  sector : ℕ
  write : Option D

inductive Ctrl (D : Type) where
  | idle
  | busy (c : Cmd D)
  | raised (c : Cmd D)

def Ctrl.cmd {D : Type} : Ctrl D → Option (Cmd D)
  | .idle => none
  | .busy c | .raised c => some c

inductive Pc (B : Type) where
  | out
  | called (b : B)
  | walking (b : B) (pp : Option B)
  | testing (b : B)
  | asleep (b : B)
  | woken (b : B)
  deriving DecidableEq

def Pc.buf {B : Type} : Pc B → Option B
  | .out => none
  | .called b | .walking b _ | .testing b | .asleep b | .woken b => some b

/-- `qnext none` is `idequeue`, `qnext (some b)` is `b->qnext`. The logs, and the number and the buffer
  of each process's request as it was handed to `iderw`, are for the statements only. -/
structure Disk (P B D : Type) where
  buf : B → Buf D
  locked : B → Bool
  qnext : Option B → Option B
  idelock : Option P
  ctrl : Ctrl D
  disk : ℕ → ℕ → D
  havedisk1 : Bool
  pc : P → Pc B
  panicked : Option String
  appended : List B
  started : List (B × Cmd D)
  completed : ℕ
  ticket : P → ℕ
  wants : P → Buf D

inductive Ev (P B D : Type) where
  | call (p : P) (b : B)
  | acquire (p : P)
  | walk (p : P)
  | test (p : P)
  | rouse (p : P)
  | complete
  | intr (ok : Bool)
  | prepare (b : B) (v : Buf D) (locked : Bool)

variable {P B D : Type} [DecidableEq P] [DecidableEq B]

namespace Disk

def panic (x : Disk P B D) (msg : String) : Disk P B D := { x with panicked := some msg }

def setPc (x : Disk P B D) (p : P) (a : Pc B) : Disk P B D :=
  { x with pc := update x.pc p a }

def cmd (b : Buf D) : Cmd D where
  drive := b.dev % 2
  sector := b.blockno * (BSIZE / SECTOR_SIZE)
  write := if b.dirty then some b.data else none

/-- Give the disk the command for a buffer. -/
def idestart (x : Disk P B D) : Option B → Disk P B D
  | none => x.panic "idestart"
  | some b =>
    if (x.buf b).blockno ≥ FSSIZE then x.panic "incorrect blockno"
    else { x with ctrl := .busy (cmd (x.buf b)), started := x.started ++ [(b, cmd (x.buf b))] }

def call (x : Disk P B D) (p : P) (b : B) : Disk P B D :=
  if x.locked b = false then x.panic "iderw: buf not locked"
  else if (x.buf b).valid ∧ ¬ (x.buf b).dirty then x.panic "iderw: nothing to do"
  else if (x.buf b).dev ≠ 0 ∧ ¬ x.havedisk1 then x.panic "iderw: ide disk 1 not present"
  else { x.setPc p (.called b) with wants := update x.wants p (x.buf b) }

/-- The end of the walk: the buffer is linked, and started if it is the only one. -/
def link (x : Disk P B D) (p : P) (b : B) (pp : Option B) : Disk P B D :=
  let y := { x.setPc p (.testing b) with
    qnext := update x.qnext pp (some b)
    appended := x.appended ++ [b]
    ticket := update x.ticket p x.appended.length }
  if y.qnext none = some b then y.idestart (some b) else y

/-- What the interrupt does to the buffer at the head: take it off, read if it was a read without
  error, mark it, and wake its process. -/
def finish (x : Disk P B D) (ok : Bool) (c : Cmd D) (b : B) : Disk P B D :=
  { x with
    qnext := update x.qnext none (x.qnext (some b))
    ctrl := .idle
    completed := x.completed + 1
    buf := update x.buf b { x.buf b with
      valid := true
      dirty := false
      data := if !(x.buf b).dirty && ok then x.disk c.drive c.sector else (x.buf b).data }
    pc := fun q => if x.pc q = .asleep b then .woken b else x.pc q }

/-- The disk has finished a command. -/
def ideintr (x : Disk P B D) (ok : Bool) (c : Cmd D) : Disk P B D :=
  match x.qnext none with
  | none => { x with ctrl := .idle }
  | some b =>
    let y := x.finish ok c b
    match y.qnext none with
    | none => y
    | some c => y.idestart (some c)

def transfer (x : Disk P B D) (c : Cmd D) : Disk P B D :=
  { x with
    ctrl := .raised c
    disk := fun d s => if d = c.drive ∧ s = c.sector then c.write.getD (x.disk d s) else x.disk d s }

def step (x : Disk P B D) (e : Ev P B D) : Option (Disk P B D) :=
  if x.panicked.isSome then none else
  match e with
  | .call p b => if x.pc p = .out then some (x.call p b) else none
  | .acquire p =>
    match x.pc p with
    | .called b =>
      if x.idelock.isNone then
        some { x.setPc p (.walking b none) with
          idelock := some p
          qnext := update x.qnext (some b) none }
      else none
    | .woken b =>
      if x.idelock.isNone then some { x.setPc p (.testing b) with idelock := some p } else none
    | _ => none
  | .walk p =>
    match x.pc p with
    | .walking b pp =>
      match x.qnext pp with
      | some c => some (x.setPc p (.walking b (some c)))
      | none => some (x.link p b pp)
    | _ => none
  | .test p =>
    match x.pc p with
    | .testing b =>
      if (x.buf b).valid ∧ ¬ (x.buf b).dirty then some { x.setPc p .out with idelock := none }
      else some { x.setPc p (.asleep b) with idelock := none }
    | _ => none
  | .rouse p =>
    -- a wakeup that is not the interrupt's: `kill`
    match x.pc p with
    | .asleep b => some (x.setPc p (.woken b))
    | _ => none
  | .complete =>
    match x.ctrl with
    | .busy c => some (x.transfer c)
    | _ => none
  | .intr ok =>
    match x.ctrl with
    | .raised c => if x.idelock.isNone then some (x.ideintr ok c) else none
    | _ => none
  | .prepare b v l => some { x with
      buf := update x.buf b v
      locked := update x.locked b l }

end Disk

/-- A buffer is passed to `iderw`, and changed outside it, only by the one process that has locked
  it. -/
def Distinct (x : Disk P B D) : Ev P B D → Prop
  | .call _ b | .prepare b _ _ => ∀ q, (x.pc q).buf ≠ some b
  | _ => True

instance [Fintype P] (x : Disk P B D) : (e : Ev P B D) → Decidable (Distinct x e)
  | .call _ b | .prepare b _ _ => inferInstanceAs (Decidable (∀ q, (x.pc q).buf ≠ some b))
  | .acquire _ | .walk _ | .test _ | .rouse _ | .complete | .intr _ =>
    isTrue trivial

/-! ### What a step can do -/

inductive Effect (x : Disk P B D) : Ev P B D → Disk P B D → Prop
  | panic {e msg} : Effect x e (x.panic msg)
  | call {p b} (hp : x.pc p = .out) (hf : ((x.buf b).valid && !(x.buf b).dirty) = false) :
      Effect x (.call p b)
        { x.setPc p (.called b) with wants := update x.wants p (x.buf b) }
  | enter {p b} (hp : x.pc p = .called b) (hl : x.idelock = none) :
      Effect x (.acquire p) { x.setPc p (.walking b none) with
        idelock := some p
        qnext := update x.qnext (some b) none }
  | relock {p b} (hp : x.pc p = .woken b) (hl : x.idelock = none) :
      Effect x (.acquire p) { x.setPc p (.testing b) with idelock := some p }
  | walk {p b pp c} (hp : x.pc p = .walking b pp) (hc : x.qnext pp = some c) :
      Effect x (.walk p) (x.setPc p (.walking b (some c)))
  | link {p b pp} (hp : x.pc p = .walking b pp) (hc : x.qnext pp = none) :
      Effect x (.walk p) (x.link p b pp)
  | done {p b} (hp : x.pc p = .testing b) (hv : (x.buf b).valid = true)
      (hd : (x.buf b).dirty = false) : Effect x (.test p) { x.setPc p .out with idelock := none }
  | sleep {p b} (hp : x.pc p = .testing b) :
      Effect x (.test p) { x.setPc p (.asleep b) with idelock := none }
  | rouse {p b} (hp : x.pc p = .asleep b) : Effect x (.rouse p) (x.setPc p (.woken b))
  | complete {c} (hc : x.ctrl = .busy c) : Effect x .complete (x.transfer c)
  | intr {c ok} (hc : x.ctrl = .raised c) (hl : x.idelock = none) :
      Effect x (.intr ok) (x.ideintr ok c)
  | prepare {b v l} : Effect x (.prepare b v l) { x with
      buf := update x.buf b v
      locked := update x.locked b l }

variable {x y : Disk P B D} {e : Ev P B D} {p q : P} {b c : B}

theorem effect_of_call (hp : x.pc p = .out) : Effect x (.call p b) (x.call p b) := by
  unfold Disk.call
  split_ifs with _ hf
  · exact .panic
  · exact .panic
  · exact .panic
  · exact .call hp (by simpa using hf)

theorem effect_of_step (h : x.step e = some y) : x.panicked = none ∧ Effect x e y := by
  unfold Disk.step at h
  by_cases hx : x.panicked.isSome = true
  · rw [if_pos hx] at h
    cases h
  rw [if_neg hx] at h
  refine ⟨by simpa using hx, ?_⟩
  cases e with
  | call p b =>
    simp only at h
    split_ifs at h with hp
    cases h
    exact effect_of_call hp
  | acquire p =>
    simp only [Option.isNone_iff_eq_none] at h
    split at h
    · split_ifs at h with hl
      cases h; exact .enter ‹_› hl
    · split_ifs at h with hl
      cases h; exact .relock ‹_› hl
    · cases h
  | walk p =>
    simp only at h
    split at h
    · split at h
      · cases h; exact .walk ‹_› ‹_›
      · cases h; exact .link ‹_› ‹_›
    · cases h
  | test p =>
    simp only at h
    split at h
    · split_ifs at h with hv
      · cases h; exact .done ‹_› hv.1 (by simpa using hv.2)
      · cases h; exact .sleep ‹_›
    · cases h
  | rouse p =>
    simp only at h
    split at h
    · cases h; exact .rouse ‹_›
    · cases h
  | complete =>
    simp only at h
    split at h
    · cases h; exact .complete ‹_›
    · cases h
  | intr ok =>
    simp only [Option.isNone_iff_eq_none] at h
    split at h
    · split_ifs at h with hl
      cases h; exact .intr ‹_› hl
    · cases h
  | prepare b v l =>
    cases h
    exact .prepare

/-! ### The invariant -/

def Disk.queue (x : Disk P B D) : List B := x.appended.drop x.completed

def Pc.Fresh (a : Pc B) (b : B) : Prop := a = .called b ∨ ∃ pp, a = .walking b pp

def Pc.Filed (a : Pc B) (b : B) : Prop := a = .testing b ∨ a = .asleep b ∨ a = .woken b

/-- The command `c` for the buffer `v`: the direction is that of `B_DIRTY`. -/
def Commands (v : Buf D) (c : Cmd D) : Prop :=
  c.drive = v.dev % 2 ∧ c.sector = v.blockno * (BSIZE / SECTOR_SIZE) ∧
    c.write.isSome = v.dirty ∧ ∀ d ∈ c.write, d = v.data

structure Base (x : Disk P B D) : Prop where
  chain : Chain x.qnext none x.queue
  nodup : x.queue.Nodup
  bound : x.completed ≤ x.appended.length
  started : x.started.map fst = x.appended.take x.started.length
  distinct : ∀ p q b, (x.pc p).buf = some b → (x.pc q).buf = some b → p = q
  lock : ∀ p b, x.pc p = .testing b ∨ (∃ pp, x.pc p = .walking b pp) → x.idelock = some p
  walking : ∀ p b pp, x.pc p = .walking b pp → x.qnext (some b) = none ∧
    ∃ pre post, x.queue = pre ++ post ∧ pp = last none pre
  fresh : ∀ p b, (x.pc p).Fresh b → b ∉ x.queue ∧
    ((x.buf b).valid && !(x.buf b).dirty) = false ∧ x.buf b = x.wants p
  filed : ∀ p b, (x.pc p).Filed b → x.appended[x.ticket p]? = some b ∧
    (x.ticket p < x.started.length → x.started[x.ticket p]? = some (b, Disk.cmd (x.wants p))) ∧
    (x.completed ≤ x.ticket p →
      ((x.buf b).valid && !(x.buf b).dirty) = false ∧ x.buf b = x.wants p)
  owner : ∀ b ∈ x.queue, ∃ p, (x.pc p).Filed b ∧ x.completed ≤ x.ticket p

/-- The disk works exactly while the queue is not empty, on the first request that is not
  completed. -/
structure Inv (x : Disk P B D) : Prop extends Base x where
  idle : x.ctrl.cmd = none → x.queue = [] ∧ x.started.length = x.completed
  busy : ∀ c, x.ctrl.cmd = some c → x.queue ≠ [] ∧ x.started.length = x.completed + 1 ∧
    x.started[x.completed]?.map snd = some c

variable {a : Pc B} {pp : Option B}

section
omit [DecidableEq B] [DecidableEq P]

theorem Pc.Filed.buf (h : a.Filed b) : a.buf = some b := by
  rcases h with rfl | rfl | rfl <;> rfl

theorem Pc.Fresh.buf (h : a.Fresh b) : a.buf = some b := by
  rcases h with rfl | ⟨_, rfl⟩ <;> rfl

/-- The number of a request that is not completed is its place in the log. -/
theorem Base.ticket_eq (h : Base x) (hf : (x.pc p).Filed b) (ht : x.completed ≤ x.ticket p) {k : ℕ}
    (hk : x.queue[k]? = some b) : x.ticket p = x.completed + k := by
  have hb := (h.filed p b hf).1
  have hidx : x.queue[x.ticket p - x.completed]? = x.queue[k]? := by
    rw [hk, Disk.queue, List.getElem?_drop, Nat.add_sub_cancel' ht, hb]
  have hlt : x.ticket p - x.completed < x.queue.length := by
    rw [hk] at hidx
    exact (List.getElem?_eq_some_iff.mp hidx).1
  have := (List.getElem?_inj hlt h.nodup).mp hidx
  omega

theorem Base.nodup_some (h : Base x) : (none :: x.queue.map some).Nodup :=
  nodup_cons.mpr ⟨by simp, h.nodup.map (Option.some_injective _)⟩

end

/-! ### Steps of one process -/

/-- Only the place of process `p`, the lock, and what `p` wants change. -/
structure Moves (x y : Disk P B D) (p : P) (a : Pc B) : Prop where
  buf : y.buf = x.buf
  qnext : y.qnext = x.qnext
  ctrl : y.ctrl = x.ctrl
  appended : y.appended = x.appended
  started : y.started = x.started
  completed : y.completed = x.completed
  ticket : y.ticket = x.ticket
  pc : y.pc = update x.pc p a
  wants : ∀ q, q ≠ p → y.wants q = x.wants q

structure Fits (x y : Disk P B D) (p : P) (a : Pc B) : Prop where
  others : ∀ b, a.buf = some b → ∀ q, q ≠ p → (x.pc q).buf ≠ some b
  held : ∀ b, a = .testing b ∨ (∃ pp, a = .walking b pp) → y.idelock = some p
  kept : ∀ q b, q ≠ p → x.pc q = .testing b ∨ (∃ pp, x.pc q = .walking b pp) → y.idelock = some q
  walking : ∀ b pp, a = .walking b pp → x.qnext (some b) = none ∧
    ∃ pre post, x.queue = pre ++ post ∧ pp = last none pre
  fresh : ∀ b, a.Fresh b → b ∉ x.queue ∧ ((x.buf b).valid && !(x.buf b).dirty) = false ∧
    x.buf b = y.wants p
  filed : ∀ b, a.Filed b → (x.pc p).Filed b ∧ y.wants p = x.wants p
  owner : ∀ b ∈ x.queue, (x.pc p).Filed b → x.completed ≤ x.ticket p → a.Filed b

section
omit [DecidableEq B]

theorem Inv.move (h : Inv x) (hm : Moves x y p a) (hf : Fits x y p a) : Inv y := by
  have hq : y.queue = x.queue := by rw [Disk.queue, hm.appended, hm.completed, Disk.queue]
  have hself : y.pc p = a := by rw [hm.pc, update_self]
  have hother : ∀ q, q ≠ p → y.pc q = x.pc q := fun q hq => by
    rw [hm.pc, update_of_ne hq]
  refine ⟨⟨?_, ?_, ?_, ?_, ?_, ?_, ?_, ?_, ?_, ?_⟩, ?_, ?_⟩
  · rw [hq, hm.qnext]; exact h.chain
  · rw [hq]; exact h.nodup
  · rw [hm.appended, hm.completed]; exact h.bound
  · rw [hm.appended, hm.started]; exact h.started
  · intro q r b hqb hrb
    rcases eq_or_ne q p with rfl | hqp
    · rcases eq_or_ne r q with rfl | hrq
      · rfl
      · rw [hself] at hqb
        rw [hother r hrq] at hrb
        exact absurd hrb (hf.others b hqb r hrq)
    · rw [hother q hqp] at hqb
      rcases eq_or_ne r p with rfl | hrp
      · rw [hself] at hrb
        exact absurd hqb (hf.others b hrb q hqp)
      · rw [hother r hrp] at hrb
        exact h.distinct q r b hqb hrb
  · intro q b hqb
    rcases eq_or_ne q p with rfl | hqp
    · rw [hself] at hqb
      exact hf.held b hqb
    · rw [hother q hqp] at hqb
      exact hf.kept q b hqp hqb
  · intro q b pp hqb
    rw [hq, hm.qnext]
    rcases eq_or_ne q p with rfl | hqp
    · rw [hself] at hqb
      exact hf.walking b pp hqb
    · rw [hother q hqp] at hqb
      exact h.walking q b pp hqb
  · intro q b hqb
    rw [hq, hm.buf]
    rcases eq_or_ne q p with rfl | hqp
    · rw [hself] at hqb
      exact hf.fresh b hqb
    · rw [hother q hqp] at hqb
      rw [hm.wants q hqp]
      exact h.fresh q b hqb
  · intro q b hqb
    rw [hm.appended, hm.started, hm.completed, hm.ticket, hm.buf]
    rcases eq_or_ne q p with rfl | hqp
    · rw [hself] at hqb
      obtain ⟨hold, hw⟩ := hf.filed b hqb
      rw [hw]
      exact h.filed q b hold
    · rw [hother q hqp] at hqb
      rw [hm.wants q hqp]
      exact h.filed q b hqb
  · intro b hb
    rw [hq] at hb
    obtain ⟨q, hqb, ht⟩ := h.owner b hb
    refine ⟨q, ?_, by rwa [hm.completed, hm.ticket]⟩
    rcases eq_or_ne q p with rfl | hqp
    · rw [hself]; exact hf.owner b hb hqb ht
    · rw [hother q hqp]; exact hqb
  · rw [hm.ctrl, hq, hm.started, hm.completed]; exact h.idle
  · rw [hm.ctrl, hq, hm.started, hm.completed]; exact h.busy

theorem Inv.call (h : Inv x) (hG : ∀ q, (x.pc q).buf ≠ some b)
    (hf : ((x.buf b).valid && !(x.buf b).dirty) = false) (hp : x.pc p = .out) :
    Inv { x.setPc p (.called b) with wants := update x.wants p (x.buf b) } := by
  refine h.move (p := p) (a := .called b) ⟨rfl, rfl, rfl, rfl, rfl, rfl, rfl, rfl, fun q hq => by
    simp [hq]⟩ ⟨?_, by simp, fun q c _ hq => h.lock q c hq, by simp, ?_, ?_, ?_⟩
  · rintro c ⟨⟩ q -
    exact hG q
  · rintro c (⟨⟨⟩⟩ | ⟨_, ⟨⟩⟩)
    refine ⟨fun hc => ?_, hf, by simp⟩
    obtain ⟨q, hq, -⟩ := h.owner b hc
    exact hG q hq.buf
  · rintro c (⟨⟨⟩⟩ | ⟨⟨⟩⟩ | ⟨⟨⟩⟩)
  · rintro c - hc
    rw [hp] at hc
    rcases hc with ⟨⟨⟩⟩ | ⟨⟨⟩⟩ | ⟨⟨⟩⟩

/-- Steps between the places where a process waits for its request. -/
theorem Inv.wait {l : Option P} (h : Inv x) (hp : (x.pc p).Filed b) (ha : a.Filed b)
    (hheld : a = .testing b → l = some p)
    (hkept : ∀ q c, q ≠ p → x.pc q = .testing c ∨ (∃ pp, x.pc q = .walking c pp) → l = some q) :
    Inv { x.setPc p a with idelock := l } := by
  have hbuf : ∀ c, a.buf = some c → c = b := fun c hc => by
    rw [ha.buf, some.injEq] at hc
    exact hc.symm
  refine h.move (p := p) (a := a) ⟨rfl, rfl, rfl, rfl, rfl, rfl, rfl, rfl, fun _ _ => rfl⟩
    ⟨?_, ?_, hkept, ?_, ?_, ?_, ?_⟩
  · intro c hc q hq hqc
    rw [hbuf c hc] at hqc
    exact hq (h.distinct q p b hqc hp.buf)
  · rintro c (rfl | ⟨pp, rfl⟩)
    · rw [hbuf c rfl] at hheld
      exact hheld rfl
    · rcases ha with ⟨⟨⟩⟩ | ⟨⟨⟩⟩ | ⟨⟨⟩⟩
  · rintro c pp rfl
    rcases ha with ⟨⟨⟩⟩ | ⟨⟨⟩⟩ | ⟨⟨⟩⟩
  · intro c hc
    rcases ha with rfl | rfl | rfl <;> rcases hc with ⟨⟨⟩⟩ | ⟨_, ⟨⟩⟩
  · intro c hc
    rw [hbuf c hc.buf]
    exact ⟨hp, rfl⟩
  · intro c _ hc _
    rw [← some.inj (hp.buf.symm.trans hc.buf)]
    exact ha

theorem Inv.walk (h : Inv x) (hp : x.pc p = .walking b pp) (hc : x.qnext pp = some c)
    : Inv (x.setPc p (.walking b (some c))) := by
  have hbuf : (x.pc p).buf = some b := by rw [hp]; rfl
  refine h.move (p := p) (a := .walking b (some c))
    ⟨rfl, rfl, rfl, rfl, rfl, rfl, rfl, rfl, fun _ _ => rfl⟩ ⟨?_, ?_, ?_, ?_, ?_, ?_, ?_⟩
  · rintro d ⟨⟩ q hq hqb
    exact hq (h.distinct q p b hqb hbuf)
  · intro d _
    exact h.lock p b (.inr ⟨pp, hp⟩)
  · intro q d _ hq
    exact h.lock q d hq
  · rintro d qq ⟨⟩
    obtain ⟨hn, pre, post, hpre, rfl⟩ := h.walking p b pp hp
    -- the walk has not reached the end
    have hpost := (hpre ▸ h.chain).drop
    refine ⟨hn, ?_⟩
    cases post with
    | nil =>
      have hnone : x.qnext (last none pre) = none := hpost
      rw [hc] at hnone
      cases hnone
    | cons d post =>
      have hd : d = c := some.inj (hpost.1.symm.trans hc)
      exact ⟨pre ++ [d], post, by rw [hpre, append_assoc, singleton_append],
        by rw [last_append_singleton, hd]⟩
  · rintro d (⟨⟨⟩⟩ | ⟨_, ⟨⟩⟩)
    exact h.fresh p b (.inr ⟨pp, hp⟩)
  · rintro d (⟨⟨⟩⟩ | ⟨⟨⟩⟩ | ⟨⟨⟩⟩)
  · rintro d - hd
    rw [hp] at hd
    rcases hd with ⟨⟨⟩⟩ | ⟨⟨⟩⟩ | ⟨⟨⟩⟩

end

omit [DecidableEq P] [DecidableEq B] in
/-- A return: the flags say that the request of this call is completed. -/
theorem Inv.completed_of_clean (h : Inv x) (hp : x.pc p = .testing b) (hv : (x.buf b).valid = true)
    (hd : (x.buf b).dirty = false) : x.ticket p < x.completed := by
  obtain ⟨_, _, hflags⟩ := h.filed p b (.inl hp)
  by_contra hlt
  simpa [hv, hd] using (hflags (not_lt.mp hlt)).1

omit [DecidableEq B] in
theorem Inv.done (h : Inv x) (hp : x.pc p = .testing b) (hv : (x.buf b).valid = true)
    (hd : (x.buf b).dirty = false) : Inv { x.setPc p .out with idelock := none } := by
  have hlock := h.lock p b (.inl hp)
  refine h.move (p := p) (a := .out) ⟨rfl, rfl, rfl, rfl, rfl, rfl, rfl, rfl, fun _ _ => rfl⟩
    ⟨by simp [Pc.buf], by simp, ?_, by simp, ?_, ?_, ?_⟩
  · intro q c hqp hq
    have := hlock.symm.trans (h.lock q c hq)
    exact absurd (some.inj this).symm hqp
  · rintro c (⟨⟨⟩⟩ | ⟨_, ⟨⟩⟩)
  · rintro c (⟨⟨⟩⟩ | ⟨⟨⟩⟩ | ⟨⟨⟩⟩)
  · intro c _ hc ht
    have := h.completed_of_clean hp hv hd
    omega

omit [DecidableEq P] in
/-- `b->qnext = 0` for a buffer that is not queued, while nobody walks. -/
theorem Inv.clear (h : Inv x) (hb : b ∉ x.queue) (hl : x.idelock = none) :
    Inv { x with qnext := update x.qnext (some b) none } := by
  refine ⟨⟨?_, h.nodup, h.bound, h.started, h.distinct, h.lock, ?_, h.fresh, h.filed, h.owner⟩,
    h.idle, h.busy⟩
  · refine Chain.congr h.chain fun z hz => update_of_ne ?_ _ _
    rintro rfl
    exact hb (mem_map_of_injective (Option.some_injective B) |>.mp
      ((mem_cons.mp hz).resolve_left (by simp)))
  · intro q c pp hq
    have := h.lock q c (.inr ⟨pp, hq⟩)
    rw [hl] at this
    cases this

theorem Inv.enter (h : Inv x) (hp : x.pc p = .called b) (hl : x.idelock = none) :
    Inv { x.setPc p (.walking b none) with
      idelock := some p
      qnext := update x.qnext (some b) none } := by
  have hbuf : (x.pc p).buf = some b := by rw [hp]; rfl
  obtain ⟨hnot, hflags, hwants⟩ := h.fresh p b (.inl hp)
  refine (h.clear hnot hl).move (p := p) (a := .walking b none)
    ⟨rfl, rfl, rfl, rfl, rfl, rfl, rfl, rfl, fun _ _ => rfl⟩
    ⟨?_, fun _ _ => rfl, ?_, ?_, ?_, ?_, ?_⟩
  · rintro c ⟨⟩ q hq hqb
    exact hq (h.distinct q p b hqb hbuf)
  · intro q c _ hq
    have := h.lock q c hq
    rw [hl] at this
    cases this
  · rintro c pp ⟨⟩
    exact ⟨update_self .., [], x.queue, rfl, rfl⟩
  · rintro c (⟨⟨⟩⟩ | ⟨_, ⟨⟩⟩)
    exact ⟨hnot, hflags, hwants⟩
  · rintro c (⟨⟨⟩⟩ | ⟨⟨⟩⟩ | ⟨⟨⟩⟩)
  · intro c _ hc
    have hc : (x.pc p).Filed c := hc
    rw [hp] at hc
    rcases hc with ⟨⟨⟩⟩ | ⟨⟨⟩⟩ | ⟨⟨⟩⟩

/-! ### Starting, linking and finishing requests -/

section
omit [DecidableEq B] [DecidableEq P]

theorem Base.started_le (h : Base x) : x.started.length ≤ x.appended.length := by
  have := congrArg List.length h.started
  rw [length_map, length_take] at this
  omega

theorem Disk.appended_completed {rest : List B} (hq : x.queue = b :: rest) :
    x.appended[x.completed]? = some b := by
  have := congrArg (·[0]?) hq
  simpa [Disk.queue] using this

/-- The first request that is not completed is started. -/
theorem Base.start {rest : List B} (h : Base x) (hq : x.queue = c :: rest)
    (hlen : x.started.length = x.completed) : Inv { x with
      ctrl := .busy (Disk.cmd (x.buf c))
      started := x.started ++ [(c, Disk.cmd (x.buf c))] } := by
  have hc := Disk.appended_completed hq
  refine ⟨⟨h.chain, h.nodup, h.bound, ?_, h.distinct, h.lock, h.walking, h.fresh, ?_, h.owner⟩,
    nofun, fun d hd => ⟨?_, by simp [hlen], ?_⟩⟩
  · simp only [map_append, map_cons, map_nil, length_append,
      length_singleton, take_add_one, h.started, hlen, hc, Option.toList_some]
  · intro q b hqb
    obtain ⟨happ, hst, hflags⟩ := h.filed q b hqb
    refine ⟨happ, fun ht => ?_, hflags⟩
    simp only [length_append, length_singleton] at ht
    rcases Nat.lt_succ_iff_lt_or_eq.mp ht with hlt | heq
    · rw [List.getElem?_append_left hlt]
      exact hst hlt
    · -- the buffer is still as its process has handed it over
      have heq : x.ticket q = x.completed := heq.trans hlen
      have hcb : c = b := by
        rw [heq, hc, some.injEq] at happ
        exact happ
      rw [heq, ← hlen, List.getElem?_concat_length, hcb, (hflags heq.ge).2]
  · show x.queue ≠ []
    simp [hq]
  · rw [← hd, ← hlen]
    simp [Ctrl.cmd]

theorem Base.idestart (h : Base x) {l : List B} (hq : x.queue = c :: l)
    (hlen : x.started.length = x.completed) (hp : (x.idestart (some c)).panicked = none) :
    Inv (x.idestart (some c)) := by
  simp only [Disk.idestart] at hp ⊢
  split_ifs at hp ⊢ with hb
  · cases hp
  · exact h.start hq hlen

/-- The walk along the queue ends at its last pointer. -/
theorem Base.walk_end (h : Base x) (hp : x.pc p = .walking b pp) (hc : x.qnext pp = none)
    : x.qnext (some b) = none ∧ pp = last none x.queue := by
  obtain ⟨hnone, pre, post, hpre, rfl⟩ := h.walking p b pp hp
  have hpost := (hpre ▸ h.chain).drop
  cases post with
  | nil =>
    rw [append_nil] at hpre
    exact ⟨hnone, by rw [hpre]⟩
  | cons d post =>
    have := hc.symm.trans hpost.1
    cases this

end

theorem Base.link (h : Base x) (hp : x.pc p = .walking b pp) (hc : x.qnext pp = none)
    : Base { x with
      pc := update x.pc p (.testing b)
      qnext := update x.qnext pp (some b)
      appended := x.appended ++ [b]
      ticket := update x.ticket p x.appended.length } := by
  have hlock := h.lock p b (.inr ⟨pp, hp⟩)
  have hbuf : (x.pc p).buf = some b := by rw [hp]; rfl
  obtain ⟨hnot, hflags, hwants⟩ := h.fresh p b (.inr ⟨pp, hp⟩)
  obtain ⟨hnone, rfl⟩ := h.walk_end hp hc
  have hqueue : (x.appended ++ [b]).drop x.completed = x.queue ++ [b] :=
    drop_append_of_le_length h.bound
  have hself : update x.pc p (.testing b) p = .testing b := update_self ..
  have hother : ∀ q, q ≠ p → update x.pc p (.testing b) q = x.pc q :=
    fun q hq => update_of_ne hq ..
  have hle := h.started_le
  refine ⟨?_, ?_, ?_, ?_, ?_, ?_, ?_, ?_, ?_, ?_⟩
  · have hch := h.chain.snoc h.nodup_some (x := b) (by simpa using hnot) hnone
    rw [← hqueue] at hch
    exact hch
  · have hnd : (x.queue ++ [b]).Nodup :=
      nodup_append.mpr ⟨h.nodup, nodup_singleton b, fun a ha d hd hx => by
        rw [mem_singleton] at hd
        exact hnot (hd ▸ hx ▸ ha)⟩
    simpa [Disk.queue, hqueue] using hnd
  · have := h.bound
    simp only [length_append, length_singleton]
    omega
  · show x.started.map fst = (x.appended ++ [b]).take x.started.length
    rw [take_append_of_le_length hle, h.started]
  · intro q r d hq hr
    have hsame : ∀ q, (update x.pc p (.testing b) q).buf = (x.pc q).buf := by
      intro q
      rcases eq_or_ne q p with rfl | hqp
      · rw [hself, hbuf]; rfl
      · rw [hother q hqp]
    exact h.distinct q r d ((hsame q).symm.trans hq) ((hsame r).symm.trans hr)
  · intro q d hq
    rcases eq_or_ne q p with rfl | hqp
    · exact hlock
    · exact h.lock q d (by rwa [← hother q hqp])
  · intro q d qq hq
    rcases eq_or_ne q p with rfl | hqp
    · cases hself.symm.trans hq
    · have := hlock.symm.trans (h.lock q d (.inr ⟨qq, (hother q hqp).symm.trans hq⟩))
      exact absurd (some.inj this).symm hqp
  · intro q d hq
    rcases eq_or_ne q p with rfl | hqp
    · rcases (show (Pc.testing b).Fresh d from hself ▸ hq) with ⟨⟨⟩⟩ | ⟨_, ⟨⟩⟩
    · have hold : (x.pc q).Fresh d := by rwa [← hother q hqp]
      obtain ⟨hd, hrest⟩ := h.fresh q d hold
      refine ⟨?_, hrest⟩
      have hdb : d ≠ b := by
        intro hdb
        exact hqp (h.distinct q p b (hdb ▸ hold.buf) hbuf)
      show d ∉ (x.appended ++ [b]).drop x.completed
      rw [hqueue]
      simp [hd, hdb]
  · intro q d hq
    rcases eq_or_ne q p with rfl | hqp
    · obtain rfl : b = d := by
        have := (show (Pc.testing b).Filed d from hself ▸ hq).buf
        exact some.inj this
      refine ⟨by simp, fun ht => ?_, fun _ => ⟨hflags, hwants⟩⟩
      simp only [update_self] at ht
      omega
    · have hq : (x.pc q).Filed d := by rwa [← hother q hqp]
      obtain ⟨happ, hrest⟩ := h.filed q d hq
      have hlt : x.ticket q < x.appended.length := (List.getElem?_eq_some_iff.mp happ).1
      simp only [update_of_ne hqp, List.getElem?_append_left hlt]
      exact ⟨happ, hrest⟩
  · intro d hd
    have hd : d ∈ x.queue ++ [b] := hqueue ▸ hd
    rcases mem_append.mp hd with hd | hd
    · obtain ⟨q, hq, ht⟩ := h.owner d hd
      have hqp : q ≠ p := by
        rintro rfl
        rw [hp] at hq
        rcases hq with ⟨⟨⟩⟩ | ⟨⟨⟩⟩ | ⟨⟨⟩⟩
      refine ⟨q, ?_, by simpa [hqp] using ht⟩
      show (update x.pc p (.testing b) q).Filed d
      rwa [hother q hqp]
    · rw [mem_singleton] at hd
      subst hd
      refine ⟨p, ?_, by simpa using h.bound⟩
      show (update x.pc p (.testing d) p).Filed d
      rw [hself]
      exact .inl rfl

omit [DecidableEq P] [DecidableEq B] in
theorem Base.head (h : Base x) {l : List B} (hq : x.queue = b :: l) :
    x.qnext none = some b := (hq ▸ h.chain).1

theorem Inv.link (h : Inv x) (hp : x.pc p = .walking b pp) (hc : x.qnext pp = none)
    (hpanic : (x.link p b pp).panicked = none) : Inv (x.link p b pp) := by
  have hbase := h.toBase.link hp hc
  have hnot := (h.fresh p b (.inr ⟨pp, hp⟩)).1
  have hqueue : (x.appended ++ [b]).drop x.completed = x.queue ++ [b] :=
    drop_append_of_le_length h.bound
  unfold Disk.link at hpanic ⊢
  cases hctrl : x.ctrl.cmd with
  | none =>
    -- the queue was empty, so the buffer is its head
    obtain ⟨hnil, hlen⟩ := h.idle hctrl
    have hq : (x.appended ++ [b]).drop x.completed = [b] := by rw [hqueue, hnil]; rfl
    have hhead := hbase.head (l := []) hq
    rw [if_pos hhead] at hpanic ⊢
    exact hbase.idestart (l := []) hq hlen hpanic
  | some cm =>
    obtain ⟨hne, hlen⟩ := h.busy cm hctrl
    obtain ⟨d, rest, hd⟩ := exists_cons_of_ne_nil hne
    have hq : (x.appended ++ [b]).drop x.completed = d :: (rest ++ [b]) := by rw [hqueue, hd]; rfl
    have hhead := hbase.head (l := rest ++ [b]) hq
    have hdb : some d ≠ some b := by
      rintro ⟨⟩
      exact hnot (by simp [hd])
    rw [if_neg (by rw [hhead]; exact hdb)]
    refine ⟨hbase, fun hi => (by cases hctrl.symm.trans hi), fun d hd => ⟨?_, ?_⟩⟩
    · exact fun hnil => cons_ne_nil _ _ (hq.symm.trans hnil)
    · exact some.inj (hctrl.symm.trans hd) ▸ hlen

section
omit [DecidableEq P]

/-- The wakeup moves nobody between the code before and after the request is linked. -/
theorem woken_buf (b : B) (a : Pc B) : (if a = .asleep b then Pc.woken b else a).buf = a.buf := by
  split_ifs with ha
  · rw [ha]; rfl
  · rfl

theorem woken_filed (b c : B) (a : Pc B) :
    (if a = .asleep b then Pc.woken b else a).Filed c ↔ a.Filed c := by
  split_ifs with ha
  · rw [ha]; simp [Pc.Filed]
  · rfl

theorem woken_fresh (b c : B) (a : Pc B) :
    (if a = .asleep b then Pc.woken b else a).Fresh c ↔ a.Fresh c := by
  split_ifs with ha
  · rw [ha]; simp [Pc.Fresh]
  · rfl

/-- The request at the head is completed. -/
theorem Base.finish {rest : List B} (ok : Bool) (d : Cmd D) (h : Base x) (hq : x.queue = b :: rest)
    (hl : x.idelock = none) : Base (x.finish ok d b) := by
  have hqueue : x.appended.drop (x.completed + 1) = rest := by
    rw [← drop_drop, ← Disk.queue, hq]; rfl
  have hb := Disk.appended_completed hq
  have hbrest : b ∉ rest := (nodup_cons.mp (hq ▸ h.nodup)).1
  have hnotest : ∀ q c, ¬ (x.pc q = .testing c ∨ ∃ pp, x.pc q = .walking c pp) := by
    intro q c hqc
    have := h.lock q c hqc
    rw [hl] at this
    cases this
  have hbuf : ∀ c, c ≠ b → (x.finish ok d b).buf c = x.buf c :=
    fun c hc => update_of_ne hc ..
  refine ⟨?_, ?_, ?_, h.started, ?_, ?_, ?_, ?_, ?_, ?_⟩
  · have hpop := (hq ▸ h.chain).pop (hq ▸ h.nodup_some)
    rwa [← hqueue] at hpop
  · show (x.appended.drop (x.completed + 1)).Nodup
    rw [hqueue]
    exact (nodup_cons.mp (hq ▸ h.nodup)).2
  · exact (List.getElem?_eq_some_iff.mp hb).1
  · intro p q c hp hc
    exact h.distinct p q c ((woken_buf b _).symm.trans hp) ((woken_buf b _).symm.trans hc)
  · intro q c hqc
    refine absurd ?_ (hnotest q c)
    simp only [Disk.finish] at hqc
    split_ifs at hqc with ha
    · rcases hqc with ⟨⟨⟩⟩ | ⟨_, ⟨⟩⟩
    · exact hqc
  · intro q c pp hqc
    refine absurd (.inr ⟨pp, ?_⟩) (hnotest q c)
    simp only [Disk.finish] at hqc
    split_ifs at hqc with ha
    exact hqc
  · intro q c hqc
    obtain ⟨hc, hflags⟩ := h.fresh q c ((woken_fresh b c _).mp hqc)
    rw [hq, mem_cons, not_or] at hc
    rw [hbuf c hc.1]
    exact ⟨by show c ∉ x.appended.drop (x.completed + 1); rw [hqueue]; exact hc.2, hflags⟩
  · intro q c hqc
    have hold := (woken_filed b c _).mp hqc
    obtain ⟨happ, hst, hflags⟩ := h.filed q c hold
    refine ⟨happ, hst, fun ht => ?_⟩
    have ht : x.completed + 1 ≤ x.ticket q := ht
    have hcb : c ≠ b := by
      rintro rfl
      have := h.ticket_eq hold (by omega) (k := 0) (by rw [hq]; rfl)
      omega
    rw [hbuf c hcb]
    exact hflags (by omega)
  · intro c hc
    have hc : c ∈ rest := hqueue ▸ hc
    obtain ⟨q, hqc, ht⟩ := h.owner c (by rw [hq]; exact mem_cons_of_mem _ hc)
    refine ⟨q, (woken_filed b c _).mpr hqc, ?_⟩
    have hne : x.ticket q ≠ x.completed := by
      intro heq
      have happ := (h.filed q c hqc).1
      rw [heq, hb, some.injEq] at happ
      exact hbrest (happ ▸ hc)
    show x.completed + 1 ≤ x.ticket q
    omega

theorem Inv.ideintr {ok : Bool} {d : Cmd D} (h : Inv x) (hd : x.ctrl = .raised d)
    (hl : x.idelock = none) (hpanic : (x.ideintr ok d).panicked = none) :
    Inv (x.ideintr ok d) := by
  obtain ⟨hne, hlen, -⟩ := h.busy d (by rw [hd]; rfl)
  obtain ⟨b, rest, hq⟩ := exists_cons_of_ne_nil hne
  have hbase := h.toBase.finish ok d hq hl
  have hqueue : (x.finish ok d b).queue = rest := by
    show x.appended.drop (x.completed + 1) = rest
    rw [← drop_drop, ← Disk.queue, hq]; rfl
  simp only [Disk.ideintr, h.toBase.head hq] at hpanic ⊢
  cases rest with
  | nil =>
    have hnone : (x.finish ok d b).qnext none = none := by
      have hch := hbase.chain
      rw [hqueue] at hch
      exact hch
    rw [hnone]
    exact ⟨hbase, fun _ => ⟨hqueue, hlen⟩, nofun⟩
  | cons c rest =>
    rw [hbase.head hqueue] at hpanic ⊢
    exact hbase.idestart hqueue hlen hpanic

end

omit [DecidableEq P] [DecidableEq B] in
theorem Inv.transfer {d : Cmd D} (h : Inv x) (hd : x.ctrl = .busy d) : Inv (x.transfer d) :=
  ⟨⟨h.chain, h.nodup, h.bound, h.started, h.distinct, h.lock, h.walking, h.fresh, h.filed, h.owner⟩,
    nofun, fun c hc => h.busy c (by rw [hd]; exact hc)⟩

omit [DecidableEq P] in
/-- The holder of a buffer changes it outside `iderw`. -/
theorem Inv.prepare {v : Buf D} {l : B → Bool} (h : Inv x) (hG : ∀ q, (x.pc q).buf ≠ some b) :
    Inv { x with buf := update x.buf b v, locked := l } := by
  have hbuf : ∀ q c, (x.pc q).buf = some c → update x.buf b v c = x.buf c := by
    intro q c hc
    refine update_of_ne ?_ ..
    rintro rfl
    exact hG q hc
  refine ⟨⟨h.chain, h.nodup, h.bound, h.started, h.distinct, h.lock, h.walking, fun q c hq => ?_,
    fun q c hq => ?_, h.owner⟩, h.idle, h.busy⟩
  · simp only [hbuf q c hq.buf]
    exact h.fresh q c hq
  · simp only [hbuf q c hq.buf]
    exact h.filed q c hq

/-! ### Whole runs -/

theorem Inv.effect (h : Inv x) (hG : Distinct x e) (he : Effect x e y) (hp : y.panicked = none) :
    Inv y := by
  have hfree : x.idelock = none → ∀ {l : Option P} {p : P} (q : P) (c : B), q ≠ p →
      x.pc q = .testing c ∨ (∃ pp, x.pc q = .walking c pp) → l = some q := by
    intro hl l p q c _ hq
    have := h.lock q c hq
    rw [hl] at this
    cases this
  cases he with
  | panic => cases hp
  | call hx hf => exact h.call hG hf hx
  | enter hx hl => exact h.enter hx hl
  | relock hx hl => exact h.wait (.inr (.inr hx)) (.inl rfl) (fun _ => rfl) (hfree hl)
  | walk hx hc => exact h.walk hx hc
  | link hx hc => exact h.link hx hc hp
  | done hx hv hd => exact h.done hx hv hd
  | @sleep p b hx =>
    refine h.wait (.inl hx) (.inr (.inl rfl)) (by simp) fun q c hqp hq => ?_
    have := (h.lock p b (.inl hx)).symm.trans (h.lock q c hq)
    exact absurd (some.inj this).symm hqp
  | rouse hx =>
    exact h.wait (l := x.idelock) (.inr (.inl hx)) (.inr (.inr rfl)) (by simp)
      fun q c _ hq => h.lock q c hq
  | complete hc => exact h.transfer hc
  | intr hc hl => exact h.ideintr hc hl hp
  | prepare => exact h.prepare hG

structure Quiet (x : Disk P B D) : Prop where
  pc : ∀ p, x.pc p = .out
  queue : x.qnext none = none
  ctrl : x.ctrl = .idle
  logs : x.appended = [] ∧ x.started = [] ∧ x.completed = 0

omit [DecidableEq P] [DecidableEq B] in
theorem Quiet.inv (h : Quiet x) : Inv x := by
  obtain ⟨happ, hst, hcomp⟩ := h.logs
  have hq : x.queue = [] := by rw [Disk.queue, happ, drop_nil]
  refine ⟨⟨?_, ?_, ?_, ?_, ?_, ?_, ?_, ?_, ?_, ?_⟩, ?_, ?_⟩
  · rw [hq]; exact h.queue
  · rw [hq]; exact nodup_nil
  · rw [hcomp]; exact Nat.zero_le _
  · simp [hst]
  · intro p q b hp
    rw [h.pc p] at hp
    cases hp
  · intro p b hp
    simp [h.pc p] at hp
  · intro p b pp hp
    simp [h.pc p] at hp
  · intro p b hp
    simp [h.pc p, Pc.Fresh] at hp
  · intro p b hp
    simp [h.pc p, Pc.Filed] at hp
  · intro b hb
    rw [hq] at hb
    cases hb
  · exact fun _ => ⟨hq, by rw [hst, hcomp]; rfl⟩
  · intro c hc
    rw [h.ctrl] at hc
    cases hc

theorem inv_of_reach {x0 : Disk P B D} (h0 : Quiet x0) (h : Reach Disk.step Distinct x0 x)
    (hp : x.panicked = none) : Inv x := by
  refine h.invariant (I := fun x => x.panicked = none → Inv x) (fun _ => h0.inv) ?_ hp
  intro x e y hx hG hs hy
  obtain ⟨hnone, he⟩ := effect_of_step hs
  exact (hx hnone).effect hG he hy

omit [DecidableEq P] [DecidableEq B] in
theorem commands_cmd (v : Buf D) : Commands v (Disk.cmd v) := by
  refine ⟨rfl, rfl, ?_⟩
  unfold Disk.cmd
  split_ifs with hd <;> simp [hd]

omit [DecidableEq P] [DecidableEq B] in
/-- The disk works on the buffer at the head, which is as it was when its command was started. -/
theorem Inv.serves (h : Inv x) {c : Cmd D} (hc : x.ctrl.cmd = some c) : ∃ b l, x.queue = b :: l ∧
    x.started[x.completed]? = some (b, c) ∧ c = Disk.cmd (x.buf b) := by
  obtain ⟨hne, hlen, hlast⟩ := h.busy c hc
  obtain ⟨b, l, hq⟩ := exists_cons_of_ne_nil hne
  obtain ⟨p, hp, ht⟩ := h.owner b (by simp [hq])
  have hticket := h.ticket_eq hp ht (k := 0) (by rw [hq]; rfl)
  rw [add_zero] at hticket
  obtain ⟨-, hst, hflags⟩ := h.filed p b hp
  have hentry := hst (by omega)
  rw [hticket] at hentry
  have hcmd : Disk.cmd (x.wants p) = c := by
    rw [hentry] at hlast
    exact some.inj hlast
  exact ⟨b, l, hq, hcmd ▸ hentry, by rw [(hflags ht).2, hcmd]⟩

omit [DecidableEq P] in
theorem buf_ideintr {ok : Bool} {c : Cmd D} (hq : x.qnext none = some b) :
    (x.ideintr ok c).buf = (x.finish ok c b).buf := by
  simp only [Disk.ideintr, hq]
  split
  · rfl
  · unfold Disk.idestart
    dsimp only
    split_ifs <;> rfl

/-- The disk request queue is FIFO and complete. The pointers from `idequeue` hold, each once, the
  requests not completed; commands are started in the order of appending, and all but the head of
  the queue are completed. The command at work is that of the buffer at the head, in the direction of
  its `B_DIRTY`: its transfer stores the buffer's data in its sector, or the interrupt gives it the
  data of that sector. When `iderw(b)` returns, its request was started as it was handed over, and
  completed. -/
theorem idequeue_fifo {x0 : Disk P B D} (h0 : Quiet x0) (h : Reach Disk.step Distinct x0 x)
    (hp : x.panicked = none) :
    (Chain x.qnext none x.queue ∧ x.queue.Nodup) ∧
    (x.started.map fst <+: x.appended ∧
      (x.started.map fst).drop x.completed = x.queue.take 1) ∧
    (∀ c, x.ctrl.cmd = some c → ∃ b l, x.queue = b :: l ∧ x.started[x.completed]? = some (b, c) ∧
      Commands (x.buf b) c ∧
      (∀ y, x.step .complete = some y → ∀ d s, y.disk d s =
        if (x.buf b).dirty ∧ d = c.drive ∧ s = c.sector then (x.buf b).data else x.disk d s) ∧
      ∀ ok y, x.step (.intr ok) = some y → (y.buf b).data =
        if ¬ (x.buf b).dirty ∧ ok then x.disk c.drive c.sector else (x.buf b).data) ∧
    ∀ p b y, x.pc p = .testing b → x.step (.test p) = some y → y.pc p = .out →
      (y.buf b).valid = true ∧ (y.buf b).dirty = false ∧ x.ticket p < x.completed ∧
      x.appended[x.ticket p]? = some b ∧
      ∃ c, x.started[x.ticket p]? = some (b, c) ∧ Commands (x.wants p) c := by
  have hinv := inv_of_reach h0 h hp
  have hlen : x.completed ≤ x.started.length ∧ x.started.length ≤ x.completed + 1 ∧
      (x.started.length = x.completed → x.queue = []) := by
    cases hc : x.ctrl.cmd with
    | none =>
      obtain ⟨hq, hl⟩ := hinv.idle hc
      exact ⟨by omega, by omega, fun _ => hq⟩
    | some c =>
      obtain ⟨_, hl, _⟩ := hinv.busy c hc
      exact ⟨by omega, by omega, fun hx => by omega⟩
  refine ⟨⟨hinv.chain, hinv.nodup⟩, ⟨?_, ?_⟩, fun c hc => ?_, ?_⟩
  · rw [hinv.started]
    exact take_prefix ..
  · rw [hinv.started, drop_take, ← Disk.queue]
    rcases lt_or_ge x.completed x.started.length with hlt | hge
    · rw [show x.started.length - x.completed = 1 by omega]
    · rw [hlen.2.2 (by omega), take_nil, take_nil]
  · obtain ⟨b, l, hq, hst, hcmd⟩ := hinv.serves hc
    refine ⟨b, l, hq, hst, hcmd ▸ commands_cmd _, fun y hs d s => ?_, fun ok y hs => ?_⟩
    · simp only [Disk.step, hp, isSome_none, Bool.false_eq_true, if_false] at hs
      cases hx : x.ctrl with
      | busy d' =>
        simp only [hx, Ctrl.cmd, some.injEq] at hs hc
        subst hs hc
        rw [hcmd]
        by_cases hd : (x.buf b).dirty <;> simp [Disk.transfer, Disk.cmd, hd]
      | idle | raised => simp [hx] at hs
    · simp only [Disk.step, hp, isSome_none, Bool.false_eq_true, if_false] at hs
      cases hx : x.ctrl with
      | raised d' =>
        simp only [hx, Ctrl.cmd, some.injEq] at hs hc
        split_ifs at hs
        cases hs
        rw [← hc, buf_ideintr (hinv.toBase.head hq)]
        simp [Disk.finish]
      | idle | busy => simp [hx] at hs
  · intro p b y hx hs hout
    obtain ⟨-, he⟩ := effect_of_step hs
    cases he with
    | panic => rw [show (x.panic _).pc p = x.pc p from rfl, hx] at hout; cases hout
    | sleep => simp [Disk.setPc] at hout
    | done hx' hv hd =>
      rw [hx] at hx'
      cases hx'
      have ht := hinv.completed_of_clean hx hv hd
      obtain ⟨happ, hst, _⟩ := hinv.filed p b (.inl hx)
      exact ⟨hv, hd, ht, happ, _, hst (by omega), commands_cmd _⟩

def quiet0 : Disk Bool Bool Unit where
  buf := fun b => ⟨false, false, 0, b.toNat, ()⟩
  locked := fun _ => true
  qnext := fun _ => none
  idelock := none
  ctrl := .idle
  disk := fun _ _ => ()
  havedisk1 := false
  pc := fun _ => .out
  panicked := none
  appended := []
  started := []
  completed := 0
  ticket := fun _ => 0
  wants := fun _ => ⟨false, false, 0, 0, ()⟩

/-- The second process queues behind the first, whose request the interrupt completes. -/
theorem idequeue_fifo_two : ∃ x : Disk Bool Bool Unit, Reach Disk.step Distinct quiet0 x ∧
    x.appended = [false, true] ∧ x.completed = 1 ∧ x.queue.Nodup ∧
    (x.started.map fst).drop x.completed = x.queue.take 1 := by
  obtain ⟨x, hx, hobs⟩ := exists_reach (show (follow Disk.step Distinct quiet0
    [.call false false, .acquire false, .walk false, .test false, .call true true, .acquire true,
      .walk true, .walk true, .test true, .complete, .intr true]).map
      (fun x => (x.panicked, x.appended, x.completed)) = some (none, [false, true], 1) by
    decide +kernel)
  simp only [mk.injEq] at hobs
  obtain ⟨hp, happ, hc⟩ := hobs
  have h := idequeue_fifo ⟨fun _ => rfl, rfl, rfl, rfl, rfl, rfl⟩ hx hp
  exact ⟨x, hx, happ, hc, h.1.2, h.2.1.2⟩

end Xv6.Ide

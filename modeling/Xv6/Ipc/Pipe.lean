import Xv6.Ipc.Ring
import Xv6.Proc.Kill

/-! @src pipe.c, file.c, proc.c | part:readers and writers of a pipe | scheme:machine

  One pipe and the processes that read it, write it and close it. What a call does between two
  sleeps is one step, since it holds `p->lock`; in between, others run, wake it up or kill it. Both
  ends are open as long as somebody has a file descriptor for them, and a process in a call has.

      user --write bs, read n--> called --run--> asleep --wakeup, kill--> RUNNABLE --run--> …
                                   | run
                                   v
                                  user

  The ghosts `written` and `got` are the bytes stored by all writes and returned by all reads. -/

namespace Xv6.Pipe
open Schemes Xv6.Ptable
open Function

/-! ### Runs between two sleeps -/

section Runs

variable {killed : Bool} {p : Pipe} {w r : List Byte}

theorem writeLoop_open (killed : Bool) : ∀ (bs : List Byte) (p : Pipe),
    (writeLoop killed p bs).2.2.readopen = p.readopen ∧
      (writeLoop killed p bs).2.2.writeopen = p.writeopen
  | [], _ => ⟨rfl, rfl⟩
  | b :: bs, p => by
    rw [writeLoop]
    split_ifs
    · exact ⟨rfl, rfl⟩
    · exact ⟨rfl, rfl⟩
    · exact writeLoop_open killed bs (p.put b)

theorem Lossless.writeLoop : ∀ (bs : List Byte) {p : Pipe} {w : List Byte}, Lossless p w r →
    Lossless (writeLoop killed p bs).2.2 (w ++ (writeLoop killed p bs).2.1) r
  | [], p, w, h => by simpa [Pipe.writeLoop] using h
  | b :: bs, p, w, h => by
    rw [Pipe.writeLoop]
    split_ifs with hf hq
    · simpa using h
    · simpa using h
    · have := Lossless.writeLoop bs (h.put (by simpa using hf) b)
      simpa using this

theorem writeLoop_end (killed : Bool) : ∀ (bs : List Byte) (p : Pipe),
    match (writeLoop killed p bs).1 with
    | .done => (writeLoop killed p bs).2.1 = bs
    | .fail => (writeLoop killed p bs).2.2.full = true ∧
        (writeLoop killed p bs).2.1.length < bs.length ∧ (p.readopen = false ∨ killed = true)
    | .sleep rest => (writeLoop killed p bs).2.2.full = true ∧ p.readopen = true ∧ killed = false ∧
        bs = (writeLoop killed p bs).2.1 ++ rest
  | [], _ => rfl
  | b :: bs, p => by
    rw [writeLoop]
    split_ifs with hf hq
    · refine ⟨hf, by simp, ?_⟩
      simpa using hq
    · have hq : p.readopen = true ∧ killed = false := by simpa using hq
      exact ⟨hf, hq.1, hq.2, rfl⟩
    · have ih := writeLoop_end killed bs (p.put b)
      dsimp only
      cases hr : (writeLoop killed (p.put b) bs).1 with
      | done =>
        rw [hr] at ih
        exact congrArg (b :: ·) ih
      | fail =>
        rw [hr] at ih
        exact ⟨ih.1, by simpa using ih.2.1, ih.2.2⟩
      | sleep rest =>
        rw [hr] at ih
        exact ⟨ih.1, ih.2.1, ih.2.2.1, congrArg (b :: ·) ih.2.2.2⟩

theorem writeLoop_full {bs : List Byte} (h : p.full = true) :
    (writeLoop killed p bs).2.1 = [] ∧ (writeLoop killed p bs).2.2 = p := by
  cases bs with
  | nil => exact ⟨rfl, rfl⟩
  | cons b bs =>
    rw [writeLoop, if_pos h]
    split_ifs <;> exact ⟨rfl, rfl⟩

theorem readLoop_open : ∀ (n : ℕ) (p : Pipe), (readLoop n p).2.readopen = p.readopen ∧
    (readLoop n p).2.writeopen = p.writeopen
  | 0, _ => ⟨rfl, rfl⟩
  | n + 1, p => by
    rw [readLoop]
    split_ifs
    · exact ⟨rfl, rfl⟩
    · exact readLoop_open n p.advance

theorem Lossless.readLoop : ∀ (n : ℕ) {p : Pipe} {r : List Byte}, Lossless p w r →
    Lossless (readLoop n p).2 w (r ++ (readLoop n p).1)
  | 0, p, r, h => by simpa [Pipe.readLoop] using h
  | n + 1, p, r, h => by
    rw [Pipe.readLoop]
    split_ifs with he
    · simpa using h
    · have := Lossless.readLoop n (h.advance (by simpa using he))
      simpa using this

theorem readRun_cases (killed : Bool) (n : ℕ) (p : Pipe) :
    readRun killed n p = (.fail, p) ∨
    (p.empty = true ∧ p.writeopen = true) ∧ readRun killed n p = (.sleep, p) ∨
    ¬ (p.empty = true ∧ p.writeopen = true) ∧
      readRun killed n p = (.ret (readLoop n p).1, (readLoop n p).2) := by
  unfold readRun
  split_ifs with hc hk
  · exact .inl rfl
  · exact .inr (.inl ⟨by simpa using hc, rfl⟩)
  · exact .inr (.inr ⟨by simpa using hc, rfl⟩)

end Runs

/-! ### The machine -/

/-- Where a process is: out of the pipe, or in a call with bytes left to write or wanted. -/
inductive Pc where
  | user
  | write (bs : List Byte)
  | read (n : ℕ)
  deriving DecidableEq

structure St where
  pipe : Pipe
  proc : Table
  pc : Slot → Pc
  rfd : Slot → ℕ
  wfd : Slot → ℕ
  written : List Byte
  got : List Byte

def nreadChan : Chan := .addr 0
def nwriteChan : Chan := .addr 1

inductive Ev where
  | write (p : Slot) (bs : List Byte)
  | read (p : Slot) (n : ℕ)
  | run (p : Slot)
  | dispatch (p : Slot)
  | yield (p : Slot)
  | kill (p : Slot) (pid : ℤ)
  | close (p : Slot) (writable : Bool)
  | share (p q : Slot) (writable : Bool)

namespace St

def Out (s : St) (p : Slot) : Prop :=
  (s.proc p).state = .running ∧ match s.pc p with | .user => True | _ => False

instance (s : St) (p : Slot) : Decidable (s.Out p) :=
  match h : s.pc p with
  | .user => decidable_of_iff ((s.proc p).state = .running) (by simp [Out, h])
  | .write _ | .read _ => isFalse (by simp [Out, h])

def setPc (s : St) (p : Slot) (a : Pc) : St := { s with pc := update s.pc p a }

def doze (t : Table) (p : Slot) (chan : Chan) : Table :=
  update t p { t p with chan := some chan, state := .sleeping }

def run (s : St) (p : Slot) : Option St :=
  match s.pc p with
  | .user => none
  | .write bs =>
    let r := writeLoop (s.proc p).killed s.pipe bs
    let u := { s with pipe := r.2.2, written := s.written ++ r.2.1 }
    match r.1 with
    | .done => some { u.setPc p .user with proc := wakeup1 (some nreadChan) s.proc }
    | .fail => some (u.setPc p .user)
    | .sleep rest => some { u.setPc p (.write rest) with
        proc := doze (wakeup1 (some nreadChan) s.proc) p nwriteChan }
  | .read n =>
    let r := readRun (s.proc p).killed n s.pipe
    match r.1 with
    | .fail => some (s.setPc p .user)
    | .sleep => some { s with proc := doze s.proc p nreadChan }
    | .ret bs => some { s.setPc p .user with
        pipe := r.2, got := s.got ++ bs, proc := wakeup1 (some nwriteChan) s.proc }

def fds (s : St) (p : Slot) (writable : Bool) : ℕ := if writable then s.wfd p else s.rfd p

/-- Close a descriptor; the last one of its kind closes that end of the pipe. -/
def close (s : St) (p : Slot) (writable : Bool) : St :=
  if writable then
    let wfd := update s.wfd p (s.wfd p - 1)
    if ∀ q, wfd q = 0 then { s with
      wfd := wfd
      pipe := { s.pipe with writeopen := false }
      proc := wakeup1 (some nreadChan) s.proc }
    else { s with wfd := wfd }
  else
    let rfd := update s.rfd p (s.rfd p - 1)
    if ∀ q, rfd q = 0 then { s with
      rfd := rfd
      pipe := { s.pipe with readopen := false }
      proc := wakeup1 (some nwriteChan) s.proc }
    else { s with rfd := rfd }

def step (s : St) : Ev → Option St
  | .write p bs =>
    -- `trap` lets no killed process into a system call
    if s.Out p ∧ 0 < s.wfd p ∧ (s.proc p).killed = false then some (s.setPc p (.write bs)) else none
  | .read p n =>
    if s.Out p ∧ 0 < s.rfd p ∧ (s.proc p).killed = false then some (s.setPc p (.read n)) else none
  | .run p => if (s.proc p).state = .running then s.run p else none
  | .dispatch p =>
    if (s.proc p).state = .runnable then
      some { s with proc := update s.proc p { s.proc p with state := .running } }
    else none
  | .yield p =>
    if (s.proc p).state = .running then
      some { s with proc := update s.proc p { s.proc p with state := .runnable } }
    else none
  | .kill p pid => if s.Out p then some { s with proc := (kill pid s.proc).2 } else none
  | .close p writable =>
    if s.Out p ∧ 0 < s.fds p writable then some (s.close p writable) else none
  | .share p q writable =>
    -- `dup`, or `fork` into slot `q`
    if s.Out p ∧ 0 < s.fds p writable then
      if writable then some { s with wfd := update s.wfd q (s.wfd q + 1) }
      else some { s with rfd := update s.rfd q (s.rfd q + 1) }
    else none

/-! ### The invariant -/

def SleepsReading (s : St) (p : Slot) : Prop :=
  (∃ n, s.pc p = .read n) ∧ (s.proc p).state = .sleeping

def SleepsWriting (s : St) (p : Slot) : Prop :=
  (∃ bs, s.pc p = .write bs) ∧ (s.proc p).state = .sleeping

structure Inv (s : St) : Prop where
  lossless : Lossless s.pipe s.written s.got
  reader : ∀ p n, s.pc p = .read n → 0 < s.rfd p
  writer : ∀ p bs, s.pc p = .write bs → 0 < s.wfd p
  ropen : s.pipe.readopen = true ↔ ∃ p, 0 < s.rfd p
  wopen : s.pipe.writeopen = true ↔ ∃ p, 0 < s.wfd p
  rsleep : ∀ p, s.SleepsReading p →
    (s.proc p).chan = some nreadChan ∧ s.pipe.empty = true ∧ s.pipe.writeopen = true
  wsleep : ∀ p, s.SleepsWriting p →
    (s.proc p).chan = some nwriteChan ∧ s.pipe.full = true ∧ s.pipe.readopen = true

/-- No killed process runs on in `pipewrite` with more bytes left than the ring can hold while
  somebody sleeps in `piperead`. -/
def Heeds (s : St) : Ev → Prop
  | .run p => ∀ bs, s.pc p = .write bs → (s.proc p).killed = true → PIPESIZE < bs.length →
      ∀ q, ¬ s.SleepsReading q
  | _ => True

variable {s u : St} {p : Slot}

def Rouses (t t' : Table) : Prop :=
  ∀ i, (t' i).state = .sleeping → (t i).state = .sleeping ∧ (t' i).chan = (t i).chan

theorem rouses_wakeup1 (chan : Option Chan) (t : Table) : Rouses t (wakeup1 chan t) := by
  intro i hi
  simp only [wakeup1] at hi ⊢
  split_ifs at hi ⊢
  exact ⟨hi, rfl⟩

theorem rouses_kill (pid : ℤ) (t : Table) : Rouses t (kill pid t).2 := by
  intro i hi
  rcases kill_apply pid t i with hk | ⟨_, hk⟩
  · rw [hk] at hi ⊢
    exact ⟨hi, rfl⟩
  · rw [hk] at hi
    exact absurd hi (kill1_awake (t i))

variable {t : Table}

theorem rouses_update {q : Proc} (hq : q.state ≠ .sleeping) : Rouses t (update t p q) := by
  intro i hi
  rcases eq_or_ne i p with rfl | hip
  · rw [update_self] at hi
    exact absurd hi hq
  · rw [update_of_ne hip] at hi ⊢
    exact ⟨hi, rfl⟩

theorem awake_wakeup1 {chan : Chan} {i : Slot} (h : (wakeup1 (some chan) t i).state = .sleeping)
    : (wakeup1 (some chan) t i).chan ≠ some chan := by
  simp only [wakeup1] at h ⊢
  split_ifs at h ⊢ with hw
  exact fun hc => hw ⟨h, hc⟩

theorem Inv.rouses (h : Inv s) (ht : Rouses s.proc t) : Inv { s with proc := t } := by
  refine ⟨h.lossless, h.reader, h.writer, h.ropen, h.wopen, fun p hp => ?_, fun p hp => ?_⟩
  · obtain ⟨hs, hc⟩ := ht p hp.2
    rw [hc]
    exact h.rsleep p ⟨hp.1, hs⟩
  · obtain ⟨hs, hc⟩ := ht p hp.2
    rw [hc]
    exact h.wsleep p ⟨hp.1, hs⟩

theorem Inv.setPc (h : Inv s) (hp : (s.proc p).state ≠ .sleeping) {a : Pc}
    (hr : ∀ n, a = .read n → 0 < s.rfd p) (hw : ∀ bs, a = .write bs → 0 < s.wfd p) :
    Inv (s.setPc p a) := by
  have hpc : ∀ q, q ≠ p → (s.setPc p a).pc q = s.pc q := fun q hq => by simp [St.setPc, hq]
  have hself : (s.setPc p a).pc p = a := by simp [St.setPc]
  refine ⟨h.lossless, fun q n hq => ?_, fun q bs hq => ?_, h.ropen, h.wopen, ?_, ?_⟩
  · rcases eq_or_ne q p with rfl | hqp
    · exact hr n (hself.symm.trans hq)
    · exact h.reader q n (hpc q hqp ▸ hq)
  · rcases eq_or_ne q p with rfl | hqp
    · exact hw bs (hself.symm.trans hq)
    · exact h.writer q bs (hpc q hqp ▸ hq)
  · rintro q ⟨⟨n, hq⟩, hs⟩
    have hqp : q ≠ p := by rintro rfl; exact hp hs
    exact h.rsleep q ⟨⟨n, hpc q hqp ▸ hq⟩, hs⟩
  · rintro q ⟨⟨bs, hq⟩, hs⟩
    have hqp : q ≠ p := by rintro rfl; exact hp hs
    exact h.wsleep q ⟨⟨bs, hpc q hqp ▸ hq⟩, hs⟩

theorem Inv.readopen (h : Inv s) (hp : s.SleepsReading p) : s.pipe.readopen = true := by
  obtain ⟨n, hn⟩ := hp.1
  exact h.ropen.mpr ⟨p, h.reader p n hn⟩

variable {bs : List Byte} {q : Slot}

theorem Inv.wrote (h : Inv s) (hpc : s.pc p = .write bs) {a : Pc} (ha : ∀ n, a ≠ .read n)
    (ht : ∀ q, q ≠ p → (t q).state = .sleeping →
      (s.proc q).state = .sleeping ∧ (t q).chan = (s.proc q).chan)
    (hr : ∀ q, q ≠ p → s.SleepsReading q → (t q).state ≠ .sleeping)
    (hp : ∀ rest, a = .write rest → (t p).state = .sleeping → (t p).chan = some nwriteChan ∧
      (writeLoop (s.proc p).killed s.pipe bs).2.2.full = true ∧ s.pipe.readopen = true) :
    Inv { s.setPc p a with
      pipe := (writeLoop (s.proc p).killed s.pipe bs).2.2
      written := s.written ++ (writeLoop (s.proc p).killed s.pipe bs).2.1
      proc := t } := by
  obtain ⟨hro, hwo⟩ := writeLoop_open (s.proc p).killed bs s.pipe
  have hother : ∀ q, q ≠ p → (s.setPc p a).pc q = s.pc q := fun q hq => by simp [St.setPc, hq]
  have hself : (s.setPc p a).pc p = a := by simp [St.setPc]
  refine ⟨h.lossless.writeLoop bs, fun q n hq => ?_, fun q cs hq => ?_, ?_, ?_, fun q hq => ?_,
    fun q hq => ?_⟩
  · rcases eq_or_ne q p with rfl | hqp
    · exact absurd (hself.symm.trans hq) (ha n)
    · exact h.reader q n (hother q hqp ▸ hq)
  · rcases eq_or_ne q p with rfl | hqp
    · exact h.writer q bs hpc
    · exact h.writer q cs (hother q hqp ▸ hq)
  · rw [hro]; exact h.ropen
  · rw [hwo]; exact h.wopen
  · obtain ⟨⟨n, hn⟩, hs⟩ := hq
    rcases eq_or_ne q p with rfl | hqp
    · exact absurd (hself.symm.trans hn) (ha n)
    · exact absurd hs (hr q hqp ⟨⟨n, hother q hqp ▸ hn⟩, (ht q hqp hs).1⟩)
  · obtain ⟨⟨cs, hcs⟩, hs⟩ := hq
    rw [hro]
    rcases eq_or_ne q p with rfl | hqp
    · exact hp cs (hself.symm.trans hcs) hs
    · obtain ⟨hs', hc⟩ := ht q hqp hs
      obtain ⟨hchan, hfull, hopen⟩ := h.wsleep q ⟨⟨cs, hother q hqp ▸ hcs⟩, hs'⟩
      rw [(writeLoop_full hfull).2]
      exact ⟨hc.trans hchan, hfull, hopen⟩

theorem Inv.fail_length (h : Inv s) (hq : s.SleepsReading q)
    (hf : (writeLoop (s.proc p).killed s.pipe bs).1 = .fail) :
    (s.proc p).killed = true ∧ PIPESIZE < bs.length := by
  have hend := writeLoop_end (s.proc p).killed bs s.pipe
  rw [hf] at hend
  obtain ⟨hfull, hlt, hwhy⟩ := hend
  have hempty := h.lossless.empty_iff.mp (h.rsleep q hq).2.1
  have hlen := (h.lossless.writeLoop bs).full_iff.mp hfull
  rw [List.length_append] at hlen
  refine ⟨hwhy.resolve_left (by simp [h.readopen hq]), by omega⟩

theorem awake_of_wakeup1 (h : Inv s) (hq : s.SleepsReading q) :
    (wakeup1 (some nreadChan) s.proc q).state ≠ .sleeping := by
  intro hs
  have hc := (rouses_wakeup1 _ _ q hs).2
  exact awake_wakeup1 hs (hc.trans (h.rsleep q hq).1)

theorem Inv.runWrite (h : Inv s) (hpc : s.pc p = .write bs) (hG : Heeds s (.run p))
    (hs : s.run p = some u) : Inv u := by
  simp only [run, hpc] at hs
  have hend := writeLoop_end (s.proc p).killed bs s.pipe
  split at hs
  · -- everything is stored
    cases hs
    exact h.wrote hpc (by simp) (fun q _ => rouses_wakeup1 _ _ q) (fun q _ hq => awake_of_wakeup1 h hq)
      (by simp)
  · -- it gives up, without a wakeup
    rename_i hf
    cases hs
    refine h.wrote hpc (t := s.proc) (by simp) (fun q _ hq => ⟨hq, rfl⟩) (fun q _ hq => ?_) (by simp)
    obtain ⟨hk, hlen⟩ := h.fail_length hq hf
    exact absurd hq (hG bs hpc hk hlen q)
  · -- it sleeps
    rename_i rest hf
    cases hs
    rw [hf] at hend
    have hne : ∀ q, q ≠ p → doze (wakeup1 (some nreadChan) s.proc) p nwriteChan q =
        wakeup1 (some nreadChan) s.proc q := fun q hq => by simp [doze, hq]
    refine h.wrote hpc (by simp) (fun q hq hs => ?_) (fun q hq hs => ?_) fun _ _ _ => ?_
    · rw [hne q hq] at hs ⊢
      exact rouses_wakeup1 _ _ q hs
    · rw [hne q hq]
      exact awake_of_wakeup1 h hs
    · exact ⟨by simp [doze], hend.1, hend.2.1⟩

theorem Inv.runRead (h : Inv s) {n : ℕ} (hpc : s.pc p = .read n)
    (hr : (s.proc p).state = .running) (hs : s.run p = some u) : Inv u := by
  have hawake : (s.proc p).state ≠ .sleeping := by simp [hr]
  simp only [run, hpc] at hs
  rcases readRun_cases (s.proc p).killed n s.pipe with hrun | ⟨hcond, hrun⟩ | ⟨hcond, hrun⟩
  · rw [hrun] at hs
    cases hs
    exact h.setPc hawake (by simp) (by simp)
  · -- it sleeps: the ring is empty
    rw [hrun] at hs
    cases hs
    refine ⟨h.lossless, h.reader, h.writer, h.ropen, h.wopen, fun q hq => ?_, fun q hq => ?_⟩
    · rcases eq_or_ne q p with rfl | hqp
      · exact ⟨by simp [doze], hcond⟩
      · have hq' : s.SleepsReading q := ⟨hq.1, by simpa [doze, hqp] using hq.2⟩
        simpa [doze, hqp] using h.rsleep q hq'
    · have hqp : q ≠ p := by
        rintro rfl
        obtain ⟨bs, hbs⟩ := hq.1
        rw [hpc] at hbs
        cases hbs
      have hq' : s.SleepsWriting q := ⟨hq.1, by simpa [doze, hqp] using hq.2⟩
      simpa [doze, hqp] using h.wsleep q hq'
  · -- it returns bytes, and wakes the writers up
    rw [hrun] at hs
    cases hs
    obtain ⟨hro, hwo⟩ := readLoop_open n s.pipe
    have hbase := h.setPc (a := .user) hawake (by simp) (by simp)
    refine ⟨h.lossless.readLoop n, hbase.reader, hbase.writer, ?_, ?_, fun q hq => ?_, fun q hq => ?_⟩
    · rw [hro]; exact h.ropen
    · rw [hwo]; exact h.wopen
    · have hold := rouses_wakeup1 (some nwriteChan) s.proc q hq.2
      exact absurd (hbase.rsleep q ⟨hq.1, hold.1⟩).2 hcond
    · have hold := rouses_wakeup1 (some nwriteChan) s.proc q hq.2
      have hchan := (hbase.wsleep q ⟨hq.1, hold.1⟩).1
      exact absurd (hold.2.trans hchan) (awake_wakeup1 hq.2)

theorem Out.pc (h : s.Out p) : s.pc p = .user := by
  have h := h.2
  split at h
  · assumption
  · exact h.elim

theorem Inv.close (h : Inv s) (hp : s.Out p) (writable : Bool) : Inv (s.close p writable) := by
  have hpc := hp.pc
  -- whoever is in a call keeps its descriptors
  have hkeep : ∀ (f : Slot → ℕ) q, s.pc q ≠ .user → update f p (f p - 1) q = f q :=
    fun f q hq => update_of_ne (by rintro rfl; exact hq hpc) _ _
  have hw : ∀ q bs, s.pc q = .write bs → 0 < update s.wfd p (s.wfd p - 1) q :=
    fun q bs hq => by rw [hkeep _ q (by simp [hq])]; exact h.writer q bs hq
  have hr : ∀ q n, s.pc q = .read n → 0 < update s.rfd p (s.rfd p - 1) q :=
    fun q n hq => by rw [hkeep _ q (by simp [hq])]; exact h.reader q n hq
  cases writable with
  | true =>
    simp only [St.close, if_true]
    split_ifs with hall
    · refine ⟨⟨h.lossless.sub, h.lossless.nread, h.lossless.nwrite, h.lossless.le, h.lossless.data⟩,
        h.reader, hw, h.ropen, ?_, fun q hq => ?_, fun q hq => ?_⟩
      · refine iff_of_false (by simp) ?_
        rintro ⟨q, hq⟩
        exact Nat.pos_iff_ne_zero.mp hq (hall q)
      · have hold := rouses_wakeup1 (some nreadChan) s.proc q hq.2
        exact absurd hq.2 (awake_of_wakeup1 h ⟨hq.1, hold.1⟩)
      · obtain ⟨bs, hbs⟩ := hq.1
        exact absurd (hall q) (by have := hw q bs hbs; omega)
    · refine ⟨h.lossless, h.reader, hw, h.ropen, ?_, h.rsleep, h.wsleep⟩
      simp only [not_forall] at hall
      obtain ⟨q, hq⟩ := hall
      refine iff_of_true (h.wopen.mpr ?_) ⟨q, pos_of_ne_zero hq⟩
      rcases eq_or_ne q p with rfl | hqp
      · exact ⟨q, by rw [update_self] at hq; omega⟩
      · exact ⟨q, by rw [update_of_ne hqp] at hq; omega⟩
  | false =>
    simp only [St.close, Bool.false_eq_true, if_false]
    split_ifs with hall
    · refine ⟨⟨h.lossless.sub, h.lossless.nread, h.lossless.nwrite, h.lossless.le, h.lossless.data⟩,
        hr, h.writer, ?_, h.wopen, fun q hq => ?_, fun q hq => ?_⟩
      · refine iff_of_false (by simp) ?_
        rintro ⟨q, hq⟩
        exact Nat.pos_iff_ne_zero.mp hq (hall q)
      · obtain ⟨n, hn⟩ := hq.1
        exact absurd (hall q) (by have := hr q n hn; omega)
      · have hold := rouses_wakeup1 (some nwriteChan) s.proc q hq.2
        exact absurd (hold.2.trans (h.wsleep q ⟨hq.1, hold.1⟩).1) (awake_wakeup1 hq.2)
    · refine ⟨h.lossless, hr, h.writer, ?_, h.wopen, h.rsleep, h.wsleep⟩
      simp only [not_forall] at hall
      obtain ⟨q, hq⟩ := hall
      refine iff_of_true (h.ropen.mpr ?_) ⟨q, pos_of_ne_zero hq⟩
      rcases eq_or_ne q p with rfl | hqp
      · exact ⟨q, by rw [update_self] at hq; omega⟩
      · exact ⟨q, by rw [update_of_ne hqp] at hq; omega⟩

theorem more_fds {f : Slot → ℕ} (hp : 0 < f p) :
    (∀ i, f i ≤ update f q (f q + 1) i) ∧ ∃ i, 0 < update f q (f q + 1) i := by
  have hle : ∀ i, f i ≤ update f q (f q + 1) i := by
    intro i
    rcases eq_or_ne i q with rfl | hiq
    · rw [update_self]; omega
    · rw [update_of_ne hiq]
  exact ⟨hle, p, lt_of_lt_of_le hp (hle p)⟩

theorem Inv.step {e : Ev} (h : Inv s) (hG : Heeds s e) (hs : s.step e = some u) : Inv u := by
  cases e with
  | write p bs =>
    simp only [St.step] at hs
    split_ifs at hs with hg
    cases hs
    exact h.setPc (by simp [hg.1.1]) (by simp) fun _ _ => hg.2.1
  | read p n =>
    simp only [St.step] at hs
    split_ifs at hs with hg
    cases hs
    exact h.setPc (by simp [hg.1.1]) (fun _ _ => hg.2.1) (by simp)
  | run p =>
    simp only [St.step] at hs
    split_ifs at hs with hr
    cases hpc : s.pc p with
    | user => simp [run, hpc] at hs
    | write bs => exact h.runWrite hpc hG hs
    | read n => exact h.runRead hpc hr hs
  | dispatch p =>
    simp only [St.step] at hs
    split_ifs at hs
    cases hs
    exact h.rouses (rouses_update (by simp))
  | yield p =>
    simp only [St.step] at hs
    split_ifs at hs
    cases hs
    exact h.rouses (rouses_update (by simp))
  | kill p pid =>
    simp only [St.step] at hs
    split_ifs at hs
    cases hs
    exact h.rouses (rouses_kill pid s.proc)
  | close p writable =>
    simp only [St.step] at hs
    split_ifs at hs with hg
    cases hs
    exact h.close hg.1 writable
  | share p q writable =>
    cases writable with
    | true =>
      simp only [St.step, if_true] at hs
      split_ifs at hs with hg
      cases hs
      obtain ⟨hle, hex⟩ := more_fds (q := q) hg.2
      exact ⟨h.lossless, h.reader, fun i bs hi => lt_of_lt_of_le (h.writer i bs hi) (hle i), h.ropen,
        iff_of_true (h.wopen.mpr ⟨p, hg.2⟩) hex, h.rsleep, h.wsleep⟩
    | false =>
      simp only [St.step, Bool.false_eq_true, if_false] at hs
      split_ifs at hs with hg
      cases hs
      obtain ⟨hle, hex⟩ := more_fds (q := q) hg.2
      exact ⟨h.lossless, fun i n hi => lt_of_lt_of_le (h.reader i n hi) (hle i), h.writer,
        iff_of_true (h.ropen.mpr ⟨p, hg.2⟩) hex, h.wopen, h.rsleep, h.wsleep⟩

/-- `pipealloc` by process `p`, which gets both descriptors; the page holds anything. -/
def init (t : Table) (p : Slot) (d : Fin PIPESIZE → Byte) : St where
  pipe := ⟨d, 0, 0, true, true⟩
  proc := t
  pc := fun _ => .user
  rfd := fun q => if q = p then 1 else 0
  wfd := fun q => if q = p then 1 else 0
  written := []
  got := []

instance (s : St) (q : Slot) : Decidable (s.SleepsReading q) :=
  match h : s.pc q with
  | .read n => decidable_of_iff ((s.proc q).state = .sleeping) (by simp [SleepsReading, h])
  | .user | .write _ => isFalse (by simp [SleepsReading, h])

instance (s : St) : (e : Ev) → Decidable (Heeds s e)
  | .run p =>
    match h : s.pc p with
    | .write bs => decidable_of_iff ((s.proc p).killed = true → PIPESIZE < bs.length →
        ∀ q, ¬ s.SleepsReading q) (by simp [Heeds, h])
    | .user | .read _ => isTrue (by simp [Heeds, h])
  | .write _ _ | .read _ _ | .dispatch _ | .yield _ | .kill _ _ | .close _ _ | .share _ _ _ =>
    isTrue trivial

end St

end Xv6.Pipe

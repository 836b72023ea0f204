import Xv6.Disk.Log
import Xv6.Schemes.Machine

/-! @src log.c, mkfs.c | part:log reservation | scheme:machine

  `begin_op`, `log_write` and `end_op` of any number of processes, at the granularity of
  `log.lock`: `log_write` makes its two tests before it takes the lock, so other processes may
  append between a test and the append it was made for. The fields `mine` and `group` record what
  has been logged, by the current operation of a process and since the last commit.

      out --beginOp--> inOp --logWrite b--> logging b --append--> inOp
       ^                 +--endOp--> out, or as the last one: commit --> installed
       +------------------------------endCommit------------------------------+ -/

namespace Xv6.Disk.Reserve
open Finset
open Schemes
open Function
open Option (isSome_none)
open Bool (false_eq_true)

def nlog : ℕ := LOGSIZE

inductive Pc where
  | out
  | inOp
  | logging (b : ℕ)
  | commit
  | installed
  deriving DecidableEq

def Pc.inCall : Pc → Bool
  | .inOp => true
  | .logging _ => true
  | _ => false

variable {P : Type} [DecidableEq P]

/-- The log, the processes, what they have logged, and the panic that stopped the machine. -/
structure State (P : Type) where
  log : Log
  pc : P → Pc
  mine : P → List ℕ
  group : List ℕ
  panicked : Option String

inductive Act (P : Type) where
  | beginOp (p : P)
  | logWrite (p : P) (b : ℕ)
  | append (p : P)
  | endOp (p : P)
  | commit (p : P)
  | endCommit (p : P)
  deriving DecidableEq

def init : State P := ⟨⟨0, false, []⟩, fun _ => .out, fun _ => [], [], none⟩

def State.goto (s : State P) (p : P) (c : Pc) : State P := { s with pc := update s.pc p c }

/-- One locked section, or the tests before one. A process that would sleep has no step. -/
def step (s : State P) (a : Act P) : Option (State P) :=
  if s.panicked.isSome then none else
  match a with
  | .beginOp p =>
    if s.pc p = .out ∧ s.log.admits then
      some { s.goto p .inOp with
        log := { s.log with outstanding := s.log.outstanding + 1 }
        mine := update s.mine p [] }
    else none
  | .logWrite p b =>
    if s.pc p = .inOp then
      if s.log.full nlog then some { s with panicked := some "too big a transaction" }
      else if s.log.outstanding < 1 then
        some { s with panicked := some "log_write outside of trans" }
      else some (s.goto p (.logging b))
    else none
  | .append p =>
    match s.pc p with
    | .logging b =>
      some { s.goto p .inOp with
        log := { s.log with lh := absorb s.log.lh b }
        mine := update s.mine p (absorb (s.mine p) b)
        group := s.group ++ [b] }
    | _ => none
  | .endOp p =>
    if s.pc p = .inOp then
      let log := { s.log with outstanding := s.log.outstanding - 1 }
      if log.committing then some { s with log := log, panicked := some "log.committing" }
      else if log.outstanding = 0 then
        some { s.goto p .commit with log := { log with committing := true } }
      else some { s.goto p .out with log := log }
    else none
  | .commit p =>
    if s.pc p = .commit then
      some { s.goto p .installed with log := { s.log with lh := [] }, group := [] }
    else none
  | .endCommit p =>
    if s.pc p = .installed then
      some { s.goto p .out with log := { s.log with committing := false } }
    else none

/-- The operation has logged at most `m` distinct blocks, the one of this call included. -/
def Modest (m : ℕ) (s : State P) : Act P → Prop
  | .logWrite p b => (absorb (s.mine p) b).length ≤ m
  | _ => True

/-- When `log_write` is called, the operations that will commit together have logged fewer than
  `nlog - 1` distinct blocks. -/
def Roomy (s : State P) : Act P → Prop
  | .logWrite _ _ => s.group.toFinset.card < nlog - 1
  | _ => True

instance (m : ℕ) (s : State P) : ∀ a, Decidable (Modest m s a)
  | .logWrite p b => inferInstanceAs (Decidable ((absorb (s.mine p) b).length ≤ m))
  | .beginOp _ | .append _ | .endOp _ | .commit _ | .endCommit _ => isTrue trivial

instance (s : State P) : ∀ a, Decidable (Roomy s a)
  | .logWrite _ _ => inferInstanceAs (Decidable (s.group.toFinset.card < nlog - 1))
  | .beginOp _ | .append _ | .endOp _ | .commit _ | .endCommit _ => isTrue trivial

/-! ### What a step can do -/

inductive Effect (s : State P) : Act P → State P → Prop
  | beginOp {p} (hpc : s.pc p = .out) (hadm : s.log.admits = true) :
      Effect s (.beginOp p) { s.goto p .inOp with
        log := { s.log with outstanding := s.log.outstanding + 1 }
        mine := update s.mine p [] }
  | tooBig {p b} (hpc : s.pc p = .inOp) (hfull : s.log.full nlog = true) :
      Effect s (.logWrite p b) { s with panicked := some "too big a transaction" }
  | outside {p b} (hpc : s.pc p = .inOp) (hfull : s.log.full nlog = false)
      (hout : s.log.outstanding < 1) :
      Effect s (.logWrite p b) { s with panicked := some "log_write outside of trans" }
  | logWrite {p b} (hpc : s.pc p = .inOp) (hfull : s.log.full nlog = false)
      (hout : ¬ s.log.outstanding < 1) : Effect s (.logWrite p b) (s.goto p (.logging b))
  | append {p b} (hpc : s.pc p = .logging b) :
      Effect s (.append p) { s.goto p .inOp with
        log := { s.log with lh := absorb s.log.lh b }
        mine := update s.mine p (absorb (s.mine p) b)
        group := s.group ++ [b] }
  | endCommitting {p} (hpc : s.pc p = .inOp) (hc : s.log.committing = true) :
      Effect s (.endOp p) { s with
        log := { s.log with outstanding := s.log.outstanding - 1 }
        panicked := some "log.committing" }
  | endLast {p} (hpc : s.pc p = .inOp) (hc : s.log.committing = false)
      (hlast : s.log.outstanding - 1 = 0) :
      Effect s (.endOp p) { s.goto p .commit with
        log := { s.log with outstanding := s.log.outstanding - 1, committing := true } }
  | endOp {p} (hpc : s.pc p = .inOp) (hc : s.log.committing = false)
      (hlast : s.log.outstanding - 1 ≠ 0) :
      Effect s (.endOp p) { s.goto p .out with
        log := { s.log with outstanding := s.log.outstanding - 1 } }
  | commit {p} (hpc : s.pc p = .commit) :
      Effect s (.commit p) { s.goto p .installed with log := { s.log with lh := [] }, group := [] }
  | endCommit {p} (hpc : s.pc p = .installed) :
      Effect s (.endCommit p) { s.goto p .out with log := { s.log with committing := false } }

variable {s u : State P} {a : Act P} {m : ℕ}

theorem effect_of_step (h : step s a = some u) : s.panicked = none ∧ Effect s a u := by
  have hnone : s.panicked = none := by
    cases hp : s.panicked with
    | none => rfl
    | some msg => simp [step, hp] at h
  refine ⟨hnone, ?_⟩
  cases a with
  | beginOp p =>
    simp only [step, hnone, isSome_none, false_eq_true, if_false] at h
    split_ifs at h with hg
    cases h; exact .beginOp hg.1 hg.2
  | logWrite p b =>
    simp only [step, hnone, isSome_none, false_eq_true, if_false] at h
    split_ifs at h with hpc hfull hout
    · cases h; exact .tooBig hpc hfull
    · cases h; exact .outside hpc (by simpa using hfull) hout
    · cases h; exact .logWrite hpc (by simpa using hfull) hout
  | append p =>
    simp only [step, hnone, isSome_none, false_eq_true, if_false] at h
    cases hpc : s.pc p with
    | logging b => rw [hpc] at h; cases h; exact .append hpc
    | out | inOp | commit | installed => rw [hpc] at h; cases h
  | endOp p =>
    simp only [step, hnone, isSome_none, false_eq_true, if_false] at h
    split_ifs at h with hpc hc hlast
    · cases h; exact .endCommitting hpc hc
    · cases h; exact .endLast hpc (by simpa using hc) hlast
    · cases h; exact .endOp hpc (by simpa using hc) hlast
  | commit p =>
    simp only [step, hnone, isSome_none, false_eq_true, if_false] at h
    split_ifs at h with hpc
    cases h; exact .commit hpc
  | endCommit p =>
    simp only [step, hnone, isSome_none, false_eq_true, if_false] at h
    split_ifs at h with hpc
    cases h; exact .endCommit hpc

/-! ### The header is the set of blocks logged since the last commit -/

structure Recorded (s : State P) : Prop where
  nodup : s.log.lh.Nodup
  blocks : s.log.lh.toFinset = s.group.toFinset

theorem nodup_absorb {l : List ℕ} {b : ℕ} (h : l.Nodup) : (absorb l b).Nodup := by
  unfold absorb
  split_ifs with hb
  · exact h
  · rw [← List.concat_eq_append]; exact h.concat hb

theorem toFinset_absorb (l : List ℕ) (b : ℕ) : (absorb l b).toFinset = insert b l.toFinset := by
  unfold absorb
  split_ifs with hb
  · exact (insert_eq_of_mem (List.mem_toFinset.mpr hb)).symm
  · ext c; simp

theorem length_absorb (l : List ℕ) (b : ℕ) :
    (absorb l b).length = if b ∈ l then l.length else l.length + 1 := by
  unfold absorb
  split_ifs <;> simp

theorem Recorded.effect (h : Recorded s) (he : Effect s a u) : Recorded u := by
  cases he with
  | append hpc =>
    refine ⟨nodup_absorb h.nodup, ?_⟩
    simp only [toFinset_absorb, h.blocks]
    ext c; simp
  | commit => exact ⟨List.nodup_nil, rfl⟩
  | beginOp | tooBig | outside | logWrite | endCommitting | endLast | endOp | endCommit =>
    exact ⟨h.nodup, h.blocks⟩

theorem recorded_of_reach {G : State P → Act P → Prop} (h : Reach step G init s) : Recorded s :=
  h.invariant ⟨List.nodup_nil, rfl⟩ fun _ _ _ hr _ hs => hr.effect (effect_of_step hs).2

omit [DecidableEq P] in
/-- The room test fails exactly when the group has logged `nlog - 1` distinct blocks. -/
theorem Recorded.full_iff (h : Recorded s) :
    s.log.full nlog = true ↔ nlog - 1 ≤ s.group.toFinset.card := by
  rw [← h.blocks, List.toFinset_card_of_nodup h.nodup, Log.full, decide_eq_true_eq]
  simp only [nlog, LOGSIZE, MAXOPBLOCKS]
  omega

/-- A `log_write` panics if and only if the operations that will commit together have already logged
  `nlog - 1` distinct blocks, and a run all of whose calls find room never reaches the panic. -/
theorem log_write_panics_iff_no_room :
    (∀ s : State P, Reach step (fun s a => Modest MAXOPBLOCKS s a ∧ Roomy s a) init s →
      s.panicked ≠ some "too big a transaction") ∧
    ∀ (s u : State P) (p : P) (b : ℕ), Reach step (Modest MAXOPBLOCKS) init s →
      step s (.logWrite p b) = some u →
      (u.panicked = some "too big a transaction" ↔ ¬ Roomy s (.logWrite p b)) := by
  constructor
  · intro s hs
    refine (hs.invariant (I := fun s => Recorded s ∧ s.panicked ≠ some "too big a transaction")
      ⟨⟨List.nodup_nil, rfl⟩, by simp [init]⟩ ?_).2
    rintro t a v ⟨hrec, _⟩ ⟨_, hroom⟩ hstep
    obtain ⟨hnone, he⟩ := effect_of_step hstep
    refine ⟨hrec.effect he, ?_⟩
    cases he with
    | tooBig hpc hfull => exact absurd (hrec.full_iff.mp hfull) (Nat.not_le.mpr hroom)
    | outside | endCommitting => simp
    | beginOp | logWrite | append | endLast | endOp | commit | endCommit =>
      simp [State.goto, hnone]
  · intro s u p b hs hstep
    have hrec := recorded_of_reach hs
    obtain ⟨hnone, he⟩ := effect_of_step hstep
    simp only [Roomy, not_lt, ← hrec.full_iff]
    cases he with
    | tooBig hpc hfull | outside hpc hfull => simp [hfull]
    | logWrite hpc hfull => simp [hfull, State.goto, hnone]

/-- Three operations that log ten blocks each, one after the other, up to the last block. -/
def threeFull : List (Act (Fin 3)) :=
  [.beginOp 0, .beginOp 1, .beginOp 2] ++
    (List.range 29).flatMap (fun i => [.logWrite (Fin.ofNat 3 (i / 10)) i,
      .append (Fin.ofNat 3 (i / 10))])

/-- Three concurrent operations within their budget of `MAXOPBLOCKS` distinct blocks each reach the
  panic: with the thirtieth block, and just as well with a block that is already in the log. -/
theorem three_full_operations_panic :
    (follow step (Modest MAXOPBLOCKS) init (threeFull ++ [.logWrite 2 29])).map State.panicked =
        some (some "too big a transaction") ∧
      (follow step (Modest MAXOPBLOCKS) init (threeFull ++ [.logWrite 2 28])).map State.panicked =
        some (some "too big a transaction") := by
  decide +kernel

/-- A call that finds room, and one that does not. -/
theorem log_write_panics_iff_no_room_three :
    (∃ s : State (Fin 3), Reach step (fun s a => Modest MAXOPBLOCKS s a ∧ Roomy s a) init s ∧
      s.pc 0 = .logging 7 ∧ s.panicked ≠ some "too big a transaction") ∧
    ∃ s u : State (Fin 3), Reach step (Modest MAXOPBLOCKS) init s ∧
      step s (.logWrite 2 29) = some u ∧
      (u.panicked = some "too big a transaction" ↔ ¬ Roomy s (.logWrite 2 29)) := by
  constructor
  · obtain ⟨s, hs, hpc⟩ := Option.map_eq_some_iff.mp (show (follow step
      (fun s a => Modest MAXOPBLOCKS s a ∧ Roomy s a) (init : State (Fin 3))
      [.beginOp 0, .logWrite 0 7]).map (fun s => s.pc 0) = some (.logging 7) by decide +kernel)
    have hreach := reach_of_follow _ hs
    exact ⟨s, hreach, hpc, log_write_panics_iff_no_room.1 s hreach⟩
  · obtain ⟨s, hs, hsome⟩ := Option.map_eq_some_iff.mp (show (follow step (Modest MAXOPBLOCKS)
      init threeFull).map (fun s => (step s (.logWrite 2 29)).isSome) = some true by decide +kernel)
    obtain ⟨u, hu⟩ := Option.isSome_iff_exists.mp hsome
    have hreach := reach_of_follow _ hs
    exact ⟨s, u, hreach, hu, log_write_panics_iff_no_room.2 s u 2 29 hreach hu⟩

/-! ### How much the reservation guarantees

  An operation that may log `m` distinct blocks holds `m` minus what it has logged in reserve.
  `begin_op` counts `MAXOPBLOCKS` for every operation, so the header and the reserves together
  never exceed `MAXOPBLOCKS + 2 * m` blocks. -/

section Reserved

variable [Fintype P]

def calls (s : State P) (p : P) : ℕ := if (s.pc p).inCall then 1 else 0

/-- A commit runs alone: `outstanding` counts the calls, and while some process commits all others are
  outside. -/
structure Alone (s : State P) : Prop where
  count : s.log.outstanding = (∑ p, calls s p : ℕ)
  busy : ∀ p, s.pc p = .commit ∨ s.pc p = .installed → s.log.committing = true ∧
    ∀ q, q ≠ p → s.pc q = .out
  quiet : s.log.committing = true → ∀ p, (s.pc p).inCall = false

variable {p : P} {c : Pc}

theorem sum_calls (hpc : u.pc = update s.pc p c) :
    ∑ q, calls u q + calls s p = ∑ q, calls s q + calls u p := by
  have hu : calls u = update (calls s) p (calls u p) := by
    funext q
    rcases eq_or_ne q p with rfl | hq
    · rw [update_self]
    · rw [update_of_ne hq, calls, hpc, update_of_ne hq]; rfl
  rw [hu, sum_update, update_self]

omit [DecidableEq P] in
/-- While some process is in a call nobody commits. -/
theorem Alone.not_busy (h : Alone s) (hp : (s.pc p).inCall = true) (q : P) :
    s.pc q ≠ .commit ∧ s.pc q ≠ .installed := by
  have hq : ¬ (s.pc q = .commit ∨ s.pc q = .installed) := by
    intro hb
    have := h.quiet (h.busy q hb).1 p
    rw [hp] at this
    cases this
  exact not_or.mp hq

omit [DecidableEq P] in
theorem Alone.outstanding_pos (h : Alone s) (hp : (s.pc p).inCall = true) :
    0 < s.log.outstanding := by
  have hle : calls s p ≤ ∑ q, calls s q := single_le_sum (f := calls s)
    (fun _ _ => Nat.zero_le _) (mem_univ p)
  have hone : calls s p = 1 := if_pos hp
  rw [h.count]
  omega

omit [Fintype P] in
/-- If nobody was committing and `p` does not start to, nobody is. -/
theorem none_busy (hpc : u.pc = update s.pc p c)
    (hnone : ∀ q, s.pc q ≠ .commit ∧ s.pc q ≠ .installed) (hc : c ≠ .commit ∧ c ≠ .installed)
    (q : P) : ¬ (u.pc q = .commit ∨ u.pc q = .installed) := by
  rw [hpc, not_or]
  rcases eq_or_ne q p with rfl | hqp
  · rw [update_self]; exact hc
  · rw [update_of_ne hqp]; exact hnone q

theorem Alone.beginOp (h : Alone s) (hpc : s.pc p = .out) (hcom : s.log.committing = false)
    (hup : u.pc = update s.pc p .inOp) (huc : u.log.committing = false)
    (huo : u.log.outstanding = s.log.outstanding + 1) : Alone u := by
  have hnone : ∀ q, s.pc q ≠ .commit ∧ s.pc q ≠ .installed := by
    intro q
    refine not_or.mp (fun hb => ?_)
    rw [(h.busy q hb).1] at hcom
    cases hcom
  have hidle := none_busy hup hnone ⟨by simp, by simp⟩
  have hcalls := sum_calls hup
  have hpc' : u.pc p = .inOp := by rw [hup, update_self]
  rw [show calls s p = 0 by simp [calls, hpc, Pc.inCall],
    show calls u p = 1 by simp [calls, hpc', Pc.inCall]] at hcalls
  have hcount := h.count
  refine ⟨by omega, fun q hb => absurd hb (hidle q), fun hx => ?_⟩
  rw [huc] at hx
  cases hx

theorem Alone.of_inCall (h : Alone s) (hin : (s.pc p).inCall = true)
    (hpc : u.pc = update s.pc p c) (hc : c ≠ .commit ∧ c ≠ .installed)
    (hcom : u.log.committing = s.log.committing)
    (hcount : u.log.outstanding + 1 = s.log.outstanding + calls u p) : Alone u := by
  have hidle := none_busy hpc (h.not_busy hin) hc
  have hcalls := sum_calls hpc
  rw [show calls s p = 1 from if_pos hin] at hcalls
  have hcount' := h.count
  refine ⟨by omega, fun q hb => absurd hb (hidle q), fun hx => ?_⟩
  have := h.quiet (hcom ▸ hx) p
  rw [hin] at this
  cases this

theorem Alone.others_out (h : Alone s) (hpc : s.pc p = .inOp)
    (hlast : s.log.outstanding - 1 = 0) (q : P) (hq : q ≠ p) : s.pc q = .out := by
  have hin : (s.pc p).inCall = true := by rw [hpc]; rfl
  cases hcall : (s.pc q).inCall with
  | false =>
    have hb := h.not_busy hin q
    cases hx : s.pc q with
    | out => rfl
    | inOp | logging b => rw [hx] at hcall; cases hcall
    | commit => exact absurd hx hb.1
    | installed => exact absurd hx hb.2
  | true =>
    have hle : calls s p + calls s q ≤ ∑ r, calls s r := by
      rw [← sum_pair hq.symm]
      exact sum_le_sum_of_subset (subset_univ _)
    rw [show calls s p = 1 from if_pos hin, show calls s q = 1 from if_pos hcall] at hle
    have hcount := h.count
    omega

omit [Fintype P] in
/-- All but `p` are outside, and `p` is in no call. -/
theorem none_inCall (hc : c.inCall = false) (hpc : u.pc = update s.pc p c)
    (hout : ∀ q, q ≠ p → s.pc q = .out) (q : P) : (u.pc q).inCall = false := by
  rw [hpc]
  rcases eq_or_ne q p with rfl | hqp
  · rw [update_self]; exact hc
  · rw [update_of_ne hqp, hout q hqp]; rfl

theorem Alone.of_alone (hc : c.inCall = false) (hpc : u.pc = update s.pc p c)
    (hout : ∀ q, q ≠ p → s.pc q = .out) (hzero : u.log.outstanding = 0)
    (hbusy : c = .commit ∨ c = .installed → u.log.committing = true) : Alone u := by
  have hcall := none_inCall hc hpc hout
  have hq : ∀ q, q ≠ p → u.pc q = .out := fun q hq => by
    rw [hpc, update_of_ne hq]; exact hout q hq
  refine ⟨by simp [hzero, calls, hcall], fun q hb => ?_, fun _ => hcall⟩
  rcases eq_or_ne q p with rfl | hqp
  · rw [hpc, update_self] at hb
    exact ⟨hbusy hb, hq⟩
  · rw [hq q hqp] at hb
    simp at hb

omit [DecidableEq P] in
/-- `panic("log.committing")` is out of reach. -/
theorem Alone.not_committing (h : Alone s) (hpc : s.pc p = .inOp) : s.log.committing ≠ true := by
  intro hc
  have := h.quiet hc p
  rw [hpc] at this
  cases this

omit [DecidableEq P] in
/-- Nothing is outstanding while a commit runs. -/
theorem Alone.outstanding_eq (h : Alone s) (hc : s.log.committing = true) : s.log.outstanding = 0 :=
  h.count.trans (by simp [calls, h.quiet hc])

theorem Alone.effect (h : Alone s) (he : Effect s a u) : Alone u := by
  cases he with
  | beginOp hpc hadm =>
    have hcom : s.log.committing = false := by
      simp only [Log.admits, Bool.and_eq_true, Bool.not_eq_true'] at hadm
      exact hadm.1
    exact h.beginOp hpc hcom rfl hcom rfl
  | tooBig | outside => exact ⟨h.count, h.busy, h.quiet⟩
  | logWrite hpc | append hpc | endOp hpc =>
    exact h.of_inCall (by rw [hpc]; rfl) rfl ⟨by simp, by simp⟩ rfl
      (by simp [calls, State.goto, Pc.inCall])
  | endCommitting hpc hc => exact absurd hc (h.not_committing hpc)
  | endLast hpc _ hlast => exact Alone.of_alone rfl rfl (h.others_out hpc hlast) hlast fun _ => rfl
  | commit hpc =>
    obtain ⟨hc, hout⟩ := h.busy _ (.inl hpc)
    exact Alone.of_alone rfl rfl hout (h.outstanding_eq hc) fun _ => hc
  | endCommit hpc =>
    obtain ⟨hc, hout⟩ := h.busy _ (.inr hpc)
    exact Alone.of_alone rfl rfl hout (h.outstanding_eq hc) (by simp)

omit [DecidableEq P] in
theorem alone_init : Alone (init : State P) :=
  ⟨by simp [init, calls, Pc.inCall], by simp [init], by simp [init]⟩

def credit (m : ℕ) (s : State P) (p : P) : ℕ :=
  if (s.pc p).inCall then m - (s.mine p).length else 0

/-- The reservation invariant for operations that log at most `m` distinct blocks. -/
structure Reserved (m : ℕ) (s : State P) : Prop extends Alone s where
  done : ∀ p, s.pc p = .installed → s.log.lh = []
  fresh : s.log.committing = false → s.log.outstanding = 0 → s.log.lh = []
  subset : ∀ p, (s.pc p).inCall = true → ∀ b ∈ s.mine p, b ∈ s.log.lh
  budget : ∀ p b, s.pc p = .logging b → (absorb (s.mine p) b).length ≤ m
  room : s.log.lh.length + ∑ p, credit m s p ≤ MAXOPBLOCKS + 2 * m

theorem sum_credit (hpc : u.pc = update s.pc p c)
    (hmine : ∀ q, q ≠ p → u.mine q = s.mine q) :
    ∑ q, credit m u q + credit m s p = ∑ q, credit m s q + credit m u p := by
  have hu : credit m u = update (credit m s) p (credit m u p) := by
    funext q
    rcases eq_or_ne q p with rfl | hq
    · rw [update_self]
    · rw [update_of_ne hq, credit, hpc, update_of_ne hq, hmine q hq]; rfl
  rw [hu, sum_update, update_self]

omit [DecidableEq P] in
theorem sum_credit_le (s : State P) : ∑ p, credit m s p ≤ m * ∑ p, calls s p := by
  rw [mul_sum]
  refine sum_le_sum (fun p _ => ?_)
  unfold credit calls
  split_ifs <;> omega

theorem Reserved.frame (h : Reserved m s) (hpc : u.pc = update s.pc p c)
    (hmine : ∀ q, q ≠ p → u.mine q = s.mine q) (hlh : ∀ b ∈ s.log.lh, b ∈ u.log.lh)
    (hsub : c.inCall = true → ∀ b ∈ u.mine p, b ∈ u.log.lh)
    (hbud : ∀ b, c = .logging b → (absorb (u.mine p) b).length ≤ m) :
    (∀ q, (u.pc q).inCall = true → ∀ b ∈ u.mine q, b ∈ u.log.lh) ∧
      ∀ q b, u.pc q = .logging b → (absorb (u.mine q) b).length ≤ m := by
  refine ⟨fun q hq b hb => ?_, fun q b hb => ?_⟩
  · rw [hpc] at hq
    rcases eq_or_ne q p with rfl | hqp
    · rw [update_self] at hq
      exact hsub hq b hb
    · rw [update_of_ne hqp] at hq
      rw [hmine q hqp] at hb
      exact hlh b (h.subset q hq b hb)
  · rw [hpc] at hb
    rcases eq_or_ne q p with rfl | hqp
    · rw [update_self] at hb
      exact hbud b hb
    · rw [update_of_ne hqp] at hb
      rw [hmine q hqp]
      exact h.budget q b hb

theorem Reserved.beginOp (h : Reserved m s) (hm : m ≤ MAXOPBLOCKS) (hpc : s.pc p = .out)
    (hadm : s.log.admits = true) : Reserved m { s.goto p .inOp with
      log := { s.log with outstanding := s.log.outstanding + 1 }
      mine := update s.mine p [] } := by
  obtain ⟨hcom, hle⟩ : s.log.committing = false ∧
      ¬ (s.log.lh.length + (s.log.outstanding + 1) * MAXOPBLOCKS > LOGSIZE) := by
    simpa [Log.admits] using hadm
  set u : State P := { s.goto p .inOp with
      log := { s.log with outstanding := s.log.outstanding + 1 }
      mine := update s.mine p [] } with hu
  have hup : u.pc = update s.pc p .inOp := rfl
  have hmp : u.mine p = [] := update_self ..
  have hmq : ∀ q, q ≠ p → u.mine q = s.mine q := fun q hq => update_of_ne hq ..
  have ha : Alone u := h.toAlone.beginOp hpc hcom hup hcom rfl
  obtain ⟨hsub, hbud⟩ := h.frame hup hmq (fun _ hb => hb) (by simp [hmp]) (by simp)
  have hcredit := sum_credit (m := m) hup hmq
  have hpc' : u.pc p = .inOp := update_self ..
  rw [show credit m s p = 0 by simp [credit, hpc, Pc.inCall],
    show credit m u p = m by simp [credit, hpc', Pc.inCall, hmp]] at hcredit
  have hcount := h.count
  refine ⟨ha, fun q hb => ?_, fun _ hx => ?_, hsub, hbud, ?_⟩
  · exact absurd (hcom.symm.trans (ha.busy q (.inr hb)).1) (by simp)
  · have hx : s.log.outstanding + 1 = 0 := hx
    omega
  · show s.log.lh.length + _ ≤ _
    have hle' := sum_credit_le (m := m) s
    simp only [MAXOPBLOCKS, LOGSIZE] at hle hm ⊢
    rcases eq_zero_or_pos (∑ q, calls s q) with hz | hpos
    · -- nobody is in a call: the header is empty
      have hlh := h.fresh hcom (by rw [hcount, hz]; rfl)
      rw [hz, mul_zero] at hle'
      rw [hlh, List.length_nil]
      omega
    · -- one or two others are: the test of `begin_op` has counted ten blocks for each
      obtain ho | ho : ∑ q, calls s q = 1 ∨ ∑ q, calls s q = 2 := by omega
      · rw [ho] at hle' hcount
        omega
      · rw [ho] at hle' hcount
        omega

theorem Reserved.of_inCall (h : Reserved m s) (hin : (s.pc p).inCall = true)
    (hpc : u.pc = update s.pc p c) (hc : c ≠ .commit ∧ c ≠ .installed)
    (hmine : ∀ q, q ≠ p → u.mine q = s.mine q) (hlh : ∀ b ∈ s.log.lh, b ∈ u.log.lh)
    (hsub : c.inCall = true → ∀ b ∈ u.mine p, b ∈ u.log.lh)
    (hbud : ∀ b, c = .logging b → (absorb (u.mine p) b).length ≤ m)
    (hcom : u.log.committing = s.log.committing)
    (hcount : u.log.outstanding + 1 = s.log.outstanding + calls u p)
    (hlast : u.log.outstanding ≠ 0)
    (hroom : u.log.lh.length + credit m u p ≤ s.log.lh.length + credit m s p) : Reserved m u := by
  have ha : Alone u := h.toAlone.of_inCall hin hpc hc hcom hcount
  have hidle := none_busy hpc (h.not_busy hin) hc
  obtain ⟨hsub', hbud'⟩ := h.frame hpc hmine hlh hsub hbud
  have hcredit := sum_credit (m := m) hpc hmine
  have hroom' := h.room
  exact ⟨ha, fun q hb => absurd (.inr hb) (hidle q),
    fun _ hx => absurd hx hlast, hsub', hbud', by omega⟩

theorem Reserved.logWrite (h : Reserved m s) (hpc : s.pc p = .inOp) {b : ℕ}
    (hb : (absorb (s.mine p) b).length ≤ m) : Reserved m (s.goto p (.logging b)) := by
  have hin : (s.pc p).inCall = true := by rw [hpc]; rfl
  have hin' : ((s.goto p (.logging b)).pc p).inCall = true := by simp [State.goto, Pc.inCall]
  refine h.of_inCall hin rfl ⟨by simp, by simp⟩ (fun _ _ => rfl) (fun _ hb => hb)
    (fun _ => h.subset p hin) (fun c hc => by cases hc; exact hb) rfl ?_ ?_ ?_
  · rw [calls, if_pos hin']; rfl
  · exact ne_of_gt (h.outstanding_pos hin)
  · rw [credit, if_pos hin', credit, if_pos hin]; rfl

theorem Reserved.append (h : Reserved m s) {b : ℕ} (hpc : s.pc p = .logging b) :
    Reserved m { s.goto p .inOp with
      log := { s.log with lh := absorb s.log.lh b }
      mine := update s.mine p (absorb (s.mine p) b)
      group := s.group ++ [b] } := by
  have hin : (s.pc p).inCall = true := by rw [hpc]; rfl
  set u : State P := { s.goto p .inOp with
      log := { s.log with lh := absorb s.log.lh b }
      mine := update s.mine p (absorb (s.mine p) b)
      group := s.group ++ [b] } with hu
  have hin' : (u.pc p).inCall = true := by simp [hu, State.goto, Pc.inCall]
  have hmine : u.mine p = absorb (s.mine p) b := update_self ..
  have hlh : u.log.lh = absorb s.log.lh b := rfl
  refine h.of_inCall hin rfl ⟨by simp, by simp⟩ (fun q hq => update_of_ne hq ..)
    (fun c hc => ?_) (fun _ c hc => ?_) (fun c hc => by cases hc) rfl ?_ ?_ ?_
  · rw [hlh, mem_absorb]; exact .inl hc
  · rw [hmine, mem_absorb] at hc
    rw [hlh, mem_absorb]
    rcases hc with hc | hc
    · exact .inl (h.subset p hin c hc)
    · exact .inr hc
  · rw [calls, if_pos hin']; rfl
  · exact ne_of_gt (h.outstanding_pos hin)
  · have hbud := h.budget p b hpc
    rw [credit, if_pos hin', credit, if_pos hin, hmine, hlh]
    rw [length_absorb] at hbud ⊢
    rw [length_absorb]
    have hsub := h.subset p hin b
    split_ifs at hbud ⊢ with h1 h2 h2
    · exact le_rfl
    · omega
    · exact absurd (hsub h2) h1
    · omega

theorem Reserved.endOp (h : Reserved m s) (hpc : s.pc p = .inOp)
    (hlast : s.log.outstanding - 1 ≠ 0) : Reserved m { s.goto p .out with
      log := { s.log with outstanding := s.log.outstanding - 1 } } := by
  have hin : (s.pc p).inCall = true := by rw [hpc]; rfl
  refine h.of_inCall hin rfl ⟨by simp, by simp⟩ (fun _ _ => rfl) (fun _ hb => hb)
    (fun hx => by cases hx) (fun c hc => by cases hc) rfl ?_ hlast ?_
  · simp [calls, State.goto, Pc.inCall]
  · simp [credit, State.goto, Pc.inCall]

theorem Reserved.of_alone (hc : c.inCall = false) (hpc : u.pc = update s.pc p c)
    (hout : ∀ q, q ≠ p → s.pc q = .out) (hzero : u.log.outstanding = 0)
    (hbusy : c = .commit ∨ c = .installed → u.log.committing = true)
    (hdone : c = .installed → u.log.lh = []) (hfresh : u.log.committing = false → u.log.lh = [])
    (hroom : u.log.lh.length ≤ MAXOPBLOCKS + 2 * m) : Reserved m u := by
  have ha : Alone u := Alone.of_alone hc hpc hout hzero hbusy
  have hcall := none_inCall hc hpc hout
  refine ⟨ha, fun q hb => ?_, fun hx _ => hfresh hx, fun q hx => ?_,
    fun q b hb => ?_, ?_⟩
  · rcases eq_or_ne q p with rfl | hqp
    · rw [hpc, update_self] at hb
      exact hdone hb
    · rw [hpc, update_of_ne hqp, hout q hqp] at hb
      cases hb
  · rw [hcall q] at hx; cases hx
  · have := hcall q
    rw [hb] at this
    cases this
  · simpa [credit, hcall] using hroom

theorem Reserved.effect (h : Reserved m s) (hm : m ≤ MAXOPBLOCKS) (hG : Modest m s a)
    (he : Effect s a u) : Reserved m u := by
  cases he with
  | beginOp hpc hadm => exact h.beginOp hm hpc hadm
  | tooBig | outside =>
    exact ⟨⟨h.count, h.busy, h.quiet⟩, h.done, h.fresh, h.subset, h.budget, h.room⟩
  | logWrite hpc => exact h.logWrite hpc hG
  | append hpc => exact h.append hpc
  | endCommitting hpc hc => exact absurd hc (h.not_committing hpc)
  | endLast hpc _ hlast =>
    exact Reserved.of_alone rfl rfl (h.others_out hpc hlast) hlast (fun _ => rfl) (by simp)
      (by simp) ((Nat.le_add_right ..).trans h.room)
  | endOp hpc _ hlast => exact h.endOp hpc hlast
  | commit hpc =>
    obtain ⟨hc, hout⟩ := h.busy _ (.inl hpc)
    exact Reserved.of_alone rfl rfl hout (h.outstanding_eq hc) (fun _ => hc) (fun _ => rfl)
      (fun _ => rfl) (by simp)
  | endCommit hpc =>
    obtain ⟨hc, hout⟩ := h.busy _ (.inr hpc)
    exact Reserved.of_alone rfl rfl hout (h.outstanding_eq hc) (by simp) (by simp)
      (fun _ => h.done _ hpc) ((Nat.le_add_right ..).trans h.room)

omit [DecidableEq P] in
theorem reserved_init : Reserved m (init : State P) where
  toAlone := alone_init
  done := by simp [init]
  fresh := by simp [init]
  subset := by simp [init]
  budget := by simp [init]
  room := by simp [init, credit, Pc.inCall]

theorem reserved_of_reach (hm : m ≤ MAXOPBLOCKS) (h : Reach step (Modest m) init s) :
    Reserved m s :=
  h.invariant reserved_init fun _ _ _ ht hG hs => ht.effect hm hG (effect_of_step hs).2

/-- The log never holds more blocks than it has room for. -/
theorem lh_length_le (h : Reach step (Modest MAXOPBLOCKS) init s) : s.log.lh.length ≤ LOGSIZE := by
  have hroom := (reserved_of_reach le_rfl h).room
  simp only [MAXOPBLOCKS, LOGSIZE] at hroom ⊢
  omega

theorem lh_length_le_two : ∃ s : State (Fin 2), Reach step (Modest MAXOPBLOCKS) init s ∧
    s.log.lh = [5, 6] ∧ s.log.lh.length ≤ LOGSIZE := by
  obtain ⟨s, hs, hlh⟩ := exists_reach (show (follow step (Modest MAXOPBLOCKS) init
    [.beginOp (0 : Fin 2), .beginOp 1, .logWrite 0 5, .logWrite 1 6, .append 0, .append 1]).map
      (fun s => s.log.lh) = some [5, 6] by decide +kernel)
  exact ⟨s, hs, hlh, lh_length_le hs⟩

/-- Below the budget no panic of the log is reached. -/
theorem never_panics (hm : m < MAXOPBLOCKS) (h : Reach step (Modest m) init s) :
    s.panicked = none := by
  refine (h.invariant (I := fun s => Reserved m s ∧ s.panicked = none) ⟨reserved_init, rfl⟩ ?_).2
  rintro t a v ⟨ht, _⟩ hG hs
  obtain ⟨hnone, he⟩ := effect_of_step hs
  refine ⟨ht.effect hm.le hG he, ?_⟩
  cases he with
  | tooBig hpc hfull =>
    have hroom := ht.room
    rw [Log.full, decide_eq_true_eq] at hfull
    simp only [nlog, LOGSIZE, MAXOPBLOCKS] at hfull hroom hm
    omega
  | outside hpc _ hout =>
    have hpos := ht.outstanding_pos (by rw [hpc]; rfl)
    omega
  | endCommitting hpc hc => exact absurd hc (ht.not_committing hpc)
  | beginOp | logWrite | append | endLast | endOp | commit | endCommit => exact hnone

theorem never_panics_two : ∃ s : State (Fin 2), Reach step (Modest 9) init s ∧
    s.log.lh = [5, 6] ∧ s.panicked = none := by
  obtain ⟨s, hs, hlh⟩ := exists_reach (show (follow step (Modest 9) init
    [.beginOp (0 : Fin 2), .beginOp 1, .logWrite 0 5, .logWrite 1 6, .append 0, .append 1]).map
      (fun s => s.log.lh) = some [5, 6] by decide +kernel)
  exact ⟨s, hs, hlh, never_panics (by decide) hs⟩

end Reserved

end Xv6.Disk.Reserve

import Xv6.Disk.Reserve

/-! @src log.c | part:group commit | scheme:machine

  What the operations of a group and their commit write. The calls of the log are the steps of
  `Reserve`; in between, an operation modifies buffers, and the process that has ended the group as
  its last one runs `commit` block by block, without `log.lock`:

      endOp (last) --> copy, copy, … --> header --> install, install, … --> finish --> endCommit
        final := data    write_log       write_head     install_trans        n = 0

  `data` is what the buffers hold; a block in the header is pinned, so the commit still finds it. -/

namespace Xv6.Disk.Reserve
open List
open Schemes
open Function
open Option (map_eq_some_iff)

variable {P V : Type} [DecidableEq P]

/-- An operation: its process and the blocks it logged between `begin_op` and `end_op`. -/
structure Op (P : Type) where
  proc : P
  blocks : List ℕ

/-- A commit: the operations since the one before, what it wrote to the log, and what the buffers held
  when the last of the operations ended. -/
structure Commit (P V : Type) where
  ops : List (Op P)
  written : List (ℕ × V)
  final : ℕ → V

/-- The log with the buffers, the home blocks and what the current commit has written. The last four
  fields are history. -/
structure Grp (P V : Type) where
  base : State P
  data : ℕ → V
  home : ℕ → V
  logged : List (ℕ × V)
  headed : Bool
  installed : ℕ
  final : ℕ → V
  ended : List (Op P)
  commits : List (Commit P V)
  hist : List (Op P)

inductive GrpEv (P V : Type) where
  | call (a : Act P)
  | modify (p : P) (b : ℕ) (v : V)
  | copy (p : P)
  | header (p : P)
  | install (p : P)
  | finish (p : P)

namespace Grp

/-- The calls of the log. `commit` is `finish` here; the operation that `end_op` ends is noted. -/
def call (x : Grp P V) : Act P → Option (Grp P V)
  | .commit _ => none
  | .endOp p => (Reserve.step x.base (.endOp p)).map fun u => { x with
      base := u
      final := x.data
      ended := x.ended ++ [⟨p, x.base.mine p⟩]
      hist := x.hist ++ [⟨p, x.base.mine p⟩] }
  | a => (Reserve.step x.base a).map fun u => { x with base := u }

def step (x : Grp P V) : GrpEv P V → Option (Grp P V)
  | .call a => x.call a
  | .modify p b v =>
    if x.base.pc p = .inOp then some { x with data := update x.data b v } else none
  | .copy p =>
    -- `write_log`: the next block of the header
    if x.base.pc p = .commit then
      (x.base.log.lh[x.logged.length]?).map fun b => { x with logged := x.logged ++ [(b, x.data b)] }
    else none
  | .header p =>
    if x.base.pc p = .commit ∧ x.logged.length = x.base.log.lh.length ∧ 0 < x.base.log.lh.length then
      some { x with headed := true }
    else none
  | .install p =>
    if x.base.pc p = .commit ∧ x.headed then
      (x.logged[x.installed]?).map fun w => { x with
        home := update x.home w.1 w.2
        installed := x.installed + 1 }
    else none
  | .finish p =>
    -- the transaction is erased; `commit` does nothing if the header is empty
    if x.base.log.lh = [] ∨ x.headed ∧ x.installed = x.logged.length then
      (Reserve.step x.base (.commit p)).map fun u => { x with
        base := u
        logged := []
        headed := false
        installed := 0
        ended := []
        commits := x.commits ++ [⟨x.ended, x.logged, x.final⟩] }
    else none

def init (d : ℕ → V) : Grp P V := ⟨Reserve.init, d, d, [], false, 0, d, [], [], []⟩

end Grp

/-- A commit writes the blocks that its operations logged, and no others, with the contents they had
  when the last operation ended. -/
def Commit.Whole (c : Commit P V) : Prop :=
  (∀ o ∈ c.ops, ∀ b ∈ o.blocks, (b, c.final b) ∈ c.written) ∧
  ∀ w ∈ c.written, w.2 = c.final w.1 ∧ ∃ o ∈ c.ops, w.1 ∈ o.blocks

section

variable [Fintype P]

/-- The header lists what the operations of the group have logged; the running commit has written a
  prefix of it, with the contents of the end of the group. -/
structure Joint (x : Grp P V) : Prop where
  alone : Alone x.base
  calm : x.base.panicked ≠ some "log.committing"
  lh : ∀ b, b ∈ x.base.log.lh ↔ (∃ o ∈ x.ended, b ∈ o.blocks) ∨
    ∃ p, (x.base.pc p).inCall = true ∧ b ∈ x.base.mine p
  still : x.base.log.committing = true → x.data = x.final
  idle : (∀ p, x.base.pc p ≠ .commit) → x.logged = [] ∧ x.headed = false
  logged : x.logged = (x.base.log.lh.take x.logged.length).map fun b => (b, x.data b)
  headed : x.headed = true → x.logged.length = x.base.log.lh.length
  whole : ∀ c ∈ x.commits, c.Whole
  hist : x.hist = x.commits.flatMap Commit.ops ++ x.ended

variable {x y : Grp P V} {p : P}

theorem Alone.blocked {s : State P} (h : Alone s) (hc : s.log.committing = true) {a : Act P}
    (ha : (∃ p, a = .beginOp p) ∨ (∃ p b, a = .logWrite p b) ∨ ∃ p, a = .append p) :
    Reserve.step s a = none := by
  cases hs : Reserve.step s a with
  | none => rfl
  | some u =>
    have he := (effect_of_step hs).2
    have hquiet := h.quiet hc
    rcases ha with ⟨p, rfl⟩ | ⟨p, b, rfl⟩ | ⟨p, rfl⟩
    · cases he with | beginOp hpc hadm => simp [Log.admits, hc] at hadm
    · have hin : ¬ s.pc p = .inOp := fun hx => by
        have := hquiet p
        rw [hx] at this
        cases this
      cases he with
      | tooBig hpc | outside hpc | logWrite hpc => exact absurd hpc hin
    · cases he with
      | append hpc =>
        have := hquiet p
        rw [hpc] at this
        cases this

omit [DecidableEq P] in
/-- While some process is in a call, no commit has begun. -/
theorem Joint.in_call (h : Joint x) (hp : (x.base.pc p).inCall = true) :
    x.base.log.committing = false ∧ x.logged = [] ∧ x.headed = false := by
  refine ⟨?_, h.idle fun q => (h.alone.not_busy hp q).1⟩
  cases hc : x.base.log.committing with
  | false => rfl
  | true =>
    have := h.alone.quiet hc p
    rw [hp] at this
    cases this

/-! ### What a step keeps -/

variable {b : ℕ} {u : State P}

omit [Fintype P] in
/-- The blocks of the running operations, when `p` goes to `c` with the blocks `m p`. -/
theorem running_update {s : State P} {c : Pc} {m : P → List ℕ} (hm : ∀ q, q ≠ p → m q = s.mine q) :
    (∃ q, (update s.pc p c q).inCall = true ∧ b ∈ m q) ↔
      (c.inCall = true ∧ b ∈ m p) ∨ ∃ q, q ≠ p ∧ (s.pc q).inCall = true ∧ b ∈ s.mine q := by
  constructor
  · rintro ⟨q, hq, hb⟩
    rcases eq_or_ne q p with rfl | hqp
    · rw [update_self] at hq
      exact .inl ⟨hq, hb⟩
    · rw [update_of_ne hqp] at hq
      exact .inr ⟨q, hqp, hq, hm q hqp ▸ hb⟩
  · rintro (⟨hc, hb⟩ | ⟨q, hqp, hq, hb⟩)
    · exact ⟨p, by rwa [update_self], hb⟩
    · exact ⟨q, by rwa [update_of_ne hqp], (hm q hqp).symm ▸ hb⟩

omit [Fintype P] in
theorem running_split {s : State P} (p : P) :
    (∃ q, (s.pc q).inCall = true ∧ b ∈ s.mine q) ↔ ((s.pc p).inCall = true ∧ b ∈ s.mine p) ∨
      ∃ q, q ≠ p ∧ (s.pc q).inCall = true ∧ b ∈ s.mine q := by
  have := running_update (s := s) (p := p) (c := s.pc p) (m := s.mine) (b := b) fun _ _ => rfl
  rwa [update_eq_self] at this

omit [DecidableEq P] in
/-- A step of the log that leaves the commit's fields alone, taken while nothing has been copied. -/
theorem Joint.of_base (h : Joint x) (ops : List (Op P)) (f : ℕ → V) (he : Alone u)
    (hcalm : u.panicked ≠ some "log.committing") (hempty : x.logged = [] ∧ x.headed = false)
    (hstill : u.log.committing = true → x.data = f)
    (hlh : ∀ b, b ∈ u.log.lh ↔ (∃ o ∈ x.ended ++ ops, b ∈ o.blocks) ∨
      ∃ p, (u.pc p).inCall = true ∧ b ∈ u.mine p) :
    Joint { x with base := u, final := f, ended := x.ended ++ ops, hist := x.hist ++ ops } where
  alone := he
  calm := hcalm
  lh := hlh
  still := hstill
  idle := fun _ => hempty
  logged := by simp [hempty.1]
  headed := fun hh => by
    have : x.headed = true := hh
    rw [hempty.2] at this
    cases this
  whole := h.whole
  hist := by rw [h.hist, append_assoc]

omit [DecidableEq P] in
/-- `begin_op`, `log_write` and the end of a commit. -/
theorem Joint.of_call (h : Joint x) (he : Alone u) (hcalm : u.panicked ≠ some "log.committing")
    (hempty : x.logged = [] ∧ x.headed = false) (hc : u.log.committing = false)
    (hlh : ∀ b, b ∈ u.log.lh ↔ (∃ o ∈ x.ended, b ∈ o.blocks) ∨
      ∃ p, (u.pc p).inCall = true ∧ b ∈ u.mine p) : Joint { x with base := u } := by
  have := h.of_base [] x.final he hcalm hempty (fun hx => by rw [hc] at hx; cases hx)
    (by simpa using hlh)
  simpa using this

theorem Joint.beginOp (h : Joint x) (hs : Reserve.step x.base (.beginOp p) = some u) :
    Joint { x with base := u } := by
  obtain ⟨hnone, he⟩ := effect_of_step hs
  have halone := h.alone.effect he
  cases he with
  | beginOp hpc hadm =>
    have hc : x.base.log.committing = false := by
      cases hc : x.base.log.committing with
      | false => rfl
      | true => simp [Log.admits, hc] at hadm
    have hidle : ∀ q, x.base.pc q ≠ .commit := fun q hq => by
      rw [(h.alone.busy q (.inl hq)).1] at hc
      cases hc
    refine h.of_call halone (by simp [State.goto, hnone]) (h.idle hidle) hc fun b => ?_
    have hnew := running_update (s := x.base) (p := p) (c := .inOp) (b := b)
      (m := update x.base.mine p []) fun q hq => update_of_ne hq _ _
    refine (h.lh b).trans (or_congr_right ?_)
    rw [running_split p, hpc]
    exact (by simp [Pc.inCall] : _ ↔ _).trans hnew.symm

theorem Joint.logWrite (h : Joint x) (hs : Reserve.step x.base (.logWrite p b) = some u)
    : Joint { x with base := u } := by
  obtain ⟨hnone, he⟩ := effect_of_step hs
  have halone := h.alone.effect he
  have hin : ∀ {c : Pc}, x.base.pc p = c → c.inCall = true → (x.base.pc p).inCall = true :=
    fun hpc hc => by rw [hpc]; exact hc
  cases he with
  | tooBig hpc | outside hpc =>
    obtain ⟨hc, hempty⟩ := h.in_call (hin hpc rfl)
    exact h.of_call halone (by simp) hempty hc h.lh
  | logWrite hpc =>
    obtain ⟨hc, hempty⟩ := h.in_call (hin hpc rfl)
    refine h.of_call halone (by simp [State.goto, hnone]) hempty hc fun b' => ?_
    have hnew := running_update (s := x.base) (p := p) (c := .logging b) (b := b')
      (m := x.base.mine) fun _ _ => rfl
    refine (h.lh b').trans (or_congr_right ?_)
    rw [running_split p, hpc]
    exact hnew.symm

theorem Joint.append (h : Joint x) (hs : Reserve.step x.base (.append p) = some u) :
    Joint { x with base := u } := by
  obtain ⟨hnone, he⟩ := effect_of_step hs
  have halone := h.alone.effect he
  cases he with
  | append hpc =>
    rename_i b
    obtain ⟨hc, hempty⟩ := h.in_call (p := p) (by rw [hpc]; rfl)
    refine h.of_call halone (by simp [State.goto, hnone]) hempty hc fun b' => ?_
    have hnew := running_update (s := x.base) (p := p) (c := .inOp) (b := b')
      (m := update x.base.mine p (absorb (x.base.mine p) b))
      fun q hq => update_of_ne hq _ _
    have hold := h.lh b'
    rw [running_split p, hpc] at hold
    refine Iff.trans ?_ (or_congr_right hnew.symm)
    simp only [mem_absorb, hold, update_self]
    generalize (∃ q, q ≠ p ∧ (x.base.pc q).inCall = true ∧ b' ∈ x.base.mine q) = others
    simp only [Pc.inCall, true_and, or_assoc, or_comm (a := others)]

theorem Joint.endOp (h : Joint x) (hs : Reserve.step x.base (.endOp p) = some u) : Joint { x with
      base := u
      final := x.data
      ended := x.ended ++ [⟨p, x.base.mine p⟩]
      hist := x.hist ++ [⟨p, x.base.mine p⟩] } := by
  obtain ⟨hnone, he⟩ := effect_of_step hs
  have halone := h.alone.effect he
  -- what the operation has logged passes from the running operations to the ended ones
  have hlh : ∀ c : Pc, c.inCall = false → x.base.pc p = .inOp → ∀ b, b ∈ x.base.log.lh ↔
      (∃ o ∈ x.ended ++ [⟨p, x.base.mine p⟩], b ∈ o.blocks) ∨
      ∃ q, (update x.base.pc p c q).inCall = true ∧ b ∈ x.base.mine q := by
    intro c hc hpc b
    rw [h.lh b, running_split p, running_update (s := x.base) (m := x.base.mine) fun _ _ => rfl, hpc,
      hc]
    simp only [Pc.inCall, true_and, mem_append, mem_singleton, or_and_right, exists_or,
      exists_eq_left, Bool.false_eq_true, false_and, false_or, or_assoc]
  cases he with
  | endCommitting hpc hc => exact absurd hc (h.alone.not_committing hpc)
  | endLast hpc =>
    obtain ⟨_, hempty⟩ := h.in_call (p := p) (by rw [hpc]; rfl)
    exact h.of_base _ x.data halone (by simp [State.goto, hnone]) hempty (fun _ => rfl)
      (hlh .commit rfl hpc)
  | endOp hpc =>
    obtain ⟨_, hempty⟩ := h.in_call (p := p) (by rw [hpc]; rfl)
    exact h.of_base _ x.data halone (by simp [State.goto, hnone]) hempty (fun _ => rfl)
      (hlh .out rfl hpc)

theorem Joint.endCommit (h : Joint x) (hs : Reserve.step x.base (.endCommit p) = some u)
    : Joint { x with base := u } := by
  obtain ⟨hnone, he⟩ := effect_of_step hs
  have halone := h.alone.effect he
  cases he with
  | endCommit hpc =>
    have hout := (h.alone.busy p (.inr hpc)).2
    have hidle : ∀ q, x.base.pc q ≠ .commit := by
      intro q hq
      rcases eq_or_ne q p with rfl | hqp
      · rw [hpc] at hq; cases hq
      · rw [hout q hqp] at hq; cases hq
    refine h.of_call halone (by simp [State.goto, hnone]) (h.idle hidle) rfl fun b => ?_
    have hnew := running_update (s := x.base) (p := p) (c := .out) (b := b)
      (m := x.base.mine) fun _ _ => rfl
    refine (h.lh b).trans (or_congr_right ?_)
    rw [running_split p, hpc]
    exact hnew.symm

theorem Joint.call (h : Joint x) {a : Act P} (hs : x.call a = some y) : Joint y := by
  cases a with
  | commit p => cases hs
  | beginOp p =>
    obtain ⟨u, hu, rfl⟩ := map_eq_some_iff.mp hs
    exact h.beginOp hu
  | logWrite p b =>
    obtain ⟨u, hu, rfl⟩ := map_eq_some_iff.mp hs
    exact h.logWrite hu
  | append p =>
    obtain ⟨u, hu, rfl⟩ := map_eq_some_iff.mp hs
    exact h.append hu
  | endOp p =>
    obtain ⟨u, hu, rfl⟩ := map_eq_some_iff.mp hs
    exact h.endOp hu
  | endCommit p =>
    obtain ⟨u, hu, rfl⟩ := map_eq_some_iff.mp hs
    exact h.endCommit hu

omit [DecidableEq P] in
/-- The header, once everything has been copied, is what the operations of the group have logged. -/
theorem Joint.commit_whole (h : Joint x) (hpc : x.base.pc p = .commit)
    (hlen : x.logged.length = x.base.log.lh.length) :
    Commit.Whole ⟨x.ended, x.logged, x.final⟩ := by
  obtain ⟨hc, _⟩ := h.alone.busy p (.inl hpc)
  have hlh : ∀ b, b ∈ x.base.log.lh ↔ ∃ o ∈ x.ended, b ∈ o.blocks := by
    intro b
    refine (h.lh b).trans (or_iff_left ?_)
    rintro ⟨q, hq, _⟩
    rw [h.alone.quiet hc q] at hq
    cases hq
  have hlog : x.logged = x.base.log.lh.map fun b => (b, x.final b) := by
    rw [h.logged, hlen, take_length, h.still hc]
  constructor
  · intro o ho b hb
    have hmem : b ∈ x.base.log.lh := (hlh b).mpr ⟨o, ho, hb⟩
    rw [hlog]
    exact mem_map_of_mem (f := fun b => (b, x.final b)) hmem
  · intro w hw
    rw [hlog, mem_map] at hw
    obtain ⟨b, hb, rfl⟩ := hw
    exact ⟨rfl, (hlh b).mp hb⟩

theorem Joint.finish (h : Joint x) (hs : x.step (.finish p) = some y) : Joint y := by
  simp only [Grp.step] at hs
  split_ifs at hs with hdone
  obtain ⟨u, hu, rfl⟩ := map_eq_some_iff.mp hs
  obtain ⟨hnone, he⟩ := effect_of_step hu
  have halone := h.alone.effect he
  cases he with
  | commit hpc =>
    have hlen : x.logged.length = x.base.log.lh.length := by
      rcases hdone with hlh | ⟨hh, _⟩
      · have hlog := h.logged
        rw [hlh, take_nil, map_nil] at hlog
        rw [hlog, hlh]
        rfl
      · exact h.headed hh
    obtain ⟨hc, hout⟩ := h.alone.busy p (.inl hpc)
    exact {
      alone := halone
      calm := by simp [State.goto, hnone]
      lh := by
        intro b
        refine ⟨fun hb => absurd hb not_mem_nil, ?_⟩
        rintro (⟨o, ho, _⟩ | ⟨q, hq, _⟩)
        · cases ho
        · rw [halone.quiet hc q] at hq
          cases hq
      still := fun _ => h.still hc
      idle := fun _ => ⟨rfl, rfl⟩
      logged := rfl
      headed := nofun
      whole := by
        intro c hcm
        rcases mem_append.mp hcm with hold | hnew
        · exact h.whole c hold
        · rw [mem_singleton.mp hnew]
          exact h.commit_whole hpc hlen
      hist := by simp [h.hist] }

theorem Joint.step (h : Joint x) {e : GrpEv P V} (hs : x.step e = some y) : Joint y := by
  cases e with
  | call a => exact h.call hs
  | finish p => exact h.finish hs
  | modify p b v =>
    simp only [Grp.step] at hs
    split_ifs at hs with hpc
    cases hs
    obtain ⟨hc, hlog, hhead⟩ := h.in_call (p := p) (by rw [hpc]; rfl)
    exact { h with
      still := fun hx => by rw [hc] at hx; cases hx
      logged := by simp [hlog] }
  | copy p =>
    simp only [Grp.step] at hs
    split_ifs at hs with hpc
    obtain ⟨b, hb, rfl⟩ := map_eq_some_iff.mp hs
    obtain ⟨hlt, hget⟩ := List.getElem?_eq_some_iff.mp hb
    exact { h with
      idle := fun hx => absurd hpc (hx p)
      logged := by
        rw [length_append, length_singleton, take_add_one, hb, map_append,
          ← h.logged]
        rfl
      headed := fun hh => absurd (h.headed hh) (ne_of_lt hlt) }
  | header p =>
    simp only [Grp.step] at hs
    split_ifs at hs with hg
    cases hs
    exact { h with
      idle := fun hx => absurd hg.1 (hx p)
      headed := fun _ => hg.2.1 }
  | install p =>
    simp only [Grp.step] at hs
    split_ifs at hs with hg
    obtain ⟨w, hw, rfl⟩ := map_eq_some_iff.mp hs
    exact { h with }

/-- The home blocks hold the finished commits, in order, and what the running one has installed. -/
structure AtHome (d : ℕ → V) (x : Grp P V) : Prop where
  le : x.installed ≤ x.logged.length
  home : x.home = play d (x.commits.flatMap Commit.written ++ x.logged.take x.installed)

theorem AtHome.step {d : ℕ → V} (h : AtHome d x) (hj : Joint x) {e : GrpEv P V}
    (hs : x.step e = some y) : AtHome d y := by
  cases e with
  | call a =>
    cases a with
    | commit p => cases hs
    | beginOp | logWrite | append | endOp | endCommit =>
      obtain ⟨u, hu, rfl⟩ := map_eq_some_iff.mp hs
      exact ⟨h.le, h.home⟩
  | modify p b v | header p =>
    simp only [Grp.step] at hs
    split_ifs at hs
    cases hs
    exact ⟨h.le, h.home⟩
  | copy p =>
    simp only [Grp.step] at hs
    split_ifs at hs
    obtain ⟨b, -, rfl⟩ := map_eq_some_iff.mp hs
    refine ⟨h.le.trans (by simp), ?_⟩
    rw [h.home, take_append_of_le_length h.le]
  | install p =>
    simp only [Grp.step] at hs
    split_ifs at hs
    obtain ⟨w, hw, rfl⟩ := map_eq_some_iff.mp hs
    refine ⟨(List.getElem?_eq_some_iff.mp hw).1, ?_⟩
    rw [take_add_one, hw, ← append_assoc, play_append, ← h.home]
    rfl
  | finish p =>
    simp only [Grp.step] at hs
    split_ifs at hs with hdone
    obtain ⟨u, -, rfl⟩ := map_eq_some_iff.mp hs
    have htake : x.logged.take x.installed = x.logged := by
      rcases hdone with hlh | ⟨-, hi⟩
      · rw [hj.logged, hlh, take_nil, map_nil, take_nil]
      · rw [hi, take_length]
    refine ⟨le_rfl, ?_⟩
    rw [h.home, htake]
    simp

omit [DecidableEq P] in
theorem joint_init (d : ℕ → V) : Joint (Grp.init d : Grp P V) where
  alone := alone_init
  calm := by simp [Grp.init, Reserve.init]
  lh := fun b => by simp [Grp.init, Reserve.init, Pc.inCall]
  still := fun _ => rfl
  idle := fun _ => ⟨rfl, rfl⟩
  logged := rfl
  headed := nofun
  whole := nofun
  hist := rfl

/-- Group commit never splits or overlaps an operation. In every reachable state: nothing is
  outstanding while a commit runs, no `begin_op` and no `log_write` completes then, `end_op` has not
  panicked, and the operations that have ended are, in order, those of the commits and of the group
  still open; each commit has written exactly the blocks of its operations, as they were after the
  last one, and a finished commit has them at home. -/
theorem group_commit (d : ℕ → V) (x : Grp P V)
    (h : Reach Grp.step (fun _ _ => True) (Grp.init d) x) :
    (x.base.log.committing = true → x.base.log.outstanding = 0 ∧
      ∀ p b, x.step (.call (.beginOp p)) = none ∧ x.step (.call (.logWrite p b)) = none ∧
        x.step (.call (.append p)) = none) ∧
    x.base.panicked ≠ some "log.committing" ∧
    x.hist = x.commits.flatMap Commit.ops ++ x.ended ∧
    (∀ c ∈ x.commits, c.Whole) ∧
    x.home = play d (x.commits.flatMap Commit.written ++ x.logged.take x.installed) := by
  obtain ⟨hj, hhome⟩ := h.invariant (I := fun x => Joint x ∧ AtHome d x) ⟨joint_init d, le_rfl, rfl⟩
    fun _ _ _ hx _ hs => ⟨hx.1.step hs, hx.2.step hx.1 hs⟩
  refine ⟨fun hc => ⟨hj.alone.outstanding_eq hc, fun p b => ?_⟩, hj.calm, hj.hist, hj.whole,
    hhome.home⟩
  simp only [Grp.step, Grp.call, Option.map_eq_none_iff]
  exact ⟨hj.alone.blocked hc (.inl ⟨p, rfl⟩), hj.alone.blocked hc (.inr (.inl ⟨p, b, rfl⟩)),
    hj.alone.blocked hc (.inr (.inr ⟨p, rfl⟩))⟩

/-- Two overlapping operations that log block 5, the first of them block 6 as well; block 5 is
  modified again after the first has ended, and a third operation begins after their commit. -/
def overlapping : List (GrpEv (Fin 2) ℕ) :=
  [.call (.beginOp 0), .call (.beginOp 1), .modify 0 5 1, .call (.logWrite 0 5), .call (.append 0),
    .modify 0 6 2, .call (.logWrite 0 6), .call (.append 0), .call (.endOp 0), .modify 1 5 3,
    .call (.logWrite 1 5), .call (.append 1), .call (.endOp 1), .copy 1, .copy 1, .header 1,
    .install 1, .install 1, .finish 1, .call (.endCommit 1), .call (.beginOp 0)]

/-- The two operations are one commit, which writes the last contents of block 5. -/
theorem group_commit_overlapping : ∃ x : Grp (Fin 2) ℕ,
    Reach Grp.step (fun _ _ => True) (Grp.init fun _ => 0) x ∧
    x.commits.map Commit.written = [[(5, 3), (6, 2)]] ∧ x.hist.map Op.proc = [0, 1] ∧
    x.hist = x.commits.flatMap Commit.ops ++ x.ended ∧ ∀ c ∈ x.commits, c.Whole := by
  obtain ⟨x, hx, hsees⟩ := exists_reach (show (follow Grp.step (fun _ _ => True)
    (Grp.init fun _ => 0) overlapping).map
      (fun x => (x.commits.map Commit.written, x.hist.map Op.proc)) =
        some ([[(5, 3), (6, 2)]], [0, 1]) by decide +kernel)
  obtain ⟨_, _, hhist, hwhole, _⟩ := group_commit _ x hx
  exact ⟨x, hx, congrArg Prod.fst hsees, congrArg Prod.snd hsees, hhist, hwhole⟩

end

end Xv6.Disk.Reserve

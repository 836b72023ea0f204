import Xv6.Schemes.Machine
import Xv6.Fs.Contents

/-! @src file.c, fs.c | part:writers of one struct file

  Processes that share a `struct file` by `fork` or `dup` call `filewrite` on it. A call is split
  into chunks; the lock of the inode is held over `writei` and over the advance of `f->off`, and
  between two chunks any process may go on. Each locked chunk is one step; the accepted ones are
  kept in the order of the lock:

      f->off      o0        o1         o2     o3
      contents  … | chunk 1 | chunk 2  |  3   | … -/

namespace Xv6.Fs.Shared
open Schemes
open List
open Function

def maxChunk : ℕ := ((MAXOPBLOCKS - 1 - 1 - 2) / 2) * 512

/-- A call of `filewrite` that has written the first `i` bytes of its buffer. -/
structure Pending where
  addr : List UInt8
  i : ℕ

def Pending.chunk (c : Pending) : List UInt8 := (c.addr.drop c.i).take maxChunk

structure Accepted (P : Type) where
  proc : P
  off : ℕ
  src : List UInt8

/-- The file system, `f->off`, the calls under way, what the last calls returned, and the accepted
  chunks in the order in which they obtained the lock. -/
structure Sys (P : Type) where
  fs : St
  off : ℕ
  call : P → Option Pending
  ret : P → Option ℤ
  log : List (Accepted P)

/-- What happens: a process calls `filewrite`, does the next chunk, or leaves the loop at `i == n`;
  and the rest of the system changes the file system. -/
inductive Ev (P : Type) where
  | enter (p : P) (addr : List UInt8)
  | chunk (p : P)
  | leave (p : P)
  | other (s : St)

variable {P : Type} [DecidableEq P]

/-- The rest of a turn of the loop: `f->off += r` under the lock, then the tests of `r`. A negative
  `r` ends the call with -1. The panics `short filewrite` and those of `writei` have no next
  state. -/
def afterWrite (x : Sys P) (p : P) (c : Pending) :
    Except String (Option ℕ) × St → Option (Sys P)
  | (.error _, _) => none
  | (.ok none, s) =>
    some { x with
      fs := s
      call := update x.call p none
      ret := update x.ret p (some (-1)) }
  | (.ok (some r), s) =>
    if r ≠ c.chunk.length then none
    else some { x with
      fs := s
      off := if r > 0 then (x.off + r) % 2 ^ 32 else x.off
      call := update x.call p (some { c with i := c.i + r })
      log := x.log ++ [⟨p, x.off, c.chunk⟩] }

/-- One turn of the loop of `filewrite`, `while(i < n)`, by a process that is in it. -/
def turn (sb : Super) (devsw : Devsw) (ip : ℕ) (x : Sys P) (p : P) (c : Pending) :
    Option (Sys P) :=
  if c.i < c.addr.length then afterWrite x p c (writei sb devsw ip x.off c.chunk x.fs) else none

def finish (x : Sys P) (p : P) (c : Pending) : Option (Sys P) :=
  if c.i < c.addr.length then none
  else some { x with
    call := update x.call p none
    ret := update x.ret p (some (if c.i = c.addr.length then c.addr.length else -1)) }

def step (sb : Super) (devsw : Devsw) (ip : ℕ) (x : Sys P) : Ev P → Option (Sys P)
  | .enter p addr =>
    if (x.call p).isSome then none
    else some { x with call := update x.call p (some ⟨addr, 0⟩) }
  | .chunk p => (x.call p).bind (turn sb devsw ip x p)
  | .leave p => (x.call p).bind (finish x p)
  | .other s => some { x with fs := s }

/-- Nobody else writes the inode: what the rest of the system does leaves its type and its contents
  alone. -/
def Alone (sb : Super) (ip : ℕ) (x : Sys P) : Ev P → Prop
  | .other s => Owned sb s ∧ (s.inode ip).type = (x.fs.inode ip).type ∧
      bytes s ip = bytes x.fs ip
  | _ => True

def stored (log : List (Accepted P)) : List UInt8 := (log.map Accepted.src).flatten

def Packed : ℕ → List (Accepted P) → Prop
  | _, [] => True
  | o, c :: cs => c.off = o ∧ Packed (o + c.src.length) cs

def overwrite (a : List UInt8) (off : ℕ) (src : List UInt8) : List UInt8 :=
  a.take off ++ src ++ a.drop (off + src.length)

/-! ### Chunks one after the other -/

section
omit [DecidableEq P]

theorem stored_concat (log : List (Accepted P)) (c : Accepted P) :
    stored (log ++ [c]) = stored log ++ c.src := by
  rw [stored, stored, map_append, flatten_append, map_singleton,
    flatten_singleton]

theorem Packed.concat : ∀ {log : List (Accepted P)} {o : ℕ} {c : Accepted P}, Packed o log →
    c.off = o + (stored log).length → Packed o (log ++ [c])
  | [], o, c, _, hc => ⟨by simpa [stored] using hc, trivial⟩
  | d :: log, o, c, h, hc => by
    refine ⟨h.1, h.2.concat ?_⟩
    rw [hc, stored, map_cons, flatten_cons, length_append, stored]
    omega

/-- A packed chunk is in its place among the accepted bytes. -/
theorem Packed.stored_at : ∀ {log : List (Accepted P)} {o k : ℕ} {c : Accepted P}, Packed o log →
    log[k]? = some c → o ≤ c.off ∧ ((stored log).drop (c.off - o)).take c.src.length = c.src
  | [], o, k, c, _, hk => by simp at hk
  | d :: log, o, 0, c, h, hk => by
    have hdc : d = c := by simpa using hk
    subst hdc
    refine ⟨h.1.ge, ?_⟩
    rw [h.1, Nat.sub_self, drop_zero, stored, map_cons, flatten_cons,
      take_left]
  | d :: log, o, k + 1, c, h, hk => by
    obtain ⟨hle, htake⟩ := h.2.stored_at (by simpa using hk)
    refine ⟨by omega, ?_⟩
    have hoff : c.off - o = d.src.length + (c.off - (o + d.src.length)) := by omega
    rw [hoff, stored, map_cons, flatten_cons, drop_append, ← stored]
    rw [drop_eq_nil_of_le (by omega), nil_append, Nat.add_sub_cancel_left]
    exact htake

end

theorem overwrite_nil (a : List UInt8) (off : ℕ) : overwrite a off [] = a := by
  rw [overwrite, append_nil, length_nil, add_zero, take_append_drop]

theorem overwrite_overwrite {a : List UInt8} {off : ℕ} (h : off ≤ a.length)
    (src src' : List UInt8) :
    overwrite (overwrite a off src) (off + src.length) src' = overwrite a off (src ++ src') := by
  have hhead : (a.take off ++ src).length = off + src.length := by
    rw [length_append, length_take, Nat.min_eq_left h]
  unfold overwrite
  rw [take_left' hhead, ← drop_drop, drop_left' hhead, drop_drop,
    length_append, append_assoc (a.take off) src src', add_assoc]

theorem overwrite_at {a : List UInt8} {off : ℕ} (h : off ≤ a.length) (src : List UInt8) (d n : ℕ)
    (hd : d + n ≤ src.length) :
    ((overwrite a off src).drop (off + d)).take n = (src.drop d).take n := by
  have hhead : (a.take off).length = off := by rw [length_take, Nat.min_eq_left h]
  rw [overwrite, append_assoc, ← drop_drop, drop_left' hhead, drop_append,
    take_append_of_le_length (by rw [length_drop]; omega)]

/-! ### Runs -/

variable {sb : Super} {devsw : Devsw} {ip : ℕ} {x0 x : Sys P}

/-- The start: a file system with this inode in use for a file or a directory, and no chunk
  accepted yet. -/
structure Start (sb : Super) (ip : ℕ) (x : Sys P) : Prop where
  owned : Owned sb x.fs
  live : Live x.fs ip
  file : (x.fs.inode ip).type ≠ T_DEV
  off : x.off < 2 ^ 32
  log : x.log = []

structure Kept (sb : Super) (ip : ℕ) (x0 x : Sys P) : Prop where
  owned : Owned sb x.fs
  type : (x.fs.inode ip).type = (x0.fs.inode ip).type
  packed : Packed x0.off x.log
  off : x.off = x0.off + (stored x.log).length
  small : x.off < 2 ^ 32
  contents : bytes x.fs ip = overwrite (bytes x0.fs ip) x0.off (stored x.log)
  inside : x.log ≠ [] → x0.off ≤ (bytes x0.fs ip).length

omit [DecidableEq P] in
theorem Start.kept (h : Start sb ip x0) : Kept sb ip x0 x0 where
  owned := h.owned
  type := rfl
  packed := by
    rw [h.log]
    trivial
  off := by
    rw [h.log]
    rfl
  small := h.off
  contents := by
    rw [h.log]
    exact (overwrite_nil _ _).symm
  inside hne := absurd h.log hne

theorem Pending.length_chunk_lt (c : Pending) : c.chunk.length < 2 ^ 32 := by
  have : c.chunk.length ≤ maxChunk := length_take_le _ _
  exact this.trans_lt (by decide)

omit [DecidableEq P] in
/-- An accepted chunk starts within the file, so the first one starts within the old contents. -/
theorem Kept.start_inside (h : Kept sb ip x0 x) (hle : x.off ≤ (bytes x.fs ip).length) :
    x0.off ≤ (bytes x0.fs ip).length := by
  by_cases hlog : x.log = []
  · rw [h.contents, h.off, hlog] at hle
    simpa [stored, overwrite_nil] using hle
  · exact h.inside hlog

theorem Kept.afterWrite (h : Kept sb ip x0 x) {p : P} {c : Pending}
    {o : Except String (Option ℕ) × St} {x' : Sys P} (hstep : afterWrite x p c o = some x')
    (hw : ∀ r s', o = (.ok r, s') →
      Refines sb x.fs (.write ip x.off c.chunk) (.count r) s') : Kept sb ip x0 x' := by
  obtain ⟨_ | r, s'⟩ := o
  · cases hstep
  have hr := hw r s' rfl
  have hres : Result.count r = (act (bytes x.fs ip) (.write ip x.off c.chunk)).1 := hr.result
  have hself : bytes s' ip = (act (bytes x.fs ip) (.write ip x.off c.chunk)).2 := hr.self
  rw [act] at hres hself
  by_cases hok : x.off ≤ (bytes x.fs ip).length ∧ x.off + c.chunk.length < 2 ^ 32 ∧
      x.off + c.chunk.length ≤ MAXFILE * BSIZE
  · rw [if_pos hok] at hres hself
    obtain rfl : r = some c.chunk.length := Result.count.inj hres
    have hin := h.start_inside hok.1
    rw [Shared.afterWrite, if_neg (not_not.mpr rfl)] at hstep
    cases hstep
    have hoff : (if c.chunk.length > 0 then (x.off + c.chunk.length) % 2 ^ 32 else x.off) =
        x.off + c.chunk.length := by
      split_ifs with hpos
      · exact Nat.mod_eq_of_lt hok.2.1
      · omega
    refine ⟨hr.owned, (hr.type ip).trans h.type, h.packed.concat h.off, ?_, ?_, ?_, fun _ => hin⟩
    · simp only
      rw [hoff, h.off, stored_concat, length_append, add_assoc]
    · simp only
      rw [hoff]
      exact hok.2.1
    · -- the new chunk continues the bytes stored so far
      simp only
      rw [hself, h.contents, stored_concat, ← overwrite_overwrite hin, h.off]
      rfl
  · rw [if_neg hok] at hres hself
    obtain rfl : r = none := Result.count.inj hres
    cases hstep
    exact ⟨hr.owned, (hr.type ip).trans h.type, h.packed, h.off, h.small,
      hself.trans h.contents, h.inside⟩

omit [DecidableEq P] in
theorem Kept.writei (h0 : Start sb ip x0) (h : Kept sb ip x0 x) (c : Pending) :
    Prog.Ends OutOfBlocks x.fs (writei sb devsw ip x.off c.chunk)
      fun r s' => Refines sb x.fs (.write ip x.off c.chunk) (.count r) s' := by
  have hlive : Live x.fs ip := by
    rw [Live, h.type]
    exact h0.live
  have hfile : (x.fs.inode ip).type ≠ T_DEV := by
    rw [h.type]
    exact h0.file
  exact writei_ends h.owned hlive hfile h.small c.length_chunk_lt

theorem Kept.step (h0 : Start sb ip x0) (h : Kept sb ip x0 x) (e : Ev P) {x' : Sys P}
    (hG : Alone sb ip x e) (hstep : step sb devsw ip x e = some x') : Kept sb ip x0 x' := by
  cases e with
  | enter p addr =>
    rw [Shared.step] at hstep
    split_ifs at hstep
    cases hstep
    exact ⟨h.owned, h.type, h.packed, h.off, h.small, h.contents, h.inside⟩
  | chunk p =>
    obtain ⟨c, -, hturn⟩ := Option.bind_eq_some_iff.mp hstep
    rw [turn] at hturn
    split_ifs at hturn
    refine h.afterWrite hturn fun r s' ho => ?_
    have hends : Prog.Ends OutOfBlocks x.fs (Fs.writei sb devsw ip x.off c.chunk) _ :=
      h.writei h0 c
    exact hends.of_run ho
  | leave p =>
    obtain ⟨c, -, hfinish⟩ := Option.bind_eq_some_iff.mp hstep
    rw [finish] at hfinish
    split_ifs at hfinish
    all_goals
      cases hfinish
      exact ⟨h.owned, h.type, h.packed, h.off, h.small, h.contents, h.inside⟩
  | other s =>
    obtain ⟨howned, htype, hbytes⟩ := hG
    cases hstep
    exact ⟨howned, htype.trans h.type, h.packed, h.off, h.small, hbytes.trans h.contents,
      h.inside⟩

theorem kept_of_reach (h0 : Start sb ip x0)
    (hreach : Reach (step sb devsw ip) (Alone sb ip) x0 x) : Kept sb ip x0 x :=
  hreach.invariant h0.kept fun _ e _ hk hG hs => hk.step h0 e hG hs

omit [DecidableEq P] in
/-- Every accepted chunk is where it was written. -/
theorem Kept.chunk_at (h : Kept sb ip x0 x) {k : ℕ} {c : Accepted P} (hk : x.log[k]? = some c) :
    ((bytes x.fs ip).drop c.off).take c.src.length = c.src := by
  obtain ⟨hle, htake⟩ := h.packed.stored_at hk
  have hin : x0.off ≤ (bytes x0.fs ip).length := h.inside fun hnil => by simp [hnil] at hk
  rcases eq_zero_or_pos c.src.length with hz | hpos
  · rw [hz, take_zero, eq_nil_of_length_eq_zero hz]
  have hlen : (c.off - x0.off) + c.src.length ≤ (stored x.log).length := by
    have := congrArg List.length htake
    rw [length_take, length_drop] at this
    omega
  have hat := overwrite_at hin (stored x.log) (c.off - x0.off) c.src.length hlen
  rw [Nat.add_sub_cancel' hle, htake, ← h.contents] at hat
  exact hat

theorem chunk_whole (h0 : Start sb ip x0) (hreach : Reach (step sb devsw ip) (Alone sb ip) x0 x)
    (c : Pending) :
    Prog.Ends OutOfBlocks x.fs (writei sb devsw ip x.off c.chunk)
      fun r _ => r = none ∨ r = some c.chunk.length := by
  refine ((kept_of_reach h0 hreach).writei h0 c).post fun r s' hr => ?_
  have hres : Result.count r = (act (bytes x.fs ip) (.write ip x.off c.chunk)).1 := hr.result
  rw [act] at hres
  split_ifs at hres
  · exact .inr (Result.count.inj hres)
  · exact .inl (Result.count.inj hres)

/-- In every run of processes that write through one `struct file`, on an inode that nobody else
  writes: each accepted chunk was written where the one before it ended; `f->off` is its start
  value plus the accepted bytes; and the contents are the old ones with the accepted chunks over
  them, in the order of the lock. No chunk is accepted in part. -/
theorem shared_writes (h0 : Start sb ip x0)
    (hreach : Reach (step sb devsw ip) (Alone sb ip) x0 x) :
    Packed x0.off x.log ∧
      x.off = x0.off + (stored x.log).length ∧
      bytes x.fs ip = overwrite (bytes x0.fs ip) x0.off (stored x.log) ∧
      (∀ (k : ℕ) (c : Accepted P), x.log[k]? = some c →
        ((bytes x.fs ip).drop c.off).take c.src.length = c.src) ∧
      ∀ c : Pending, Prog.Ends OutOfBlocks x.fs (writei sb devsw ip x.off c.chunk)
        fun r _ => r = none ∨ r = some c.chunk.length := by
  have h := kept_of_reach h0 hreach
  exact ⟨h.packed, h.off, h.contents, fun _ _ hk => h.chunk_at hk, chunk_whole h0 hreach⟩

def bothIdle : Sys Bool := ⟨twoFiles, 0, fun _ => none, fun _ => none, []⟩

theorem start_bothIdle : Start twentyBlocks 1 bothIdle where
  owned := owned_twoFiles
  live := by
    rw [Live]
    decide
  file := by decide
  off := by decide
  log := rfl

def takingTurns : List (Ev Bool) :=
  [.enter false [1, 2], .enter true [3], .chunk false, .leave false, .enter false [4], .chunk true,
    .chunk false]

def isCall : Ev Bool → Bool
  | .other _ => false
  | _ => true

/-- The file holds the three chunks one after the other. -/
theorem shared_writes_two :
    ∃ x, Reach (step twentyBlocks noDevices 1) (Alone twentyBlocks 1) bothIdle x ∧
      x.log.map Accepted.src = [[1, 2], [3], [4]] ∧ x.off = 4 ∧ bytes x.fs 1 = [1, 2, 3, 4] := by
  have hrun : (follow (step twentyBlocks noDevices 1) (fun _ e => isCall e) bothIdle
      takingTurns).map (fun x => x.log.map Accepted.src) = some [[1, 2], [3], [4]] := by
    decide +kernel
  obtain ⟨x, hreach, hlog⟩ := exists_reach hrun
  have hreach : Reach (step twentyBlocks noDevices 1) (Alone twentyBlocks 1) bothIdle x := by
    refine hreach.mono fun t e he => ?_
    cases e with
    | other s => cases he
    | enter p addr | chunk p | leave p => trivial
  obtain ⟨-, hoff, hbytes, -⟩ := shared_writes start_bothIdle hreach
  have hstored : stored x.log = [1, 2, 3, 4] := by
    rw [stored, hlog]
    rfl
  rw [hstored] at hoff hbytes
  exact ⟨x, hreach, hlog, hoff, hbytes⟩

end Xv6.Fs.Shared

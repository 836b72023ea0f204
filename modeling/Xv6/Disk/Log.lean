import Xv6.Disk.Bio

/-! @src log.c | part:redo log | scheme:prog, redo

  The log over the buffer cache. `log.lh` is kept as the list of its first `n` block numbers, the
  only part of `log.lh.block` the code reads. On disk the header is the `struct logheader` at the
  start of block `log.start`: word 0 is `n`, word `i + 1` is `block[i]`.

  A call that would sleep stops the run of one thread: a run is the list of the calls that complete,
  in order. -/

namespace Xv6.Disk
open Schemes Prog

/-- `hb->block[i] = log.lh.block[i]` for the blocks of `l`, from entry `i` on. -/
def putEntries : ℕ → List ℕ → Block → Block
  | _, [], b => b
  | i, a :: l, b => putEntries (i + 1) l (store b (4 + 4 * i) (bytes32 a))

/-- The header block after `writeHead`: word `n` and the first `n` entries are overwritten. -/
def headStamp (l : List ℕ) (b : Block) : Block := putEntries 0 l (store b 0 (bytes32 l.length))

def headN (b : Block) : ℤ := toInt32 (le32 b 0)

def headTargets (b : Block) : List ℕ :=
  (List.range (headN b).toNat).map fun i => le32 b (4 + 4 * i)

variable (g : Geom)

def setLh (l : List ℕ) : K Unit := modify fun s => { s with log := { s.log with lh := l } }

/-- Copy committed blocks from log to their home location; `tail` counts the blocks of `l` done. -/
def installTransFrom : ℕ → List ℕ → K Unit
  | _, [] => pure ()
  | tail, a :: l => do
    let lbuf ← bread g ROOTDEV (g.logstart + tail + 1)
    let dbuf ← bread g ROOTDEV a
    let s ← get
    memmove dbuf (s.buf lbuf).data
    bwrite g dbuf
    brelse lbuf
    brelse dbuf
    installTransFrom (tail + 1) l

/-- Copy the committed blocks home. -/
def installTrans : K Unit := do
  let s ← get
  installTransFrom g 0 s.log.lh

/-- Read the log header from disk into the in-memory log header. The copy loop runs past
  `log.lh.block` when the header claims more than `LOGSIZE` entries. -/
def readHead : K Unit := do
  let buf ← bread g ROOTDEV g.logstart
  let s ← get
  let b := (s.buf buf).data
  if (LOGSIZE : ℤ) < headN b then stop .overrun
  else
    setLh (headTargets b)
    brelse buf

/-- Write the in-memory log header to disk: the commit point of a transaction. -/
def writeHead : K Unit := do
  let buf ← bread g ROOTDEV g.logstart
  let s ← get
  memmove buf (headStamp s.log.lh (s.buf buf).data)
  bwrite g buf
  brelse buf

/-- Finish the transaction found in the log. -/
def recoverFromLog : K Unit := do
  readHead g
  installTrans g
  setLh []
  writeHead g

/-- Copy modified blocks from cache to log; `tail` counts the blocks of `l` done. -/
def writeLogFrom : ℕ → List ℕ → K Unit
  | _, [] => pure ()
  | tail, a :: l => do
    let tobuf ← bread g ROOTDEV (g.logstart + tail + 1)
    let frombuf ← bread g ROOTDEV a
    let s ← get
    memmove tobuf (s.buf frombuf).data
    bwrite g tobuf
    brelse frombuf
    brelse tobuf
    writeLogFrom (tail + 1) l

/-- Copy the modified blocks to the log. -/
def writeLog : K Unit := do
  let s ← get
  writeLogFrom g 0 s.log.lh

/-- Write the log and its header, install, and erase the transaction. -/
def commit : K Unit := do
  let s ← get
  if 0 < s.log.lh.length then
    writeLog g
    writeHead g
    installTrans g
    setLh []
    writeHead g

def Log.admits (l : Log) : Bool :=
  !l.committing && decide (¬ (l.lh.length + (l.outstanding + 1) * MAXOPBLOCKS > LOGSIZE))

/-- The start of a file system call. -/
def beginOp : K Unit := do
  let s ← get
  if s.log.admits then
    modify fun s => { s with log := { s.log with outstanding := s.log.outstanding + 1 } }
  else stop .asleep

def Log.full (size : ℕ) (l : Log) : Bool :=
  decide (l.lh.length ≥ LOGSIZE ∨ (l.lh.length : ℤ) ≥ size - 1)

/-- Log absorption: a block already in the header is not recorded twice. -/
def absorb (l : List ℕ) (a : ℕ) : List ℕ := if a ∈ l then l else l ++ [a]

/-- Add a block to the transaction. -/
def logWrite (i : Fin NBUF) : K Unit := do
  let s ← get
  if s.log.full g.nlog then stop (.panic "too big a transaction")
  else if s.log.outstanding < 1 then stop (.panic "log_write outside of trans")
  else
    setLh (absorb s.log.lh (s.buf i).blockno)
    setBuf i fun b => { b with dirty := true }

/-- Called at the end of each file-system call; commits if it was the last outstanding one. -/
def endOp : K Unit := do
  modify fun s => { s with log := { s.log with outstanding := s.log.outstanding - 1 } }
  let s ← get
  if s.log.committing then stop (.panic "log.committing")
  else if s.log.outstanding = 0 then
    modify fun s => { s with log := { s.log with committing := true } }
    commit g
    modify fun s => { s with log := { s.log with committing := false } }

theorem mem_absorb {l : List ℕ} {a b : ℕ} : b ∈ absorb l a ↔ b ∈ l ∨ b = a := by
  unfold absorb
  split_ifs with h
  · exact ⟨.inl, fun hb => hb.elim id fun hb => hb ▸ h⟩
  · simp

/-! ### The header format -/

theorem putEntries_le32_of_lt : ∀ (l : List ℕ) (i : ℕ) (b : Block) {o : ℕ}, o + 4 ≤ 4 + 4 * i →
    le32 (putEntries i l b) o = le32 b o
  | [], _, _, _, _ => rfl
  | a :: l, i, b, o, h => by
    rw [putEntries, putEntries_le32_of_lt l (i + 1) _ (by omega)]
    exact le32_store_of_disjoint b (.inl h)

theorem putEntries_le32 : ∀ (l : List ℕ) (i : ℕ) (b : Block) {k : ℕ} (hk : k < l.length),
    i + l.length ≤ LOGSIZE → (∀ a ∈ l, a < 2 ^ 32) →
    le32 (putEntries i l b) (4 + 4 * (i + k)) = l.get ⟨k, hk⟩
  | [], _, _, _, hk, _, _ => by simp at hk
  | a :: l, i, b, 0, _, hlen, hlt => by
    rw [putEntries, putEntries_le32_of_lt l (i + 1) _ (by omega), add_zero,
      le32_store_same b (by simp [LOGSIZE, MAXOPBLOCKS, BSIZE] at hlen ⊢; omega)]
    exact Nat.mod_eq_of_lt (hlt a (List.mem_cons_self ..))
  | a :: l, i, b, k + 1, hk, hlen, hlt => by
    rw [putEntries, show i + (k + 1) = i + 1 + k by omega]
    exact putEntries_le32 l (i + 1) _ (by simpa using hk) (by simp at hlen; omega)
      (fun c hc => hlt c (List.mem_cons_of_mem _ hc))

theorem headN_headStamp {l : List ℕ} (hl : l.length ≤ LOGSIZE) (b : Block) :
    headN (headStamp l b) = l.length := by
  have h : le32 (headStamp l b) 0 = l.length := by
    rw [headStamp, putEntries_le32_of_lt l 0 _ (by omega), le32_store_same b (by simp [BSIZE])]
    simp [LOGSIZE, MAXOPBLOCKS] at hl
    omega
  simp only [LOGSIZE, MAXOPBLOCKS] at hl
  rw [headN, h, toInt32, if_pos (by omega)]

theorem headTargets_headStamp {l : List ℕ} (hl : l.length ≤ LOGSIZE) (hlt : ∀ a ∈ l, a < 2 ^ 32)
    (b : Block) : headTargets (headStamp l b) = l := by
  rw [headTargets, headN_headStamp hl, Int.toNat_natCast]
  refine List.ext_getElem (by simp) (fun k h1 h2 => ?_)
  rw [List.getElem_map, List.getElem_range]
  have := putEntries_le32 l 0 (store b 0 (bytes32 l.length)) h2 (by omega) hlt
  rwa [zero_add] at this

def layout : Layout Block where
  start := g.logstart
  size := g.nlog
  cap := min LOGSIZE (g.nlog - 1)
  cap_lt := by have := g.nlog_pos; omega
  bound := g.disksize
  targets := headTargets
  stamp := headStamp
  targets_stamp := fun l v hl hlt => headTargets_headStamp (by omega)
    (fun a ha => lt_of_lt_of_le (hlt a ha) (by
      have h := g.imgSize_lt
      have := Nat.div_le_self g.imgSize BSIZE
      simp only [Geom.disksize]; omega)) v

end Xv6.Disk

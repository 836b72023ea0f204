import Xv6.Param
import Xv6.Schemes.Prog

/-! @src fs.c, fs.h, stat.h | part:blocks and inode contents | scheme:prog

  The block allocator and the contents of inodes, over the blocks as the buffer cache shows them.
  The free bitmap is a map from block numbers to bits and the inode blocks are a map from inode
  numbers to `struct dinode`; a data block or an indirect block is its 512 bytes. `inode` is the
  in-memory copy of a locked inode, `dinode` the one on disk.

      addrs[0..11] --> data block            k-th byte of the file: block k / BSIZE,
      addrs[12] --> indirect block --> data block       byte k % BSIZE of it -/

namespace Xv6.Fs
open Schemes Prog
open List (range)
open Function

/-- An inode, on disk or in memory. -/
structure Dinode where
  type : ℕ
  major : ℤ
  minor : ℤ
  nlink : ℤ
  size : ℕ
  addrs : ℕ → ℕ

structure St where
  data : ℕ → Block
  used : ℕ → Bool
  dinode : ℕ → Dinode
  inode : ℕ → Dinode

/-- What the superblock fixes: the number of blocks, and how many of them come before the data area. -/
structure Super where
  size : ℕ
  nmeta : ℕ
  size_lt : size < 2 ^ 32
  nmeta_pos : 0 < nmeta

/-- The read and write functions of the devices; they do not touch the file system. -/
structure Devsw where
  read : ℤ → Option (ℕ → Option (List UInt8))
  write : ℤ → Option (List UInt8 → Option ℕ)

abbrev K := Prog St String

variable (sb : Super) (devsw : Devsw)

def setInode (i : ℕ) (f : Dinode → Dinode) : K Unit :=
  modify fun s => { s with inode := update s.inode i (f (s.inode i)) }

def setAddr (i k a : ℕ) : K Unit :=
  setInode i fun d => { d with addrs := update d.addrs k a }

def setData (b : ℕ) (d : Block) : K Unit :=
  modify fun s => { s with data := update s.data b d }

def setUsed (b : ℕ) (u : Bool) : K Unit :=
  modify fun s => { s with used := update s.used b u }

def bzero (b : ℕ) : K Unit := setData b fun _ => 0

/-- Allocate a zeroed disk block: the first one whose bit is clear. -/
def balloc : K ℕ := do
  let s ← get
  match (range sb.size).find? (fun b => !s.used b) with
  | some b =>
    setUsed b true
    bzero b
    pure b
  | none => stop "balloc: out of blocks"

/-- Free a disk block. -/
def bfree (b : ℕ) : K Unit := do
  let s ← get
  if s.used b then setUsed b false else stop "freeing free block"

/-- Copy a modified inode to disk. -/
def iupdate (i : ℕ) : K Unit :=
  modify fun s => { s with dinode := update s.dinode i (s.inode i) }

def entry (d : Block) (j : ℕ) : ℕ := le32 d (4 * j)

def addrAlloc (i k : ℕ) : K ℕ := do
  let s ← get
  if (s.inode i).addrs k = 0 then
    let addr ← balloc sb
    setAddr i k addr
    pure addr
  else pure ((s.inode i).addrs k)

def entryAlloc (root j : ℕ) : K ℕ := do
  let s ← get
  if entry (s.data root) j = 0 then
    let addr ← balloc sb
    let s ← get
    setData root (store (s.data root) (4 * j) (bytes32 addr))
    pure addr
  else pure (entry (s.data root) j)

/-- The disk block address of the `bn`-th block of an inode; if there is no such block, `bmap`
  allocates one. -/
def bmap (i bn : ℕ) : K ℕ :=
  if bn < NDIRECT then addrAlloc sb i bn
  else if bn - NDIRECT < NINDIRECT then do
    let root ← addrAlloc sb i NDIRECT
    entryAlloc sb root (bn - NDIRECT)
  else stop "bmap: out of range"

def itruncDirect (i : ℕ) : List ℕ → K Unit
  | [] => pure ()
  | k :: ks => do
    let s ← get
    if (s.inode i).addrs k = 0 then itruncDirect i ks
    else
      bfree ((s.inode i).addrs k)
      setAddr i k 0
      itruncDirect i ks

/-- The loop of `itrunc` over the entries of the indirect block, which is held meanwhile. -/
def itruncIndirect : List ℕ → K Unit
  | [] => pure ()
  | a :: as => do
    if a = 0 then itruncIndirect as
    else
      bfree a
      itruncIndirect as

def itruncRoot (i : ℕ) : K Unit := do
  let s ← get
  if (s.inode i).addrs NDIRECT = 0 then pure ()
  else
    itruncIndirect ((range NINDIRECT).map (entry (s.data ((s.inode i).addrs NDIRECT))))
    bfree ((s.inode i).addrs NDIRECT)
    setAddr i NDIRECT 0

/-- Free all blocks of an inode. -/
def itrunc (i : ℕ) : K Unit := do
  itruncDirect i (range NDIRECT)
  itruncRoot i
  setInode i fun d => { d with size := 0 }
  iupdate i

/-- `min(n - tot, BSIZE - off%BSIZE)`: how much of `n` bytes lies in the block of `off`. -/
def chunk (off n : ℕ) : ℕ := min n (BSIZE - off % BSIZE)

def readLoop (i : ℕ) : ℕ → ℕ → ℕ → K (List UInt8)
  | 0, _, _ => pure []
  | turns + 1, off, n =>
    if n = 0 then pure []
    else do
      let b ← bmap sb i (off / BSIZE)
      let s ← get
      let m := chunk off n
      let rest ← readLoop i turns (off + m) (n - m)
      pure ((range m).map (fun k => byteAt (s.data b) (off % BSIZE + k)) ++ rest)

/-- Read bytes of an inode. -/
def readi (i off n : ℕ) : K (Option (List UInt8)) := do
  let s ← get
  let ip := s.inode i
  if ip.type = T_DEV then
    if ip.major < 0 ∨ ip.major ≥ NDEV then pure none
    else pure ((devsw.read ip.major).bind fun f => f n)
  else if off > ip.size ∨ (off + n) % 2 ^ 32 < off then pure none
  else
    let n := if off + n > ip.size then ip.size - off else n
    let bs ← readLoop sb i n off n
    pure (some bs)

def writeLoop (i : ℕ) : ℕ → ℕ → List UInt8 → K Unit
  | 0, _, _ => pure ()
  | turns + 1, off, src =>
    if src = [] then pure ()
    else do
      let b ← bmap sb i (off / BSIZE)
      let m := chunk off src.length
      let s ← get
      setData b (store (s.data b) (off % BSIZE) (src.take m))
      writeLoop i turns (off + m) (src.drop m)

/-- Write bytes of an inode. -/
def writei (i off : ℕ) (src : List UInt8) : K (Option ℕ) := do
  let s ← get
  let ip := s.inode i
  let n := src.length
  if ip.type = T_DEV then
    if ip.major < 0 ∨ ip.major ≥ NDEV then pure none
    else pure ((devsw.write ip.major).bind fun f => f src)
  else if off > ip.size ∨ (off + n) % 2 ^ 32 < off then pure none
  else if (off + n) % 2 ^ 32 > MAXFILE * BSIZE then pure none
  else
    writeLoop sb i n off src
    if n > 0 ∧ off + n > ip.size then
      setInode i fun d => { d with size := off + n }
      iupdate i
    pure (some n)

end Xv6.Fs

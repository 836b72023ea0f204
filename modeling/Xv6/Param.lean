import Xv6.Schemes.Bytes

/-! @src param.h, fs.h, stat.h, pipe.c, mkfs.c | part:constants

  The constants the modelled code shares, under their C names. -/

namespace Xv6

def NPROC : ℕ := 64
def ROOTDEV : ℕ := 1
def ROOTINO : ℕ := 1
def MAXOPBLOCKS : ℕ := 10
def LOGSIZE : ℕ := MAXOPBLOCKS * 3
def NBUF : ℕ := MAXOPBLOCKS * 3
def MAXARG : ℕ := 32
def BSIZE : ℕ := 512

def PIPESIZE : ℕ := 512

def NDIRECT : ℕ := 12
def NINDIRECT : ℕ := BSIZE / 4
def MAXFILE : ℕ := NDIRECT + NINDIRECT
def NDEV : ℕ := 10

def T_DIR : ℕ := 1
def T_FILE : ℕ := 2
def T_DEV : ℕ := 3

theorem zero_lt_NPROC : 0 < NPROC := by decide

theorem one_lt_NPROC : 1 < NPROC := by decide

instance neZeroTwo : NeZero 2 := ⟨by decide⟩

instance neZeroFour : NeZero 4 := ⟨by decide⟩

abbrev Block := Schemes.Bytes BSIZE

end Xv6

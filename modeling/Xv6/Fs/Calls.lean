import Xv6.Fs.Locks
import Xv6.Fs.Files

/-! @src sysfile.c, fs.c, file.c, exec.c, log.c, console.c | part:file system calls | scheme:machine

  The calls of the file system with everything they take and give back: the transaction, the sleep
  locks of inodes, references to inodes, file table entries and descriptors. A call is a `Code`, the
  actions that are left to do; at each of them another process can come in.

      begin_op -> namei -> ilock -> filealloc -> fdalloc -> iunlock -> end_op -> f->ip = ip
                    |none     |dir      |none        |none -> fileclose
                    v         v         v            v
                 end_op    iunlockput -> end_op -> -1

  The ghosts: `tx`, whether a process is in a transaction; `fly`, the references to an inode it has
  taken and not passed on; `fresh`, the file it has allocated and not filled in; `placed`, whether
  that has a descriptor. -/

namespace Xv6.Fs.Calls
open Schemes
open Locks (Name Path)
open Xv6.Ftable (NOFILE NFILE Fd Fid)
open Function

/-- What is left of a call. `ret` is also what an idle process has left. -/
inductive Code where
  | ret (r : ℤ)
  | panic (msg : String)
  | beginOp (k : Code)
  | endOp (k : Code)
  | lock (i : ℕ) (k : Code)
  | check (i : ℕ) (k : Code)
  | unlock (i : ℕ) (k : Code)
  | get (i : ℕ) (k : Code)
  | put (i : ℕ) (k : Code)
  | deref (i : ℕ) (k : Code)
  | type (i : ℕ) (k : ℕ → Code)
  | links (i : ℕ) (k : ℤ → Code)
  | look (d : ℕ) (nm : Name) (k : Option ℕ → Code)
  | write (d : ℕ) (nm : Name) (r : Option ℕ) (k : Code)
  | empty (d : ℕ) (k : Bool → Code)
  | setLinks (i : ℕ) (f : ℤ → ℤ) (k : Code)
  | alloc (t : ℕ) (k : ℕ → Code)
  | init (i : ℕ) (major minor : ℤ) (k : Code)
  | writei (i : ℕ) (bs : List UInt8) (k : Code)
  | filealloc (k : Option Fid → Code)
  | fdalloc (f : Fid) (k : Option Fd → Code)
  | fileclose (f : Fid) (k : Option ℕ → Code)
  | closefd (fd : Fd) (k : Option (Option ℕ) → Code)
  | argfd (fd : Fd) (k : Option (Option ℕ) → Code)
  | dup (fd : Fd) (k : Option Fd → Code)
  | setFile (f : Fid) (ip : ℕ) (k : Code)
  | setCwd (c : Option ℕ) (k : Code)
  | coin (k : Bool → Code)

/-! ### The calls -/

/-- Lock an inode and read it from disk if necessary; a free inode is a panic. -/
def ilock (i : ℕ) (k : Code) : Code := .lock i (.check i k)

/-- Drop a reference; an inode without links is freed under its lock if that was the last one. -/
def iput (i : ℕ) (k : Code) : Code := .lock i (.put i (.unlock i (.deref i k)))

def iunlockput (i : ℕ) (k : Code) : Code := .unlock i (iput i k)

def namexLoop (parent : Bool) (k : Option (ℕ × Name) → Code) : List Name → ℕ → Code
  | [], ip => if parent then iput ip (k none) else k (some (ip, ""))
  | nm :: rest, ip => ilock ip (.type ip fun t =>
    if t ≠ T_DIR then iunlockput ip (k none)
    else if parent && rest.isEmpty then .unlock ip (k (some (ip, nm)))
    else .look ip nm fun r =>
      match r with
      | none => iunlockput ip (k none)
      | some next => iunlockput ip (namexLoop parent k rest next))

/-- Look up and return the inode for a path, or for its parent with the last element. -/
def namex (cwd : ℕ) (path : Path) (parent : Bool) (k : Option (ℕ × Name) → Code) : Code :=
  let ip := if path.abs then ROOTINO else cwd
  .get ip (namexLoop parent k path.elems ip)

def dirlink (dp : ℕ) (nm : Name) (inum : ℕ) (k : Bool → Code) : Code :=
  .look dp nm fun r =>
    match r with
    | some ip => iput ip (k false)
    | none => .write dp nm (some inum) (k true)

def fail : Code := .endOp (.ret (-1))

def linkBad (ip : ℕ) : Code := ilock ip (.setLinks ip (· - 1) (iunlockput ip fail))

def sysLink (cwd : ℕ) (old new : Path) : Code :=
  .beginOp (namex cwd old false fun r =>
    match r with
    | none => fail
    | some (ip, _) => ilock ip (.type ip fun t =>
      if t = T_DIR then iunlockput ip fail
      else .setLinks ip (· + 1) (.unlock ip (namex cwd new true fun r =>
        match r with
        | none => linkBad ip
        | some (dp, nm) => ilock dp (dirlink dp nm ip fun ok =>
          if ok then iunlockput dp (iput ip (.endOp (.ret 0)))
          else iunlockput dp (linkBad ip))))))

def unlinkEnd (dp ip t : ℕ) : Code :=
  let rest := iunlockput dp (.setLinks ip (· - 1) (iunlockput ip (.endOp (.ret 0))))
  if t = T_DIR then .setLinks dp (· - 1) rest else rest

def sysUnlink (cwd : ℕ) (path : Path) : Code :=
  .beginOp (namex cwd path true fun r =>
    match r with
    | none => fail
    | some (dp, nm) => ilock dp (
        if nm = "." ∨ nm = ".." then iunlockput dp fail
        else .look dp nm fun r =>
          match r with
          | none => iunlockput dp fail
          | some ip => ilock ip (.links ip fun n =>
            if n < 1 then .panic "unlink: nlink < 1"
            else .type ip fun t => .empty ip fun e =>
              if t = T_DIR && !e then iunlockput ip (iunlockput dp fail)
              else .write dp nm none (unlinkEnd dp ip t))))

/-- `create` for a name that is not there: a new inode, locked, with its entries. -/
def createNew (dp : ℕ) (nm : Name) (t : ℕ) (major minor : ℤ) (k : ℕ → Code) : Code :=
  .alloc t fun ip => ilock ip (.init ip major minor (
    let last := dirlink dp nm ip fun ok =>
      if ok then iunlockput dp (k ip) else .panic "create: dirlink"
    if t = T_DIR then
      .setLinks dp (· + 1) (dirlink ip "." ip fun ok =>
        if ok then dirlink ip ".." dp fun ok => if ok then last else .panic "create dots"
        else .panic "create dots")
    else last))

def create (cwd : ℕ) (path : Path) (t : ℕ) (major minor : ℤ) (k : Option ℕ → Code) : Code :=
  namex cwd path true fun r =>
    match r with
    | none => k none
    | some (dp, nm) => ilock dp (.look dp nm fun r =>
      match r with
      | some ip => iunlockput dp (ilock ip (.type ip fun t' =>
        if t = T_FILE ∧ t' = T_FILE then k (some ip) else iunlockput ip (k none)))
      | none => createNew dp nm t major minor fun ip => k (some ip))

def openEnd (ip : ℕ) : Code :=
  .filealloc fun f =>
    match f with
    | none => iunlockput ip fail
    | some f => .fdalloc f fun fd =>
      match fd with
      | none => .fileclose f fun r =>
        match r with
        | none => iunlockput ip fail
        | some j => .beginOp (iput j (.endOp (iunlockput ip fail)))
      | some fd => .unlock ip (.endOp (.setFile f ip (.ret fd.val)))

def sysOpen (cwd : ℕ) (path : Path) (creat rdonly : Bool) : Code :=
  .beginOp (
    if creat then create cwd path T_FILE 0 0 fun r =>
      match r with
      | none => fail
      | some ip => openEnd ip
    else namex cwd path false fun r =>
      match r with
      | none => fail
      | some (ip, _) => ilock ip (.type ip fun t =>
        if t = T_DIR && !rdonly then iunlockput ip fail else openEnd ip))

def sysMake (cwd : ℕ) (path : Option Path) (t : ℕ) (major minor : ℤ) : Code :=
  .beginOp (
    match path with
    | none => fail
    | some path => create cwd path t major minor fun r =>
      match r with
      | none => fail
      | some ip => iunlockput ip (.endOp (.ret 0)))

def sysChdir (cwd : ℕ) (path : Option Path) : Code :=
  .beginOp (
    match path with
    | none => fail
    | some path => namex cwd path false fun r =>
      match r with
      | none => fail
      | some (ip, _) => ilock ip (.type ip fun t =>
        if t ≠ T_DIR then iunlockput ip fail
        else .unlock ip (iput cwd (.endOp (.setCwd (some ip) (.ret 0))))))

def closeEnd (r : Option ℕ) (k : Code) : Code :=
  match r with
  | none => k
  | some ip => .beginOp (iput ip (.endOp k))

def sysClose (fd : Fd) : Code :=
  .closefd fd fun r =>
    match r with
    | none => .ret (-1)
    | some r => closeEnd r (.ret 0)

def device (ip : ℕ) (t : ℕ) (k : Code) : Code :=
  if t = T_DEV then .unlock ip (ilock ip k) else k

def sysRead (fd : Fd) : Code :=
  .argfd fd fun r =>
    match r with
    | none => .ret (-1)
    | some none => .ret 0
    | some (some ip) => ilock ip (.type ip fun t => device ip t (.unlock ip (.coin fun ok =>
      .ret (if ok then 0 else -1))))

/-- The loop of `filewrite`: one transaction for each piece; the contents after it are given. -/
def writeLoop (ip : ℕ) : List (List UInt8) → Code
  | [] => .ret 0
  | bs :: rest => .beginOp (ilock ip (.type ip fun t =>
    let next := Code.unlock ip (.endOp (.coin fun ok =>
      if ok then writeLoop ip rest else .ret (-1)))
    if t = T_DEV then .unlock ip (ilock ip next) else .writei ip bs next))

def sysWrite (fd : Fd) (pieces : List (List UInt8)) : Code :=
  .argfd fd fun r =>
    match r with
    | none => .ret (-1)
    | some none => .ret 0
    | some (some ip) => writeLoop ip pieces

def sysFstat (fd : Fd) : Code :=
  .argfd fd fun r =>
    match r with
    | none => .ret (-1)
    | some none => .ret (-1)
    | some (some ip) => ilock ip (.unlock ip (.ret 0))

/-- `exec` reads the program under the lock; it can fail there, or later without the inode. -/
def sysExec (cwd : ℕ) (path : Path) : Code :=
  .beginOp (namex cwd path false fun r =>
    match r with
    | none => fail
    | some (ip, _) => ilock ip (.coin fun ok =>
      if ok then iunlockput ip (.endOp (.coin fun ok => .ret (if ok then 0 else -1)))
      else iunlockput ip fail))

/-- `exit` closes the descriptors one by one and puts the current directory. -/
def exitLoop (cwd : ℕ) : List Fd → Code
  | [] => .beginOp (iput cwd (.endOp (.setCwd none (.ret 0))))
  | fd :: fds => .closefd fd fun r =>
    match r with
    | none => exitLoop cwd fds
    | some r => closeEnd r (exitLoop cwd fds)

inductive Call where
  | open (path : Option Path) (creat rdonly : Bool)
  | link (old new : Option Path)
  | unlink (path : Option Path)
  | mkdir (path : Option Path)
  | mknod (path : Option Path) (major minor : ℤ)
  | chdir (path : Option Path)
  | close (fd : Option Fd)
  | read (fd : Option Fd)
  | write (fd : Option Fd) (pieces : List (List UInt8))
  | fstat (fd : Option Fd)
  | exec (path : Option Path)
  | dup (fd : Option Fd)
  | exit

def Call.code (cwd : ℕ) : Call → Code
  | .open (some path) creat rdonly => sysOpen cwd path creat rdonly
  | .link (some old) (some new) => sysLink cwd old new
  | .unlink (some path) => sysUnlink cwd path
  | .mkdir path => sysMake cwd path T_DIR 0 0
  | .mknod path major minor => sysMake cwd path T_DEV major minor
  | .chdir path => sysChdir cwd path
  | .close (some fd) => sysClose fd
  | .read (some fd) => sysRead fd
  | .write (some fd) pieces => sysWrite fd pieces
  | .fstat (some fd) => sysFstat fd
  | .exec (some path) => sysExec cwd path
  | .dup (some fd) => .dup fd fun r => .ret (match r with | some fd => fd.val | none => -1)
  | .exit => exitLoop cwd (List.finRange NOFILE)
  | _ => .ret (-1)

/-! ### The machine -/

structure Disk where
  type : ℕ → ℕ
  major : ℕ → ℤ
  minor : ℕ → ℤ
  nlink : ℕ → ℤ
  data : ℕ → List UInt8
  entries : ℕ → List (Name × ℕ)

structure File where
  ref : ℤ
  ip : Option ℕ

structure St (P : Type) where
  disk : Disk
  ref : ℕ → ℤ
  valid : ℕ → Bool
  holder : ℕ → Option P
  outstanding : ℤ
  file : Fid → File
  cwd : P → Option ℕ
  ofile : P → Fd → Option Fid
  tx : P → Bool
  fly : P → ℕ → ℤ
  fresh : P → Option Fid
  placed : P → Bool

variable {P : Type} [DecidableEq P]

namespace Disk

def free (d : Disk) (i : ℕ) : Disk :=
  { d with
    type := update d.type i 0
    data := update d.data i []
    entries := update d.entries i [] }

def make (d : Disk) (i t : ℕ) : Disk :=
  { d with
    type := update d.type i t
    major := update d.major i 0
    minor := update d.minor i 0
    nlink := update d.nlink i 0
    data := update d.data i []
    entries := update d.entries i [] }

def find (d : Disk) (dp : ℕ) (nm : Name) : Option ℕ := (d.entries dp).lookup nm

def setEntry (d : Disk) (dp : ℕ) (nm : Name) (r : Option ℕ) : Disk :=
  let rest := (d.entries dp).filter (·.1 ≠ nm)
  let new := match r with
    | some i => (nm, i) :: rest
    | none => rest
  { d with entries := update d.entries dp new }

end Disk

namespace St

def setFly (s : St P) (p : P) (i : ℕ) (n : ℤ) : St P :=
  { s with fly := update s.fly p (update (s.fly p) i n) }

/-- `iget` and `idup` by `p`: one more reference; an inode that had none has not been read. -/
def iget (s : St P) (p : P) (i : ℕ) : St P :=
  { s.setFly p i (s.fly p i + 1) with
    ref := update s.ref i (s.ref i + 1)
    valid := if s.ref i = 0 then update s.valid i false else s.valid }

def drop (s : St P) (i : ℕ) : St P :=
  if s.valid i ∧ s.disk.nlink i = 0 ∧ s.ref i = 1 then
    { s with disk := s.disk.free i, valid := update s.valid i false }
  else s

def setFile (s : St P) (f : Fid) (v : File) : St P := { s with file := update s.file f v }

def setFd (s : St P) (p : P) (fd : Fd) (o : Option Fid) : St P :=
  { s with ofile := update s.ofile p (update (s.ofile p) fd o) }

def setFresh (s : St P) (p : P) (o : Option Fid) : St P :=
  { s with
    fresh := update s.fresh p o
    placed := update s.placed p false }

def freeFd (s : St P) (p : P) : Option Fd :=
  (List.finRange NOFILE).find? fun fd => s.ofile p fd = none

def freeFile (s : St P) : Option Fid := (List.finRange NFILE).find? fun f => (s.file f).ref = 0

def release (s : St P) (p : P) (f : Fid) : St P × Option ℕ :=
  if (s.file f).ref - 1 > 0 then (s.setFile f { s.file f with ref := (s.file f).ref - 1 }, none)
  else
    let t := s.setFile f ⟨0, none⟩
    match (s.file f).ip with
    | none => (t, none)
    | some i => (t.setFly p i (s.fly p i + 1), some i)

/-- The next action of process `p`; `n` is the inode `ialloc` finds and `b` decides what is not
  modelled. `none` means that the process has to wait. -/
def act (s : St P) (p : P) (n : ℕ) (b : Bool) : Code → Option (St P × Code)
  | .ret _ => none
  | .panic _ => none
  | .beginOp k =>
    some ({ s with outstanding := s.outstanding + 1, tx := update s.tx p true }, k)
  | .endOp k =>
    some ({ s with outstanding := s.outstanding - 1, tx := update s.tx p false }, k)
  | .lock i k =>
    if s.holder i = none then some ({ s with holder := update s.holder i (some p) }, k)
    else none
  | .check i k =>
    if s.valid i = false ∧ s.disk.type i = 0 then some (s, .panic "ilock: no type")
    else some ({ s with valid := update s.valid i true }, k)
  | .unlock i k => some ({ s with holder := update s.holder i none }, k)
  | .get i k => some (s.iget p i, k)
  | .put i k => some (s.drop i, k)
  | .deref i k =>
    some ({ s.setFly p i (s.fly p i - 1) with ref := update s.ref i (s.ref i - 1) }, k)
  | .type i k => some (s, k (s.disk.type i))
  | .links i k => some (s, k (s.disk.nlink i))
  | .look d nm k =>
    -- the inode found comes with a reference
    match s.disk.find d nm with
    | some i => some (s.iget p i, k (some i))
    | none => some (s, k none)
  | .write d nm r k => some ({ s with disk := s.disk.setEntry d nm r }, k)
  | .empty d k => some (s, k ((s.disk.entries d).all fun e => e.1 = "." || e.1 = ".."))
  | .setLinks i f k =>
    some ({ s with disk :=
      { s.disk with nlink := update s.disk.nlink i (f (s.disk.nlink i)) } }, k)
  | .alloc t k =>
    if s.disk.type n = 0 ∧ 0 < n then some ({ s.iget p n with disk := s.disk.make n t }, k n)
    else some (s, .panic "ialloc: no inodes")
  | .init i major minor k =>
    some ({ s with disk :=
      { s.disk with
        major := update s.disk.major i major
        minor := update s.disk.minor i minor
        nlink := update s.disk.nlink i 1 } }, k)
  | .writei i bs k =>
    some ({ s with disk := { s.disk with data := update s.disk.data i bs } }, k)
  | .filealloc k =>
    match s.freeFile with
    | none => some (s, k none)
    | some f => some ((s.setFile f { s.file f with ref := 1 }).setFresh p (some f), k (some f))
  | .fdalloc f k =>
    match s.freeFd p with
    | none => some (s, k none)
    | some fd =>
      some ({ s.setFd p fd (some f) with placed := update s.placed p true }, k (some fd))
  | .fileclose f k =>
    if (s.file f).ref < 1 then some (s, .panic "fileclose")
    else
      let (t, r) := s.release p f
      some (t.setFresh p none, k r)
  | .closefd fd k =>
    match s.ofile p fd with
    | none => some (s, k none)
    | some f =>
      if (s.file f).ref < 1 then some (s, .panic "fileclose")
      else
        let (t, r) := s.release p f
        some (t.setFd p fd none, k (some r))
  | .argfd fd k => some (s, k ((s.ofile p fd).map fun f => (s.file f).ip))
  | .dup fd k =>
    match s.ofile p fd, s.freeFd p with
    | some f, some fd' =>
      if (s.file f).ref < 1 then some (s, .panic "filedup")
      else
        let t := s.setFile f { s.file f with ref := (s.file f).ref + 1 }
        some (t.setFd p fd' (some f), k (some fd'))
    | _, _ => some (s, k none)
  | .setFile f ip k =>
    let t := s.setFile f { s.file f with ip := some ip }
    some ((t.setFly p ip (s.fly p ip - 1)).setFresh p none, k)
  | .setCwd c k =>
    -- the new directory's reference is the process's now, the old one's is owed
    let give := fun i : ℕ => (if s.cwd p = some i then (1 : ℤ) else 0) - if c = some i then 1 else 0
    some ({ s with
      cwd := update s.cwd p c
      fly := update s.fly p fun i => s.fly p i + give i }, k)
  | .coin k => some (s, k b)

/-- `fork`: the child shares the files and the current directory of its parent. -/
def fork (s : St P) (p q : P) (c : ℕ) : St P :=
  { s with
    cwd := update s.cwd q (some c)
    ofile := update s.ofile q (s.ofile p)
    ref := update s.ref c (s.ref c + 1)
    file := fun f => { s.file f with
      ref := (s.file f).ref + (Finset.univ.filter fun fd => s.ofile p fd = some f).card } }

end St

structure Sys (P : Type) where
  st : St P
  code : P → Code
  panicked : Option String

inductive Ev (P : Type) where
  | start (p : P) (c : Call)
  | run (p : P) (n : ℕ) (b : Bool)
  | fork (p q : P)

def Code.idle : Code → Bool
  | .ret _ => true
  | _ => false

def Sys.step (x : Sys P) (e : Ev P) : Option (Sys P) :=
  if x.panicked.isSome then none else
  match e with
  | .start p c =>
    if (x.code p).idle then
      (x.st.cwd p).map fun cwd => { x with code := update x.code p (c.code cwd) }
    else none
  | .run p n b =>
    match x.code p with
    | .panic msg => some { x with panicked := some msg }
    | k => (x.st.act p n b k).map fun r =>
      { x with st := r.1, code := update x.code p r.2 }
  | .fork p q =>
    if (x.code p).idle ∧ (x.code q).idle ∧ x.st.cwd q = none ∧ p ≠ q then
      (x.st.cwd p).map fun cwd => { x with st := x.st.fork p q cwd }
    else none

def boot (disk : Disk) (p0 : P) : Sys P where
  st :=
    { disk := disk
      ref := fun i => if i = ROOTINO then 1 else 0
      valid := fun _ => false
      holder := fun _ => none
      outstanding := 0
      file := fun _ => ⟨0, none⟩
      cwd := fun p => if p = p0 then some ROOTINO else none
      ofile := fun _ _ => none
      tx := fun _ => false
      fly := fun _ _ => 0
      fresh := fun _ => none
      placed := fun _ => false }
  code := fun _ => .ret 0
  panicked := none

end Xv6.Fs.Calls

import Xv6.Param
import Xv6.Schemes.Machine
import Mathlib.Data.Finset.Basic

/-! @src fs.c, sysfile.c, exec.c, file.c, sleeplock.c | part:inode locks | scheme:machine

  The calls of the file system, cut where another process can come in: at the sleep locks of the
  inodes. A call is a `Code`, the actions that are left to do; a process whose next action is to
  take a lock that is held waits.

      namex        lock ip · lookup · unlock ip · (iput) lock ip · unlock ip · lock next …
      link         lock dp · lookup --found--> (iput) lock entry …
      unlink       lock dp · lock ip · unlock dp · (iput) lock dp …
      create       lock dp · lock new · unlock dp · (iput) lock dp …

  `enter` and `leave` mark the part of `link`, `unlink` and `create` from the lock of the directory
  to its `iput`; they do nothing. -/

namespace Xv6.Fs.Locks
open Schemes
open Function
open Option (some)
open Finset (erase_insert notMem_empty pair_comm mem_erase)
open Finset

abbrev Name := String

structure Path where
  abs : Bool
  elems : List Name

/-- What is left of a call. In `look`, `own` marks the lookups of `dirlink` and `sys_unlink`, which lock
  what they find while the directory is locked. -/
inductive Code where
  | done
  | panic (msg : String)
  | lock (i : ℕ) (k : Code)
  | check (i : ℕ) (k : Code)
  | unlock (i : ℕ) (k : Code)
  | get (i : ℕ) (k : Code)
  | put (i : ℕ) (k : Code)
  | deref (i : ℕ) (k : Code)
  | type (i : ℕ) (k : ℕ → Code)
  | links (i : ℕ) (k : ℤ → Code)
  | look (own : Bool) (d : ℕ) (nm : Name) (k : Option ℕ → Code)
  | write (d : ℕ) (nm : Name) (r : Option ℕ) (k : Code)
  | empty (d : ℕ) (k : Bool → Code)
  | setLinks (i : ℕ) (f : ℤ → ℤ) (k : Code)
  | alloc (t : ℕ) (k : ℕ → Code)
  | coin (k : Bool → Code)
  | chdir (i : ℕ) (k : Code)
  | keep (i : ℕ) (k : Code)
  | enter (k : Code)
  | leave (k : Code)

/-! ### The calls -/

/-- Lock an inode and read it from disk if necessary; a free inode is a panic. -/
def ilock (i : ℕ) (k : Code) : Code := .lock i (.check i k)

/-- Drop a reference; the inode is freed under its lock if that was the last one and it has no links. -/
def iput (i : ℕ) (k : Code) : Code := .lock i (.put i (.unlock i (.deref i k)))

def iunlockput (i : ℕ) (k : Code) : Code := .unlock i (iput i k)

def namexLoop (parent : Bool) (k : Option (ℕ × Name) → Code) : List Name → ℕ → Code
  | [], ip => if parent then iput ip (k none) else k (some (ip, ""))
  | nm :: rest, ip => ilock ip (.type ip fun t =>
    if t ≠ T_DIR then iunlockput ip (k none)
    else if parent && rest.isEmpty then .unlock ip (k (some (ip, nm)))
    else .look false ip nm fun r =>
      match r with
      | none => iunlockput ip (k none)
      | some next => iunlockput ip (namexLoop parent k rest next))

/-- Look up and return the inode for a path, or for its parent with the last element. -/
def namex (cwd : ℕ) (path : Path) (parent : Bool) (k : Option (ℕ × Name) → Code) : Code :=
  let ip := if path.abs then ROOTINO else cwd
  .get ip (namexLoop parent k path.elems ip)

def dirlink (dp : ℕ) (nm : Name) (inum : ℕ) (k : Bool → Code) : Code :=
  .look true dp nm fun r =>
    match r with
    | some ip => iput ip (k false)
    | none => .write dp nm (some inum) (k true)

def linkBad (ip : ℕ) : Code := ilock ip (.setLinks ip (· - 1) (iunlockput ip .done))

def sysLink (cwd : ℕ) (old new : Path) : Code :=
  namex cwd old false fun r =>
    match r with
    | none => .done
    | some (ip, _) => ilock ip (.type ip fun t =>
      if t = T_DIR then iunlockput ip .done
      else .setLinks ip (· + 1) (.unlock ip (namex cwd new true fun r =>
        match r with
        | none => linkBad ip
        | some (dp, nm) => .enter (ilock dp (dirlink dp nm ip fun ok =>
          if ok then iunlockput dp (.leave (iput ip .done))
          else iunlockput dp (.leave (linkBad ip)))))))

def unlinkBad (dp : ℕ) : Code := iunlockput dp (.leave .done)

/-- `sys_unlink` once the entry has been cleared; the inode is still locked when `dp` is put. -/
def unlinkEnd (dp ip t : ℕ) : Code :=
  let rest := iunlockput dp (.setLinks ip (· - 1) (iunlockput ip (.leave .done)))
  if t = T_DIR then .setLinks dp (· - 1) rest else rest

def sysUnlink (cwd : ℕ) (path : Path) : Code :=
  namex cwd path true fun r =>
    match r with
    | none => .done
    | some (dp, nm) => .enter (ilock dp (
        if nm = "." ∨ nm = ".." then unlinkBad dp
        else .look true dp nm fun r =>
          match r with
          | none => unlinkBad dp
          | some ip => ilock ip (.links ip fun n =>
            if n < 1 then .panic "unlink: nlink < 1"
            else .type ip fun t => .empty ip fun e =>
              if t = T_DIR && !e then iunlockput ip (unlinkBad dp)
              else .write dp nm none (unlinkEnd dp ip t))))

/-- `create` for a name that is not there: a new inode, locked, with its entries. -/
def createNew (dp : ℕ) (nm : Name) (t : ℕ) (k : ℕ → Code) : Code :=
  .alloc t fun ip => ilock ip (.setLinks ip (fun _ => 1) (
    let last := dirlink dp nm ip fun ok =>
      if ok then iunlockput dp (.leave (k ip)) else .panic "create: dirlink"
    if t = T_DIR then
      .setLinks dp (· + 1) (dirlink ip "." ip fun ok =>
        if ok then dirlink ip ".." dp fun ok => if ok then last else .panic "create dots"
        else .panic "create dots")
    else last))

def create (cwd : ℕ) (path : Path) (t : ℕ) (k : Option ℕ → Code) : Code :=
  namex cwd path true fun r =>
    match r with
    | none => k none
    | some (dp, nm) => .enter (ilock dp (.look false dp nm fun r =>
      match r with
      | some ip => iunlockput dp (.leave (ilock ip (.type ip fun t' =>
        if t = T_FILE ∧ t' = T_FILE then k (some ip) else iunlockput ip (k none))))
      | none => createNew dp nm t fun ip => k (some ip)))

def openEnd (ip : ℕ) : Code :=
  .coin fun ok => if ok then .unlock ip (.keep ip .done) else iunlockput ip .done

def sysOpen (cwd : ℕ) (path : Path) (creat rdonly : Bool) : Code :=
  if creat then create cwd path T_FILE fun r =>
    match r with
    | none => .done
    | some ip => openEnd ip
  else namex cwd path false fun r =>
    match r with
    | none => .done
    | some (ip, _) => ilock ip (.type ip fun t =>
      if t = T_DIR && !rdonly then iunlockput ip .done else openEnd ip)

def sysMake (cwd : ℕ) (path : Path) (t : ℕ) : Code :=
  create cwd path t fun r =>
    match r with
    | none => .done
    | some ip => iunlockput ip .done

def sysChdir (cwd : ℕ) (path : Path) : Code :=
  namex cwd path false fun r =>
    match r with
    | none => .done
    | some (ip, _) => ilock ip (.type ip fun t =>
      if t ≠ T_DIR then iunlockput ip .done else .unlock ip (iput cwd (.chdir ip .done)))

/-- `exec` reads the program under the lock, and puts the inode in the end or at the label `bad`. -/
def sysExec (cwd : ℕ) (path : Path) : Code :=
  namex cwd path false fun r =>
    match r with
    | none => .done
    | some (ip, _) => ilock ip (iunlockput ip .done)

inductive Call where
  | open (path : Path) (creat rdonly : Bool)
  | link (old new : Path)
  | unlink (path : Path)
  | mkdir (path : Path)
  | mknod (path : Path)
  | chdir (path : Path)
  | close (i : ℕ)
  | exec (path : Path)

/-- The code of a call; `close` of the last reference to a file puts its inode. -/
def Call.code (cwd : ℕ) : Call → Code
  | .open path creat rdonly => sysOpen cwd path creat rdonly
  | .link old new => sysLink cwd old new
  | .unlink path => sysUnlink cwd path
  | .mkdir path => sysMake cwd path T_DIR
  | .mknod path => sysMake cwd path T_DEV
  | .chdir path => sysChdir cwd path
  | .close i => iput i .done
  | .exec path => sysExec cwd path

/-! ### The machine -/

/-- The inodes, who holds which inode lock, what each process has left to do, its current directory and
  its open files. `inside` is the process between `enter` and `leave`. -/
structure St (P : Type) where
  type : ℕ → ℕ
  nlink : ℕ → ℤ
  ref : ℕ → ℕ
  valid : ℕ → Bool
  entries : ℕ → List (Name × ℕ)
  holder : ℕ → Option P
  code : P → Code
  cwd : P → ℕ
  files : P → List ℕ
  inside : Option P
  panicked : Option String

/-- A process begins a call, or takes its next action; `n` is the inode `ialloc` finds and `b` whether
  a file could be allocated. -/
inductive Ev (P : Type) where
  | start (p : P) (c : Call)
  | run (p : P) (n : ℕ) (b : Bool)

variable {P : Type} [DecidableEq P]

namespace St

def goto (x : St P) (p : P) (k : Code) : St P := { x with code := update x.code p k }

def ready (x : St P) (p : P) : Call → Bool
  | .close i => (x.files p).contains i
  | _ => true

def begin (x : St P) (p : P) (c : Call) : St P :=
  let y := x.goto p (c.code (x.cwd p))
  match c with
  | .close i => { y with files := update x.files p ((x.files p).erase i) }
  | _ => y

/-- `iget`: one more reference; an inode that had none has not been read from disk. -/
def iget (x : St P) (i : ℕ) : St P :=
  { x with
    ref := update x.ref i (x.ref i + 1)
    valid := if x.ref i = 0 then update x.valid i false else x.valid }

def drop (x : St P) (i : ℕ) : St P :=
  if x.valid i ∧ x.nlink i = 0 ∧ x.ref i = 1 then
    { x with
      type := update x.type i 0
      entries := update x.entries i []
      valid := update x.valid i false }
  else x

def find (x : St P) (d : ℕ) (nm : Name) : Option ℕ := (x.entries d).lookup nm

def setEntry (x : St P) (d : ℕ) (nm : Name) (r : Option ℕ) : St P :=
  let rest := (x.entries d).filter (·.1 ≠ nm)
  let new := match r with
    | some i => (nm, i) :: rest
    | none => rest
  { x with entries := update x.entries d new }

def act (x : St P) (p : P) (n : ℕ) (b : Bool) : Code → Option (St P)
  | .done => none
  | .panic msg => some { x with panicked := some msg }
  | .lock i k =>
    if x.holder i = none then
      some { x.goto p k with holder := update x.holder i (some p) }
    else none
  | .check i k =>
    if x.valid i = false ∧ x.type i = 0 then some { x with panicked := some "ilock: no type" }
    else some { x.goto p k with valid := update x.valid i true }
  | .unlock i k => some { x.goto p k with holder := update x.holder i none }
  | .get i k => some ((x.iget i).goto p k)
  | .put i k => some ((x.drop i).goto p k)
  | .deref i k => some { x.goto p k with ref := update x.ref i (x.ref i - 1) }
  | .type i k => some (x.goto p (k (x.type i)))
  | .links i k => some (x.goto p (k (x.nlink i)))
  | .look _ d nm k =>
    -- the inode found comes with a reference
    match x.find d nm with
    | some i => some ((x.iget i).goto p (k (some i)))
    | none => some (x.goto p (k none))
  | .write d nm r k => some ((x.setEntry d nm r).goto p k)
  | .empty d k => some (x.goto p (k ((x.entries d).all fun e => e.1 = "." || e.1 = "..")))
  | .setLinks i f k => some { x.goto p k with nlink := update x.nlink i (f (x.nlink i)) }
  | .alloc t k =>
    if x.type n = 0 ∧ 0 < n then
      some { (x.iget n).goto p (k n) with
        type := update x.type n t
        nlink := update x.nlink n 0
        entries := update x.entries n [] }
    else none
  | .coin k => some (x.goto p (k b))
  | .chdir i k => some { x.goto p k with cwd := update x.cwd p i }
  | .keep i k => some { x.goto p k with files := update x.files p (i :: x.files p) }
  | .enter k => some { x.goto p k with inside := some p }
  | .leave k => some { x.goto p k with inside := none }

def step (x : St P) (e : Ev P) : Option (St P) :=
  if x.panicked.isSome then none else
  match e with
  | .start p c =>
    match x.code p with
    | .done => if x.ready p c then some (x.begin p c) else none
    | _ => none
  | .run p n b => x.act p n b (x.code p)

end St

def waitsFor (x : St P) (p : P) : Option P :=
  match x.code p with
  | .lock i _ => x.holder i
  | _ => none

def Waits (x : St P) (p q : P) : Prop := waitsFor x p = some q

/-- The root directory with one file, as `mkfs` makes it; every process is in the root directory. -/
def mkfs (names : List (Name × ℕ)) : St P where
  type := fun i => if i = ROOTINO then T_DIR else if i = 2 then T_FILE else 0
  nlink := fun i => if i = ROOTINO then 1 else if i = 2 then names.length else 0
  ref := fun i => if i = ROOTINO then 1 else 0
  valid := fun _ => false
  entries := fun i => if i = ROOTINO then [(".", 1), ("..", 1)] ++ names else []
  holder := fun _ => none
  code := fun _ => .done
  cwd := fun _ => ROOTINO
  files := fun _ => []
  inside := none
  panicked := none


/-! ### The deadlocks -/

/-- Let process `p` take its next `n` actions; no inode is allocated. -/
def turns (p : P) (n : ℕ) : List (Ev P) := List.replicate n (.run p 0 true)

def here (nm : Name) : Path := ⟨false, [nm]⟩

/-- `link("f", ".")` puts the inode found under `"."` with the directory locked, and waits for itself.
  `unlink("x")` and `unlink("y")` of two names of one file cross: the first has the file and puts the
  directory, the second has the directory and locks the file. -/
theorem link_dot_deadlocks :
    (∃ x : St (Fin 1), Reach St.step (fun _ _ => True) (mkfs [("f", 2)]) x ∧ Waits x 0 0) ∧
    ∃ x : St (Fin 2), Reach St.step (fun _ _ => True) (mkfs [("x", 2), ("y", 2)]) x ∧
      Waits x 0 1 ∧ Waits x 1 0 := by
  constructor
  · have h : (follow St.step (fun _ _ => True) (mkfs [("f", 2)])
        ([.start 0 (.link (here "f") (here "."))] ++ turns 0 24)).map (waitsFor · 0) =
        some (some (0 : Fin 1)) := by decide +kernel
    exact exists_reach h
  · have h : (follow St.step (fun _ _ => True) (mkfs [("x", 2), ("y", 2)])
        ([.start 0 (.unlink (here "x"))] ++ turns 0 16 ++ [.start 1 (.unlink (here "y"))] ++
          turns 1 9)).map (fun x => (waitsFor x 0, waitsFor x 1)) =
        some (some (1 : Fin 2), some 0) := by decide +kernel
    obtain ⟨x, hx, hw⟩ := exists_reach h
    exact ⟨x, hx, congrArg Prod.fst hw, congrArg Prod.snd hw⟩

/-! ### Calls that lock in order -/

/-- What the rest of a call may do when the process holds the locks in `H` and has seen that the inodes
  in `C` are not free: it never takes a lock it has, and outside `enter` … `leave` it has no lock when
  it takes one. -/
def Sound : Bool → Finset ℕ → Finset ℕ → Code → Prop
  | ins, H, _, .done => ins = false ∧ H = ∅
  | _, _, _, .panic _ => True
  | ins, H, C, .lock i k => i ∉ H ∧ (ins = false → H = ∅) ∧ Sound ins (insert i H) C k
  | ins, H, C, .check i k => i ∈ H ∧ Sound ins H (insert i C) k
  | ins, H, C, .unlock i k => i ∈ H ∧ Sound ins (H.erase i) (C.erase i) k
  | ins, H, C, .get _ k => Sound ins H C k
  | ins, H, C, .put i k => i ∈ H ∧ Sound ins H (C.erase i) k
  | ins, H, C, .deref _ k => Sound ins H C k
  | ins, H, C, .type _ k => ∀ t, Sound ins H C (k t)
  | ins, H, C, .links _ k => ∀ n, Sound ins H C (k n)
  | ins, H, C, .look own _ _ k =>
    Sound ins H C (k none) ∧ ∀ i, (own = true → i ∉ H) → Sound ins H C (k (some i))
  | ins, H, C, .write _ _ _ k => Sound ins H C k
  | ins, H, C, .empty _ k => ∀ b, Sound ins H C (k b)
  | ins, H, C, .setLinks _ _ k => Sound ins H C k
  | ins, H, C, .alloc _ k => ∀ n, n ∉ C → Sound ins H C (k n)
  | ins, H, C, .coin k => ∀ b, Sound ins H C (k b)
  | ins, H, C, .chdir _ k => Sound ins H C k
  | ins, H, C, .keep _ k => Sound ins H C k
  | ins, H, C, .enter k => ins = false ∧ Sound true H C k
  | ins, H, C, .leave k => ins = true ∧ Sound false H C k

variable {ins : Bool} {H C D : Finset ℕ} {i dp cwd : ℕ} {nm : Name}

theorem Sound.mono : ∀ {k : Code} {ins : Bool} {H C D : Finset ℕ}, C ⊆ D → Sound ins H C k →
    Sound ins H D k
  | .done, _, _, _, _, _, h => h
  | .panic _, _, _, _, _, _, _ => trivial
  | .lock _ _, _, _, _, _, hCD, h => ⟨h.1, h.2.1, h.2.2.mono hCD⟩
  | .check i _, _, _, _, _, hCD, h => ⟨h.1, h.2.mono (insert_subset_insert i hCD)⟩
  | .unlock i _, _, _, _, _, hCD, h => ⟨h.1, h.2.mono (erase_subset_erase i hCD)⟩
  | .get _ k, _, _, _, _, hCD, h => Sound.mono (k := k) hCD h
  | .put i _, _, _, _, _, hCD, h => ⟨h.1, h.2.mono (erase_subset_erase i hCD)⟩
  | .deref _ k, _, _, _, _, hCD, h => Sound.mono (k := k) hCD h
  | .type _ _, _, _, _, _, hCD, h => fun t => (h t).mono hCD
  | .links _ _, _, _, _, _, hCD, h => fun n => (h n).mono hCD
  | .look _ _ _ _, _, _, _, _, hCD, h => ⟨h.1.mono hCD, fun i hi => (h.2 i hi).mono hCD⟩
  | .write _ _ _ k, _, _, _, _, hCD, h => Sound.mono (k := k) hCD h
  | .empty _ _, _, _, _, _, hCD, h => fun b => (h b).mono hCD
  | .setLinks _ _ k, _, _, _, _, hCD, h => Sound.mono (k := k) hCD h
  | .alloc _ _, _, _, _, _, hCD, h => fun n hn => (h n fun hc => hn (hCD hc)).mono hCD
  | .coin _, _, _, _, _, hCD, h => fun b => (h b).mono hCD
  | .chdir _ k, _, _, _, _, hCD, h | .keep _ k, _, _, _, _, hCD, h => Sound.mono (k := k) hCD h
  | .enter _, _, _, _, _, hCD, h | .leave _, _, _, _, _, hCD, h => ⟨h.1, h.2.mono hCD⟩

theorem Sound.facts {k : Code} (h : Sound ins H ∅ k) : Sound ins H C k :=
  h.mono (empty_subset C)

theorem ilock_sound {k : Code} (hi : i ∉ H) (hout : ins = false → H = ∅)
    (hk : Sound ins (insert i H) {i} k) : Sound ins H C (ilock i k) := by
  refine ⟨hi, hout, mem_insert_self i H, hk.mono ?_⟩
  exact singleton_subset_iff.mpr (mem_insert_self i C)

theorem iput_sound {k : Code} (hi : i ∉ H) (hout : ins = false → H = ∅) (hk : Sound ins H ∅ k) :
    Sound ins H C (iput i k) := by
  refine ⟨hi, hout, mem_insert_self i H, mem_insert_self i H, ?_⟩
  rw [erase_insert hi]
  exact hk.facts

theorem iunlockput_sound {k : Code} (hi : i ∈ H) (hout : ins = false → H.erase i = ∅)
    (hk : Sound ins (H.erase i) ∅ k) : Sound ins H C (iunlockput i k) :=
  ⟨hi, iput_sound (notMem_erase i H) hout hk⟩

theorem iunlockput_last {k : Code} (hk : Sound ins ∅ ∅ k) : Sound ins {i} C (iunlockput i k) := by
  have he : ({i} : Finset ℕ).erase i = ∅ := erase_singleton i
  exact iunlockput_sound (mem_singleton_self i) (fun _ => he) (he ▸ hk)

theorem unlock_last {k : Code} (hk : Sound ins ∅ ∅ k) : Sound ins {i} C (.unlock i k) := by
  refine ⟨mem_singleton_self i, ?_⟩
  rw [erase_singleton]
  exact hk.facts

theorem ilock_first {k : Code} (hk : Sound ins {i} {i} k) : Sound ins ∅ C (ilock i k) :=
  ilock_sound (notMem_empty i) (fun _ => rfl) hk

theorem iput_first {k : Code} (hk : Sound ins ∅ ∅ k) : Sound ins ∅ C (iput i k) :=
  iput_sound (notMem_empty i) (fun _ => rfl) hk

theorem namexLoop_sound {parent : Bool} {k : Option (ℕ × Name) → Code}
    (hnone : Sound false ∅ ∅ (k none)) (hsome : ∀ a, Sound false ∅ ∅ (k (some a))) :
    ∀ (path : List Name) (ip : ℕ), Sound false ∅ ∅ (namexLoop parent k path ip)
  | [], ip => by
    rw [namexLoop]
    split
    · exact iput_first hnone
    · exact hsome _
  | nm :: rest, ip => by
    refine ilock_first fun t => ?_
    dsimp only
    split_ifs with ht hlast
    · exact iunlockput_last hnone
    · exact unlock_last (hsome _)
    · refine ⟨iunlockput_last hnone, fun next _ => ?_⟩
      exact iunlockput_last (namexLoop_sound hnone hsome rest next)

theorem namex_sound {path : Path} {parent : Bool} {k : Option (ℕ × Name) → Code}
    (hnone : Sound false ∅ ∅ (k none)) (hsome : ∀ a, Sound false ∅ ∅ (k (some a))) :
    Sound false ∅ C (namex cwd path parent k) :=
  (namexLoop_sound hnone hsome path.elems _).facts

theorem dirlink_sound {inum : ℕ} {k : Bool → Code} (hfail : Sound true H ∅ (k false))
    (hok : Sound true H ∅ (k true)) : Sound true H C (dirlink dp nm inum k) :=
  ⟨hok.facts, fun _ hi => iput_sound (hi rfl) nofun hfail⟩

theorem linkBad_sound : Sound false ∅ C (linkBad i) :=
  ilock_first (iunlockput_last ⟨rfl, rfl⟩)

theorem sysLink_sound (old new : Path) : Sound false ∅ C (sysLink cwd old new) := by
  refine namex_sound ⟨rfl, rfl⟩ fun ⟨ip, _⟩ => ilock_first fun t => ?_
  dsimp only
  split_ifs with ht
  · exact iunlockput_last ⟨rfl, rfl⟩
  · refine unlock_last (namex_sound linkBad_sound fun ⟨dp, nm⟩ => ⟨rfl, ?_⟩)
    refine ilock_first (dirlink_sound ?_ ?_)
    · exact iunlockput_last ⟨rfl, linkBad_sound⟩
    · exact iunlockput_last ⟨rfl, iput_first ⟨rfl, rfl⟩⟩

theorem unlinkBad_sound : Sound true {dp} C (unlinkBad dp) :=
  iunlockput_last ⟨rfl, rfl, rfl⟩

theorem unlinkEnd_sound {t : ℕ} (hne : i ≠ dp) : Sound true {i, dp} C (unlinkEnd dp i t) := by
  have hrest : Sound true {i, dp} C
      (iunlockput dp (.setLinks i (· - 1) (iunlockput i (.leave .done)))) := by
    refine iunlockput_sound (by simp) nofun ?_
    have he : ({i, dp} : Finset ℕ).erase dp = {i} := by
      rw [pair_comm, erase_insert (by simpa using hne.symm)]
    rw [he]
    exact iunlockput_last ⟨rfl, rfl, rfl⟩
  rw [unlinkEnd]
  split
  · exact hrest
  · exact hrest

theorem sysUnlink_sound (path : Path) : Sound false ∅ C (sysUnlink cwd path) := by
  refine namex_sound ⟨rfl, rfl⟩ fun ⟨dp, nm⟩ => ⟨rfl, ilock_first ?_⟩
  split_ifs with hdots
  · exact unlinkBad_sound
  · refine ⟨unlinkBad_sound, fun ip hip => ?_⟩
    have hne : ip ≠ dp := by simpa using hip rfl
    refine ilock_sound (hip rfl) nofun fun n => ?_
    dsimp only
    split_ifs with hn
    · trivial
    · intro t e
      dsimp only
      split_ifs with hfull
      · refine iunlockput_sound (mem_insert_self ip {dp}) nofun ?_
        rw [erase_insert (hip rfl)]
        exact unlinkBad_sound
      · exact unlinkEnd_sound hne

theorem createNew_sound {t : ℕ} {k : ℕ → Code} (hk : ∀ ip, Sound false {ip} ∅ (k ip)) :
    Sound true {dp} {dp} (createNew dp nm t k) := by
  intro ip hip
  refine ilock_sound hip nofun ?_
  have hlast : Sound true {ip, dp} ∅ (dirlink dp nm ip fun ok =>
    if ok then iunlockput dp (.leave (k ip)) else .panic "create: dirlink") := by
    refine dirlink_sound ?_ (iunlockput_sound (by simp) nofun ?_)
    · trivial
    have he : ({ip, dp} : Finset ℕ).erase dp = {ip} := by
      rw [pair_comm, erase_insert (by simpa [eq_comm] using hip)]
    rw [he]
    exact ⟨rfl, hk ip⟩
  dsimp only [Sound]
  split_ifs with ht
  · rw [Sound]
    refine dirlink_sound ?_ ?_
    · trivial
    · rw [if_pos rfl]
      refine dirlink_sound ?_ ?_
      · trivial
      · exact hlast
  · exact hlast.facts

theorem create_sound {path : Path} {t : ℕ} {k : Option ℕ → Code} (hnone : Sound false ∅ ∅ (k none))
    (hsome : ∀ ip, Sound false {ip} ∅ (k (some ip))) : Sound false ∅ C (create cwd path t k) := by
  refine namex_sound hnone fun ⟨dp, nm⟩ => ⟨rfl, ilock_first ⟨createNew_sound hsome, fun ip _ => ?_⟩⟩
  refine iunlockput_last ⟨rfl, ilock_first fun t' => ?_⟩
  dsimp only
  split_ifs with hfile
  · exact (hsome ip).facts
  · exact iunlockput_last hnone

theorem openEnd_sound : Sound false {i} C (openEnd i) := by
  intro ok
  dsimp only
  split_ifs with hok
  · exact unlock_last ⟨rfl, rfl⟩
  · exact iunlockput_last ⟨rfl, rfl⟩

theorem sysOpen_sound (path : Path) (creat rdonly : Bool) :
    Sound false ∅ C (sysOpen cwd path creat rdonly) := by
  rw [sysOpen]
  split_ifs with hc
  · exact create_sound ⟨rfl, rfl⟩ fun ip => openEnd_sound
  · refine namex_sound ⟨rfl, rfl⟩ fun ⟨ip, _⟩ => ilock_first fun t => ?_
    dsimp only
    split_ifs with hdir
    · exact iunlockput_last ⟨rfl, rfl⟩
    · exact openEnd_sound

theorem sysMake_sound (path : Path) (t : ℕ) : Sound false ∅ C (sysMake cwd path t) :=
  create_sound ⟨rfl, rfl⟩ fun _ => iunlockput_last ⟨rfl, rfl⟩

theorem sysChdir_sound (path : Path) : Sound false ∅ C (sysChdir cwd path) := by
  refine namex_sound ⟨rfl, rfl⟩ fun ⟨ip, _⟩ => ilock_first fun t => ?_
  dsimp only
  split_ifs with hdir
  · exact iunlockput_last ⟨rfl, rfl⟩
  · exact unlock_last (iput_first ⟨rfl, rfl⟩)

theorem Call.code_sound : ∀ c : Call, Sound false ∅ ∅ (c.code cwd)
  | .open path creat rdonly => sysOpen_sound path creat rdonly
  | .link old new => sysLink_sound old new
  | .unlink path => sysUnlink_sound path
  | .mkdir path => sysMake_sound path T_DIR
  | .mknod path => sysMake_sound path T_DEV
  | .chdir path => sysChdir_sound path
  | .close _ => iput_first ⟨rfl, rfl⟩
  | .exec _ => namex_sound ⟨rfl, rfl⟩ fun _ => ilock_first (iunlockput_last ⟨rfl, rfl⟩)

/-! ### The locks of all processes -/

/-- Process `p` holds exactly the locks that the code it has left takes it to hold. -/
def Fits (x : St P) (p : P) (k : Code) : Prop :=
  ∃ (ins : Bool) (H C : Finset ℕ), (ins = true ↔ x.inside = some p) ∧
    (∀ i, x.holder i = some p ↔ i ∈ H) ∧ (∀ i ∈ C, i ∈ H ∧ x.type i ≠ 0) ∧ Sound ins H C k

structure Tidy (x : St P) : Prop where
  proc : ∀ p, Fits x p (x.code p)
  valid : ∀ i, x.valid i = true → x.type i ≠ 0

/-- The locked part of `link`, `unlink` or `create` begins when no process is in one, and what `dirlink`
  and `unlink` find in the directory is not an inode the process has locked: the new name of a `link`
  is not `"."`, nor `".."` in the root directory. -/
def Careful (x : St P) (p : P) : Code → Prop
  | .enter _ => x.inside = none
  | .look true d nm _ => ∀ i ∈ x.find d nm, x.holder i ≠ some p
  | _ => True

def Orderly (x : St P) : Ev P → Prop
  | .start _ _ => True
  | .run p _ _ => Careful x p (x.code p)

instance (x : St P) (p : P) : (c : Code) → Decidable (Careful x p c)
  | .enter _ => inferInstanceAs (Decidable (x.inside = none))
  | .look true d nm _ => inferInstanceAs (Decidable (∀ i ∈ x.find d nm, x.holder i ≠ some p))
  | .look false _ _ _ | .done | .panic _ | .lock _ _ | .check _ _ | .unlock _ _ | .get _ _ | .put _ _
  | .deref _ _ | .type _ _ | .links _ _ | .write _ _ _ _ | .empty _ _ | .setLinks _ _ _ | .alloc _ _
  | .coin _ | .chdir _ _ | .keep _ _ | .leave _ => isTrue trivial

instance (x : St P) : (e : Ev P) → Decidable (Orderly x e)
  | .start _ _ => isTrue trivial
  | .run p _ _ => inferInstanceAs (Decidable (Careful x p (x.code p)))

variable {x y : St P} {p q : P} {k : Code}

omit [DecidableEq P] in
/-- What `Fits` depends on. -/
theorem Fits.frame (h : Fits x q k) (hholder : ∀ i, y.holder i = some q ↔ x.holder i = some q)
    (hinside : y.inside = some q ↔ x.inside = some q)
    (htype : ∀ i, x.holder i = some q → x.type i ≠ 0 → y.type i ≠ 0) : Fits y q k := by
  obtain ⟨ins, H, C, hins, hH, hC, hS⟩ := h
  refine ⟨ins, H, C, hins.trans hinside.symm, fun i => (hholder i).trans (hH i), fun i hi => ?_, hS⟩
  exact ⟨(hC i hi).1, htype i ((hH i).mpr (hC i hi).1) (hC i hi).2⟩

theorem Tidy.turn (hx : Tidy x) (hcode : y.code = update x.code p k) (hown : Fits y p k)
    (hholder : ∀ q, q ≠ p → ∀ i, y.holder i = some q ↔ x.holder i = some q)
    (hinside : ∀ q, q ≠ p → (y.inside = some q ↔ x.inside = some q))
    (htype : ∀ q, q ≠ p → ∀ i, x.holder i = some q → x.type i ≠ 0 → y.type i ≠ 0)
    (hvalid : ∀ i, y.valid i = true → y.type i ≠ 0) : Tidy y := by
  refine ⟨fun q => ?_, hvalid⟩
  by_cases hq : q = p
  · rw [hcode, hq, update_self]
    exact hown
  · rw [hcode, update_of_ne hq]
    exact (hx.proc q).frame (hholder q hq) (hinside q hq) (htype q hq)

theorem Tidy.go (hx : Tidy x) (hk : Fits x p k) (hcode : y.code = update x.code p k)
    (hholder : y.holder = x.holder) (hinside : y.inside = x.inside) (htype : y.type = x.type)
    (hvalid : ∀ i, y.valid i = true → x.type i ≠ 0) : Tidy y := by
  refine hx.turn hcode (hk.frame (fun i => ?_) ?_ fun i _ ht => ?_) (fun q _ i => ?_)
    (fun q _ => ?_) (fun q _ i _ ht => ?_) fun i hi => ?_
  · rw [hholder]
  · rw [hinside]
  · rwa [htype]
  · rw [hholder]
  · rw [hinside]
  · rwa [htype]
  · exact htype ▸ hvalid i hi

omit [DecidableEq P] in
theorem valid_iget (x : St P) (i j : ℕ) (h : (x.iget i).valid j = true) : x.valid j = true := by
  rw [St.iget] at h
  dsimp only at h
  split_ifs at h with hr
  · by_cases hj : j = i
    · rw [hj, update_self] at h
      exact absurd h nofun
    · rwa [update_of_ne hj] at h
  · exact h

theorem Tidy.lock (hx : Tidy x) (hc : x.code p = .lock i k) (hfree : x.holder i = none) :
    Tidy { x.goto p k with holder := update x.holder i (some p) } := by
  obtain ⟨ins, H, C, hins, hH, hC, hS⟩ := hx.proc p
  rw [hc] at hS
  refine hx.turn rfl ⟨ins, insert i H, C, hins, fun j => ?_, fun j hj => ?_, hS.2.2⟩
    (fun q hq j => ?_) (fun q _ => Iff.rfl) (fun q _ j _ ht => ht) hx.valid
  · by_cases hj : j = i
    · simp [hj]
    · simp [hj, hH]
  · exact ⟨mem_insert_of_mem (hC j hj).1, (hC j hj).2⟩
  · by_cases hj : j = i
    · simp [hj, hfree, Ne.symm hq]
    · simp [hj]

theorem Tidy.unlock (hx : Tidy x) (hc : x.code p = .unlock i k) :
    Tidy { x.goto p k with holder := update x.holder i none } := by
  obtain ⟨ins, H, C, hins, hH, hC, hS⟩ := hx.proc p
  rw [hc] at hS
  have hown : x.holder i = some p := (hH i).mpr hS.1
  refine hx.turn rfl ⟨ins, H.erase i, C.erase i, hins, fun j => ?_, fun j hj => ?_, hS.2⟩
    (fun q hq j => ?_) (fun q _ => Iff.rfl) (fun q _ j _ ht => ht) hx.valid
  · by_cases hj : j = i
    · simp [hj]
    · simp [hj, hH]
  · obtain ⟨hji, hj⟩ := mem_erase.mp hj
    exact ⟨mem_erase.mpr ⟨hji, (hC j hj).1⟩, (hC j hj).2⟩
  · by_cases hj : j = i
    · simp [hj, hown, Ne.symm hq]
    · simp [hj]

theorem Tidy.check (hx : Tidy x) (hc : x.code p = .check i k)
    (huse : ¬ (x.valid i = false ∧ x.type i = 0)) :
    Tidy { x.goto p k with valid := update x.valid i true } := by
  obtain ⟨ins, H, C, hins, hH, hC, hS⟩ := hx.proc p
  rw [hc] at hS
  have htype : x.type i ≠ 0 := by
    intro h0
    cases hv : x.valid i with
    | false => exact huse ⟨hv, h0⟩
    | true => exact hx.valid i hv h0
  refine hx.go ⟨ins, H, insert i C, hins, hH, fun j hj => ?_, hS.2⟩ rfl rfl rfl rfl fun j hj => ?_
  · obtain rfl | hj := mem_insert.mp hj
    · exact ⟨hS.1, htype⟩
    · exact hC j hj
  · by_cases hji : j = i
    · exact hji ▸ htype
    · exact hx.valid j (by simpa [update_of_ne hji] using hj)

theorem Tidy.put (hx : Tidy x) (hc : x.code p = .put i k) : Tidy ((x.drop i).goto p k) := by
  obtain ⟨ins, H, C, hins, hH, hC, hS⟩ := hx.proc p
  rw [hc] at hS
  have hown : x.holder i = some p := (hH i).mpr hS.1
  rw [St.drop]
  split_ifs with hfree
  · have hkeep : ∀ j, j ≠ i → x.type j ≠ 0 → update x.type i 0 j ≠ 0 := by
      intro j hj ht
      rwa [update_of_ne hj]
    refine hx.turn rfl ⟨ins, H, C.erase i, hins, hH, fun j hj => ?_, hS.2⟩ (fun q _ j => Iff.rfl)
      (fun q _ => Iff.rfl) (fun q hq j hj => hkeep j ?_) fun j hj => ?_
    · obtain ⟨hji, hj⟩ := mem_erase.mp hj
      exact ⟨(hC j hj).1, hkeep j hji (hC j hj).2⟩
    · rintro rfl
      exact hq (some.inj (hj.symm.trans hown))
    · have hji : j ≠ i := by
        rintro rfl
        simp [St.goto] at hj
      simp only [St.goto, update_of_ne hji] at hj
      exact hkeep j hji (hx.valid j hj)
  · exact hx.go ⟨ins, H, C.erase i, hins, hH, fun j hj => hC j (mem_of_mem_erase hj), hS.2⟩
      rfl rfl rfl rfl hx.valid

theorem Tidy.alloc {t n : ℕ} {k : ℕ → Code} (hx : Tidy x) (hc : x.code p = .alloc t k)
    (hn : x.type n = 0) :
    Tidy { (x.iget n).goto p (k n) with
      type := update x.type n t
      nlink := update x.nlink n 0
      entries := update x.entries n [] } := by
  obtain ⟨ins, H, C, hins, hH, hC, hS⟩ := hx.proc p
  rw [hc] at hS
  have hkeep : ∀ j, x.type j ≠ 0 → update x.type n t j ≠ 0 := by
    intro j hj
    rwa [update_of_ne (by rintro rfl; exact hj hn)]
  refine hx.turn rfl ⟨ins, H, C, hins, hH, fun j hj => ⟨(hC j hj).1, hkeep j (hC j hj).2⟩, ?_⟩
    (fun q _ j => Iff.rfl) (fun q _ => Iff.rfl) (fun q _ j _ hj => hkeep j hj)
    fun j hj => hkeep j (hx.valid j (valid_iget x n j hj))
  exact hS n fun hmem => (hC n hmem).2 hn

theorem Tidy.enter (hx : Tidy x) (hc : x.code p = .enter k) (hnone : x.inside = none) :
    Tidy { x.goto p k with inside := some p } := by
  obtain ⟨ins, H, C, hins, hH, hC, hS⟩ := hx.proc p
  rw [hc] at hS
  refine hx.turn rfl ⟨true, H, C, ⟨fun _ => rfl, fun _ => rfl⟩, hH, hC, hS.2⟩ (fun q _ j => Iff.rfl)
    (fun q hq => ?_) (fun q _ j _ ht => ht) hx.valid
  simp [hnone, Ne.symm hq]

theorem Tidy.leave (hx : Tidy x) (hc : x.code p = .leave k) :
    Tidy { x.goto p k with inside := none } := by
  obtain ⟨ins, H, C, hins, hH, hC, hS⟩ := hx.proc p
  rw [hc] at hS
  have hp : x.inside = some p := hins.mp hS.1
  refine hx.turn rfl ⟨false, H, C, by simp, hH, hC, hS.2⟩ (fun q _ j => Iff.rfl)
    (fun q hq => ?_) (fun q _ j _ ht => ht) hx.valid
  simp [hp, Ne.symm hq]

omit [DecidableEq P] in
theorem Tidy.halt {r : Option String} (hx : Tidy x) : Tidy { x with panicked := r } :=
  ⟨fun q => (hx.proc q).frame (fun _ => Iff.rfl) Iff.rfl fun _ _ h => h, hx.valid⟩

theorem Tidy.act {n : ℕ} {b : Bool} (hx : Tidy x) (hG : Orderly x (.run p n b))
    (h : x.act p n b (x.code p) = some y) : Tidy y := by
  obtain ⟨ins, H, C, hins, hH, hC, hS⟩ := hx.proc p
  -- the actions that touch neither locks nor types keep what `p` has
  have hfits : ∀ {k}, Sound ins H C k → Fits x p k := fun hk => ⟨ins, H, C, hins, hH, hC, hk⟩
  rw [Orderly] at hG
  cases hc : x.code p with
  | done => simp [hc, St.act] at h
  | panic msg =>
    obtain rfl : _ = y := by simpa [hc, St.act] using h
    exact hx.halt
  | lock i k =>
    simp only [hc, St.act, Option.ite_none_right_eq_some, some.injEq] at h
    obtain ⟨hfree, rfl⟩ := h
    exact hx.lock hc hfree
  | check i k =>
    rw [hc, St.act] at h
    split_ifs at h with hv
    · obtain rfl := some.inj h
      exact hx.halt
    · obtain rfl := some.inj h
      exact hx.check hc hv
  | unlock i k =>
    obtain rfl : _ = y := by simpa only [hc, St.act, some.injEq] using h
    exact hx.unlock hc
  | get i k =>
    rw [hc] at h hS
    obtain rfl := some.inj h
    exact hx.go (hfits (k := k) hS) rfl rfl rfl rfl fun j hj => hx.valid j (valid_iget x i j hj)
  | put i k =>
    rw [hc] at h
    obtain rfl := some.inj h
    exact hx.put hc
  | look own d nm k =>
    rw [hc] at h hS hG
    rw [St.act] at h
    split at h
    · next i hi =>
      obtain rfl := some.inj h
      refine hx.go (hfits (hS.2 i fun hown hmem => ?_)) rfl rfl rfl rfl
        fun j hj => hx.valid j (valid_iget x i j hj)
      subst hown
      exact hG i hi ((hH i).mpr hmem)
    · obtain rfl := some.inj h
      exact hx.go (hfits hS.1) rfl rfl rfl rfl hx.valid
  | alloc t k =>
    rw [hc, St.act] at h
    split_ifs at h with hn
    obtain rfl := some.inj h
    exact hx.alloc hc hn.1
  | enter k =>
    rw [hc] at h hG
    obtain rfl := some.inj h
    exact hx.enter hc hG
  | leave k =>
    rw [hc] at h
    obtain rfl := some.inj h
    exact hx.leave hc
  | type i k | links i k | empty i k | coin k =>
    rw [hc] at h hS
    obtain rfl := some.inj h
    exact hx.go (hfits (hS _)) rfl rfl rfl rfl hx.valid
  | deref i k | write d nm r k | setLinks i f k | chdir i k | keep i k =>
    rw [hc] at h hS
    obtain rfl := some.inj h
    exact hx.go (hfits (k := k) hS) rfl rfl rfl rfl hx.valid

theorem Tidy.begin (hx : Tidy x) (c : Call) (hc : x.code p = .done) : Tidy (x.begin p c) := by
  obtain ⟨ins, H, C, hins, hH, hC, hS⟩ := hx.proc p
  rw [hc] at hS
  obtain ⟨rfl, rfl⟩ := hS
  have hfits : Fits x p (c.code (x.cwd p)) := ⟨false, ∅, C, hins, hH, hC, c.code_sound.facts⟩
  cases c <;> exact hx.go hfits rfl rfl rfl rfl hx.valid

theorem Tidy.step {e : Ev P} (hx : Tidy x) (hG : Orderly x e) (h : x.step e = some y) : Tidy y := by
  unfold St.step at h
  split_ifs at h with hpan
  cases e with
  | start p c =>
    dsimp only at h
    split at h
    · next hc =>
      split_ifs at h with hr
      obtain rfl := some.inj h
      exact hx.begin c hc
    · exact absurd h nofun
  | run p n b => exact hx.act hG h

/-! ### No deadlock -/

section
omit [DecidableEq P]

/-- A process that waits and holds a lock is inside, and does not hold the lock it waits for. -/
theorem Tidy.waiting (hx : Tidy x) (hw : Waits x p q) (hhold : ∃ i, x.holder i = some p) :
    x.inside = some p ∧ q ≠ p := by
  rw [Waits, waitsFor] at hw
  split at hw
  · next i k hc =>
    obtain ⟨ins, H, C, hins, hH, hC, hS⟩ := hx.proc p
    rw [hc] at hS
    refine ⟨hins.mp ?_, ?_⟩
    · cases ins with
      | true => rfl
      | false =>
        obtain ⟨j, hj⟩ := hhold
        have hmem := (hH j).mp hj
        rw [hS.2.1 rfl] at hmem
        exact absurd hmem (notMem_empty j)
    · rintro rfl
      exact hS.1 ((hH i).mp hw)
  · exact absurd hw nofun

theorem Waits.holds (hw : Waits x p q) : ∃ i, x.holder i = some q := by
  rw [Waits, waitsFor] at hw
  split at hw
  · next i _ _ => exact ⟨i, hw⟩
  · exact absurd hw nofun

/-- Along a cycle every process waits and holds a lock, so every process is the one inside. -/
theorem Tidy.acyclic (hx : Tidy x) (p : P) : ¬ Relation.TransGen (Waits x) p p := by
  intro hcycle
  have hin : ∀ {a b : P}, Waits x a b → (∃ i, x.holder i = some a) → x.inside = some a :=
    fun hab ha => (hx.waiting hab ha).1
  obtain ⟨q, hpq, hqp⟩ := Relation.TransGen.head'_iff.mp hcycle
  obtain ⟨r, -, hrp⟩ := Relation.TransGen.tail'_iff.mp hcycle
  have hp : x.inside = some p := hin hpq hrp.holds
  have hq : x.inside = some q := by
    obtain rfl | ⟨s, hqs, -⟩ := hqp.cases_head
    · exact hp
    · exact hin hqs hpq.holds
  exact (hx.waiting hpq hrp.holds).2 (some.inj (hq.symm.trans hp))

end

structure Idle (x : St P) : Prop where
  code : ∀ p, x.code p = .done
  holder : ∀ i, x.holder i = none
  inside : x.inside = none
  valid : ∀ i, x.valid i = true → x.type i ≠ 0

omit [DecidableEq P] in
theorem Idle.tidy (h : Idle x) : Tidy x := by
  refine ⟨fun p => ⟨false, ∅, ∅, ?_, fun i => ?_, by simp, ?_⟩, h.valid⟩
  · simp [h.inside]
  · simp [h.holder]
  · rw [h.code]
    exact ⟨rfl, rfl⟩

/-- From any file system, with any processes and calls: if the locked parts of `link`, `unlink` and
  `create` do not overlap and none finds an inode that its process has locked, no processes wait for
  each other in a cycle, and none for itself. -/
theorem no_lock_cycle {x0 : St P} (h₀ : Idle x0) (h : Reach St.step Orderly x0 x) :
    (∀ p, ¬ Relation.TransGen (Waits x) p p) ∧ ∀ p, ¬ Waits x p p := by
  have hx : Tidy x := h.invariant h₀.tidy fun t e v ht hG hstep => ht.step hG hstep
  exact ⟨hx.acyclic, fun p hw => hx.acyclic p (.single hw)⟩

/-- Process 0 is in the middle of `link("f", "g")`, with the root directory locked; process 1 opens
  `"f"` and waits for it. -/
theorem no_lock_cycle_waiting :
    ∃ x : St (Fin 2), Reach St.step Orderly (mkfs [("f", 2)]) x ∧ Waits x 1 0 ∧
      (∀ p, ¬ Relation.TransGen (Waits x) p p) ∧ ∀ p, ¬ Waits x p p := by
  have h : (follow St.step Orderly (mkfs [("f", 2)])
      ([.start 0 (.link (here "f") (here "g"))] ++ turns 0 24 ++
        [.start 1 (.open (here "f") false true)] ++ turns 1 1)).map (waitsFor · 1) =
      some (some (0 : Fin 2)) := by decide +kernel
  obtain ⟨x, hx, hw⟩ := exists_reach h
  have hidle : Idle (mkfs [("f", 2)] : St (Fin 2)) := ⟨fun _ => rfl, fun _ => rfl, rfl, nofun⟩
  exact ⟨x, hx, hw, no_lock_cycle hidle hx⟩

end Xv6.Fs.Locks

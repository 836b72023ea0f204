import Xv6.Param
import Xv6.Schemes.Machine

/-! @src file.c, sysfile.c, pipe.c, proc.c | part:open files | scheme:machine

  The file table, the descriptor tables of the processes and the ends of the pipes, call by call. A
  file table entry counts the descriptors that point to it. Within a call a reference may be in
  flight: taken by `filealloc` or `filedup`, or left by a descriptor just cleared. The invariant has
  these as a parameter; between calls there are none.

      filealloc --> in flight --fdalloc--> descriptor --ofile[fd] = 0--> in flight --fileclose--> ∅ -/

namespace Xv6.Ftable
open Schemes
open Function
open List
open Option (some)
open Finset (sum_congr)

def NOFILE : ℕ := 16
def NFILE : ℕ := 100

abbrev Fd := Fin NOFILE
abbrev Fid := Fin NFILE

inductive FType where
  | none | pipe | inode
  deriving DecidableEq

/-- An open file. -/
structure File where
  type : FType
  ref : ℤ
  readable : Bool
  writable : Bool
  pipe : ℕ
  ip : ℕ
  off : ℕ
  deriving DecidableEq

structure Pipe where
  alloc : Bool
  readopen : Bool
  writeopen : Bool
  deriving DecidableEq

inductive Life where
  | unused | embryo | live | zombie
  deriving DecidableEq

def Life.opens : Life → Bool
  | .embryo | .live => true
  | .unused | .zombie => false

structure St (P : Type) where
  file : Fid → File
  pipe : ℕ → Pipe
  life : P → Life
  ofile : P → Fd → Option Fid

variable {P : Type} [DecidableEq P]

namespace St

def setFile (s : St P) (f : Fid) (v : File) : St P := { s with file := update s.file f v }

def setPipe (s : St P) (q : ℕ) (v : Pipe) : St P := { s with pipe := update s.pipe q v }

def setFd (s : St P) (p : P) (fd : Fd) (o : Option Fid) : St P :=
  { s with ofile := update s.ofile p (update (s.ofile p) fd o) }

def filealloc (s : St P) : Option (Fid × St P) :=
  ((finRange NFILE).find? fun f => (s.file f).ref = 0).map fun f =>
    (f, s.setFile f { s.file f with ref := 1 })

def filedup (s : St P) (f : Fid) : Except String (St P) :=
  if (s.file f).ref < 1 then .error "filedup"
  else .ok (s.setFile f { s.file f with ref := (s.file f).ref + 1 })

def pipeclose (s : St P) (q : ℕ) (writable : Bool) : St P :=
  let v : Pipe := if writable then { s.pipe q with writeopen := false }
    else { s.pipe q with readopen := false }
  s.setPipe q (if v.readopen = false ∧ v.writeopen = false then { v with alloc := false } else v)

/-- Close file `f`. What `iput` does to the inode of a file that is closed is not part of the file
  table. -/
def fileclose (s : St P) (f : Fid) : Except String (St P) :=
  if (s.file f).ref < 1 then .error "fileclose"
  else if (s.file f).ref - 1 > 0 then .ok (s.setFile f { s.file f with ref := (s.file f).ref - 1 })
  else
    let ff := s.file f
    let s := s.setFile f { ff with ref := 0, type := .none }
    if ff.type = .pipe then .ok (s.pipeclose ff.pipe ff.writable) else .ok s

def fdalloc (s : St P) (p : P) (f : Fid) : Option (Fd × St P) :=
  ((finRange NOFILE).find? fun fd => s.ofile p fd = none).map fun fd =>
    (fd, s.setFd p fd (some f))

inductive Ret where
  | fail
  | ok

def dup (s : St P) (p : P) (fd : Fd) : Except String (Ret × St P) :=
  match s.ofile p fd with
  | none => .ok (.fail, s)
  | some f =>
    match s.fdalloc p f with
    | none => .ok (.fail, s)
    | some (_, s) => (s.filedup f).map fun s => (.ok, s)

def close (s : St P) (p : P) (fd : Fd) : Except String (Ret × St P) :=
  match s.ofile p fd with
  | none => .ok (.fail, s)
  | some f => ((s.setFd p fd none).fileclose f).map fun s => (.ok, s)

/-- `sys_open` from the point where the inode has been found; without one it has failed. -/
def open' (s : St P) (p : P) (ip : Option ℕ) (readable writable : Bool) :
    Except String (Ret × St P) :=
  match ip with
  | none => .ok (.fail, s)
  | some ip =>
    match s.filealloc with
    | none => .ok (.fail, s)
    | some (f, s) =>
      match s.fdalloc p f with
      | none => (s.fileclose f).map fun s => (.fail, s)
      | some (_, s) => .ok (.ok, s.setFile f { s.file f with
          type := .inode, ip := ip, off := 0, readable := readable, writable := writable })

def pipebad (s : St P) (f0 f1 : Option Fid) : Except String (St P) :=
  match f0 with
  | none => .ok s
  | some f0 =>
    match s.fileclose f0, f1 with
    | .error msg, _ => .error msg
    | .ok s, none => .ok s
    | .ok s, some f1 => s.fileclose f1

def pipealloc (s : St P) (q : Option ℕ) : Except String (Option (Fid × Fid) × St P) :=
  match s.filealloc with
  | none => .ok (none, s)
  | some (f0, s) =>
    match s.filealloc with
    | none => (s.pipebad (some f0) none).map fun s => (none, s)
    | some (f1, s) =>
      match q with
      | none => (s.pipebad (some f0) (some f1)).map fun s => (none, s)
      | some q =>
        let s := s.setPipe q ⟨true, true, true⟩
        let s := s.setFile f0 { s.file f0 with
          type := .pipe, readable := true, writable := false, pipe := q }
        let s := s.setFile f1 { s.file f1 with
          type := .pipe, readable := false, writable := true, pipe := q }
        .ok (some (f0, f1), s)

/-- Close both files of a pipe for which there were no two descriptors. -/
def closeBoth (s : St P) (f0 f1 : Fid) : Except String (Ret × St P) :=
  match s.fileclose f0 with
  | .error msg => .error msg
  | .ok s => (s.fileclose f1).map fun s => (.fail, s)

def pipe' (s : St P) (p : P) (q : Option ℕ) : Except String (Ret × St P) :=
  match s.pipealloc q with
  | .error msg => .error msg
  | .ok (none, s) => .ok (.fail, s)
  | .ok (some (rf, wf), s) =>
    match s.fdalloc p rf with
    | none => s.closeBoth rf wf
    | some (fd0, s) =>
      match s.fdalloc p wf with
      | none => (s.setFd p fd0 none).closeBoth rf wf
      | some (_, s) => .ok (.ok, s)

def copyFds (p np : P) : List Fd → St P → Except String (St P)
  | [], s => .ok s
  | fd :: fds, s =>
    match s.ofile p fd with
    | none => copyFds p np fds s
    | some f =>
      match s.filedup f with
      | .error msg => .error msg
      | .ok s => copyFds p np fds (s.setFd np fd (some f))

/-- `fork` into the unused slot `np`; `none` if there is no slot or no memory. -/
def fork (s : St P) (p : P) (np : Option P) : Except String (Ret × St P) :=
  match np with
  | none => .ok (.fail, s)
  | some np =>
    match copyFds p np (finRange NOFILE)
        { s with life := update s.life np .embryo } with
    | .error msg => .error msg
    | .ok s => .ok (.ok, { s with life := update s.life np .live })

def closeFds (p : P) : List Fd → St P → Except String (St P)
  | [], s => .ok s
  | fd :: fds, s =>
    match s.ofile p fd with
    | none => closeFds p fds s
    | some f =>
      match s.fileclose f with
      | .error msg => .error msg
      | .ok s => closeFds p fds (s.setFd p fd none)

def exit (s : St P) (p : P) : Except String (Ret × St P) :=
  match closeFds p (finRange NOFILE) s with
  | .error msg => .error msg
  | .ok s => .ok (.ok, { s with life := update s.life p .zombie })

def wait (s : St P) (c : P) : St P := { s with life := update s.life c .unused }

end St

inductive Call (P : Type) where
  | open (p : P) (ip : Option ℕ) (readable writable : Bool)
  | pipe (p : P) (q : Option ℕ)
  | dup (p : P) (fd : Fd)
  | close (p : P) (fd : Fd)
  | fork (p : P) (np : Option P)
  | exit (p : P)
  | wait (p c : P)

/-- The caller is alive, `kalloc` returns a page that is no pipe, `allocproc` an unused slot, and
  `wait` reaps a zombie. -/
def Enabled (s : St P) : Call P → Prop
  | .open p _ _ _ | .dup p _ | .close p _ | .exit p => s.life p = .live
  | .pipe p q => s.life p = .live ∧ ∀ a, q = some a → (s.pipe a).alloc = false
  | .fork p np => s.life p = .live ∧ ∀ c, np = some c → s.life c = .unused
  | .wait p c => s.life p = .live ∧ s.life c = .zombie

def St.exec (s : St P) : Call P → Except String (St.Ret × St P)
  | .open p ip r w => s.open' p ip r w
  | .pipe p q => s.pipe' p q
  | .dup p fd => s.dup p fd
  | .close p fd => s.close p fd
  | .fork p np => s.fork p np
  | .exit p => s.exit p
  | .wait _ c => .ok (.ok, s.wait c)

def St.step (s : St P) (c : Call P) : Option (St P) :=
  match s.exec c with
  | .ok (_, u) => some u
  | .error _ => none

def boot (init : P) : St P where
  file := fun _ => ⟨.none, 0, false, false, 0, 0, 0⟩
  pipe := fun _ => ⟨false, false, false⟩
  life := fun p => if p = init then .live else .unused
  ofile := fun _ _ => none

/-! ### The invariant -/

def St.IsEnd (s : St P) (q : ℕ) (w : Bool) (f : Fid) : Prop :=
  0 < (s.file f).ref ∧ (s.file f).type = .pipe ∧ (s.file f).pipe = q ∧ (s.file f).writable = w

def Pipe.isOpen (v : Pipe) (w : Bool) : Bool := if w then v.writeopen else v.readopen

variable [Fintype P]

def St.refs (s : St P) (f : Fid) : ℕ := ∑ p, ∑ fd, if s.ofile p fd = some f then 1 else 0

structure Inv (held : List Fid) (s : St P) : Prop where
  count : ∀ f, (s.file f).ref = s.refs f + held.count f
  typed : ∀ f, 0 < (s.file f).ref ↔ (s.file f).type ≠ .none
  empty : ∀ p, (s.life p).opens = false → ∀ fd, s.ofile p fd = none
  inj : ∀ q w f g, s.IsEnd q w f → s.IsEnd q w g → f = g
  ends : ∀ q w, (s.pipe q).alloc = true → ((s.pipe q).isOpen w = true ↔ ∃ f, s.IsEnd q w f)
  alloc : ∀ q w f, s.IsEnd q w f → (s.pipe q).alloc = true

variable {s u : St P} {held : List Fid} {f : Fid} {p : P} {fd : Fd}

omit [DecidableEq P] in
theorem Inv.ref_pos (h : Inv held s) (hf : f ∈ held) : 0 < (s.file f).ref := by
  have := count_pos_iff.mpr hf
  rw [h.count f]
  omega

/-! ### Descriptors -/

theorem refs_setFd (s : St P) (p : P) (fd : Fd) (o : Option Fid) (f : Fid) :
    (s.setFd p fd o).refs f + (if s.ofile p fd = some f then 1 else 0) =
      s.refs f + if o = some f then 1 else 0 := by
  have hrow : ∀ q, (∑ d, if (s.setFd p fd o).ofile q d = some f then 1 else 0) =
      update (fun q => ∑ d, if s.ofile q d = some f then 1 else 0) p
        (∑ d, update (fun d => if s.ofile p d = some f then 1 else 0) fd
          (if o = some f then 1 else 0) d) q := by
    intro q
    rcases eq_or_ne q p with rfl | hq
    · rw [update_self]
      refine sum_congr rfl fun d _ => ?_
      rcases eq_or_ne d fd with rfl | hd
      · simp [St.setFd]
      · simp [St.setFd, hd]
    · simp [St.setFd, hq]
  have houter := sum_update (fun q => ∑ d, if s.ofile q d = some f then 1 else 0) p
    (∑ d, update (fun d => if s.ofile p d = some f then 1 else 0) fd
      (if o = some f then 1 else 0) d)
  have hinner := sum_update (fun d => if s.ofile p d = some f then 1 else 0) fd
    (if o = some f then 1 else 0)
  have hsum : (s.setFd p fd o).refs f = ∑ q, update
      (fun q => ∑ d, if s.ofile q d = some f then 1 else 0) p
      (∑ d, update (fun d => if s.ofile p d = some f then 1 else 0) fd
        (if o = some f then 1 else 0) d) q := sum_congr rfl fun q _ => hrow q
  have hrefs : s.refs f = ∑ q, ∑ d, if s.ofile q d = some f then 1 else 0 := rfl
  omega

omit [DecidableEq P] in
theorem refs_setFile (s : St P) (g : Fid) (v : File) (f : Fid) : (s.setFile g v).refs f = s.refs f := rfl

theorem Inv.install (h : Inv (f :: held) s) (hp : (s.life p).opens = true) (hfd : s.ofile p fd = none) :
    Inv held (s.setFd p fd (some f)) := by
  refine ⟨fun g => ?_, h.typed, fun q hq d => ?_, h.inj, h.ends, h.alloc⟩
  · have hrefs := refs_setFd s p fd (some f) g
    have hcount := h.count g
    rw [hfd, count_cons] at *
    simp only [reduceCtorEq, if_false, some.injEq, beq_iff_eq] at hrefs hcount
    show (s.file g).ref = _
    split_ifs at hrefs hcount <;> omega
  · have hqp : q ≠ p := by
      rintro rfl
      exact Bool.false_ne_true (hq.symm.trans hp)
    simpa [St.setFd, hqp] using h.empty q hq d

theorem Inv.clear (h : Inv held s) (hfd : s.ofile p fd = some f) :
    Inv (f :: held) (s.setFd p fd none) := by
  refine ⟨fun g => ?_, h.typed, fun q hq d => ?_, h.inj, h.ends, h.alloc⟩
  · have hrefs := refs_setFd s p fd none g
    have hcount := h.count g
    rw [hfd] at hrefs
    simp only [reduceCtorEq, if_false, some.injEq] at hrefs
    rw [count_cons]
    simp only [beq_iff_eq]
    show (s.file g).ref = _
    split_ifs at hrefs ⊢ <;> omega
  · have hnone := h.empty q hq d
    rcases eq_or_ne q p with rfl | hqp
    · rcases eq_or_ne d fd with rfl | hd
      · simp [St.setFd]
      · simpa [St.setFd, hd] using hnone
    · simpa [St.setFd, hqp] using hnone

/-! ### References -/

variable {v : File} {q : ℕ}

omit [DecidableEq P] [Fintype P] in
/-- What is open on which end, when the entry of `f` changes. -/
theorem isEnd_setFile {w : Bool} {g : Fid} : (s.setFile f v).IsEnd q w g ↔
    if g = f then 0 < v.ref ∧ v.type = .pipe ∧ v.pipe = q ∧ v.writable = w else s.IsEnd q w g := by
  unfold St.IsEnd St.setFile
  split_ifs with hg
  · subst hg
    simp
  · simp [hg]

omit [DecidableEq P] in
/-- The count of an entry changes, and it stays in use. -/
theorem Inv.recount (h : Inv held s) {held' : List Fid} {n : ℤ} (hpos : 0 < (s.file f).ref)
    (hn : 0 < n) (hcount : ∀ g, (if g = f then n else (s.file g).ref) = s.refs g + held'.count g) :
    Inv held' (s.setFile f { s.file f with ref := n }) := by
  have hend : ∀ q w g, (s.setFile f { s.file f with ref := n }).IsEnd q w g ↔ s.IsEnd q w g := by
    intro q w g
    rw [isEnd_setFile]
    split_ifs with hg
    · subst hg
      exact and_congr_left' (iff_of_true hn hpos)
    · rfl
  refine ⟨fun g => ?_, fun g => ?_, h.empty, fun q w g g' hg hg' => ?_, fun q w hq => ?_,
    fun q w g hg => ?_⟩
  · rw [refs_setFile, ← hcount g]
    split_ifs with hg
    · simp [St.setFile, hg]
    · simp [St.setFile, hg]
  · rcases eq_or_ne g f with rfl | hg
    · simpa [St.setFile, hn] using (h.typed g).mp hpos
    · simpa [St.setFile, hg] using h.typed g
  · exact h.inj q w g g' ((hend q w g).mp hg) ((hend q w g').mp hg')
  · exact (h.ends q w hq).trans (exists_congr fun g => (hend q w g).symm)
  · exact h.alloc q w g ((hend q w g).mp hg)

omit [DecidableEq P] in
theorem Inv.filedup (h : Inv held s) (hpos : 0 < (s.file f).ref) :
    ∃ u, s.filedup f = .ok u ∧ Inv (f :: held) u ∧ u.ofile = s.ofile ∧ u.life = s.life := by
  refine ⟨_, if_neg (by omega), h.recount hpos (by omega) fun g => ?_, rfl, rfl⟩
  have hg := h.count g
  rw [count_cons]
  simp only [beq_iff_eq]
  split_ifs with hgf hfg hfg
  · subst hgf
    push_cast
    omega
  · exact absurd hgf.symm hfg
  · exact absurd hfg.symm hgf
  · omega

omit [DecidableEq P] [Fintype P] in
/-- The ends open after the last reference to `f` has gone. -/
theorem isEnd_drop (hv : v.ref = 0) {w : Bool} {g : Fid} :
    (s.setFile f v).IsEnd q w g ↔ g ≠ f ∧ s.IsEnd q w g := by
  rw [isEnd_setFile]
  split_ifs with hg
  · simp [hv, hg]
  · simp [hg]

section
omit [DecidableEq P]

/-- The last reference to `f` goes; its entry is free. -/
theorem Inv.free (h : Inv (f :: held) s) (hone : (s.file f).ref = 1) (v : File) (hv : v.ref = 0)
    (ht : v.type = .none) : (∀ g, ((s.setFile f v).file g).ref = (s.setFile f v).refs g + held.count g) ∧
      (∀ g, 0 < ((s.setFile f v).file g).ref ↔ ((s.setFile f v).file g).type ≠ .none) := by
  refine ⟨fun g => ?_, fun g => ?_⟩
  · have hg := h.count g
    rw [count_cons] at hg
    simp only [beq_iff_eq] at hg
    rw [refs_setFile]
    rcases eq_or_ne g f with rfl | hgf
    · simp only [St.setFile, update_self, hv]
      rw [if_pos rfl] at hg
      push_cast at hg
      omega
    · rw [if_neg hgf.symm] at hg
      simpa [St.setFile, hgf] using hg
  · rcases eq_or_ne g f with rfl | hgf
    · simp [St.setFile, hv, ht]
    · simpa [St.setFile, hgf] using h.typed g

/-- `pipeclose` of the end that `f` was open on. -/
theorem Inv.pipeclose (h : Inv (f :: held) s) (hone : (s.file f).ref = 1)
    (ht : (s.file f).type = .pipe) (v : File) (hv : v.ref = 0) (hvt : v.type = .none) :
    Inv held ((s.setFile f v).pipeclose (s.file f).pipe (s.file f).writable) := by
  obtain ⟨hcount, htyped⟩ := h.free hone v hv hvt
  have hend : s.IsEnd (s.file f).pipe (s.file f).writable f := ⟨by omega, ht, rfl, rfl⟩
  have halloc := h.alloc _ _ f hend
  have hdrop : ∀ q w g, (s.setFile f v).IsEnd q w g ↔ g ≠ f ∧ s.IsEnd q w g := fun q w g =>
    isEnd_drop hv
  -- no other file is open on this end
  have hlast : ∀ g, ¬ (s.setFile f v).IsEnd (s.file f).pipe (s.file f).writable g := by
    intro g hg
    obtain ⟨hgf, hg⟩ := (hdrop _ _ g).mp hg
    exact hgf (h.inj _ _ g f hg hend)
  have hother : ∀ q w, (q, w) ≠ ((s.file f).pipe, (s.file f).writable) → ∀ g,
      ((s.setFile f v).IsEnd q w g ↔ s.IsEnd q w g) := by
    intro q w hqw g
    rw [hdrop]
    refine ⟨And.right, fun hg => ⟨?_, hg⟩⟩
    rintro rfl
    exact hqw (by rw [hg.2.2.1, hg.2.2.2])
  generalize hq : (s.file f).pipe = q at *
  generalize hw : (s.file f).writable = w at *
  -- the page after the end has been closed
  have hpipe : ∀ w', ((((s.setFile f v).pipeclose q w).pipe q).isOpen w' = true ↔
      w' ≠ w ∧ (s.pipe q).isOpen w' = true) := by
    intro w'
    simp only [St.pipeclose, St.setPipe, update_self]
    cases w <;> cases w' <;> simp [Pipe.isOpen, St.setFile] <;> split_ifs <;> simp_all
  have hkeep : ∀ r, r ≠ q → ((s.setFile f v).pipeclose q w).pipe r = s.pipe r := by
    intro r hr
    simp [St.pipeclose, St.setPipe, St.setFile, hr]
  have hopen : ((((s.setFile f v).pipeclose q w).pipe q).alloc = true ↔
      (s.pipe q).isOpen (!w) = true) := by
    simp only [St.pipeclose, St.setPipe, update_self]
    cases w <;> simp [Pipe.isOpen, St.setFile] <;> split_ifs <;> simp_all
  refine ⟨hcount, htyped, h.empty, fun r w' g g' hg hg' => ?_, fun r w' hr => ?_, fun r w' g hg => ?_⟩
  · exact h.inj r w' g g' ((hdrop r w' g).mp hg).2 ((hdrop r w' g').mp hg').2
  · rcases eq_or_ne r q with rfl | hrq
    · rw [hpipe w']
      rcases eq_or_ne w' w with rfl | hww
      · exact iff_of_false (fun hx => hx.1 rfl) fun ⟨g, hg⟩ => hlast g hg
      · have hbefore := h.ends r w' halloc
        simp only [ne_eq, hww, not_false_eq_true, true_and]
        exact hbefore.trans (exists_congr fun g => (hother r w' (by simp [hww]) g).symm)
    · rw [hkeep r hrq] at hr ⊢
      exact (h.ends r w' hr).trans (exists_congr fun g => (hother r w' (by simp [hrq]) g).symm)
  · rcases eq_or_ne r q with rfl | hrq
    · -- the other end is open, so the page stays
      have hww : w' ≠ w := by
        rintro rfl
        exact hlast g hg
      have hnot : w' = !w := by
        cases w <;> cases w' <;> simp_all
      rw [hopen, ← hnot, h.ends r w' halloc]
      exact ⟨g, ((hdrop r w' g).mp hg).2⟩
    · rw [hkeep r hrq]
      exact h.alloc r w' g ((hdrop r w' g).mp hg).2

/-- A reference in flight is dropped. -/
theorem Inv.fileclose (h : Inv (f :: held) s) :
    ∃ u, s.fileclose f = .ok u ∧ Inv held u ∧ u.ofile = s.ofile ∧ u.life = s.life := by
  have hpos := h.ref_pos (mem_cons_self (a := f) (l := held))
  unfold St.fileclose
  rw [if_neg (by omega)]
  rcases lt_or_ge 0 ((s.file f).ref - 1) with hmore | hmore
  · rw [if_pos hmore]
    refine ⟨_, rfl, h.recount hpos (by omega) fun g => ?_, rfl, rfl⟩
    have hg := h.count g
    rw [count_cons] at hg
    simp only [beq_iff_eq] at hg
    split_ifs with hgf
    · subst hgf
      rw [if_pos rfl] at hg
      push_cast at hg
      omega
    · rw [if_neg (fun hx => hgf hx.symm)] at hg
      simpa using hg
  have hone : (s.file f).ref = 1 := by omega
  rw [if_neg (by omega)]
  dsimp only
  split_ifs with hpipe
  · exact ⟨_, rfl, h.pipeclose hone hpipe _ rfl rfl, rfl, rfl⟩
  · obtain ⟨hcount, htyped⟩ := h.free hone { s.file f with ref := 0, type := .none } rfl rfl
    have hend : ∀ q w g, (s.setFile f { s.file f with ref := 0, type := .none }).IsEnd q w g ↔
        s.IsEnd q w g := by
      intro q w g
      rw [isEnd_drop rfl]
      refine ⟨And.right, fun hg => ⟨?_, hg⟩⟩
      rintro rfl
      exact hpipe hg.2.1
    refine ⟨_, rfl, ⟨hcount, htyped, h.empty, fun q w g g' hg hg' => ?_, fun q w hq => ?_,
      fun q w g hg => ?_⟩, rfl, rfl⟩
    · exact h.inj q w g g' ((hend q w g).mp hg) ((hend q w g').mp hg')
    · exact (h.ends q w hq).trans (exists_congr fun g => (hend q w g).symm)
    · exact h.alloc q w g ((hend q w g).mp hg)

end

/-! ### New files -/

omit [DecidableEq P] [Fintype P] in
theorem filealloc_some {u : St P} (h : s.filealloc = some (f, u)) :
    (s.file f).ref = 0 ∧ u = s.setFile f { s.file f with ref := 1 } := by
  obtain ⟨g, hg, hfu⟩ := Option.map_eq_some_iff.mp h
  rw [Prod.mk.injEq] at hfu
  obtain ⟨rfl, rfl⟩ := hfu
  have htest := List.find?_some hg
  exact ⟨by simpa using htest, rfl⟩

omit [Fintype P] in
theorem fdalloc_some {u : St P} (h : s.fdalloc p f = some (fd, u)) :
    s.ofile p fd = none ∧ u = s.setFd p fd (some f) := by
  obtain ⟨d, hd, hfu⟩ := Option.map_eq_some_iff.mp h
  rw [Prod.mk.injEq] at hfu
  obtain ⟨rfl, rfl⟩ := hfu
  have htest := List.find?_some hd
  exact ⟨by simpa using htest, rfl⟩

omit [DecidableEq P] in
theorem Inv.type_of_free (h : Inv held s) (hf : (s.file f).ref = 0) : (s.file f).type = .none := by
  by_contra hne
  have := (h.typed f).mpr hne
  omega

omit [DecidableEq P] [Fintype P] in
theorem setFile_self (s : St P) (f : Fid) (v : File) :
    (s.setFile f v).setFile f (s.file f) = s := by
  simp [St.setFile]

omit [DecidableEq P] [Fintype P] in
/-- A file that was allocated and not used yet is closed as if nothing had happened. -/
theorem fileclose_fresh (hf : (s.file f).ref = 0) (htype : (s.file f).type = .none) :
    (s.setFile f { s.file f with ref := 1 }).fileclose f = .ok s := by
  have hback : ((s.setFile f { s.file f with ref := 1 }).setFile f
      { (s.setFile f { s.file f with ref := 1 }).file f with ref := 0, type := .none }) = s := by
    refine Eq.trans ?_ (setFile_self s f { s.file f with ref := 1 })
    congr 1
    simp [St.setFile, ← hf, ← htype]
  unfold St.fileclose
  rw [if_neg (by simp [St.setFile]), if_neg (by simp [St.setFile])]
  dsimp only
  rw [if_neg (by simp [St.setFile, htype]), hback]

omit [DecidableEq P] in
/-- A free entry becomes an open inode, with its one reference in flight. -/
theorem Inv.newInode (h : Inv held s) (hf : (s.file f).ref = 0) (hv : v.ref = 1)
    (ht : v.type = .inode) : Inv (f :: held) (s.setFile f v) := by
  have hend : ∀ q w g, (s.setFile f v).IsEnd q w g ↔ s.IsEnd q w g := by
    intro q w g
    rw [isEnd_setFile]
    split_ifs with hg
    · subst hg
      refine iff_of_false (fun hx => ?_) fun hx => ?_
      · rw [ht] at hx
        cases hx.2.1
      · have := hx.1
        omega
    · rfl
  refine ⟨fun g => ?_, fun g => ?_, h.empty, fun q w g g' hg hg' => ?_, fun q w hq => ?_,
    fun q w g hg => ?_⟩
  · have hg := h.count g
    rw [refs_setFile, count_cons]
    simp only [beq_iff_eq]
    rcases eq_or_ne g f with rfl | hgf
    · simp only [St.setFile, update_self, hv, if_pos]
      push_cast
      omega
    · simp only [St.setFile, update_of_ne hgf, if_neg hgf.symm]
      simpa using hg
  · rcases eq_or_ne g f with rfl | hgf
    · simp [St.setFile, hv, ht]
    · simpa [St.setFile, hgf] using h.typed g
  · exact h.inj q w g g' ((hend q w g).mp hg) ((hend q w g').mp hg')
  · exact (h.ends q w hq).trans (exists_congr fun g => (hend q w g).symm)
  · exact h.alloc q w g ((hend q w g).mp hg)

def File.asPipe (v : File) (q : ℕ) (w : Bool) : File :=
  { v with ref := 1, type := .pipe, readable := !w, writable := w, pipe := q }

def St.newPipe (s : St P) (f0 f1 : Fid) (q : ℕ) (v0 v1 : File) : St P :=
  ((s.setPipe q ⟨true, true, true⟩).setFile f0 v0).setFile f1 v1

omit [DecidableEq P] in
/-- Two free entries become the ends of a new pipe, with their references in flight. -/
theorem Inv.newPipe (h : Inv held s) {f0 f1 : Fid} (hne : f0 ≠ f1) (h0 : (s.file f0).ref = 0)
    (h1 : (s.file f1).ref = 0) (hq : (s.pipe q).alloc = false) (v0 v1 : File)
    (hr0 : v0.ref = 1 ∧ v0.type = .pipe ∧ v0.pipe = q ∧ v0.writable = false)
    (hr1 : v1.ref = 1 ∧ v1.type = .pipe ∧ v1.pipe = q ∧ v1.writable = true) :
    Inv (f0 :: f1 :: held) (s.newPipe f0 f1 q v0 v1) := by
  -- nobody was open on the page before
  have hnone : ∀ w g, ¬ s.IsEnd q w g := fun w g hg => by
    rw [h.alloc q w g hg] at hq
    cases hq
  have hfile : ∀ g, (s.newPipe f0 f1 q v0 v1).file g =
      if g = f1 then v1 else if g = f0 then v0 else s.file g := by
    intro g
    simp only [St.newPipe, St.setFile, St.setPipe, update_apply]
  have hend : ∀ r w g, (s.newPipe f0 f1 q v0 v1).IsEnd r w g ↔
      if r = q then g = (if w then f1 else f0) else s.IsEnd r w g := by
    intro r w g
    unfold St.IsEnd
    rw [hfile g]
    have hfree : ∀ g, (s.file g).ref = 0 → ¬ s.IsEnd r w g := fun g hg hx => by
      have := hx.1
      omega
    rcases eq_or_ne g f1 with rfl | hg1
    · rw [if_pos rfl]
      rcases eq_or_ne r q with rfl | hrq
      · cases w <;> simp [hr1, hne.symm]
      · rw [if_neg hrq]
        exact iff_of_false (fun hx => hrq (hx.2.2.1.symm.trans hr1.2.2.1)) (hfree _ h1)
    · rw [if_neg hg1]
      rcases eq_or_ne g f0 with rfl | hg0
      · rw [if_pos rfl]
        rcases eq_or_ne r q with rfl | hrq
        · cases w <;> simp [hr0, hne]
        · rw [if_neg hrq]
          exact iff_of_false (fun hx => hrq (hx.2.2.1.symm.trans hr0.2.2.1)) (hfree _ h0)
      · rw [if_neg hg0]
        rcases eq_or_ne r q with rfl | hrq
        · rw [if_pos rfl]
          exact iff_of_false (hnone w g) (by cases w <;> simp [hg0, hg1])
        · rw [if_neg hrq]
  have hpipe : ∀ r, r ≠ q → (s.newPipe f0 f1 q v0 v1).pipe r = s.pipe r := fun r hr => by
    simp [St.newPipe, St.setFile, St.setPipe, hr]
  have hpage : (s.newPipe f0 f1 q v0 v1).pipe q = ⟨true, true, true⟩ := by
    simp [St.newPipe, St.setFile, St.setPipe]
  refine ⟨fun g => ?_, fun g => ?_, h.empty, fun r w g g' hg hg' => ?_, fun r w hr => ?_,
    fun r w g hg => ?_⟩
  · have hg := h.count g
    have hrefs : (s.newPipe f0 f1 q v0 v1).refs g = s.refs g := rfl
    rw [hfile g, hrefs, count_cons, count_cons]
    simp only [beq_iff_eq]
    rcases eq_or_ne g f1 with rfl | hg1
    · rw [if_pos rfl, if_pos rfl, if_neg hne, hr1.1]
      push_cast
      omega
    · rw [if_neg hg1, if_neg hg1.symm]
      rcases eq_or_ne g f0 with rfl | hg0
      · rw [if_pos rfl, if_pos rfl, hr0.1]
        push_cast
        omega
      · rw [if_neg hg0, if_neg hg0.symm]
        simpa using hg
  · rw [hfile g]
    split_ifs
    · simp [hr1]
    · simp [hr0]
    · exact h.typed g
  · rw [hend] at hg hg'
    rcases eq_or_ne r q with rfl | hrq
    · rw [if_pos rfl] at hg hg'
      exact hg.trans hg'.symm
    · rw [if_neg hrq] at hg hg'
      exact h.inj r w g g' hg hg'
  · rcases eq_or_ne r q with rfl | hrq
    · rw [hpage]
      refine iff_of_true (by cases w <;> rfl) ⟨if w then f1 else f0, ?_⟩
      rw [hend, if_pos rfl]
    · rw [hpipe r hrq] at hr ⊢
      refine (h.ends r w hr).trans (exists_congr fun g => ?_)
      rw [hend, if_neg hrq]
  · rcases eq_or_ne r q with rfl | hrq
    · rw [hpage]
    · rw [hend, if_neg hrq] at hg
      rw [hpipe r hrq]
      exact h.alloc r w g hg

/-! ### The calls -/

theorem Inv.ref_pos_of_fd (h : Inv held s) (hfd : s.ofile p fd = some f) : 0 < (s.file f).ref := by
  have hrefs := refs_setFd s p fd none f
  rw [hfd, if_pos rfl] at hrefs
  simp only [reduceCtorEq, if_false] at hrefs
  rw [h.count f]
  omega

theorem Inv.dup (h : Inv [] s) (hp : (s.life p).opens = true) :
    ∃ r u, s.dup p fd = .ok (r, u) ∧ Inv [] u := by
  unfold St.dup
  cases ho : s.ofile p fd with
  | none => exact ⟨_, _, rfl, h⟩
  | some f =>
    dsimp only
    cases ha : s.fdalloc p f with
    | none => exact ⟨_, _, rfl, h⟩
    | some v =>
      obtain ⟨d, t⟩ := v
      obtain ⟨hd, rfl⟩ := fdalloc_some ha
      have hpos := h.ref_pos_of_fd ho
      obtain ⟨u, hu, hinv, hof, hlife⟩ := h.filedup hpos
      have hcomm : (s.setFd p d (some f)).filedup f = .ok (u.setFd p d (some f)) := by
        unfold St.filedup at hu ⊢
        have hlt : ¬ (s.file f).ref < 1 := by omega
        rw [if_neg hlt] at hu
        rw [if_neg (show ¬ ((s.setFd p d (some f)).file f).ref < 1 from hlt)]
        rw [← Except.ok.inj hu]
        rfl
      dsimp only
      rw [hcomm]
      refine ⟨_, _, rfl, hinv.install ?_ ?_⟩
      · rw [hlife]
        exact hp
      · rw [hof]
        exact hd

theorem Inv.close (h : Inv [] s) : ∃ r u, s.close p fd = .ok (r, u) ∧ Inv [] u := by
  unfold St.close
  cases ho : s.ofile p fd with
  | none => exact ⟨_, _, rfl, h⟩
  | some f =>
    obtain ⟨u, hu, hinv, _⟩ := (h.clear ho).fileclose
    dsimp only
    rw [hu]
    exact ⟨_, _, rfl, hinv⟩

theorem Inv.open' (h : Inv [] s) (hp : (s.life p).opens = true) (ip : Option ℕ) (readable writable : Bool) :
    ∃ r u, s.open' p ip readable writable = .ok (r, u) ∧ Inv [] u := by
  unfold St.open'
  cases ip with
  | none => exact ⟨_, _, rfl, h⟩
  | some ip =>
    dsimp only
    cases hfa : s.filealloc with
    | none => exact ⟨_, _, rfl, h⟩
    | some v =>
      obtain ⟨f, t⟩ := v
      obtain ⟨hf, rfl⟩ := filealloc_some hfa
      dsimp only
      cases hfd : (s.setFile f { s.file f with ref := 1 }).fdalloc p f with
      | none =>
        dsimp only
        rw [fileclose_fresh hf (h.type_of_free hf)]
        exact ⟨_, _, rfl, h⟩
      | some v =>
        obtain ⟨d, t⟩ := v
        obtain ⟨hd, rfl⟩ := fdalloc_some hfd
        refine ⟨_, _, rfl, ?_⟩
        -- the same as filling in the entry first
        have hnew := (h.newInode hf (v := { s.file f with
          ref := 1, type := .inode, ip := ip, off := 0, readable := readable, writable := writable })
          rfl rfl).install hp hd
        convert hnew using 1
        simp [St.setFile, St.setFd]

omit [DecidableEq P] in
theorem Inv.closeBoth {f0 f1 : Fid} (h : Inv [f0, f1] s) :
    ∃ r u, s.closeBoth f0 f1 = .ok (r, u) ∧ Inv [] u := by
  obtain ⟨u, hu, hinv, _⟩ := h.fileclose
  obtain ⟨v, hv, hinv', _⟩ := hinv.fileclose
  unfold St.closeBoth
  rw [hu]
  dsimp only
  rw [hv]
  exact ⟨_, _, rfl, hinv'⟩

omit [DecidableEq P] in
/-- `pipealloc` fails without a trace, or leaves the ends of a new pipe in flight. -/
theorem Inv.pipealloc (h : Inv [] s) {q : Option ℕ}
    (hq : ∀ a, q = some a → (s.pipe a).alloc = false) :
    s.pipealloc q = .ok (none, s) ∨ ∃ f0 f1 u, s.pipealloc q = .ok (some (f0, f1), u) ∧
      Inv [f0, f1] u ∧ u.ofile = s.ofile ∧ u.life = s.life := by
  unfold St.pipealloc
  cases ha : s.filealloc with
  | none => exact .inl rfl
  | some v =>
    obtain ⟨f0, t⟩ := v
    obtain ⟨h0, rfl⟩ := filealloc_some ha
    dsimp only
    cases hb : (s.setFile f0 { s.file f0 with ref := 1 }).filealloc with
    | none =>
      left
      dsimp only [St.pipebad]
      rw [fileclose_fresh h0 (h.type_of_free h0)]
      rfl
    | some v =>
      obtain ⟨f1, t⟩ := v
      obtain ⟨h1, rfl⟩ := filealloc_some hb
      have hne : f0 ≠ f1 := by
        rintro rfl
        simp [St.setFile] at h1
      have h1' : (s.file f1).ref = 0 := by simpa [St.setFile, hne.symm] using h1
      dsimp only
      cases q with
      | none =>
        left
        -- what the two calls of filealloc changed, in the other order
        have hswap : (s.setFile f0 { s.file f0 with ref := 1 }).setFile f1
            { (s.setFile f0 { s.file f0 with ref := 1 }).file f1 with ref := 1 } =
            (s.setFile f1 { s.file f1 with ref := 1 }).setFile f0
              { (s.setFile f1 { s.file f1 with ref := 1 }).file f0 with ref := 1 } := by
          simp only [St.setFile, update_of_ne hne, update_of_ne hne.symm]
          rw [update_comm hne]
        have hfirst : (s.setFile f1 { s.file f1 with ref := 1 }).file f0 = s.file f0 := by
          simp [St.setFile, hne]
        dsimp only [St.pipebad]
        rw [hswap, fileclose_fresh (by rw [hfirst, h0]) (by rw [hfirst, h.type_of_free h0])]
        dsimp only
        rw [fileclose_fresh h1' (h.type_of_free h1')]
        rfl
      | some q =>
        right
        refine ⟨f0, f1, _, rfl, ?_, rfl, rfl⟩
        have hnew := h.newPipe hne h0 h1' (hq q rfl) ((s.file f0).asPipe q false)
          ((s.file f1).asPipe q true) ⟨rfl, rfl, rfl, rfl⟩ ⟨rfl, rfl, rfl, rfl⟩
        convert hnew using 1
        simp only [St.newPipe, St.setFile, St.setPipe, File.asPipe, St.mk.injEq, and_true]
        funext g
        simp only [update_apply]
        split_ifs <;> simp_all

theorem Inv.pipe' (h : Inv [] s) (hp : (s.life p).opens = true) {q : Option ℕ}
    (hq : ∀ a, q = some a → (s.pipe a).alloc = false) :
    ∃ r u, s.pipe' p q = .ok (r, u) ∧ Inv [] u := by
  unfold St.pipe'
  rcases h.pipealloc hq with ha | ⟨f0, f1, t, ha, hinv, hof, hlife⟩
  · rw [ha]
    exact ⟨_, _, rfl, h⟩
  rw [ha]
  dsimp only
  cases hb : t.fdalloc p f0 with
  | none => exact hinv.closeBoth
  | some v =>
    obtain ⟨d0, t0⟩ := v
    obtain ⟨hd0, rfl⟩ := fdalloc_some hb
    have hlive : (t.life p).opens = true := by rw [hlife, hp]
    have hinv0 := hinv.install hlive hd0
    dsimp only
    cases hc : (t.setFd p d0 (some f0)).fdalloc p f1 with
    | none =>
      -- the first descriptor is given back
      have hfd : (t.setFd p d0 (some f0)).ofile p d0 = some f0 := by simp [St.setFd]
      have hclear := hinv0.clear hfd
      exact hclear.closeBoth
    | some v =>
      obtain ⟨d1, t1⟩ := v
      obtain ⟨hd1, rfl⟩ := fdalloc_some hc
      exact ⟨_, _, rfl, hinv0.install hlive hd1⟩

omit [DecidableEq P] in
/-- A process changes its state; it has no open files in one that has none. -/
theorem Inv.changeLife (h : Inv held s) {life : P → Life}
    (hl : ∀ q, (life q).opens = false → ∀ d, s.ofile q d = none) : Inv held { s with life := life } :=
  ⟨h.count, h.typed, hl, h.inj, h.ends, h.alloc⟩

theorem Inv.copyFds (p np : P) : ∀ (fds : List Fd) (s : St P), fds.Nodup →
    Inv [] s → (s.life np).opens = true → (∀ d ∈ fds, s.ofile np d = none) →
    ∃ u, St.copyFds p np fds s = .ok u ∧ Inv [] u ∧ u.life = s.life
  | [], s, _, h, _, _ => ⟨s, rfl, h, rfl⟩
  | d :: fds, s, hnd, h, hnp, hempty => by
    have hrest : ∀ d' ∈ fds, s.ofile np d' = none := fun d' hd' =>
      hempty d' (mem_cons_of_mem d hd')
    unfold St.copyFds
    cases ho : s.ofile p d with
    | none => exact Inv.copyFds p np fds s hnd.tail h hnp hrest
    | some f =>
      obtain ⟨t, ht, hinv, hof, hlife⟩ := h.filedup (h.ref_pos_of_fd ho)
      have hopens : (t.life np).opens = true := by rw [hlife, hnp]
      have hfree : t.ofile np d = none := by rw [hof]; exact hempty d mem_cons_self
      have hinst := hinv.install hopens hfree
      have hnext : ∀ d' ∈ fds, (t.setFd np d (some f)).ofile np d' = none := by
        intro d' hd'
        have hdd : d' ≠ d := fun hx => (nodup_cons.mp hnd).1 (hx ▸ hd')
        simpa [St.setFd, hdd, hof] using hrest d' hd'
      obtain ⟨u, hu, hinv', hlife'⟩ := Inv.copyFds p np fds _ hnd.tail hinst
        (by rw [← hnp]; exact congrArg Life.opens (congrFun hlife np)) hnext
      dsimp only
      rw [ht]
      exact ⟨u, hu, hinv', hlife'.trans hlife⟩

theorem Inv.fork (h : Inv [] s) {np : Option P} (hnp : ∀ c, np = some c → s.life c = .unused) :
    ∃ r u, s.fork p np = .ok (r, u) ∧ Inv [] u := by
  unfold St.fork
  cases np with
  | none => exact ⟨_, _, rfl, h⟩
  | some np =>
    have hempty : ∀ d, s.ofile np d = none := h.empty np (by rw [hnp np rfl]; rfl)
    -- allocproc: the slot has no open files, whatever its state is called
    have hbirth : Inv [] { s with life := update s.life np .embryo } := by
      refine h.changeLife fun q hq d => ?_
      rcases eq_or_ne q np with rfl | hqn
      · exact hempty d
      · exact h.empty q (by simpa [hqn] using hq) d
    obtain ⟨u, hu, hinv, hlife⟩ := Inv.copyFds p np (finRange NOFILE) _
      (nodup_finRange NOFILE) hbirth (by simp [Life.opens]) (fun d _ => hempty d)
    dsimp only
    rw [hu]
    refine ⟨_, _, rfl, hinv.changeLife fun q hq d => ?_⟩
    rcases eq_or_ne q np with rfl | hqn
    · simp [Life.opens] at hq
    · refine hinv.empty q ?_ d
      simpa [hqn, hlife] using hq

omit [Fintype P] in
/-- `fileclose` does not look at descriptors. -/
theorem fileclose_setFd (s : St P) (p : P) (d : Fd) (o : Option Fid) (f : Fid) :
    (s.setFd p d o).fileclose f = (s.fileclose f).map fun u => u.setFd p d o := by
  have hfile : (s.setFd p d o).file = s.file := rfl
  unfold St.fileclose
  rw [hfile]
  dsimp only
  split_ifs <;> rfl

theorem Inv.closeFds : ∀ (fds : List Fd) (s : St P), Inv [] s →
    ∃ u, St.closeFds p fds s = .ok u ∧ Inv [] u ∧ u.life = s.life ∧
      (∀ d, d ∈ fds ∨ s.ofile p d = none → u.ofile p d = none)
  | [], s, h => ⟨s, rfl, h, rfl, fun d hd => hd.resolve_left (not_mem_nil)⟩
  | d :: fds, s, h => by
    unfold St.closeFds
    cases ho : s.ofile p d with
    | none =>
      obtain ⟨u, hu, hinv, hlife, hnone⟩ := Inv.closeFds fds s h
      refine ⟨u, hu, hinv, hlife, fun d' hd' => hnone d' ?_⟩
      rcases hd' with hd' | hd'
      · rcases mem_cons.mp hd' with rfl | hd'
        · exact .inr ho
        · exact .inl hd'
      · exact .inr hd'
    | some f =>
      obtain ⟨t, ht, hinv, hof, hlife⟩ := (h.clear ho).fileclose
      rw [fileclose_setFd] at ht
      obtain ⟨v, hv, rfl⟩ : ∃ v, s.fileclose f = .ok v ∧ v.setFd p d none = t := by
        cases hc : s.fileclose f with
        | error msg => rw [hc] at ht; cases ht
        | ok v => rw [hc] at ht; exact ⟨v, rfl, Except.ok.inj ht⟩
      obtain ⟨u, hu, hinv', hlife', hnone⟩ := Inv.closeFds fds _ hinv
      dsimp only
      rw [hv]
      refine ⟨u, hu, hinv', hlife'.trans hlife, fun d' hd' => hnone d' ?_⟩
      rw [hof]
      rcases eq_or_ne d' d with rfl | hdd
      · exact .inr (by simp [St.setFd])
      · refine hd'.imp (fun hx => (mem_cons.mp hx).resolve_left hdd) fun hx => ?_
        simpa [St.setFd, hdd] using hx

theorem Inv.exit (h : Inv [] s) : ∃ r u, s.exit p = .ok (r, u) ∧ Inv [] u := by
  obtain ⟨u, hu, hinv, _, hnone⟩ := h.closeFds (p := p) (finRange NOFILE)
  unfold St.exit
  rw [hu]
  refine ⟨_, _, rfl, hinv.changeLife fun q hq d => ?_⟩
  rcases eq_or_ne q p with rfl | hqp
  · exact hnone d (.inl (mem_finRange d))
  · exact hinv.empty q (by simpa [hqp] using hq) d

theorem Inv.wait (h : Inv [] s) {c : P} (hc : s.life c = .zombie) : Inv [] (s.wait c) := by
  refine h.changeLife fun q hq d => ?_
  rcases eq_or_ne q c with rfl | hqc
  · exact h.empty q (by rw [hc]; rfl) d
  · exact h.empty q (by simpa [hqc] using hq) d

theorem Inv.exec (h : Inv [] s) {c : Call P} (hc : Enabled s c) :
    ∃ r u, s.exec c = .ok (r, u) ∧ Inv [] u := by
  have hlive : ∀ {p}, s.life p = .live → (s.life p).opens = true := fun hp => by rw [hp]; rfl
  cases c with
  | «open» p ip r w => exact h.open' (hlive hc) ip r w
  | pipe p q => exact h.pipe' (hlive hc.1) hc.2
  | dup p fd => exact h.dup (hlive hc)
  | close p fd => exact h.close
  | fork p np => exact h.fork hc.2
  | exit p => exact h.exit
  | wait p c => exact ⟨_, _, rfl, h.wait hc.2⟩

theorem inv_boot (init : P) : Inv [] (boot init) := by
  refine ⟨fun f => by simp [boot, St.refs], fun f => by simp [boot], fun p _ d => rfl,
    fun q w f g hf => ?_, fun q w hq => ?_, fun q w f hf => ?_⟩
  · exact absurd hf.1 (by simp [boot])
  · cases hq
  · exact absurd hf.1 (by simp [boot])

/-! ### Between calls -/

def St.descriptors (s : St P) (f : Fid) : ℕ :=
  ∑ p, ∑ fd, if s.life p ≠ .unused ∧ s.ofile p fd = some f then 1 else 0

/-- Some descriptor of a process in use is open on the end of pipe `q` that `w` says. -/
def St.HasEnd (s : St P) (q : ℕ) (w : Bool) : Prop :=
  ∃ p fd f, s.life p ≠ .unused ∧ s.ofile p fd = some f ∧ (s.file f).type = .pipe ∧
    (s.file f).pipe = q ∧ (s.file f).writable = w

structure Exact (s : St P) : Prop where
  count : ∀ f, (s.file f).ref = s.descriptors f
  typed : ∀ f, 0 < (s.file f).ref → (s.file f).type = .pipe ∨ (s.file f).type = .inode
  unused : ∀ p, s.life p = .unused → ∀ fd, s.ofile p fd = none
  readopen : ∀ q, (s.pipe q).alloc = true → ((s.pipe q).readopen = true ↔ s.HasEnd q false)
  writeopen : ∀ q, (s.pipe q).alloc = true → ((s.pipe q).writeopen = true ↔ s.HasEnd q true)

omit [DecidableEq P] in
theorem Inv.descriptors (h : Inv held s) (f : Fid) : s.descriptors f = s.refs f := by
  refine sum_congr rfl fun p _ => sum_congr rfl fun fd _ => if_congr ?_ rfl rfl
  refine and_iff_right_of_imp fun hfd hun => ?_
  rw [h.empty p (by rw [hun]; rfl) fd] at hfd
  cases hfd

theorem Inv.isEnd_iff (h : Inv [] s) (q : ℕ) (w : Bool) : (∃ f, s.IsEnd q w f) ↔ s.HasEnd q w := by
  constructor
  · rintro ⟨f, hpos, ht, hq, hw⟩
    -- a positive count is a descriptor somewhere
    rw [h.count f] at hpos
    have hrefs : s.refs f ≠ 0 := by
      simp only [count_nil] at hpos
      omega
    obtain ⟨p, _, hp⟩ := Finset.exists_ne_zero_of_sum_ne_zero hrefs
    obtain ⟨fd, _, hfd⟩ := Finset.exists_ne_zero_of_sum_ne_zero hp
    have hof : s.ofile p fd = some f := by
      by_contra hne
      exact hfd (if_neg hne)
    refine ⟨p, fd, f, fun hun => ?_, hof, ht, hq, hw⟩
    rw [h.empty p (by rw [hun]; rfl) fd] at hof
    cases hof
  · rintro ⟨p, fd, f, _, hof, ht, hq, hw⟩
    exact ⟨f, h.ref_pos_of_fd hof, ht, hq, hw⟩

theorem Inv.exact (h : Inv [] s) : Exact s := by
  refine ⟨fun f => ?_, fun f hf => ?_, fun p hp => h.empty p (by rw [hp]; rfl), fun q hq => ?_,
    fun q hq => ?_⟩
  · rw [h.count f, h.descriptors f]
    simp
  · have hne := (h.typed f).mp hf
    cases ht : (s.file f).type with
    | none => exact absurd ht hne
    | pipe => exact .inl rfl
    | inode => exact .inr rfl
  · exact (h.ends q false hq).trans (h.isEnd_iff q false)
  · exact (h.ends q true hq).trans (h.isEnd_iff q true)

/-- After any sequence of calls by any processes, successful or not, the reference counts are exact;
  and no call that can be made next panics. -/
theorem file_refs_exact (init : P) (s : St P) (h : Reach St.step Enabled (boot init) s) :
    Exact s ∧ ∀ c, Enabled s c → ∃ r u, s.exec c = .ok (r, u) := by
  have hinv : Inv [] s := by
    refine h.invariant (I := fun s => Inv [] s) (inv_boot init) fun t c v ht hc hs => ?_
    obtain ⟨r, u, hu, hinv⟩ := ht.exec hc
    rw [St.step, hu] at hs
    exact some.inj hs ▸ hinv
  refine ⟨hinv.exact, fun c hc => ?_⟩
  obtain ⟨r, u, hu, _⟩ := hinv.exec hc
  exact ⟨r, u, hu⟩

instance (s : St P) : (c : Call P) → Decidable (Enabled s c)
  | .open p _ _ _ | .dup p _ | .close p _ | .exit p => inferInstanceAs (Decidable (s.life p = .live))
  | .pipe p none => decidable_of_iff (s.life p = .live) (by simp [Enabled])
  | .pipe p (some a) => decidable_of_iff (s.life p = .live ∧ (s.pipe a).alloc = false)
      (by simp [Enabled])
  | .fork p none => decidable_of_iff (s.life p = .live) (by simp [Enabled])
  | .fork p (some c) => decidable_of_iff (s.life p = .live ∧ s.life c = .unused) (by simp [Enabled])
  | .wait p c => inferInstanceAs (Decidable (s.life p = .live ∧ s.life c = .zombie))

/-- A process opens a file, makes a pipe, forks and closes its read end; the child exits. -/
theorem file_refs_exact_fork : ∃ s : St Bool, Reach St.step Enabled (boot false) s ∧
    s.descriptors ⟨0, by decide⟩ = 1 ∧ (s.pipe 5).readopen = false ∧ Exact s := by
  obtain ⟨s, hs, hobs⟩ := exists_reach (show (follow St.step Enabled (boot false)
    [.open false (some 7) true false, .pipe false (some 5), .dup false ⟨0, by decide⟩,
      .fork false (some true), .close false ⟨1, by decide⟩, .close false ⟨3, by decide⟩,
      .exit true]).map (fun s => (s.descriptors ⟨0, by decide⟩, (s.pipe 5).readopen)) =
        some (1, false) by decide +kernel)
  rw [Prod.mk.injEq] at hobs
  exact ⟨s, hs, hobs.1, hobs.2, (file_refs_exact false s hs).1⟩

end Xv6.Ftable

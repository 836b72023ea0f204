import Xv6.Fs.Calls

/-! @src sysfile.c, fs.c, file.c, exec.c | part:resources of the calls | scheme:machine

  Every exit of every call gives back what the call took. `Bal` is a discipline for the code that is
  left: with what the process has now it runs, whatever it is told, to a return where it has
  nothing. Calls begin so, each action keeps it, and what all processes have is what the reference
  counts and `log.outstanding` say.

      ref(i) = Σ references in flight + file table entries + current directories -/

namespace Xv6.Fs.Calls
open Schemes
open Locks (Name Path)
open Xv6.Ftable (NOFILE NFILE Fd Fid)
open Function
open Option (some map_eq_some_iff)
open Finset (univ mem_univ sum_congr)

structure Ctx where
  locks : ℕ → Bool
  fly : ℕ → ℤ
  tx : Bool
  fresh : Option Fid
  placed : Bool
  cwd : Option ℕ

namespace Ctx

def lock (g : Ctx) (i : ℕ) : Ctx := { g with locks := update g.locks i true }

def unlock (g : Ctx) (i : ℕ) : Ctx := { g with locks := update g.locks i false }

def add (g : Ctx) (i : ℕ) (n : ℤ) : Ctx := { g with fly := update g.fly i (g.fly i + n) }

def move (g : Ctx) (c : Option ℕ) : Ctx :=
  { g with
    cwd := c
    fly := fun i =>
      g.fly i + ((if g.cwd = some i then (1 : ℤ) else 0) - if c = some i then 1 else 0) }

structure Clear (g : Ctx) : Prop where
  locks : ∀ i, g.locks i = false
  fly : ∀ i, g.fly i = 0
  tx : g.tx = false
  fresh : g.fresh = none

end Ctx

/-- The code returns with nothing left, whatever it is told on the way, and begins no transaction
  in a transaction. -/
def Bal : Code → Ctx → Prop
  | .ret _, g => g.Clear
  | .panic _, _ => True
  | .beginOp k, g => g.tx = false ∧ Bal k { g with tx := true }
  | .endOp k, g => g.tx = true ∧ Bal k { g with tx := false }
  | .lock i k, g => g.locks i = false → Bal k (g.lock i)
  | .check _ k, g => Bal k g
  | .unlock i k, g => g.locks i = true ∧ Bal k (g.unlock i)
  | .get i k, g => Bal k (g.add i 1)
  | .put _ k, g => Bal k g
  | .deref i k, g => Bal k (g.add i (-1))
  | .type _ k, g => ∀ t, Bal (k t) g
  | .links _ k, g => ∀ n, Bal (k n) g
  | .look _ _ k, g => (∀ i, Bal (k (some i)) (g.add i 1)) ∧ Bal (k none) g
  | .write _ _ _ k, g => Bal k g
  | .empty _ k, g => ∀ b, Bal (k b) g
  | .setLinks _ _ k, g => Bal k g
  | .alloc _ k, g => ∀ i, Bal (k i) (g.add i 1)
  | .init _ _ _ k, g => Bal k g
  | .writei _ _ k, g => Bal k g
  | .filealloc k, g => g.fresh = none ∧ Bal (k none) g ∧
      ∀ f, Bal (k (some f)) { g with fresh := some f, placed := false }
  | .fdalloc f k, g => (g.fresh = some f ∧ g.placed = false) ∧ Bal (k none) g ∧
      ∀ fd, Bal (k (some fd)) { g with placed := true }
  | .fileclose f k, g => (g.fresh = some f ∧ g.placed = false) ∧
      Bal (k none) { g with fresh := none, placed := false }
  | .closefd _ k, g => g.fresh = none ∧ Bal (k none) g ∧ Bal (k (some none)) g ∧
      ∀ i, Bal (k (some (some i))) (g.add i 1)
  | .argfd _ k, g => ∀ r, Bal (k r) g
  | .dup _ k, g => g.fresh = none ∧ ∀ r, Bal (k r) g
  | .setFile f ip k, g => g.fresh = some f ∧
      Bal k { g.add ip (-1) with fresh := none, placed := false }
  | .setCwd c k, g => Bal k (g.move c)
  | .coin k, g => ∀ b, Bal (k b) g

/-! ### The calls are disciplined -/

variable {g : Ctx} {i j : ℕ} {k : Code}

theorem Ctx.lock_unlock (h : g.locks i = false) : (g.lock i).unlock i = g := by
  simp only [Ctx.lock, Ctx.unlock, update_idem]
  rw [← h, update_eq_self]

theorem Ctx.add_add (g : Ctx) (i : ℕ) (m n : ℤ) : (g.add i m).add i n = g.add i (m + n) := by
  simp only [Ctx.add, update_self, update_idem, add_assoc]

theorem Ctx.add_zero (g : Ctx) (i : ℕ) : g.add i 0 = g := by
  simp [Ctx.add]

theorem Ctx.put_other {dp : ℕ} (h : g.locks dp = false) :
    ((((g.add dp 1).lock dp).add i 1).unlock dp).add dp (-1) = g.add i 1 := by
  have hlocks : update (update g.locks dp true) dp false = g.locks := by
    rw [update_idem, ← h, update_eq_self]
  simp only [Ctx.add, Ctx.lock, Ctx.unlock, hlocks, Ctx.mk.injEq, true_and, and_true]
  funext n
  simp only [update_apply]
  split_ifs <;> grind

theorem Ctx.put_below {dp : ℕ} (h : g.locks dp = false) (hne : i ≠ dp) :
    (((((g.add dp 1).lock dp).add i 1).lock i).unlock dp).add dp (-1) = (g.add i 1).lock i := by
  simp only [Ctx.add, Ctx.lock, Ctx.unlock, Ctx.mk.injEq, and_true]
  constructor
  · funext n
    simp only [update_apply]
    split_ifs <;> grind
  · funext n
    simp only [update_apply]
    split_ifs <;> grind

theorem bal_ilock (h : g.locks i = false → Bal k (g.lock i)) : Bal (ilock i k) g := h

theorem bal_unlock (hl : g.locks i = false) (h : Bal k g) : Bal (.unlock i k) (g.lock i) := by
  refine ⟨update_self _ _ _, ?_⟩
  rwa [Ctx.lock_unlock hl]

theorem bal_iput (h : Bal k (g.add i (-1))) : Bal (iput i k) g := fun hl => bal_unlock hl h

theorem bal_put_back (h : Bal k g) : Bal (iput i k) (g.add i 1) := by
  refine bal_iput ?_
  rw [Ctx.add_add]
  simpa [Ctx.add_zero] using h

theorem bal_unlock_put_back (hl : g.locks i = false) (h : Bal k g) :
    Bal (iunlockput i k) ((g.add i 1).lock i) := bal_unlock hl (bal_put_back h)

theorem bal_put_other {dp : ℕ} (hl : g.locks dp = false) (h : Bal k (g.add i 1)) :
    Bal (iunlockput dp k) (((g.add dp 1).lock dp).add i 1) := by
  refine ⟨update_self _ _ _, bal_iput ?_⟩
  rwa [Ctx.put_other hl]

theorem bal_put_below {dp : ℕ} (hl : g.locks dp = false) (hne : i ≠ dp)
    (h : Bal k ((g.add i 1).lock i)) :
    Bal (iunlockput dp k) ((((g.add dp 1).lock dp).add i 1).lock i) := by
  refine ⟨?_, bal_iput ?_⟩
  · simp [Ctx.lock, Ctx.add, hne.symm]
  · rwa [Ctx.put_below hl hne]

theorem bal_namexLoop {parent : Bool} {k : Option (ℕ × Name) → Code} (hnone : Bal (k none) g)
    (hsome : ∀ ip nm, Bal (k (some (ip, nm))) (g.add ip 1)) :
    ∀ elems ip, Bal (namexLoop parent k elems ip) (g.add ip 1)
  | [], ip => by
    unfold namexLoop
    split_ifs
    · exact bal_put_back hnone
    · exact hsome ip ""
  | nm :: rest, ip => by
    unfold namexLoop
    refine bal_ilock fun hl t => ?_
    dsimp only
    split_ifs
    · exact bal_unlock_put_back hl hnone
    · exact bal_unlock hl (hsome ip nm)
    · refine ⟨fun next => ?_, ?_⟩
      · exact bal_put_other hl (bal_namexLoop hnone hsome rest next)
      · exact bal_unlock_put_back hl hnone

theorem bal_namex {parent : Bool} {k : Option (ℕ × Name) → Code} {cwd : ℕ} {path : Path}
    (hnone : Bal (k none) g) (hsome : ∀ ip nm, Bal (k (some (ip, nm))) (g.add ip 1)) :
    Bal (namex cwd path parent k) g := bal_namexLoop hnone hsome path.elems _

theorem bal_dirlink {dp inum : ℕ} {nm : Name} {k : Bool → Code} (h : ∀ ok, Bal (k ok) g) :
    Bal (dirlink dp nm inum k) g := ⟨fun _ => bal_put_back (h false), h true⟩

structure Ctx.Open (g : Ctx) : Prop where
  locks : ∀ i, g.locks i = false
  fly : ∀ i, g.fly i = 0
  tx : g.tx = true
  fresh : g.fresh = none

theorem Ctx.Open.end_op (h : g.Open) {r : ℤ} : Bal (.endOp (.ret r)) g :=
  ⟨h.tx, h.locks, h.fly, rfl, h.fresh⟩

theorem Ctx.Open.fail (h : g.Open) : Bal fail g := h.end_op

theorem bal_beginOp (h : g.Clear) (hk : ∀ g' : Ctx, g'.Open → g'.cwd = g.cwd → Bal k g') :
    Bal (.beginOp k) g := ⟨h.tx, hk _ ⟨h.locks, h.fly, rfl, h.fresh⟩ rfl⟩

theorem bal_linkBad (h : g.Open) : Bal (linkBad i) (g.add i 1) :=
  bal_ilock fun hl => bal_unlock_put_back hl h.fail

theorem bal_sysLink (h : g.Clear) (cwd : ℕ) (old new : Path) : Bal (sysLink cwd old new) g := by
  refine bal_beginOp h fun g ho _ => bal_namex ho.fail fun ip nm => bal_ilock fun hl t => ?_
  dsimp only
  split_ifs
  · exact bal_unlock_put_back hl ho.fail
  · refine bal_unlock hl (bal_namex (bal_linkBad ho) fun dp nm => bal_ilock fun hl' => ?_)
    refine bal_dirlink fun ok => ?_
    cases ok with
    | true => exact bal_unlock_put_back hl' (bal_put_back ho.end_op)
    | false => exact bal_unlock_put_back hl' (bal_linkBad ho)

theorem bal_unlinkEnd (h : g.Open) {dp ip t : ℕ} (hl : g.locks dp = false) (hne : ip ≠ dp)
    (hl' : g.locks ip = false) :
    Bal (unlinkEnd dp ip t) ((((g.add dp 1).lock dp).add ip 1).lock ip) := by
  have hrest : Bal (iunlockput dp (.setLinks ip (· - 1) (iunlockput ip (.endOp (.ret 0)))))
      ((((g.add dp 1).lock dp).add ip 1).lock ip) :=
    bal_put_below hl hne (bal_unlock_put_back hl' h.end_op)
  unfold unlinkEnd
  split_ifs
  · exact hrest
  · exact hrest

theorem lock_other {dp : ℕ} (hl : (((g.add dp 1).lock dp).add i 1).locks i = false) :
    i ≠ dp ∧ g.locks i = false := by
  have hne : i ≠ dp := by
    rintro rfl
    simp [Ctx.lock, Ctx.add] at hl
  refine ⟨hne, ?_⟩
  simpa [Ctx.lock, Ctx.add, hne] using hl

theorem bal_sysUnlink (h : g.Clear) (cwd : ℕ) (path : Path) : Bal (sysUnlink cwd path) g := by
  refine bal_beginOp h fun g ho _ => bal_namex ho.fail fun dp nm => bal_ilock fun hl => ?_
  split_ifs
  · exact bal_unlock_put_back hl ho.fail
  · refine ⟨fun ip => bal_ilock fun hl' n => ?_, bal_unlock_put_back hl ho.fail⟩
    obtain ⟨hne, hfree⟩ := lock_other hl'
    dsimp only
    split_ifs
    · trivial
    · intro t e
      dsimp only
      split_ifs
      · exact bal_unlock_put_back hl' (bal_unlock_put_back hl ho.fail)
      · exact bal_unlinkEnd ho hl hne hfree

theorem bal_createNew {dp t : ℕ} {nm : Name} {major minor : ℤ} {k : ℕ → Code}
    (hl : g.locks dp = false)
    (hk : ∀ ip, g.locks ip = false → Bal (k ip) ((g.add ip 1).lock ip)) :
    Bal (createNew dp nm t major minor k) ((g.add dp 1).lock dp) := by
  intro ip
  refine bal_ilock fun hl' => ?_
  obtain ⟨hne, hfree⟩ := lock_other hl'
  have hlast : Bal (dirlink dp nm ip fun ok =>
    if ok then iunlockput dp (k ip) else .panic "create: dirlink")
    ((((g.add dp 1).lock dp).add ip 1).lock ip) := by
    refine bal_dirlink fun ok => ?_
    split_ifs
    · exact bal_put_below hl hne (hk ip hfree)
    · trivial
  show Bal (ite _ _ _) _
  split_ifs
  · have hdots : Bal (dirlink ip "." ip fun ok =>
      if ok then dirlink ip ".." dp fun ok =>
        if ok then dirlink dp nm ip fun ok =>
          if ok then iunlockput dp (k ip) else .panic "create: dirlink"
        else .panic "create dots"
      else .panic "create dots") ((((g.add dp 1).lock dp).add ip 1).lock ip) := by
      refine bal_dirlink fun ok => ?_
      split_ifs
      · refine bal_dirlink fun ok => ?_
        split_ifs
        · exact hlast
        · trivial
      · trivial
    exact hdots
  · exact hlast

theorem bal_create {cwd t : ℕ} {path : Path} {major minor : ℤ} {k : Option ℕ → Code}
    (hnone : Bal (k none) g)
    (hsome : ∀ ip, g.locks ip = false → Bal (k (some ip)) ((g.add ip 1).lock ip)) :
    Bal (create cwd path t major minor k) g := by
  refine bal_namex hnone fun dp nm => bal_ilock fun hl => ⟨fun ip => ?_, bal_createNew hl hsome⟩
  refine bal_put_other hl (bal_ilock fun hl' t' => ?_)
  dsimp only
  split_ifs
  · exact hsome ip hl'
  · exact bal_unlock_put_back hl' hnone

theorem bal_openEnd (h : g.Open) (hl : g.locks i = false) :
    Bal (openEnd i) ((g.add i 1).lock i) := by
  refine ⟨h.fresh, bal_unlock_put_back hl h.fail, fun f => ⟨⟨rfl, rfl⟩, ?_, fun fd => ?_⟩⟩
  · -- no descriptor: the file is closed again
    let g' : Ctx := { g with fresh := none, placed := false }
    have hopen : g'.Open := ⟨h.locks, h.fly, h.tx, rfl⟩
    have hback : Bal (iunlockput i fail) ((g'.add i 1).lock i) := bal_unlock_put_back hl hopen.fail
    exact ⟨⟨rfl, rfl⟩, hback⟩
  · refine ⟨update_self _ _ _, h.tx, rfl, fun n => ?_, fun n => ?_, rfl, rfl⟩
    · simp only [Ctx.unlock, Ctx.lock, Ctx.add, update_apply]
      split_ifs
      · rfl
      · exact h.locks n
    · simp only [Ctx.unlock, Ctx.lock, Ctx.add, update_apply]
      split_ifs
      · simp [h.fly]
      · exact h.fly n

theorem bal_sysOpen (h : g.Clear) (cwd : ℕ) (path : Path) (creat rdonly : Bool) :
    Bal (sysOpen cwd path creat rdonly) g := by
  refine bal_beginOp h fun g ho _ => ?_
  split_ifs
  · exact bal_create ho.fail fun ip hl => bal_openEnd ho hl
  · refine bal_namex ho.fail fun ip nm => bal_ilock fun hl t => ?_
    dsimp only
    split_ifs
    · exact bal_unlock_put_back hl ho.fail
    · exact bal_openEnd ho hl

theorem bal_sysMake (h : g.Clear) (cwd : ℕ) (path : Option Path) (t : ℕ) (major minor : ℤ) :
    Bal (sysMake cwd path t major minor) g := by
  refine bal_beginOp h fun g ho _ => ?_
  cases path with
  | none => exact ho.fail
  | some path => exact bal_create ho.fail fun ip hl => bal_unlock_put_back hl ho.end_op

theorem bal_setCwd (h : g.Open) {cwd : ℕ} (hcwd : g.cwd = some cwd) (c : Option ℕ) (g' : Ctx)
    (hfly : ∀ n, g'.fly n = (if c = some n then 1 else 0) - if cwd = n then 1 else 0)
    (hrest : g'.locks = g.locks ∧ g'.tx = g.tx ∧ g'.fresh = g.fresh ∧ g'.cwd = g.cwd) {r : ℤ} :
    Bal (.endOp (.setCwd c (.ret r))) g' := by
  obtain ⟨hl, ht, hf, hc⟩ := hrest
  refine ⟨ht.trans h.tx, fun n => ?_, fun n => ?_, rfl, hf.trans h.fresh⟩
  · exact (congrFun hl n).trans (h.locks n)
  show g'.fly n + ((if g'.cwd = some n then (1 : ℤ) else 0) - if c = some n then 1 else 0) = 0
  rw [hfly, hc, hcwd]
  simp only [some.injEq]
  ring

theorem bal_sysChdir (h : g.Clear) {cwd : ℕ} (hcwd : g.cwd = some cwd) (path : Option Path) :
    Bal (sysChdir cwd path) g := by
  refine bal_beginOp h fun g' ho hc => ?_
  cases path with
  | none => exact ho.fail
  | some path =>
    refine bal_namex ho.fail fun ip nm => bal_ilock fun hl t => ?_
    dsimp only
    split_ifs
    · exact bal_unlock_put_back hl ho.fail
    · refine bal_unlock hl (bal_iput (bal_setCwd ho (hc.trans hcwd) (some ip)
        ((g'.add ip 1).add cwd (-1)) (fun n => ?_) ⟨rfl, rfl, rfl, rfl⟩))
      simp only [Ctx.add, update_apply, ho.fly, some.injEq]
      split_ifs <;> grind

theorem bal_closeEnd (h : g.Clear) (hk : Bal k g) : Bal (closeEnd none k) g ∧
    ∀ i, Bal (closeEnd (some i) k) (g.add i 1) := by
  refine ⟨hk, fun i => ⟨h.tx, ?_⟩⟩
  have hback : Bal (.endOp k) { g with tx := true } := by
    refine ⟨rfl, ?_⟩
    have hsame : { { g with tx := true } with tx := false } = g := by rw [← h.tx]
    rwa [hsame]
  exact bal_put_back hback

theorem bal_sysClose (h : g.Clear) (fd : Fd) : Bal (sysClose fd) g := by
  have hret : Bal (.ret 0) g := h
  exact ⟨h.fresh, h, (bal_closeEnd h hret).1, (bal_closeEnd h hret).2⟩

theorem bal_sysRead (h : g.Clear) (fd : Fd) : Bal (sysRead fd) g := by
  intro r
  match r with
  | none | some none => exact h
  | some (some ip) =>
    refine bal_ilock fun hl t => ?_
    have hend : Bal (.unlock ip (.coin fun ok => .ret (if ok then 0 else -1))) (g.lock ip) :=
      bal_unlock hl fun _ => h
    dsimp only [device]
    split_ifs
    · exact bal_unlock hl (bal_ilock fun _ => hend)
    · exact hend

theorem bal_writeLoop {g : Ctx} (h : g.Clear) (ip : ℕ) : ∀ pieces, Bal (writeLoop ip pieces) g
  | [] => h
  | bs :: rest => by
    refine bal_beginOp h fun g' ho _ => bal_ilock fun hl t => ?_
    have hclear : Ctx.Clear { g' with tx := false } := ⟨ho.locks, ho.fly, rfl, ho.fresh⟩
    have hnext : Bal (Code.unlock ip (.endOp (.coin fun ok =>
      if ok then writeLoop ip rest else .ret (-1)))) (g'.lock ip) := by
      refine bal_unlock hl ⟨ho.tx, fun ok => ?_⟩
      cases ok with
      | true => exact bal_writeLoop hclear ip rest
      | false => exact hclear
    dsimp only
    split_ifs
    · exact bal_unlock hl (bal_ilock fun _ => hnext)
    · exact hnext

theorem bal_sysExec (h : g.Clear) (cwd : ℕ) (path : Path) : Bal (sysExec cwd path) g := by
  refine bal_beginOp h fun g' ho _ => bal_namex ho.fail fun ip nm => bal_ilock fun hl ok => ?_
  dsimp only
  split_ifs
  · exact bal_unlock_put_back hl ⟨ho.tx, fun _ => ⟨ho.locks, ho.fly, rfl, ho.fresh⟩⟩
  · exact bal_unlock_put_back hl ho.fail

theorem bal_exitLoop (h : g.Clear) {cwd : ℕ} (hcwd : g.cwd = some cwd) :
    ∀ fds, Bal (exitLoop cwd fds) g
  | [] => by
    refine bal_beginOp h fun g' ho hc => bal_iput (bal_setCwd ho (hc.trans hcwd) none
      (g'.add cwd (-1)) (fun n => ?_) ⟨rfl, rfl, rfl, rfl⟩)
    simp only [Ctx.add, update_apply, ho.fly]
    split_ifs <;> grind
  | fd :: fds => by
    have hrest := bal_exitLoop h hcwd fds
    exact ⟨h.fresh, hrest, (bal_closeEnd h hrest).1, (bal_closeEnd h hrest).2⟩

theorem bal_code (h : g.Clear) {cwd : ℕ} (hcwd : g.cwd = some cwd) (c : Call) :
    Bal (c.code cwd) g := by
  cases c with
  | «open» path creat rdonly =>
    cases path with
    | none => exact h
    | some path => exact bal_sysOpen h cwd path creat rdonly
  | link old new =>
    cases old with
    | none => exact h
    | some old =>
      cases new with
      | none => exact h
      | some new => exact bal_sysLink h cwd old new
  | unlink path =>
    cases path with
    | none => exact h
    | some path => exact bal_sysUnlink h cwd path
  | mkdir path => exact bal_sysMake h cwd path T_DIR 0 0
  | mknod path major minor => exact bal_sysMake h cwd path T_DEV major minor
  | chdir path => exact bal_sysChdir h hcwd path
  | close fd =>
    cases fd with
    | none => exact h
    | some fd => exact bal_sysClose h fd
  | read fd =>
    cases fd with
    | none => exact h
    | some fd => exact bal_sysRead h fd
  | write fd pieces =>
    cases fd with
    | none => exact h
    | some fd =>
      intro r
      match r with
      | none | some none => exact h
      | some (some ip) => exact bal_writeLoop h ip pieces
  | fstat fd =>
    cases fd with
    | none => exact h
    | some fd =>
      intro r
      match r with
      | none | some none => exact h
      | some (some ip) => exact bal_ilock fun hl => bal_unlock hl h
  | exec path =>
    cases path with
    | none => exact h
    | some path => exact bal_sysExec h cwd path
  | dup fd =>
    cases fd with
    | none => exact h
    | some fd => exact ⟨h.fresh, fun _ => h⟩
  | exit => exact bal_exitLoop h hcwd (List.finRange NOFILE)

/-! ### What all processes have together -/

section Own

variable {P : Type} {s : St P} {p q : P}

def holds [DecidableEq P] (holder : ℕ → Option P) (p : P) (i : ℕ) : Bool := holder i = some p

def St.ctx [DecidableEq P] (s : St P) (p : P) : Ctx where
  locks := holds s.holder p
  fly := s.fly p
  tx := s.tx p
  fresh := s.fresh p
  placed := s.placed p
  cwd := s.cwd p

def St.own (s : St P) (i : ℕ) (p : P) : ℤ := s.fly p i + if s.cwd p = some i then 1 else 0

def St.keeps (s : St P) (i : ℕ) (f : Fid) : ℤ := if (s.file f).ip = some i then 1 else 0

def fds (o : Fd → Option Fid) (f : Fid) : ℤ := ∑ fd, if o fd = some f then 1 else 0

theorem fds_update (o : Fd → Option Fid) (fd : Fd) (v : Option Fid) (f : Fid) :
    fds (update o fd v) f =
      fds o f + ((if v = some f then 1 else 0) - if o fd = some f then 1 else 0) := by
  unfold fds
  rw [sum_change (f := fun n => if o n = some f then 1 else 0) fd
    (fun n hn => by rw [update_of_ne hn]), update_self]

theorem fds_nonneg (o : Fd → Option Fid) (f : Fid) : 0 ≤ fds o f :=
  Finset.sum_nonneg fun fd _ => by split_ifs <;> decide

theorem fds_pos {o : Fd → Option Fid} {fd : Fd} {f : Fid} (h : o fd = some f) : 0 < fds o f := by
  have hnonneg : ∀ n ∈ univ, (0 : ℤ) ≤ if o n = some f then 1 else 0 := by
    intro n _
    split_ifs <;> decide
  have hle := Finset.single_le_sum hnonneg (mem_univ fd)
  rw [if_pos h] at hle
  exact hle

/-- The descriptors of process `p` for file `f`, and its claim to a file that has none yet. -/
def St.shares (s : St P) (f : Fid) (p : P) : ℤ :=
  fds (s.ofile p) f + if s.fresh p = some f ∧ s.placed p = false then 1 else 0

theorem St.fds_le_shares (f : Fid) (p : P) : fds (s.ofile p) f ≤ s.shares f p := by
  unfold St.shares
  split_ifs <;> omega

theorem St.shares_congr {t : St P} (ho : t.ofile q = s.ofile q) (hf : t.fresh q = s.fresh q)
    (hp : t.placed q = s.placed q) (f : Fid) : t.shares f q = s.shares f q := by
  unfold St.shares
  rw [ho, hf, hp]

variable [Fintype P]

def St.total (s : St P) (f : Fid) : ℤ := ∑ p, s.shares f p

theorem St.total_change (s t : St P) (p : P) (ho : ∀ q, q ≠ p → t.ofile q = s.ofile q)
    (hf : ∀ q, q ≠ p → t.fresh q = s.fresh q) (hp : ∀ q, q ≠ p → t.placed q = s.placed q)
    (f : Fid) : t.total f = s.total f + (t.shares f p - s.shares f p) :=
  sum_change p fun q hq => St.shares_congr (ho q hq) (hf q hq) (hp q hq) f

end Own

variable {P : Type} [DecidableEq P] [Fintype P] {s : St P} {p q : P}

theorem St.total_setFd (fd : Fd) (o : Option Fid) (f : Fid) :
    (s.setFd p fd o).total f = s.total f +
      ((if o = some f then 1 else 0) - if s.ofile p fd = some f then 1 else 0) := by
  rw [St.total_change s (s.setFd p fd o) p (fun q hq => update_of_ne hq _ _)
    (fun _ _ => rfl) (fun _ _ => rfl)]
  have hnew : (s.setFd p fd o).ofile p = update (s.ofile p) fd o :=
    update_self _ _ _
  have hshares : (s.setFd p fd o).shares f p = fds ((s.setFd p fd o).ofile p) f +
      if s.fresh p = some f ∧ s.placed p = false then 1 else 0 := rfl
  rw [hshares, hnew, fds_update]
  unfold St.shares
  ring

theorem St.total_setFresh (o : Option Fid) (f : Fid) :
    (s.setFresh p o).total f = s.total f + ((if o = some f then 1 else 0) -
      if s.fresh p = some f ∧ s.placed p = false then 1 else 0) := by
  rw [St.total_change s (s.setFresh p o) p (fun _ _ => rfl)
    (fun q hq => update_of_ne hq _ _) (fun q hq => update_of_ne hq _ _)]
  have hnew : (s.setFresh p o).shares f p = fds (s.ofile p) f + if o = some f then 1 else 0 := by
    simp [St.setFresh, St.shares]
  rw [hnew]
  unfold St.shares
  ring

structure Tables (s : St P) : Prop where
  count : ∀ f, s.total f ≤ (s.file f).ref
  used : ∀ f i, (s.file f).ip = some i → 0 < (s.file f).ref
  fresh : ∀ p f, s.fresh p = some f → 0 < (s.file f).ref ∧ (s.file f).ip = none
  apart : ∀ p q f, s.fresh p = some f → s.fresh q = some f → p = q
  seen : ∀ p q f fd, s.fresh p = some f → s.ofile q fd = some f → p = q

namespace Tables

variable {f : Fid} {fd : Fd}

omit [DecidableEq P] in
theorem unseen (h : Tables s) (hf : (s.file f).ref ≤ 0) (p : P) (fd : Fd) :
    s.ofile p fd ≠ some f := by
  intro hfd
  have hone : 0 < fds (s.ofile p) f := fds_pos hfd
  have hle : fds (s.ofile p) f ≤ s.shares f p := St.fds_le_shares f p
  have hall : s.shares f p ≤ s.total f :=
    Finset.single_le_sum
      (fun q _ => (fds_nonneg (s.ofile q) f).trans (St.fds_le_shares f q)) (mem_univ p)
  have hlim := h.count f
  omega

theorem filealloc (h : Tables s) (hp : s.fresh p = none) (hf : (s.file f).ref = 0) :
    Tables ((s.setFile f { s.file f with ref := 1 }).setFresh p (some f)) := by
  have hip : (s.file f).ip = none := by
    rcases hi : (s.file f).ip with _ | i
    · rfl
    · have := h.used f i hi
      omega
  have hother : ∀ q, s.fresh q ≠ some f := by
    intro q hq
    have := (h.fresh q f hq).1
    omega
  refine ⟨fun g => ?_, fun g i => ?_, fun q g => ?_, fun q q' g => ?_, fun q q' g fd => ?_⟩
  · rw [St.total_setFresh]
    have hcount := h.count g
    have hsame : (s.setFile f { s.file f with ref := 1 }).total g = s.total g := rfl
    rw [hsame]
    simp only [St.setFresh, St.setFile, update_apply, hp]
    grind
  · have := h.used g i
    simp only [St.setFresh, St.setFile, update_apply]
    grind
  · have := h.fresh q g
    simp only [St.setFresh, St.setFile, update_apply]
    grind
  · have := h.apart q q' g
    simp only [St.setFresh, St.setFile, update_apply]
    grind
  · have := h.seen q q' g fd
    have := h.unseen hf.le q' fd
    simp only [St.setFresh, St.setFile, update_apply]
    grind

theorem fdalloc (h : Tables s) (hp : s.fresh p = some f) (hpl : s.placed p = false)
    (hfd : s.ofile p fd = none) :
    Tables { s.setFd p fd (some f) with placed := update s.placed p true } := by
  refine ⟨fun g => ?_, h.used, h.fresh, h.apart, fun q q' g n => ?_⟩
  · have hcount := h.count g
    let t : St P := { s.setFd p fd (some f) with placed := update s.placed p true }
    have hsum : t.total g = s.total g + (t.shares g p - s.shares g p) :=
      St.total_change s t p (fun q hq => update_of_ne hq _ _) (fun _ _ => rfl)
        (fun q hq => update_of_ne hq _ _) g
    have hofile : t.ofile p = update (s.ofile p) fd (some f) := update_self _ _ _
    have hplaced : t.placed p = true := update_self _ _ _
    -- the claim to the file becomes a descriptor
    have hshares : t.shares g p = s.shares g p := by
      unfold St.shares
      rw [hofile, hplaced, fds_update, hfd, hp, hpl]
      grind
    show t.total g ≤ (s.file g).ref
    omega
  · have := h.seen q q' g n
    have := h.apart q p g
    simp only [St.setFd, update_apply]
    grind

theorem settle (h : Tables s) (hp : s.fresh p = some f) (v : File)
    (hv : (s.file f).ref - (if s.placed p = false then 1 else 0) ≤ v.ref)
    (hip : ∀ i, v.ip = some i → 0 < v.ref) : Tables ((s.setFile f v).setFresh p none) := by
  refine ⟨fun g => ?_, fun g i => ?_, fun q g => ?_, fun q q' g => ?_, fun q q' g fd => ?_⟩
  · rw [St.total_setFresh]
    have hcount := h.count g
    have hsame : (s.setFile f v).total g = s.total g := rfl
    rw [hsame]
    simp only [St.setFresh, St.setFile, update_apply, hp]
    grind
  · have := h.used g i
    have := hip i
    simp only [St.setFresh, St.setFile, update_apply]
    grind
  · have := h.fresh q g
    have := h.apart q p g
    simp only [St.setFresh, St.setFile, update_apply]
    grind
  · have := h.apart q q' g
    simp only [St.setFresh, St.setFile, update_apply]
    grind
  · have := h.seen q q' g fd
    simp only [St.setFresh, St.setFile, update_apply]
    grind

omit [DecidableEq P] in
theorem not_fresh (h : Tables s) (hp : s.fresh p = none) (hfd : s.ofile p fd = some f) (q : P) :
    s.fresh q ≠ some f := by
  intro hq
  have hqp := h.seen q p f fd hq hfd
  rw [hqp, hp] at hq
  cases hq

theorem closefd (h : Tables s) (hp : s.fresh p = none) (hfd : s.ofile p fd = some f) {v : File}
    (hv : (s.file f).ref - 1 ≤ v.ref) (hip : ∀ i, v.ip = some i → 0 < v.ref) :
    Tables ((s.setFile f v).setFd p fd none) := by
  have hother := h.not_fresh hp hfd
  refine ⟨fun g => ?_, fun g i => ?_, fun q g => ?_, h.apart, fun q q' g n => ?_⟩
  · rw [St.total_setFd]
    have hcount := h.count g
    have hsame : (s.setFile f v).total g = s.total g := rfl
    rw [hsame]
    simp only [St.setFd, St.setFile, update_apply, hfd]
    grind
  · have := h.used g i
    have := hip i
    simp only [St.setFd, St.setFile, update_apply]
    grind
  · have := h.fresh q g
    have := hother q
    simp only [St.setFd, St.setFile, update_apply]
    grind
  · have := h.seen q q' g n
    simp only [St.setFd, St.setFile, update_apply]
    grind

theorem dup (h : Tables s) (hp : s.fresh p = none) (hfd : s.ofile p fd = some f) {fd' : Fd}
    (hfree : s.ofile p fd' = none) :
    Tables ((s.setFile f { s.file f with ref := (s.file f).ref + 1 }).setFd p fd' (some f)) := by
  have hother := h.not_fresh hp hfd
  refine ⟨fun g => ?_, fun g i => ?_, fun q g => ?_, h.apart, fun q q' g n => ?_⟩
  · rw [St.total_setFd]
    have hcount := h.count g
    have hsame :
        (s.setFile f { s.file f with ref := (s.file f).ref + 1 }).total g = s.total g := rfl
    rw [hsame]
    simp only [St.setFd, St.setFile, update_apply, hfree]
    grind
  · have := h.used g i
    simp only [St.setFd, St.setFile, update_apply]
    grind
  · have := h.fresh q g
    have := hother q
    simp only [St.setFd, St.setFile, update_apply]
    grind
  · have := h.seen q q' g n
    have := hother q
    simp only [St.setFd, St.setFile, update_apply]
    grind

theorem fork (h : Tables s) (hp : s.fresh p = none) (c : ℕ) : Tables (s.fork p q c) := by
  have hcard : ∀ g, (fds (s.ofile p) g : ℤ) =
      (univ.filter fun fd => s.ofile p fd = some g).card := by
    intro g
    simp [fds]
  refine ⟨fun g => ?_, fun g i hi => ?_, fun q' g hq => ?_, h.apart, fun q' r g n hq hn => ?_⟩
  · have hcount := h.count g
    have hsum : (s.fork p q c).total g = s.total g +
        ((s.fork p q c).shares g q - s.shares g q) :=
      St.total_change s (s.fork p q c) q (fun r hr => update_of_ne hr _ _)
        (fun _ _ => rfl) (fun _ _ => rfl) g
    have hofile : (s.fork p q c).ofile q = s.ofile p := update_self _ _ _
    have hnew : (s.fork p q c).shares g q = fds ((s.fork p q c).ofile q) g +
        if s.fresh q = some g ∧ s.placed q = false then 1 else 0 := rfl
    have hnonneg := fds_nonneg (s.ofile q) g
    have hdiff : (s.fork p q c).shares g q - s.shares g q ≤ fds (s.ofile p) g := by
      rw [hnew, hofile]
      unfold St.shares
      omega
    show _ ≤ (s.file g).ref + _
    rw [← hcard g]
    omega
  · have hpos := h.used g i hi
    show 0 < (s.file g).ref + _
    omega
  · obtain ⟨hpos, hip⟩ := h.fresh q' g hq
    refine ⟨?_, hip⟩
    show 0 < (s.file g).ref + _
    omega
  · by_cases hr : r = q
    · -- the child has what its parent has, and that is not a file being filled in
      subst hr
      have hn' : s.ofile p n = some g := by simpa [St.fork] using hn
      exact absurd hq (h.not_fresh hp hn' q')
    · exact h.seen q' r g n hq (by simpa [St.fork, hr] using hn)

end Tables

/-! ### The books -/

structure Books (s : St P) : Prop where
  refs : ∀ i, s.ref i = ∑ p, s.own i p + ∑ f, s.keeps i f
  out : s.outstanding = ∑ p, if s.tx p then 1 else 0
  tables : Tables s

namespace Books

variable {f : Fid} {fd : Fd}

omit [DecidableEq P] [Fintype P] in
theorem keeps_change (s t : St P) (f : Fid) (hf : ∀ g, g ≠ f → (t.file g).ip = (s.file g).ip)
    (i : ℕ) : ∑ g, t.keeps i g = ∑ g, s.keeps i g + (t.keeps i f - s.keeps i f) :=
  sum_change f fun g hg => by
    unfold St.keeps
    rw [hf g hg]

omit [DecidableEq P] in
theorem refs_of (h : Books s) {t : St P} (p : P) {i : ℕ} {n : ℤ}
    (hf : ∀ q, q ≠ p → t.fly q = s.fly q) (hc : ∀ q, q ≠ p → t.cwd q = s.cwd q)
    (hkeeps : ∑ g, t.keeps i g = ∑ g, s.keeps i g + n)
    (href : t.ref i = s.ref i + (t.own i p - s.own i p) + n) :
    t.ref i = ∑ q, t.own i q + ∑ g, t.keeps i g := by
  have hown : ∑ q, t.own i q = ∑ q, s.own i q + (t.own i p - s.own i p) :=
    sum_change p fun q hq => by
      unfold St.own
      rw [hf q hq, hc q hq]
  have hrefs := h.refs i
  rw [hown, hkeeps, href, hrefs]
  ring

theorem flow (h : Books s) (p : P) (i : ℕ) (n : ℤ) (v : ℕ → Bool) (d : Disk) :
    Books { s.setFly p i (s.fly p i + n) with
      ref := update s.ref i (s.ref i + n), valid := v, disk := d } := by
  refine ⟨fun j => ?_, h.out, h.tables.count, h.tables.used, h.tables.fresh, h.tables.apart,
    h.tables.seen⟩
  refine h.refs_of p (fun q hq => update_of_ne hq _ _) (fun _ _ => rfl)
    (add_zero _).symm ?_
  simp only [St.own, St.setFly, update_self, update_apply]
  grind

theorem set_tx (h : Books s) (p : P) (b : Bool) (n : ℤ)
    (hn : n = (if b then 1 else 0) - if s.tx p then 1 else 0) :
    Books { s with outstanding := s.outstanding + n, tx := update s.tx p b } := by
  refine ⟨h.refs, ?_, h.tables.count, h.tables.used, h.tables.fresh, h.tables.apart, h.tables.seen⟩
  have hsum : (∑ q, if update s.tx p b q then (1 : ℤ) else 0) =
      (∑ q, if s.tx q then 1 else 0) +
        ((if update s.tx p b p then 1 else 0) - if s.tx p then 1 else 0) :=
    sum_change p fun q hq => by rw [update_of_ne hq]
  rw [hsum, h.out, hn, update_self]

omit [DecidableEq P] in
theorem of_tables (h : Books s) {t : St P} (ht : Tables t)
    (hip : ∀ g, (t.file g).ip = (s.file g).ip)
    (hrest : t.ref = s.ref ∧ t.fly = s.fly ∧ t.cwd = s.cwd ∧ t.outstanding = s.outstanding ∧
      t.tx = s.tx) : Books t := by
  obtain ⟨href, hfly, hcwd, hout, htx⟩ := hrest
  refine ⟨fun j => ?_, ?_, ht⟩
  · have hown : ∀ q, t.own j q = s.own j q := fun q => by
      unfold St.own
      rw [hfly, hcwd]
    have hkeeps : ∀ g, t.keeps j g = s.keeps j g := fun g => by
      unfold St.keeps
      rw [hip g]
    rw [href, h.refs j, sum_congr rfl fun q _ => hown q,
      sum_congr rfl fun g _ => hkeeps g]
  · rw [hout, htx]
    exact h.out

theorem hand_over (h : Books s) (hp : s.fresh p = none) (hfd : s.ofile p fd = some f) {i : ℕ}
    (hlast : (s.file f).ref ≤ 1) (hip : (s.file f).ip = some i) :
    Books (((s.setFile f ⟨0, none⟩).setFly p i (s.fly p i + 1)).setFd p fd none) := by
  have ht : Tables ((s.setFile f ⟨0, none⟩).setFd p fd none) :=
    h.tables.closefd hp hfd (by show _ ≤ (0 : ℤ); omega) (fun _ hi => by cases hi)
  refine ⟨fun j => ?_, h.out, ht.count, ht.used, ht.fresh, ht.apart, ht.seen⟩
  refine h.refs_of p (fun q hq => update_of_ne hq _ _) (fun _ _ => rfl)
    (keeps_change s _ f (fun g hg => congrArg File.ip (update_of_ne hg _ _)) j) ?_
  simp only [St.own, St.keeps, St.setFd, St.setFly, St.setFile, update_self,
    update_apply, hip]
  grind

theorem fill (h : Books s) (hp : s.fresh p = some f) {i : ℕ} :
    Books (((s.setFile f { s.file f with ip := some i }).setFly p i (s.fly p i - 1)).setFresh p
      none) := by
  obtain ⟨hpos, hip⟩ := h.tables.fresh p f hp
  have ht := h.tables.settle hp { s.file f with ip := some i }
    (by show _ ≤ (s.file f).ref; split_ifs <;> omega) (fun _ _ => hpos)
  refine ⟨fun j => ?_, h.out, ht.count, ht.used, ht.fresh, ht.apart, ht.seen⟩
  refine h.refs_of p (fun q hq => update_of_ne hq _ _) (fun _ _ => rfl)
    (keeps_change s _ f (fun g hg => congrArg File.ip (update_of_ne hg _ _)) j) ?_
  simp only [St.own, St.keeps, St.setFresh, St.setFly, St.setFile, update_self,
    update_apply, hip]
  grind

theorem set_cwd (h : Books s) (p : P) (c : Option ℕ) :
    Books { s with
      cwd := update s.cwd p c
      fly := update s.fly p fun i => s.fly p i +
        ((if s.cwd p = some i then (1 : ℤ) else 0) - if c = some i then 1 else 0) } := by
  refine ⟨fun j => ?_, h.out, h.tables.count, h.tables.used, h.tables.fresh, h.tables.apart,
    h.tables.seen⟩
  refine h.refs_of p (fun q hq => update_of_ne hq _ _)
    (fun q hq => update_of_ne hq _ _) (add_zero _).symm ?_
  simp only [St.own, update_self]
  ring

theorem fork (h : Books s) (hp : s.fresh p = none) (hq : s.cwd q = none) (c : ℕ) :
    Books (s.fork p q c) := by
  refine ⟨fun j => ?_, h.out, h.tables.fork hp c⟩
  refine h.refs_of q (fun _ _ => rfl) (fun r hr => update_of_ne hr _ _)
    (add_zero _).symm ?_
  simp only [St.own, St.fork, update_self, update_apply, hq]
  grind

end Books

/-! ### The actions keep the books -/

structure Kept (s : St P) (p : P) (t : St P) (k : Code) : Prop where
  books : Books t
  bal : Bal k (t.ctx p)
  others : ∀ q, q ≠ p → t.ctx q = s.ctx q

omit [DecidableEq P] in
theorem Books.same (h : Books s) {t : St P}
    (ht : t = { s with disk := t.disk, valid := t.valid, holder := t.holder }) : Books t := by
  rw [ht]
  exact ⟨h.refs, h.out, h.tables.count, h.tables.used, h.tables.fresh, h.tables.apart,
    h.tables.seen⟩

theorem Kept.same (h : Books s) {t : St P} {k : Code}
    (ht : t = { s with disk := t.disk, valid := t.valid }) (hk : Bal k (s.ctx p)) :
    Kept s p t k := by
  have hctx : ∀ q, t.ctx q = s.ctx q := by
    intro q
    rw [ht]
    rfl
  refine ⟨h.same (by rw [ht]), by rwa [hctx], fun q _ => hctx q⟩

theorem Kept.lock (h : Books s) {i : ℕ} {k : Code} (hi : s.holder i = none)
    (hk : (s.ctx p).locks i = false → Bal k ((s.ctx p).lock i)) :
    Kept s p { s with holder := update s.holder i (some p) } k := by
  have hbal := hk (by simp [St.ctx, holds, hi])
  refine ⟨h.same rfl, ?_, fun q hq => ?_⟩
  · convert hbal using 1
    simp only [St.ctx, Ctx.lock, Ctx.mk.injEq, and_true]
    funext j
    simp only [holds, update_apply]
    split_ifs <;> simp
  · simp only [St.ctx, Ctx.mk.injEq, and_true]
    funext j
    simp only [holds, update_apply]
    grind

theorem Kept.unlock (h : Books s) {i : ℕ} {k : Code} (hi : (s.ctx p).locks i = true)
    (hk : Bal k ((s.ctx p).unlock i)) :
    Kept s p { s with holder := update s.holder i none } k := by
  have hheld : s.holder i = some p := by simpa [St.ctx, holds] using hi
  refine ⟨h.same rfl, ?_, fun q hq => ?_⟩
  · convert hk using 1
    simp only [St.ctx, Ctx.unlock, Ctx.mk.injEq, and_true]
    funext j
    simp only [holds, update_apply]
    split_ifs <;> simp
  · simp only [St.ctx, Ctx.mk.injEq, and_true]
    funext j
    simp only [holds, update_apply]
    grind

theorem Kept.flow (h : Books s) {i : ℕ} {k : Code} {n : ℤ} (v : ℕ → Bool) (d : Disk)
    (hk : Bal k ((s.ctx p).add i n)) :
    Kept s p { s.setFly p i (s.fly p i + n) with
      ref := update s.ref i (s.ref i + n), valid := v, disk := d } k := by
  refine ⟨h.flow p i n v d, ?_, fun q hq => ?_⟩
  · convert hk using 1
    simp [St.ctx, Ctx.add, St.setFly]
  · simp [St.ctx, St.setFly, hq]

theorem Kept.filealloc (h : Books s) {k : Option Fid → Code} (hp : s.fresh p = none)
    (hsome : ∀ f, Bal (k (some f)) { s.ctx p with fresh := some f, placed := false })
    {f : Fid} (hf : s.freeFile = some f) :
    Kept s p ((s.setFile f { s.file f with ref := 1 }).setFresh p (some f)) (k (some f)) := by
  have hfree : (s.file f).ref = 0 := by
    have hfind := List.find?_some hf
    simpa using hfind
  refine ⟨h.of_tables (h.tables.filealloc hp hfree) (fun g => ?_) ⟨rfl, rfl, rfl, rfl, rfl⟩, ?_,
    fun q hq => ?_⟩
  · simp only [St.setFresh, St.setFile, update_apply]
    split_ifs with hg
    · rw [hg]
    · rfl
  · convert hsome f using 1
    simp [St.ctx, St.setFresh, St.setFile]
  · simp [St.ctx, St.setFresh, St.setFile, hq]

omit [DecidableEq P] [Fintype P] in
theorem freeFd_none {fd : Fd} (hfd : s.freeFd p = some fd) : s.ofile p fd = none := by
  have hfind := List.find?_some hfd
  simpa using hfind

theorem Kept.fdalloc (h : Books s) {k : Option Fd → Code} {f : Fid} {fd : Fd}
    (hp : s.fresh p = some f) (hpl : s.placed p = false)
    (hk : Bal (k (some fd)) { s.ctx p with placed := true }) (hfd : s.freeFd p = some fd) :
    Kept s p { s.setFd p fd (some f) with placed := update s.placed p true }
      (k (some fd)) := by
  refine ⟨h.of_tables (h.tables.fdalloc hp hpl (freeFd_none hfd)) (fun _ => rfl)
    ⟨rfl, rfl, rfl, rfl, rfl⟩, ?_, fun q hq => ?_⟩
  · convert hk using 1
    simp [St.ctx, St.setFd]
  · simp [St.ctx, St.setFd, hq]

omit [Fintype P] in
theorem release_cases (s : St P) (p : P) (f : Fid) :
    ∃ v : File, (s.file f).ref - 1 ≤ v.ref ∧ (∀ i, v.ip = some i → 0 < v.ref) ∧
      ((v.ip = (s.file f).ip ∧ s.release p f = (s.setFile f v, none)) ∨
        ∃ i, (s.file f).ref ≤ 1 ∧ (s.file f).ip = some i ∧ v = ⟨0, none⟩ ∧
          s.release p f = ((s.setFile f v).setFly p i (s.fly p i + 1), some i)) := by
  by_cases hlast : (s.file f).ref - 1 > 0
  · refine ⟨{ s.file f with ref := (s.file f).ref - 1 }, le_refl _, fun _ _ => hlast,
      .inl ⟨rfl, ?_⟩⟩
    unfold St.release
    rw [if_pos hlast]
  · have hle : (s.file f).ref - 1 ≤ 0 := by omega
    refine ⟨⟨0, none⟩, hle, fun i hi => (by cases hi), ?_⟩
    unfold St.release
    rw [if_neg hlast]
    rcases hip : (s.file f).ip with _ | i
    · exact .inl ⟨rfl, rfl⟩
    · exact .inr ⟨i, by omega, rfl, rfl, rfl⟩

omit [DecidableEq P] [Fintype P] in
theorem setFile_ip {f : Fid} {v : File} (hip : v.ip = (s.file f).ip) (g : Fid) :
    ((s.setFile f v).file g).ip = (s.file g).ip := by
  simp only [St.setFile, update_apply]
  split_ifs with hg
  · rw [hg, hip]
  · rfl

theorem Kept.fileclose (h : Books s) {k : Option ℕ → Code} {f : Fid} (hp : s.fresh p = some f)
    (hpl : s.placed p = false) (hk : Bal (k none) { s.ctx p with fresh := none, placed := false }) :
    Kept s p ((s.release p f).1.setFresh p none) (k (s.release p f).2) := by
  have hnone := (h.tables.fresh p f hp).2
  obtain ⟨v, hv, hip, ⟨hsame, hrel⟩ | ⟨i, hlast, hi, hvz, hrel⟩⟩ := release_cases s p f
  · rw [hrel]
    refine ⟨h.of_tables (h.tables.settle hp v (by rwa [if_pos hpl]) hip) (setFile_ip hsame)
      ⟨rfl, rfl, rfl, rfl, rfl⟩, ?_, fun q hq => ?_⟩
    · convert hk using 1
      simp [St.ctx, St.setFresh, St.setFile]
    · simp [St.ctx, St.setFresh, St.setFile, hq]
  · rw [hnone] at hi
    cases hi

theorem Kept.closefd (h : Books s) {k : Option (Option ℕ) → Code} {f : Fid} {fd : Fd}
    (hp : s.fresh p = none) (hfd : s.ofile p fd = some f) (hnone : Bal (k (some none)) (s.ctx p))
    (hsome : ∀ i, Bal (k (some (some i))) ((s.ctx p).add i 1)) :
    Kept s p ((s.release p f).1.setFd p fd none) (k (some (s.release p f).2)) := by
  obtain ⟨v, hv, hip, ⟨hsame, hrel⟩ | ⟨i, hlast, hi, hvz, hrel⟩⟩ := release_cases s p f
  · rw [hrel]
    exact ⟨h.of_tables (h.tables.closefd hp hfd hv hip) (setFile_ip hsame)
      ⟨rfl, rfl, rfl, rfl, rfl⟩, hnone, fun q _ => rfl⟩
  · rw [hrel, hvz]
    refine ⟨h.hand_over hp hfd hlast hi, ?_, fun q hq => ?_⟩
    · convert hsome i using 1
      simp [St.ctx, St.setFd, St.setFile, St.setFly, Ctx.add]
    · simp [St.ctx, St.setFd, St.setFile, St.setFly, hq]

theorem Kept.fill (h : Books s) {k : Code} {f : Fid} {i : ℕ} (hp : s.fresh p = some f)
    (hk : Bal k { (s.ctx p).add i (-1) with fresh := none, placed := false }) :
    Kept s p (((s.setFile f { s.file f with ip := some i }).setFly p i (s.fly p i - 1)).setFresh p
      none) k := by
  refine ⟨h.fill hp, ?_, fun q hq => ?_⟩
  · convert hk using 1
    simp [St.ctx, St.setFresh, St.setFile, St.setFly, Ctx.add, sub_eq_add_neg]
  · simp [St.ctx, St.setFresh, St.setFile, St.setFly, hq]

theorem act_kept {c k : Code} {t : St P} {n : ℕ} {b : Bool} (h : Books s) (hc : Bal c (s.ctx p))
    (ha : s.act p n b c = some (t, k)) : Kept s p t k := by
  cases c with
  | ret r | panic msg => cases ha
  | beginOp k =>
    cases ha
    have htx : s.tx p = false := hc.1
    refine ⟨h.set_tx p true 1 (by simp [htx]), ?_, fun q hq => by simp [St.ctx, hq]⟩
    convert hc.2 using 1
    simp [St.ctx]
  | endOp k =>
    cases ha
    have htx : s.tx p = true := hc.1
    refine ⟨h.set_tx p false (-1) (by simp [htx]), ?_, fun q hq => by simp [St.ctx, hq]⟩
    convert hc.2 using 1
    simp [St.ctx]
  | lock i k =>
    simp only [St.act] at ha
    split_ifs at ha with hi
    cases ha
    exact .lock h hi hc
  | check i k =>
    simp only [St.act] at ha
    split_ifs at ha with hi
    · cases ha
      exact .same h rfl trivial
    · cases ha
      exact .same h rfl hc
  | unlock i k =>
    cases ha
    exact .unlock h hc.1 hc.2
  | get i k =>
    cases ha
    exact .flow h _ _ hc
  | put i k =>
    cases ha
    refine .same h ?_ hc
    unfold St.drop
    split_ifs <;> rfl
  | deref i k =>
    cases ha
    exact .flow h _ _ hc
  | type i k =>
    cases ha
    exact .same h rfl (hc _)
  | links i k =>
    cases ha
    exact .same h rfl (hc _)
  | look d nm k =>
    simp only [St.act] at ha
    rcases hf : s.disk.find d nm with _ | i
    · rw [hf] at ha
      cases ha
      exact .same h rfl hc.2
    · rw [hf] at ha
      cases ha
      exact .flow h _ _ (hc.1 i)
  | write d nm r k =>
    cases ha
    exact .same h rfl hc
  | empty d k =>
    cases ha
    exact .same h rfl (hc _)
  | setLinks i f k =>
    cases ha
    exact .same h rfl hc
  | alloc t k =>
    simp only [St.act] at ha
    split_ifs at ha with hi
    · cases ha
      exact .flow h _ _ (hc n)
    · cases ha
      exact .same h rfl trivial
  | init i major minor k =>
    cases ha
    exact .same h rfl hc
  | writei i bs k =>
    cases ha
    exact .same h rfl hc
  | filealloc k =>
    simp only [St.act] at ha
    rcases hf : s.freeFile with _ | f
    · rw [hf] at ha
      cases ha
      exact .same h rfl hc.2.1
    · rw [hf] at ha
      cases ha
      exact .filealloc h hc.1 hc.2.2 hf
  | fdalloc f k =>
    simp only [St.act] at ha
    rcases hf : s.freeFd p with _ | fd
    · rw [hf] at ha
      cases ha
      exact .same h rfl hc.2.1
    · rw [hf] at ha
      cases ha
      exact .fdalloc h hc.1.1 hc.1.2 (hc.2.2 fd) hf
  | fileclose f k =>
    simp only [St.act] at ha
    split_ifs at ha
    · cases ha
      exact .same h rfl trivial
    · cases ha
      exact .fileclose h hc.1.1 hc.1.2 hc.2
  | closefd fd k =>
    simp only [St.act] at ha
    rcases hf : s.ofile p fd with _ | f
    · rw [hf] at ha
      cases ha
      exact .same h rfl hc.2.1
    · rw [hf] at ha
      simp only at ha
      split_ifs at ha
      · cases ha
        exact .same h rfl trivial
      · cases ha
        exact .closefd h hc.1 hf hc.2.2.1 hc.2.2.2
  | argfd fd k =>
    cases ha
    exact .same h rfl (hc _)
  | dup fd k =>
    simp only [St.act] at ha
    rcases hf : s.ofile p fd with _ | f
    · rw [hf] at ha
      cases ha
      exact .same h rfl (hc.2 _)
    · rcases hfree : s.freeFd p with _ | fd'
      · rw [hf, hfree] at ha
        cases ha
        exact .same h rfl (hc.2 _)
      · rw [hf, hfree] at ha
        simp only at ha
        split_ifs at ha
        · cases ha
          exact .same h rfl trivial
        · cases ha
          exact ⟨h.of_tables (h.tables.dup hc.1 hf (freeFd_none hfree)) (setFile_ip rfl)
            ⟨rfl, rfl, rfl, rfl, rfl⟩, hc.2 _, fun q _ => rfl⟩
  | setFile f i k =>
    cases ha
    exact .fill h hc.1 hc.2
  | setCwd c k =>
    cases ha
    refine ⟨h.set_cwd p c, ?_, fun q hq => by simp [St.ctx, hq]⟩
    have hk : Bal k ((s.ctx p).move c) := hc
    convert hk using 1
    simp only [St.ctx, Ctx.move, update_self]
    rfl
  | coin k =>
    cases ha
    exact .same h rfl (hc _)

structure Inv (x : Sys P) : Prop where
  books : Books x.st
  bal : ∀ p, Bal (x.code p) (x.st.ctx p)

theorem Inv.clear {x : Sys P} (h : Inv x) (hp : (x.code p).idle) : (x.st.ctx p).Clear := by
  have hbal := h.bal p
  rcases hc : x.code p
  all_goals rw [hc] at hp hbal
  case ret r => exact hbal
  all_goals cases hp

theorem Inv.boot (disk : Disk) (p0 : P) : Inv (boot disk p0) := by
  refine ⟨⟨fun i => ?_, ?_, fun f => ?_, fun f i hi => ?_, fun p f hf => ?_, fun p q f hf => ?_,
    fun p q f fd hf => ?_⟩, fun p => ?_⟩
  · simp only [Calls.boot, St.own, St.keeps]
    rw [sum_change (f := fun _ => (0 : ℤ)) p0 (fun q hq => by simp [hq])]
    simp [eq_comm]
  · simp [Calls.boot]
  · simp [Calls.boot, St.total, St.shares, fds]
  · cases hi
  · cases hf
  · cases hf
  · cases hf
  · exact ⟨fun i => rfl, fun i => rfl, rfl, rfl⟩

theorem Inv.step {x y : Sys P} {e : Ev P} (h : Inv x) (hs : x.step e = some y) : Inv y := by
  unfold Sys.step at hs
  split_ifs at hs with hpanic
  cases e with
  | start p c =>
    simp only at hs
    split_ifs at hs with hidle
    obtain ⟨cwd, hcwd, rfl⟩ := map_eq_some_iff.mp hs
    refine ⟨h.books, fun q => ?_⟩
    by_cases hq : q = p
    · subst hq
      simp only [update_self]
      exact bal_code (h.clear hidle) hcwd c
    · simp only [update_of_ne hq]
      exact h.bal q
  | run p n b =>
    simp only at hs
    split at hs
    · cases hs
      exact ⟨h.books, h.bal⟩
    · obtain ⟨⟨t, k⟩, ha, rfl⟩ := map_eq_some_iff.mp hs
      have hkept := act_kept h.books (h.bal p) ha
      refine ⟨hkept.books, fun q => ?_⟩
      by_cases hq : q = p
      · subst hq
        simp only [update_self]
        exact hkept.bal
      · simp only [update_of_ne hq, hkept.others q hq]
        exact h.bal q
  | fork p q =>
    simp only at hs
    split_ifs at hs with hc
    obtain ⟨hp, hq, hnone, hne⟩ := hc
    obtain ⟨cwd, hcwd, rfl⟩ := map_eq_some_iff.mp hs
    refine ⟨h.books.fork (h.clear hp).fresh hnone cwd, fun r => ?_⟩
    by_cases hr : r = q
    · -- the child has a current directory now and is as idle as before
      subst hr
      have hclear := h.clear hq
      have hret : ∃ v, x.code r = .ret v := by
        rcases hc : x.code r
        all_goals rw [hc] at hq
        case ret v => exact ⟨v, rfl⟩
        all_goals cases hq
      obtain ⟨v, hv⟩ := hret
      simp only [hv]
      exact ⟨hclear.locks, hclear.fly, hclear.tx, hclear.fresh⟩
    · have hctx : (x.st.fork p q cwd).ctx r = x.st.ctx r := by
        simp [St.ctx, St.fork, hr]
      show Bal (x.code r) ((x.st.fork p q cwd).ctx r)
      rw [hctx]
      exact h.bal r

def Ev.by (p : P) : Ev P → Prop
  | .start q _ => q = p
  | .run q _ _ => q = p
  | .fork _ _ => False

theorem Inv.step_others {x y : Sys P} {e : Ev P} (h : Inv x) (hby : e.by p)
    (hs : x.step e = some y) (hq : q ≠ p) : y.st.ctx q = x.st.ctx q := by
  unfold Sys.step at hs
  split_ifs at hs
  cases e with
  | start r c =>
    simp only at hs
    split_ifs at hs
    obtain ⟨cwd, -, rfl⟩ := map_eq_some_iff.mp hs
    rfl
  | run r n b =>
    cases hby
    simp only at hs
    split at hs
    · cases hs
      rfl
    · obtain ⟨⟨t, k⟩, ha, rfl⟩ := map_eq_some_iff.mp hs
      exact (act_kept h.books (h.bal p) ha).others q hq
  | fork r r' => cases hby

/-- A process that is in no call holds no lock and is in no transaction, no transaction is begun in
  a transaction, and the counts are the file table entries and current directories there are. -/
structure Balanced (x : Sys P) : Prop where
  unlocked : ∀ p, (x.code p).idle → ∀ i, x.st.holder i ≠ some p
  outside : ∀ p, (x.code p).idle → x.st.tx p = false
  once : ∀ p k, x.code p = .beginOp k → x.st.tx p = false
  outstanding : x.st.outstanding = (univ.filter fun p => x.st.tx p = true).card
  refs : (∀ p, (x.code p).idle) → ∀ i, x.st.ref i =
    (univ.filter fun f => 0 < (x.st.file f).ref ∧ (x.st.file f).ip = some i).card +
      (univ.filter fun p => x.st.cwd p = some i).card

theorem Inv.balanced {x : Sys P} (h : Inv x) : Balanced x := by
  refine ⟨fun p hp i hi => ?_, fun p hp => (h.clear hp).tx, fun p k hk => ?_, ?_, fun hall i => ?_⟩
  · have hfree : (x.st.ctx p).locks i = false := (h.clear hp).locks i
    simp [St.ctx, holds, hi] at hfree
  · have hbal := h.bal p
    rw [hk] at hbal
    exact hbal.1
  · rw [h.books.out]
    simp
  · have hown : ∀ p, x.st.own i p = if x.st.cwd p = some i then 1 else 0 := by
      intro p
      have hfly : x.st.fly p i = 0 := (h.clear (hall p)).fly i
      rw [St.own, hfly, zero_add]
    have hkeeps : ∀ f, x.st.keeps i f =
        if 0 < (x.st.file f).ref ∧ (x.st.file f).ip = some i then 1 else 0 := by
      intro f
      have hused := h.books.tables.used f i
      unfold St.keeps
      grind
    rw [h.books.refs i, sum_congr rfl fun p _ => hown p,
      sum_congr rfl fun f _ => hkeeps f]
    simp [add_comm]

theorem Inv.of_reach {disk : Disk} {p0 : P} {x : Sys P}
    (h : Reach Sys.step (fun _ _ => True) (Calls.boot disk p0) x) : Inv x :=
  h.invariant (Inv.boot disk p0) fun _ _ _ hi _ hs => hi.step hs

/-- In every state that any mix of calls by any processes reaches, the calls are balanced, and a
  call during which no other process runs leaves `log.outstanding` as it was. -/
theorem resource_balanced {disk : Disk} {p0 : P} {x : Sys P}
    (h : Reach Sys.step (fun _ _ => True) (Calls.boot disk p0) x) :
    Balanced x ∧ ∀ p y, (x.code p).idle → Reach Sys.step (fun _ e => e.by p) x y →
      (y.code p).idle → y.st.outstanding = x.st.outstanding := by
  have hx := Inv.of_reach h
  refine ⟨hx.balanced, fun p y hp hy hp' => ?_⟩
  obtain ⟨hinv, hothers⟩ := hy.invariant
    (I := fun y => Inv y ∧ ∀ q, q ≠ p → y.st.ctx q = x.st.ctx q) ⟨hx, fun _ _ => rfl⟩
    fun t a v ht hby hs => ⟨ht.1.step hs, fun q hq =>
      (ht.1.step_others hby hs hq).trans (ht.2 q hq)⟩
  rw [hinv.books.out, hx.books.out]
  refine sum_congr rfl fun q _ => ?_
  have htx : y.st.tx q = x.st.tx q := by
    by_cases hq : q = p
    · subst hq
      have hbefore : x.st.tx q = false := (hx.clear hp).tx
      have hafter : y.st.tx q = false := (hinv.clear hp').tx
      rw [hbefore, hafter]
    · exact congrArg Ctx.tx (hothers q hq)
  rw [htx]

def emptyRoot : Disk where
  type := fun i => if i = ROOTINO then T_DIR else 0
  major := fun _ => 0
  minor := fun _ => 0
  nlink := fun i => if i = ROOTINO then 1 else 0
  data := fun _ => []
  entries := fun i => if i = ROOTINO then [(".", ROOTINO), ("..", ROOTINO)] else []

/-- The root directory is opened: it is the current directory and in one file. -/
theorem resource_balanced_open : ∃ x, Reach Sys.step (fun _ _ => True)
    (Calls.boot emptyRoot false : Sys Bool) x ∧ (x.code false).idle = true ∧
    x.st.ref ROOTINO = 2 ∧ Balanced x := by
  obtain ⟨x, hx, hobs⟩ := exists_reach (show (follow Sys.step (fun _ _ => True)
    (Calls.boot emptyRoot false : Sys Bool)
    (.start false (.open (some ⟨true, []⟩) false true) ::
      List.replicate 10 (.run false 0 true))).map
      (fun x => ((x.code false).idle, x.st.ref ROOTINO)) = some (true, 2) by decide +kernel)
  simp only [Prod.mk.injEq] at hobs
  exact ⟨x, hx, hobs.1, hobs.2, (resource_balanced hx).1⟩

end Xv6.Fs.Calls

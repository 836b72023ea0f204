import Xv6.Fs.Locks
import Mathlib.Data.List.Count

/-! @src sysfile.c, fs.c, proc.c | part:directory tree and link counts | scheme:machine

  The calls that change directories, each a whole step: what each leaves of the inode types, the
  link counts and the entries of all directories, and who uses an inode as current directory or open
  file. An inode without links and users has been freed, so a path lookup changes nothing.

      unlink(d)   entry of d removed · nlink(parent)-- · nlink(d)-- · freed unless in use -/

namespace Xv6.Fs.Tree
open Schemes
open List (countP_erase countP_cons_of_neg countP_pos_iff countP_congr)
open List
open Locks (Name Path)
open Function

abbrev Entry := ℕ × Name × ℕ

structure St (P : Type) where
  type : ℕ → ℕ
  nlink : ℕ → ℤ
  ents : List Entry
  cwd : P → ℕ
  files : P → List ℕ

/-- `open` is with `O_CREATE`; `fd` says whether there was a descriptor left. -/
inductive Call where
  | open (path : Path) (fd : Bool)
  | mkdir (path : Path)
  | mknod (path : Path)
  | link (old new : Path)
  | unlink (path : Path)
  | chdir (path : Path)
  | close (i : ℕ)
  | exit

variable {P : Type} [Fintype P] [DecidableEq P]

namespace St

def users (x : St P) (i : ℕ) : ℕ := ∑ p, ((if x.cwd p = i then 1 else 0) + (x.files p).count i)

def find (x : St P) (d : ℕ) (nm : Name) : Option Entry :=
  x.ents.find? fun e => e.1 = d ∧ e.2.1 = nm

/-- Drop a reference: an inode without links and users is freed, with its entries. -/
def iput (x : St P) (i : ℕ) : St P :=
  if x.nlink i = 0 ∧ x.users i = 0 then
    { x with type := update x.type i 0, ents := x.ents.filter (·.1 ≠ i) }
  else x

def namex (x : St P) (parent : Bool) : List Name → ℕ → Except String (Option (ℕ × Name))
  | [], ip => .ok (if parent then none else some (ip, ""))
  | nm :: rest, ip =>
    if x.type ip = 0 then .error "ilock: no type"
    else if x.type ip ≠ T_DIR then .ok none
    else if parent && rest.isEmpty then .ok (some (ip, nm))
    else match x.find ip nm with
      | none => .ok none
      | some e => namex x parent rest e.2.2

def root (x : St P) (p : P) (path : Path) : ℕ := if path.abs then ROOTINO else x.cwd p

def setLink (x : St P) (i : ℕ) (n : ℤ) : St P := { x with nlink := update x.nlink i n }

def make (x : St P) (n dp : ℕ) (nm : Name) (t : ℕ) : St P :=
  let y : St P := { x with
    type := update x.type n t
    nlink := update x.nlink n 1 }
  if t = T_DIR then
    { y.setLink dp (x.nlink dp + 1) with ents := (dp, nm, n) :: (n, "..", dp) :: (n, ".", n) :: x.ents }
  else { y with ents := (dp, nm, n) :: x.ents }

def keep (x : St P) (p : P) (i : ℕ) : St P :=
  { x with files := update x.files p (i :: x.files p) }

def withPath (x : St P) (p : P) (parent : Bool) (path : Path) (f : ℕ → Name → Except String (St P)) :
    Except String (St P) :=
  match x.namex parent path.elems (x.root p path) with
  | .error msg => .error msg
  | .ok none => .ok x
  | .ok (some (ip, nm)) => f ip nm

/-- `create` of the name `nm` in `dp`; the file is kept open if there is a descriptor for it. -/
def createIn (x : St P) (p : P) (n dp : ℕ) (nm : Name) (t : ℕ) (fd : Bool) : Except String (St P) :=
  if x.type dp ≠ T_DIR then .error "dirlookup not DIR"
  else match x.find dp nm with
    | some e =>
      if x.type e.2.2 = 0 then .error "ilock: no type"
      else .ok (if t = T_FILE ∧ x.type e.2.2 = T_FILE ∧ fd = true then x.keep p e.2.2 else x)
    | none =>
      if x.type n = 0 ∧ n ≠ 0 then
        .ok (if fd = true then (x.make n dp nm t).keep p n else x.make n dp nm t)
      else .error "ialloc: no inodes"

def create (x : St P) (p : P) (n : ℕ) (path : Path) (t : ℕ) (fd : Bool) : Except String (St P) :=
  x.withPath p true path fun dp nm => x.createIn p n dp nm t fd

/-- `sys_link` of `ip` as `nm` in `dp`; where it fails, `nlink` has been raised and lowered again. -/
def linkIn (x : St P) (ip dp : ℕ) (nm : Name) : Except String (St P) :=
  if x.type dp ≠ T_DIR then .error "dirlookup not DIR"
  else match x.find dp nm with
    | some _ => .ok x
    | none => .ok { x.setLink ip (x.nlink ip + 1) with ents := (dp, nm, ip) :: x.ents }

def link (x : St P) (p : P) (old new : Path) : Except String (St P) :=
  x.withPath p false old fun ip _ =>
    if x.type ip = 0 then .error "ilock: no type"
    else if x.type ip = T_DIR then .ok x
    else x.withPath p true new fun dp nm => x.linkIn ip dp nm

def empty (x : St P) (d : ℕ) : Bool := x.ents.all fun e => e.1 ≠ d || e.2.1 = "." || e.2.1 = ".."

/-- The entry `e` goes, and `nlink` of what it names; a directory was also named by its `..`. -/
def remove (x : St P) (e : Entry) : St P :=
  let y := { x with ents := x.ents.erase e }
  let z := if x.type e.2.2 = T_DIR then y.setLink e.1 (x.nlink e.1 - 1) else y
  let u := z.iput e.1
  (u.setLink e.2.2 (u.nlink e.2.2 - 1)).iput e.2.2

def unlinkIn (x : St P) (dp : ℕ) (nm : Name) : Except String (St P) :=
  if nm = "." ∨ nm = ".." then .ok x
  else if x.type dp ≠ T_DIR then .error "dirlookup not DIR"
  else match x.find dp nm with
    | none => .ok x
    | some e =>
      if x.type e.2.2 = 0 then .error "ilock: no type"
      else if x.nlink e.2.2 < 1 then .error "unlink: nlink < 1"
      else if x.type e.2.2 = T_DIR ∧ x.empty e.2.2 = false then .ok x
      else .ok (x.remove e)

def unlink (x : St P) (p : P) (path : Path) : Except String (St P) :=
  x.withPath p true path fun dp nm => x.unlinkIn dp nm

def chdir (x : St P) (p : P) (path : Path) : Except String (St P) :=
  x.withPath p false path fun ip _ =>
    if x.type ip = 0 then .error "ilock: no type"
    else if x.type ip ≠ T_DIR then .ok x
    else .ok (({ x with cwd := update x.cwd p ip } : St P).iput (x.cwd p))

def close (x : St P) (p : P) (i : ℕ) : St P :=
  if i ∈ x.files p then
    ({ x with files := update x.files p ((x.files p).erase i) } : St P).iput i
  else x

/-- `exit` closes the open files one by one and then puts the current directory; 0 is none. -/
def exit (x : St P) (p : P) : St P :=
  let y := (x.files p).foldl (fun y i => y.close p i) x
  ({ y with cwd := update y.cwd p 0 } : St P).iput (x.cwd p)

/-- A call by a process that has not exited; `n` is the inode that `ialloc` finds. -/
def exec (x : St P) (p : P) (n : ℕ) : Call → Except String (St P)
  | .open path fd => x.create p n path T_FILE fd
  | .mkdir path => x.create p n path T_DIR false
  | .mknod path => x.create p n path T_DEV false
  | .link old new => x.link p old new
  | .unlink path => x.unlink p path
  | .chdir path => x.chdir p path
  | .close i => .ok (x.close p i)
  | .exit => .ok (x.exit p)

def step (x : St P) (a : P × ℕ × Call) : Option (St P) :=
  if x.cwd a.1 = 0 then none
  else match x.exec a.1 a.2.1 a.2.2 with
    | .ok y => some y
    | .error _ => none

end St

/-- The root directory of `mkfs`, and every process in it; the files that `mkfs` adds are as `open` and
  `close` leave them. -/
def mkfs : St P where
  type := fun i => if i = ROOTINO then T_DIR else 0
  nlink := fun i => if i = ROOTINO then 1 else 0
  ents := [(ROOTINO, "..", ROOTINO), (ROOTINO, ".", ROOTINO)]
  cwd := fun _ => ROOTINO
  files := fun _ => []

def NoDangling (x : St P) : Prop := ∀ e ∈ x.ents, x.type e.1 = T_DIR → x.type e.2.2 ≠ 0

/-- `nlink` is the number of entries, other than `.`, in directories with links. -/
def Exact (x : St P) : Prop := ∀ i, x.type i ≠ 0 →
  x.nlink i = x.ents.countP fun e => e.2.1 ≠ "." ∧ e.2.2 = i ∧ 0 < x.nlink e.1

instance (x : St P) : Decidable (NoDangling x) := inferInstanceAs (Decidable (∀ e ∈ x.ents, _))

def abs (names : List Name) : Path := ⟨true, names⟩

/-- `mkdir /a`, `mkdir /a/b`, `chdir /a/b`, `unlink /a/b`, `unlink /a`: the current directory has lost
  its name, but its `..` is still there and names a free inode. -/
theorem parent_freed : ∃ x : St (Fin 1), Reach St.step (fun _ _ => True) mkfs x ∧ ¬ NoDangling x := by
  have h : (follow St.step (fun _ _ => True) (mkfs : St (Fin 1))
      [(0, 2, .mkdir (abs ["a"])), (0, 3, .mkdir (abs ["a", "b"])),
        (0, 0, .chdir (abs ["a", "b"])), (0, 0, .unlink (abs ["a", "b"])),
        (0, 0, .unlink (abs ["a"]))]).map (fun x => decide (NoDangling x)) = some false := by
    decide +kernel
  obtain ⟨x, hx, hd⟩ := exists_reach h
  exact ⟨x, hx, of_decide_eq_false hd⟩

/-- `mkdir /d`, `chdir /d`, `unlink /d`, `open x`: the new file has a link, but its only entry is in a
  directory without links. -/
theorem file_leaked : ∃ x : St (Fin 1), Reach St.step (fun _ _ => True) mkfs x ∧ ¬ Exact x := by
  have h : (follow St.step (fun _ _ => True) (mkfs : St (Fin 1))
      [(0, 2, .mkdir (abs ["d"])), (0, 0, .chdir (abs ["d"])),
        (0, 0, .unlink (abs ["d"])), (0, 3, .open ⟨false, ["x"]⟩ false)]).map
      (fun x => (x.type 3, x.nlink 3, x.ents.countP fun e => e.2.1 ≠ "." ∧ e.2.2 = 3 ∧
        0 < x.nlink e.1)) = some (T_FILE, 1, 0) := by
    decide +kernel
  obtain ⟨x, hx, hd⟩ := exists_reach h
  simp only [Prod.mk.injEq] at hd
  refine ⟨x, hx, fun hexact => ?_⟩
  have := hexact 3 (by rw [hd.1]; decide)
  rw [hd.2.1, hd.2.2] at this
  exact absurd this (by decide)

/-! ### Runs that remove no directory -/

def names (i : ℕ) (e : Entry) : Bool := e.2.1 ≠ "." ∧ e.2.2 = i

structure Shape (x : St P) : Prop where
  live : ∀ e ∈ x.ents, x.type e.1 = T_DIR ∧ x.type e.2.2 ≠ 0
  count : ∀ i, x.type i ≠ 0 → x.nlink i = x.ents.countP (names i)
  self : ∀ e ∈ x.ents, e.2.1 = "." → e.2.2 = e.1
  linked : ∀ d, x.type d = T_DIR → 0 < x.nlink d
  dots : ∀ d, x.type d = T_DIR → ∃ e ∈ x.ents, e.1 = d ∧ e.2.1 = "."
  users : ∀ p, (x.cwd p ≠ 0 → x.type (x.cwd p) = T_DIR) ∧ ∀ i ∈ x.files p, x.type i ≠ 0

variable {x y : St P} {p : P}

omit [DecidableEq P] in
theorem not_used {i : ℕ} (h : x.users i = 0) (p : P) : x.cwd p ≠ i ∧ i ∉ x.files p := by
  have hp := Finset.sum_eq_zero_iff.mp h p (Finset.mem_univ p)
  have hcwd : (if x.cwd p = i then 1 else 0) = 0 := by omega
  refine ⟨fun hx => by simp [hx] at hcwd, fun hmem => ?_⟩
  have := count_pos_iff.mpr hmem
  omega

omit [DecidableEq P] in
/-- What is freed is no directory, and nothing names it. -/
theorem Shape.iput_cases (h : Shape x) (i : ℕ) : x.iput i = x ∨ x.type i ≠ T_DIR ∧ x.users i = 0 ∧
    (∀ e ∈ x.ents, e.1 ≠ i ∧ e.2.2 ≠ i) ∧ x.iput i = { x with type := update x.type i 0 } := by
  unfold St.iput
  split_ifs with hfree
  · have hdir : x.type i ≠ T_DIR := fun ht => by
      have := h.linked i ht
      omega
    have hsrc : ∀ e ∈ x.ents, e.1 ≠ i := by
      rintro e he rfl
      exact hdir (h.live e he).1
    have hdst : ∀ e ∈ x.ents, e.2.2 ≠ i := by
      rintro e he rfl
      have hcount := h.count _ (h.live e he).2
      rw [hfree.1] at hcount
      have hzero : x.ents.countP (names e.2.2) = 0 := by omega
      have hname := countP_eq_zero.mp hzero e he
      have hdot : e.2.1 = "." := by simpa [names] using hname
      exact hsrc e he (h.self e he hdot).symm
    have hents : x.ents.filter (·.1 ≠ i) = x.ents :=
      filter_eq_self.mpr fun e he => by simpa using hsrc e he
    exact .inr ⟨hdir, hfree.2, fun e he => ⟨hsrc e he, hdst e he⟩, by rw [hents]⟩
  · exact .inl rfl

variable {d dp n t : ℕ} {nm : Name}

theorem type_freed {type : ℕ → ℕ} {i j : ℕ} (ht : t ≠ 0) (h : update type i 0 j = t) :
    j ≠ i ∧ type j = t := by
  by_cases hj : j = i
  · rw [hj, update_self] at h
    exact absurd h.symm ht
  · rw [update_of_ne hj] at h
    exact ⟨hj, h⟩

omit [DecidableEq P] in
theorem Shape.iput (h : Shape x) (i : ℕ) : Shape (x.iput i) := by
  obtain heq | ⟨hdir, hused, hno, heq⟩ := h.iput_cases i
  · rwa [heq]
  · rw [heq]
    have htype : ∀ j, j ≠ i → update x.type i 0 j = x.type j := fun j hj =>
      update_of_ne hj _ _
    have hisdir : ∀ j, update x.type i 0 j = T_DIR → x.type j = T_DIR := fun j hj =>
      (type_freed (by decide) hj).2
    refine ⟨fun e he => ?_, fun j hj => ?_, h.self, fun d hd => h.linked d (hisdir d hd),
      fun d hd => h.dots d (hisdir d hd), fun q => ?_⟩
    · dsimp only
      rw [htype _ (hno e he).1, htype _ (hno e he).2]
      exact h.live e he
    · exact h.count j ((type_freed hj rfl).2 ▸ hj)
    · obtain ⟨hcwd, hfiles⟩ := not_used hused q
      dsimp only
      refine ⟨fun h0 => ?_, fun j hj => ?_⟩
      · rw [htype _ hcwd]
        exact (h.users q).1 h0
      · rw [htype j (by rintro rfl; exact hfiles hj)]
        exact (h.users q).2 j hj

section
omit [Fintype P]

theorem Shape.keep (h : Shape x) {i : ℕ} (hi : x.type i ≠ 0) (p : P) : Shape (x.keep p i) := by
  refine ⟨h.live, h.count, h.self, h.linked, h.dots, fun q => ?_⟩
  by_cases hq : q = p
  · subst hq
    refine ⟨(h.users q).1, fun j hj => ?_⟩
    obtain rfl | hj := by simpa [St.keep] using hj
    · exact hi
    · exact (h.users q).2 j hj
  · simpa [St.keep, hq] using h.users q

/-- A file is closed. -/
theorem Shape.shut (h : Shape x) (p : P) (i : ℕ) :
    Shape { x with files := update x.files p ((x.files p).erase i) } := by
  refine ⟨h.live, h.count, h.self, h.linked, h.dots, fun q => ?_⟩
  by_cases hq : q = p
  · subst hq
    refine ⟨(h.users q).1, fun j hj => ?_⟩
    simp only [update_self] at hj
    exact (h.users q).2 j (mem_of_mem_erase hj)
  · simpa [hq] using h.users q

/-- A process goes to another directory, or to none. -/
theorem Shape.moved (h : Shape x) (p : P) (hd : d ≠ 0 → x.type d = T_DIR) :
    Shape { x with cwd := update x.cwd p d } := by
  refine ⟨h.live, h.count, h.self, h.linked, h.dots, fun q => ⟨fun h0 => ?_, (h.users q).2⟩⟩
  by_cases hq : q = p
  · subst hq
    simp only [update_self] at h0 ⊢
    exact hd h0
  · simp only [update_of_ne hq] at h0 ⊢
    exact (h.users q).1 h0

end

section
omit [DecidableEq P] [Fintype P]

theorem find_none (h : x.find d nm = none) : ∀ e ∈ x.ents, e.1 = d → e.2.1 ≠ nm := by
  intro e he hd hn
  have := List.find?_eq_none.mp h e he
  simp [hd, hn] at this

theorem find_some {e : Entry} (h : x.find d nm = some e) : e ∈ x.ents ∧ e.1 = d ∧ e.2.1 = nm := by
  have htest := List.find?_some h
  exact ⟨List.mem_of_find?_eq_some h, by simpa using htest⟩

/-- A name that is not there is not `.`. -/
theorem Shape.not_dot (h : Shape x) (hd : x.type d = T_DIR) (hf : x.find d nm = none)
    : nm ≠ "." := by
  rintro rfl
  obtain ⟨e, he, hed, hen⟩ := h.dots d hd
  exact find_none hf e he hed hen

theorem ne_of_free (hd : x.type d = T_DIR) (hn : x.type n = 0) : d ≠ n := by
  rintro rfl
  rw [hn] at hd
  exact absurd hd (by decide)

/-- A free inode occurs in no entry. -/
theorem Shape.fresh (h : Shape x) (hn : x.type n = 0) :
    (∀ e ∈ x.ents, e.1 ≠ n ∧ e.2.2 ≠ n) ∧ x.ents.countP (names n) = 0 := by
  have hno : ∀ e ∈ x.ents, e.1 ≠ n ∧ e.2.2 ≠ n := by
    refine fun e he => ⟨?_, ?_⟩
    · exact ne_of_free (h.live e he).1 hn
    · rintro rfl
      exact (h.live e he).2 hn
  exact ⟨hno, countP_eq_zero.mpr fun e he => by simp [names, (hno e he).2]⟩

theorem Shape.make (h : Shape x) (hn : x.type n = 0) (ht : t ≠ 0) (hdp : x.type dp = T_DIR)
    (hnm : nm ≠ ".") : Shape (x.make n dp nm t) := by
  obtain ⟨hno, hcount⟩ := h.fresh hn
  have hne : dp ≠ n := ne_of_free hdp hn
  have htype : ∀ j, x.type j ≠ 0 → update x.type n t j = x.type j := fun j hj =>
    update_of_ne (by rintro rfl; exact hj hn) _ _
  have hold : ∀ e ∈ x.ents, update x.type n t e.1 = T_DIR ∧
      update x.type n t e.2.2 ≠ 0 := by
    intro e he
    have hlive := h.live e he
    rw [htype _ (by rw [hlive.1]; decide), htype _ hlive.2]
    exact hlive
  have hdp' : update x.type n t dp = T_DIR := by rw [htype dp (by rw [hdp]; decide), hdp]
  have husers : ∀ q, (x.cwd q ≠ 0 → update x.type n t (x.cwd q) = T_DIR) ∧
      ∀ i ∈ x.files q, update x.type n t i ≠ 0 := by
    refine fun q => ⟨fun h0 => ?_, fun i hi => ?_⟩
    · have := (h.users q).1 h0
      rw [htype _ (by rw [this]; decide), this]
    · rw [htype i ((h.users q).2 i hi)]
      exact (h.users q).2 i hi
  unfold St.make
  dsimp only
  split_ifs with hdir
  · subst hdir
    refine ⟨fun e he => ?_, fun i hi => ?_, fun e he => ?_, fun d hd => ?_, fun d hd => ?_, husers⟩
    · simp only [St.setLink, mem_cons] at he ⊢
      rcases he with rfl | rfl | rfl | he
      · exact ⟨hdp', by simp [ht]⟩
      · exact ⟨by simp, by rw [hdp']; decide⟩
      · exact ⟨by simp, by simp [ht]⟩
      · exact hold e he
    · simp only [St.setLink] at hi ⊢
      by_cases hin : i = n
      · subst hin
        simpa [hne.symm, names, hnm, hne] using hcount
      · rw [update_of_ne hin] at hi
        have hc := h.count i hi
        by_cases hid : i = dp
        · subst hid
          simp [names, hnm, Ne.symm hin, hc]
        · simp [names, hnm, Ne.symm hin, Ne.symm hid, hin, hid, hc]
    · simp only [mem_cons] at he
      rcases he with rfl | rfl | rfl | he
      · exact fun hx => absurd hx hnm
      · exact fun hx => absurd hx (by simp)
      · exact fun _ => rfl
      · exact h.self e he
    · simp only [St.setLink] at hd ⊢
      by_cases hdn : d = n
      · subst hdn
        simp [hne.symm]
      · rw [update_of_ne hdn] at hd
        have hl := h.linked d hd
        by_cases hdd : d = dp
        · subst hdd
          simp
          omega
        · simpa [hdd, hdn] using hl
    · by_cases hdn : d = n
      · exact ⟨(n, ".", n), by simp, hdn.symm, rfl⟩
      · simp only [St.setLink, update_of_ne hdn] at hd
        obtain ⟨e, he, hed⟩ := h.dots d hd
        exact ⟨e, by simp [he], hed⟩
  · refine ⟨fun e he => ?_, fun i hi => ?_, fun e he => ?_, fun d hd => ?_, fun d hd => ?_, husers⟩
    · rcases mem_cons.mp he with rfl | he
      · exact ⟨hdp', by simp [ht]⟩
      · exact hold e he
    · by_cases hin : i = n
      · subst hin
        simpa [names, hnm] using hcount
      · simp only [update_of_ne hin] at hi ⊢
        simp [names, Ne.symm hin, h.count i hi]
    · rcases mem_cons.mp he with rfl | he
      · exact fun hx => absurd hx hnm
      · exact h.self e he
    · have hdn : d ≠ n := by
        rintro rfl
        simp only [update_self] at hd
        exact hdir hd
      simp only [update_of_ne hdn] at hd ⊢
      exact h.linked d hd
    · have hdn : d ≠ n := by
        rintro rfl
        simp only [update_self] at hd
        exact hdir hd
      simp only [update_of_ne hdn] at hd
      obtain ⟨e, he, hed⟩ := h.dots d hd
      exact ⟨e, mem_cons_of_mem _ he, hed⟩

theorem Shape.link (h : Shape x) {ip : ℕ} (hip : x.type ip ≠ 0) (hfile : x.type ip ≠ T_DIR)
    (hdp : x.type dp = T_DIR) (hnm : nm ≠ ".") :
    Shape { x.setLink ip (x.nlink ip + 1) with ents := (dp, nm, ip) :: x.ents } := by
  refine ⟨fun e he => ?_, fun i hi => ?_, fun e he => ?_, fun d hd => ?_, fun d hd => ?_, h.users⟩
  · rcases mem_cons.mp he with rfl | he
    · exact ⟨hdp, hip⟩
    · exact h.live e he
  · have hc := h.count i hi
    simp only [St.setLink]
    by_cases hii : i = ip
    · subst hii
      simp [names, hnm, hc]
    · simp [names, hii, Ne.symm hii, hc]
  · rcases mem_cons.mp he with rfl | he
    · exact fun hx => absurd hx hnm
    · exact h.self e he
  · have hne : d ≠ ip := by
      rintro rfl
      exact hfile hd
    simpa [St.setLink, hne] using h.linked d hd
  · obtain ⟨e, he, hed⟩ := h.dots d hd
    exact ⟨e, mem_cons_of_mem _ he, hed⟩

end

def unnamed (x : St P) (e : Entry) : St P :=
  { x with
    ents := x.ents.erase e
    nlink := update x.nlink e.2.2 (x.nlink e.2.2 - 1) }

omit [DecidableEq P] in
/-- The directory has links, so it stays when it is put. -/
theorem Shape.remove_file (h : Shape x) {e : Entry} (he : e ∈ x.ents) (hfile : x.type e.2.2 ≠ T_DIR) :
    x.remove e = (unnamed x e).iput e.2.2 := by
  have hdir := h.linked e.1 (h.live e he).1
  have hstay : St.iput { x with ents := x.ents.erase e } e.1 = { x with ents := x.ents.erase e } :=
    if_neg fun hx => by
      have := hx.1
      dsimp only at this
      omega
  unfold St.remove
  dsimp only
  rw [if_neg hfile, hstay]
  rfl

omit [Fintype P] [DecidableEq P] in
theorem Shape.unnamed (h : Shape x) {e : Entry} (he : e ∈ x.ents) (hnm : e.2.1 ≠ ".")
    (hfile : x.type e.2.2 ≠ T_DIR) : Shape (unnamed x e) := by
  refine ⟨fun e' he' => ?_, fun i hi => ?_, fun e' he' => ?_, fun d hd => ?_, fun d hd => ?_, h.users⟩
  · exact h.live e' (mem_of_mem_erase he')
  · have hc := h.count i hi
    simp only [Tree.unnamed]
    rw [countP_erase]
    by_cases hii : i = e.2.2
    · subst hii
      have hpos : 0 < x.ents.countP (names e.2.2) :=
        countP_pos_iff.mpr ⟨e, he, by simp [names, hnm]⟩
      simp [he, names, hnm, hc]
      omega
    · simp [names, hii, Ne.symm hii, hc]
  · exact h.self e' (mem_of_mem_erase he')
  · have hne : d ≠ e.2.2 := by
      rintro rfl
      exact hfile hd
    simpa [Tree.unnamed, hne] using h.linked d hd
  · obtain ⟨e', he', hd', hn'⟩ := h.dots d hd
    refine ⟨e', (mem_erase_of_ne ?_).mpr he', hd', hn'⟩
    rintro rfl
    exact hnm hn'

/-! ### The tree -/

def child (d : ℕ) (e : Entry) : Bool := e.2.1 ≠ "." ∧ e.2.1 ≠ ".." ∧ e.2.2 = d

def up (d : ℕ) (e : Entry) : Bool := e.1 = d ∧ e.2.1 = ".."

/-- Every directory but the root is a child once, of the directory that its `..` names. -/
structure Rooted (x : St P) : Prop where
  once : ∀ d, x.type d = T_DIR → d ≠ ROOTINO → x.ents.countP (child d) = 1
  proper : ∀ e ∈ x.ents, child ROOTINO e = false
  up : ∀ d, x.type d = T_DIR → x.ents.countP (up d) = 1
  back : ∀ e ∈ x.ents, e.2.1 = ".." → e.1 ≠ ROOTINO →
    ∃ nm, nm ≠ "." ∧ nm ≠ ".." ∧ (e.2.2, nm, e.1) ∈ x.ents
  top : x.type ROOTINO = T_DIR ∧ ∀ e ∈ x.ents, e.1 = ROOTINO → e.2.1 = ".." → e.2.2 = ROOTINO

omit [DecidableEq P] in
theorem Rooted.iput (hs : Shape x) (h : Rooted x) (i : ℕ) : Rooted (x.iput i) := by
  obtain heq | ⟨hdir, -, -, heq⟩ := hs.iput_cases i
  · rwa [heq]
  · rw [heq]
    have hisdir : ∀ j, update x.type i 0 j = T_DIR → x.type j = T_DIR := fun j hj =>
      (type_freed (by decide) hj).2
    refine ⟨fun d hd => h.once d (hisdir d hd), h.proper, fun d hd => h.up d (hisdir d hd), h.back, ?_,
      h.top.2⟩
    have hroot : ROOTINO ≠ i := by
      rintro rfl
      exact hdir h.top.1
    dsimp only
    rw [update_of_ne hroot, h.top.1]

section
omit [DecidableEq P] [Fintype P]

/-- What `Rooted` depends on. -/
theorem Rooted.congr (h : Rooted x) (htype : y.type = x.type) (hents : y.ents = x.ents) : Rooted y := by
  obtain ⟨h₁, h₂, h₃, h4, h5⟩ := h
  constructor <;> rw [hents] <;> simpa only [htype]

/-- A name that is not there is not `..`. -/
theorem Rooted.not_dotdot (h : Rooted x) (hd : x.type d = T_DIR) (hf : x.find d nm = none)
    : nm ≠ ".." := by
  rintro rfl
  have hpos : 0 < x.ents.countP (Tree.up d) := by rw [h.up d hd]; decide
  obtain ⟨e, he, hup⟩ := countP_pos_iff.mp hpos
  have hup' : e.1 = d ∧ e.2.1 = ".." := by simpa [Tree.up] using hup
  exact find_none hf e he hup'.1 hup'.2

theorem Rooted.make (hs : Shape x) (h : Rooted x) (hn : x.type n = 0) (hdp : x.type dp = T_DIR)
    (hnm : nm ≠ ".") (hnm' : nm ≠ "..") : Rooted (x.make n dp nm t) := by
  obtain ⟨hno, -⟩ := hs.fresh hn
  have hroot : ROOTINO ≠ n := ne_of_free h.top.1 hn
  have hne : dp ≠ n := ne_of_free hdp hn
  have hchild : x.ents.countP (child n) = 0 :=
    countP_eq_zero.mpr fun e he => by simp [child, (hno e he).2]
  have hup : x.ents.countP (Tree.up n) = 0 :=
    countP_eq_zero.mpr fun e he => by simp [Tree.up, (hno e he).1]
  unfold St.make
  dsimp only
  split_ifs with hdir
  · subst hdir
    refine ⟨fun d hd hdr => ?_, fun e he => ?_, fun d hd => ?_, fun e he => ?_, ?_, fun e he => ?_⟩
    · by_cases hdn : d = n
      · subst hdn
        rw [countP_cons_of_pos (by simp [child, hnm, hnm']),
          countP_cons_of_neg (by simp [child]), countP_cons_of_neg (by simp [child]), hchild]
      · simp only [St.setLink, update_of_ne hdn] at hd
        rw [countP_cons_of_neg (by simp [child, Ne.symm hdn]),
          countP_cons_of_neg (by simp [child]), countP_cons_of_neg (by simp [child])]
        exact h.once d hd hdr
    · simp only [mem_cons] at he
      rcases he with rfl | rfl | rfl | he
      · simp [child, hroot.symm]
      · simp [child]
      · simp [child]
      · exact h.proper e he
    · by_cases hdn : d = n
      · subst hdn
        rw [countP_cons_of_neg (by simp [Tree.up, hnm']),
          countP_cons_of_pos (by simp [Tree.up]), countP_cons_of_neg (by simp [Tree.up]), hup]
      · simp only [St.setLink, update_of_ne hdn] at hd
        rw [countP_cons_of_neg (by simp [Tree.up, hnm']),
          countP_cons_of_neg (by simp [Tree.up, Ne.symm hdn]),
          countP_cons_of_neg (by simp [Tree.up])]
        exact h.up d hd
    · simp only [mem_cons] at he
      intro hdd hr
      rcases he with rfl | rfl | rfl | he
      · exact absurd hdd hnm'
      · exact ⟨nm, hnm, hnm', by simp⟩
      · exact absurd hdd (by simp)
      · obtain ⟨nm', h1, h2, h3⟩ := h.back e he hdd hr
        exact ⟨nm', h1, h2, by simp [h3]⟩
    · simp only [St.setLink, update_of_ne hroot]
      exact h.top.1
    · simp only [mem_cons] at he
      intro hr hdd
      rcases he with rfl | rfl | rfl | he
      · exact absurd hdd hnm'
      · exact absurd hr.symm hroot
      · exact absurd hr.symm hroot
      · exact h.top.2 e he hr hdd
  · have hisdir : ∀ d, update x.type n t d = T_DIR → d ≠ n ∧ x.type d = T_DIR := by
      intro d hd
      have hdn : d ≠ n := by
        rintro rfl
        rw [update_self] at hd
        exact hdir hd
      rw [update_of_ne hdn] at hd
      exact ⟨hdn, hd⟩
    refine ⟨fun d hd hdr => ?_, fun e he => ?_, fun d hd => ?_, fun e he => ?_, ?_, fun e he => ?_⟩
    · rw [countP_cons_of_neg (by simp [child, Ne.symm (hisdir d hd).1])]
      exact h.once d (hisdir d hd).2 hdr
    · rcases mem_cons.mp he with rfl | he
      · simp [child, hroot.symm]
      · exact h.proper e he
    · rw [countP_cons_of_neg (by simp [Tree.up, hnm'])]
      exact h.up d (hisdir d hd).2
    · intro hdd hr
      rcases mem_cons.mp he with rfl | he
      · exact absurd hdd hnm'
      · obtain ⟨nm', h1, h2, h3⟩ := h.back e he hdd hr
        exact ⟨nm', h1, h2, mem_cons_of_mem _ h3⟩
    · dsimp only
      rw [update_of_ne hroot, h.top.1]
    · intro hr hdd
      rcases mem_cons.mp he with rfl | he
      · exact absurd hdd hnm'
      · exact h.top.2 e he hr hdd

theorem Rooted.link (h : Rooted x) {ip : ℕ} (hfile : x.type ip ≠ T_DIR) (hnm' : nm ≠ "..") :
    Rooted { x.setLink ip (x.nlink ip + 1) with ents := (dp, nm, ip) :: x.ents } := by
  have hne : ∀ d, x.type d = T_DIR → ip ≠ d := by
    rintro d hd rfl
    exact hfile hd
  refine ⟨fun d hd hdr => ?_, fun e he => ?_, fun d hd => ?_, fun e he => ?_, h.top.1, fun e he => ?_⟩
  · rw [countP_cons_of_neg (by simp [child, hne d hd])]
    exact h.once d hd hdr
  · rcases mem_cons.mp he with rfl | he
    · simp [child, hne _ h.top.1]
    · exact h.proper e he
  · rw [countP_cons_of_neg (by simp [Tree.up, hnm'])]
    exact h.up d hd
  · intro hdd hr
    rcases mem_cons.mp he with rfl | he
    · exact absurd hdd hnm'
    · obtain ⟨nm', h1, h2, h3⟩ := h.back e he hdd hr
      exact ⟨nm', h1, h2, mem_cons_of_mem _ h3⟩
  · intro hr hdd
    rcases mem_cons.mp he with rfl | he
    · exact absurd hdd hnm'
    · exact h.top.2 e he hr hdd

theorem Rooted.unnamed (hs : Shape x) (h : Rooted x) {e : Entry} (hnm' : e.2.1 ≠ "..")
    (hfile : x.type e.2.2 ≠ T_DIR) : Rooted (unnamed x e) := by
  have hne : ∀ d, x.type d = T_DIR → e.2.2 ≠ d := by
    rintro d hd rfl
    exact hfile hd
  refine ⟨fun d hd hdr => ?_, fun e' he' => h.proper e' (mem_of_mem_erase he'), fun d hd => ?_,
    fun e' he' hdd hr => ?_, h.top.1, fun e' he' => h.top.2 e' (mem_of_mem_erase he')⟩
  · simp only [Tree.unnamed]
    rw [countP_erase, h.once d hd hdr]
    simp [child, hne d hd]
  · simp only [Tree.unnamed]
    rw [countP_erase, h.up d hd]
    simp [Tree.up, hnm']
  · have hmem := mem_of_mem_erase he'
    obtain ⟨nm, h1, h2, h3⟩ := h.back e' hmem hdd hr
    refine ⟨nm, h1, h2, (mem_erase_of_ne ?_).mpr h3⟩
    rintro rfl
    exact hne _ (hs.live e' hmem).1 rfl

end

/-! ### Removing a directory -/

section Rmdir

variable {e : Entry} (hs : Shape x) (h : Rooted x) (he : e ∈ x.ents) (hnm : e.2.1 ≠ ".")
  (hnm' : e.2.1 ≠ "..") (hdir : x.type e.2.2 = T_DIR) (hempty : x.empty e.2.2 = true)

include h he hnm hnm' in
omit [Fintype P] [DecidableEq P] in
theorem not_root : e.2.2 ≠ ROOTINO := by
  intro hx
  have := h.proper e he
  simp [child, hnm, hnm', hx] at this

include hempty in
omit [Fintype P] [DecidableEq P] in
theorem only_dots : ∀ e' ∈ x.ents, e'.1 = e.2.2 → e'.2.1 = "." ∨ e'.2.1 = ".." := by
  intro e' he' hd
  have := all_eq_true.mp hempty e' he'
  simpa [hd] using this

include h he hnm hnm' hdir in
omit [Fintype P] [DecidableEq P] in
/-- It has one name. -/
theorem only_child : x.ents.countP (child e.2.2) = 1 ∧ (x.ents.erase e).countP (child e.2.2) = 0 ∧
    ∀ e' ∈ x.ents, child e.2.2 e' = true → e' = e := by
  have hone := h.once e.2.2 hdir (not_root h he hnm hnm')
  have hself : child e.2.2 e = true := by simp [child, hnm, hnm']
  have hzero : (x.ents.erase e).countP (child e.2.2) = 0 := by
    rw [countP_erase, hone, if_pos (by simp [he, hself])]
  refine ⟨hone, hzero, fun e' he' hc => ?_⟩
  by_contra hne
  exact countP_eq_zero.mp hzero e' ((mem_erase_of_ne hne).mpr he') hc

include h he hnm hnm' hempty in
omit [Fintype P] [DecidableEq P] in
/-- It is no parent. -/
theorem no_parent : ∀ e' ∈ x.ents, e'.2.1 = ".." → e'.2.2 ≠ e.2.2 := by
  intro e' he' hdd hx
  by_cases hr : e'.1 = ROOTINO
  · exact not_root h he hnm hnm' (hx ▸ h.top.2 e' he' hr hdd)
  · obtain ⟨nm, h1, h2, h3⟩ := h.back e' he' hdd hr
    rcases only_dots hempty _ h3 hx with hdot | hdot
    · exact h1 hdot
    · exact h2 hdot

include h he hnm hnm' hdir in
omit [Fintype P] [DecidableEq P] in
/-- Its `..` names the directory of its name. -/
theorem up_names : ∀ e' ∈ x.ents, e'.1 = e.2.2 → e'.2.1 = ".." → e'.2.2 = e.1 := by
  intro e' he' hd hdd
  obtain ⟨nm, h1, h2, h3⟩ := h.back e' he' hdd (hd ▸ not_root h he hnm hnm')
  have := (only_child h he hnm hnm' hdir).2.2 _ h3 (by simp [child, h1, h2, hd])
  rw [← this]

include hs h he hnm hnm' hdir hempty in
omit [Fintype P] [DecidableEq P] in
/-- The link counts of the directory and its parent. -/
theorem rmdir_links : e.1 ≠ e.2.2 ∧ x.nlink e.2.2 = 1 ∧ 2 ≤ x.nlink e.1 := by
  have hne : e.1 ≠ e.2.2 := fun hx => by
    rcases only_dots hempty e he hx with hdot | hdot
    · exact hnm hdot
    · exact hnm' hdot
  refine ⟨hne, ?_, ?_⟩
  · rw [hs.count _ (hs.live e he).2, ← Nat.cast_one, ← (only_child h he hnm hnm' hdir).1]
    refine congrArg _ (countP_congr fun e' he' => ?_)
    have := no_parent h he hnm hnm' hempty e' he'
    simp only [names, child, decide_eq_true_eq]
    tauto
  · have hpd := (hs.live e he).1
    rw [hs.count e.1 (by rw [hpd]; decide)]
    have hpos : 0 < x.ents.countP (Tree.up e.2.2) := by rw [h.up _ hdir]; decide
    obtain ⟨a, ha, hau⟩ := countP_pos_iff.mp hpos
    have hau' : a.1 = e.2.2 ∧ a.2.1 = ".." := by simpa [Tree.up] using hau
    have han : names e.1 a = true := by
      simp [names, hau'.2, up_names h he hnm hnm' hdir a ha hau'.1 hau'.2]
    -- another entry that counts for the parent
    obtain ⟨b, hb, hba, hbn⟩ : ∃ b ∈ x.ents, b ≠ a ∧ names e.1 b = true := by
      by_cases hr : e.1 = ROOTINO
      · have hpos' : 0 < x.ents.countP (Tree.up ROOTINO) := by rw [h.up _ h.top.1]; decide
        obtain ⟨b, hb, hbu⟩ := countP_pos_iff.mp hpos'
        have hbu' : b.1 = ROOTINO ∧ b.2.1 = ".." := by simpa [Tree.up] using hbu
        refine ⟨b, hb, ?_, by simp [names, hbu'.2, h.top.2 b hb hbu'.1 hbu'.2, hr]⟩
        rintro rfl
        exact not_root h he hnm hnm' (hau'.1.symm.trans hbu'.1)
      · have hpos' : 0 < x.ents.countP (child e.1) := by rw [h.once _ hpd hr]; decide
        obtain ⟨b, hb, hbc⟩ := countP_pos_iff.mp hpos'
        have hbc' : b.2.1 ≠ "." ∧ b.2.1 ≠ ".." ∧ b.2.2 = e.1 := by simpa [child] using hbc
        refine ⟨b, hb, ?_, by simp [names, hbc']⟩
        rintro rfl
        exact hbc'.2.1 hau'.2
    have hrest : 0 < (x.ents.erase a).countP (names e.1) :=
      countP_pos_iff.mpr ⟨b, (mem_erase_of_ne hba).mpr hb, hbn⟩
    rw [countP_erase, if_pos (by simp [ha, han])] at hrest
    omega

def rmdir (x : St P) (e : Entry) : St P :=
  { x with
    type := update x.type e.2.2 0
    nlink := update (update x.nlink e.1 (x.nlink e.1 - 1)) e.2.2 0
    ents := (x.ents.erase e).filter (·.1 ≠ e.2.2) }

include hs h he hnm hnm' hdir hempty in
omit [DecidableEq P] in
theorem remove_dir (hused : x.users e.2.2 = 0) : x.remove e = rmdir x e := by
  obtain ⟨hne, hone, htwo⟩ := rmdir_links hs h he hnm hnm' hdir hempty
  unfold St.remove
  dsimp only
  rw [if_pos hdir]
  have hstay : ∀ y : St P, y.nlink e.1 ≠ 0 → y.iput e.1 = y := fun y hy => if_neg fun hx => hy hx.1
  rw [hstay _ (by simp only [St.setLink, update_self]; omega)]
  have hfree : ∀ y : St P, y.nlink e.2.2 = 0 → y.users e.2.2 = 0 → y.iput e.2.2 =
      { y with type := update y.type e.2.2 0, ents := y.ents.filter (·.1 ≠ e.2.2) } :=
    fun y hn hu => if_pos ⟨hn, hu⟩
  have hzero : update x.nlink e.1 (x.nlink e.1 - 1) e.2.2 - 1 = 0 := by
    rw [update_of_ne hne.symm, hone]
    rfl
  refine (hfree _ ?_ ?_).trans ?_
  · simp only [St.setLink, update_self]
    exact hzero
  · exact hused
  · simp only [St.setLink, hzero]
    rfl

include hs h he hnm hnm' hdir hempty in
omit [Fintype P] [DecidableEq P] in
/-- The entries that are left do not name the directory. -/
theorem mem_rmdir {e' : Entry} (hm : e' ∈ (rmdir x e).ents) :
    e' ∈ x.ents ∧ e'.1 ≠ e.2.2 ∧ e'.2.2 ≠ e.2.2 := by
  obtain ⟨hmem, hsrc⟩ := mem_filter.mp hm
  have hin := mem_of_mem_erase hmem
  have hsrc' : e'.1 ≠ e.2.2 := by simpa using hsrc
  refine ⟨hin, hsrc', fun hx => ?_⟩
  by_cases hdot : e'.2.1 = "."
  · exact hsrc' ((hs.self e' hin hdot).symm.trans hx)
  · by_cases hdd : e'.2.1 = ".."
    · exact no_parent h he hnm hnm' hempty e' hin hdd hx
    · exact countP_eq_zero.mp (only_child h he hnm hnm' hdir).2.1 e' hmem
        (by simp [child, hdot, hdd, hx])

omit [Fintype P] [DecidableEq P] in
/-- What is counted in the entries that are left: all but the name removed and what the directory
  had. -/
theorem countP_rmdir (f : Entry → Bool) (hf : f e = false) :
    (rmdir x e).ents.countP f + x.ents.countP (fun e' => f e' && decide (e'.1 = e.2.2)) =
      x.ents.countP f := by
  have herase : ∀ g : Entry → Bool, g e = false → (x.ents.erase e).countP g = x.ents.countP g := by
    intro g hg
    rw [countP_erase, if_neg (by simp [hg]), Nat.sub_zero]
  have hsplit := countP_eq_countP_filter_add (x.ents.erase e) f fun e' => decide (e'.1 ≠ e.2.2)
  rw [herase f hf] at hsplit
  have hsecond : ((x.ents.erase e).filter fun e' => !decide (e'.1 ≠ e.2.2)).countP f =
      x.ents.countP fun e' => f e' && decide (e'.1 = e.2.2) := by
    rw [countP_filter, ← herase _ (by simp [hf])]
    exact countP_congr fun e' _ => by simp
  rw [hsecond] at hsplit
  exact hsplit.symm

include hs h he hnm hnm' hdir hempty in
omit [DecidableEq P] in
theorem Shape.rmdir (hused : x.users e.2.2 = 0) : Shape (rmdir x e) := by
  obtain ⟨hne, hone, htwo⟩ := rmdir_links hs h he hnm hnm' hdir hempty
  have htype : ∀ j, j ≠ e.2.2 → update x.type e.2.2 0 j = x.type j := fun j hj =>
    update_of_ne hj _ _
  refine ⟨fun e' he' => ?_, fun i hi => ?_, fun e' he' => ?_, fun d hd => ?_, fun d hd => ?_,
    fun q => ?_⟩
  · obtain ⟨hin, h1, h2⟩ := mem_rmdir hs h he hnm hnm' hdir hempty he'
    simp only [Tree.rmdir]
    rw [htype _ h1, htype _ h2]
    exact hs.live e' hin
  · have hid : i ≠ e.2.2 := (type_freed hi rfl).1
    have hlive : x.type i ≠ 0 := by
      have := (type_freed hi rfl).2
      rwa [this]
    have hsum := countP_rmdir (x := x) (e := e) (names i) (by simp [names, Ne.symm hid])
    have hc := hs.count i hlive
    -- the entries of the directory that count are its `..`
    have hlost : x.ents.countP (fun e' => names i e' && decide (e'.1 = e.2.2)) =
        if i = e.1 then 1 else 0 := by
      split_ifs with hip
      · rw [← h.up _ hdir]
        refine countP_congr fun e' he' => ?_
        simp only [names, Tree.up, Bool.and_eq_true, decide_eq_true_eq]
        constructor
        · rintro ⟨⟨hdot, -⟩, hd⟩
          exact ⟨hd, (only_dots hempty e' he' hd).resolve_left hdot⟩
        · rintro ⟨hd, hdd⟩
          refine ⟨⟨by rw [hdd]; decide, ?_⟩, hd⟩
          rw [hip]
          exact up_names h he hnm hnm' hdir e' he' hd hdd
      · refine countP_eq_zero.mpr fun e' he' hx => ?_
        simp only [names, Bool.and_eq_true, decide_eq_true_eq] at hx
        obtain ⟨⟨hdot, hname⟩, hd⟩ := hx
        have hdd := (only_dots hempty e' he' hd).resolve_left hdot
        exact hip (hname.symm.trans (up_names h he hnm hnm' hdir e' he' hd hdd))
    rw [hlost] at hsum
    simp only [Tree.rmdir, update_of_ne hid] at hsum ⊢
    by_cases hip : i = e.1
    · rw [if_pos hip] at hsum
      subst hip
      rw [update_self]
      omega
    · rw [if_neg hip] at hsum
      rw [update_of_ne hip]
      omega
  · exact hs.self e' (mem_rmdir hs h he hnm hnm' hdir hempty he').1
  · obtain ⟨hdn, hd'⟩ := type_freed (by decide) hd
    have := hs.linked d hd'
    simp only [Tree.rmdir, update_of_ne hdn]
    by_cases hdp : d = e.1
    · subst hdp
      rw [update_self]
      omega
    · rwa [update_of_ne hdp]
  · obtain ⟨hdn, hd'⟩ := type_freed (by decide) hd
    obtain ⟨e', he', hd'', hn'⟩ := hs.dots d hd'
    refine ⟨e', mem_filter.mpr ⟨(mem_erase_of_ne ?_).mpr he', by simp [hd'', hdn]⟩, hd'', hn'⟩
    rintro rfl
    exact hnm hn'
  · obtain ⟨hcwd, hfiles⟩ := not_used hused q
    simp only [Tree.rmdir]
    refine ⟨fun h0 => ?_, fun j hj => ?_⟩
    · rw [htype _ hcwd]
      exact (hs.users q).1 h0
    · rw [htype j (by rintro rfl; exact hfiles hj)]
      exact (hs.users q).2 j hj

include hs h he hnm hnm' hdir hempty in
omit [Fintype P] [DecidableEq P] in
theorem Rooted.rmdir : Rooted (rmdir x e) := by
  have hroot := not_root h he hnm hnm'
  -- the entries of the directory are its dots, and count for no other directory
  have hlost : ∀ f : Entry → Bool, (∀ e' ∈ x.ents, e'.1 = e.2.2 → f e' = false) → f e = false →
      (Tree.rmdir x e).ents.countP f = x.ents.countP f := by
    intro f hf hfe
    have hsum := countP_rmdir (x := x) (e := e) f hfe
    have hzero : x.ents.countP (fun e' => f e' && decide (e'.1 = e.2.2)) = 0 :=
      countP_eq_zero.mpr fun e' he' hx => by
        simp only [Bool.and_eq_true, decide_eq_true_eq] at hx
        rw [hf e' he' hx.2] at hx
        exact absurd hx.1 (by decide)
    omega
  refine ⟨fun d hd hdr => ?_, fun e' he' => ?_, fun d hd => ?_, fun e' he' hdd hr => ?_, ?_,
    fun e' he' => ?_⟩
  · obtain ⟨hdn, hd'⟩ := type_freed (by decide) hd
    rw [hlost _ (fun e' he' hx => ?_) (by simp [child, Ne.symm hdn]), h.once d hd' hdr]
    rcases only_dots hempty e' he' hx with hdot | hdot
    · simp [child, hdot]
    · simp [child, hdot]
  · exact h.proper e' (mem_rmdir hs h he hnm hnm' hdir hempty he').1
  · obtain ⟨hdn, hd'⟩ := type_freed (by decide) hd
    rw [hlost _ (fun e' he' hx => by simp [Tree.up, hx, Ne.symm hdn]) (by simp [Tree.up, hnm']),
      h.up d hd']
  · obtain ⟨hin, h1, h2⟩ := mem_rmdir hs h he hnm hnm' hdir hempty he'
    obtain ⟨nm, ha, hb, hc⟩ := h.back e' hin hdd hr
    refine ⟨nm, ha, hb, mem_filter.mpr ⟨(mem_erase_of_ne ?_).mpr hc, by simpa using h2⟩⟩
    rintro rfl
    exact h1 rfl
  · simp only [Tree.rmdir, update_of_ne hroot.symm]
    exact h.top.1
  · exact h.top.2 e' (mem_rmdir hs h he hnm hnm' hdir hempty he').1

end Rmdir

/-! ### Whole runs -/

def looked (x : St P) (a : P × ℕ × Call) : Option Entry :=
  match a.2.2 with
  | .unlink path =>
    match x.namex true path.elems (x.root a.1 path) with
    | .ok (some (dp, nm)) => x.find dp nm
    | _ => none
  | _ => none

/-- No directory is removed that a process uses as current directory or open file. -/
def Calm (x : St P) (a : P × ℕ × Call) : Prop :=
  ∀ e ∈ looked x a, x.type e.2.2 = T_DIR → x.users e.2.2 = 0

instance (x : St P) (a : P × ℕ × Call) : Decidable (Calm x a) :=
  inferInstanceAs (Decidable (∀ e ∈ looked x a, x.type e.2.2 = T_DIR → x.users e.2.2 = 0))

structure Sound (x : St P) : Prop where
  shape : Shape x
  rooted : Rooted x

omit [DecidableEq P] in
theorem Sound.iput (h : Sound x) (i : ℕ) : Sound (x.iput i) :=
  ⟨h.shape.iput i, h.rooted.iput h.shape i⟩

section
omit [DecidableEq P] [Fintype P]

/-- Whatever changes with the users only. -/
theorem Sound.users (h : Sound x) (hy : Shape y) (htype : y.type = x.type) (hents : y.ents = x.ents) :
    Sound y := ⟨hy, h.rooted.congr htype hents⟩

theorem withPath_ok {parent : Bool} {path : Path} {f : ℕ → Name → Except String (St P)}
    (hy : x.withPath p parent path f = .ok y) : y = x ∨ ∃ ip nm,
      x.namex parent path.elems (x.root p path) = .ok (some (ip, nm)) ∧ f ip nm = .ok y := by
  unfold St.withPath at hy
  split at hy
  · exact absurd hy nofun
  · exact .inl (Except.ok.inj hy).symm
  · next ip nm hn => exact .inr ⟨ip, nm, hn, hy⟩

theorem type_make : (x.make n dp nm t).type n = t := by
  unfold St.make
  split_ifs
  · simp [St.setLink]
  · simp

end

omit [Fintype P] in
theorem Sound.createIn (h : Sound x) {fd : Bool} (ht : t ≠ 0)
    (hy : x.createIn p n dp nm t fd = .ok y) : Sound y := by
  unfold St.createIn at hy
  by_cases hdp : x.type dp = T_DIR
  · rw [if_neg (not_not.mpr hdp)] at hy
    cases hf : x.find dp nm with
    | some e =>
      simp only [hf] at hy
      split_ifs at hy with h0 hkeep
      · obtain rfl := Except.ok.inj hy
        exact h.users (h.shape.keep h0 p) rfl rfl
      · obtain rfl := Except.ok.inj hy
        exact h
    | none =>
      simp only [hf] at hy
      have hnm := h.shape.not_dot hdp hf
      have hnm' := h.rooted.not_dotdot hdp hf
      split_ifs at hy with hfree hkeep
      · obtain rfl := Except.ok.inj hy
        have hs := h.shape.make hfree.1 ht hdp hnm
        exact ⟨hs.keep (by rwa [type_make]) p,
          (h.rooted.make h.shape hfree.1 hdp hnm hnm').congr rfl rfl⟩
      · obtain rfl := Except.ok.inj hy
        exact ⟨h.shape.make hfree.1 ht hdp hnm, h.rooted.make h.shape hfree.1 hdp hnm hnm'⟩
  · rw [if_pos hdp] at hy
    exact absurd hy nofun

omit [Fintype P] in
theorem Sound.create (h : Sound x) {path : Path} {fd : Bool} (ht : t ≠ 0)
    (hy : x.create p n path t fd = .ok y) : Sound y := by
  obtain rfl | ⟨dp, nm, -, hin⟩ := withPath_ok hy
  · exact h
  · exact h.createIn ht hin

omit [Fintype P] [DecidableEq P] in
theorem Sound.linkIn (h : Sound x) {ip : ℕ} (h0 : x.type ip ≠ 0) (hfile : x.type ip ≠ T_DIR)
    (hy : x.linkIn ip dp nm = .ok y) : Sound y := by
  unfold St.linkIn at hy
  by_cases hdp : x.type dp = T_DIR
  · rw [if_neg (not_not.mpr hdp)] at hy
    cases hf : x.find dp nm with
    | some e =>
      simp only [hf] at hy
      obtain rfl := Except.ok.inj hy
      exact h
    | none =>
      simp only [hf] at hy
      obtain rfl := Except.ok.inj hy
      exact ⟨h.shape.link h0 hfile hdp (h.shape.not_dot hdp hf),
        h.rooted.link hfile (h.rooted.not_dotdot hdp hf)⟩
  · rw [if_pos hdp] at hy
    exact absurd hy nofun

omit [Fintype P] [DecidableEq P] in
theorem Sound.link (h : Sound x) {old new : Path} (hy : x.link p old new = .ok y) : Sound y := by
  obtain rfl | ⟨ip, _, -, hin⟩ := withPath_ok hy
  · exact h
  · split_ifs at hin with h0 hdir
    · obtain rfl := Except.ok.inj hin
      exact h
    · obtain rfl | ⟨dp, nm, -, hin'⟩ := withPath_ok hin
      · exact h
      · exact h.linkIn h0 hdir hin'

omit [DecidableEq P] in
theorem Sound.unlinkIn (h : Sound x)
    (hG : ∀ e ∈ x.find dp nm, x.type e.2.2 = T_DIR → x.users e.2.2 = 0)
    (hy : x.unlinkIn dp nm = .ok y) : Sound y := by
  unfold St.unlinkIn at hy
  by_cases hdots : nm = "." ∨ nm = ".."
  · rw [if_pos hdots] at hy
    obtain rfl := Except.ok.inj hy
    exact h
  rw [if_neg hdots] at hy
  by_cases hdp : x.type dp = T_DIR
  · rw [if_neg (not_not.mpr hdp)] at hy
    cases hf : x.find dp nm with
    | none =>
      simp only [hf] at hy
      obtain rfl := Except.ok.inj hy
      exact h
    | some e =>
      simp only [hf] at hy
      obtain ⟨he, hed, hen⟩ := find_some hf
      have hnm : e.2.1 ≠ "." := fun hx => hdots (.inl (hen.symm.trans hx))
      have hnm' : e.2.1 ≠ ".." := fun hx => hdots (.inr (hen.symm.trans hx))
      split_ifs at hy with h0 hlink hbusy
      · obtain rfl := Except.ok.inj hy
        exact h
      · obtain rfl := Except.ok.inj hy
        by_cases hdir : x.type e.2.2 = T_DIR
        · have hempty : x.empty e.2.2 = true := by
            by_contra hfull
            exact hbusy ⟨hdir, by simpa using hfull⟩
          have hused := hG e hf hdir
          rw [remove_dir h.shape h.rooted he hnm hnm' hdir hempty hused]
          exact ⟨.rmdir h.shape h.rooted he hnm hnm' hdir hempty hused,
            .rmdir h.shape h.rooted he hnm hnm' hdir hempty⟩
        · rw [h.shape.remove_file he hdir]
          exact Sound.iput ⟨h.shape.unnamed he hnm hdir, h.rooted.unnamed h.shape hnm' hdir⟩ _
  · rw [if_pos hdp] at hy
    exact absurd hy nofun

omit [DecidableEq P] in
theorem Sound.unlink (h : Sound x) {path : Path} (hG : Calm x (p, n, .unlink path))
    (hy : x.unlink p path = .ok y) : Sound y := by
  obtain rfl | ⟨dp, nm, hn, hin⟩ := withPath_ok hy
  · exact h
  · simp only [Calm, looked, hn] at hG
    exact h.unlinkIn hG hin

theorem Sound.close (h : Sound x) (p : P) (i : ℕ) : Sound (x.close p i) := by
  unfold St.close
  split_ifs with hmem
  · exact Sound.iput (h.users (h.shape.shut p i) rfl rfl) i
  · exact h

theorem Sound.chdir (h : Sound x) (p : P) (hd : d ≠ 0 → x.type d = T_DIR) (i : ℕ) :
    Sound (({ x with cwd := update x.cwd p d } : St P).iput i) :=
  Sound.iput (h.users (h.shape.moved p hd) rfl rfl) i

theorem Sound.exit (h : Sound x) (p : P) : Sound (x.exit p) := by
  have hfold : ∀ (is : List ℕ) (y : St P), Sound y → Sound (is.foldl (fun y i => y.close p i) y) := by
    intro is
    induction is with
    | nil => exact fun y hy => hy
    | cons i is ih => exact fun y hy => ih _ (hy.close p i)
  exact (hfold (x.files p) x h).chdir p (fun h0 => absurd rfl h0) _

theorem Sound.step (h : Sound x) {a : P × ℕ × Call} (hG : Calm x a) (hy : x.step a = some y) :
    Sound y := by
  unfold St.step at hy
  split_ifs at hy with hgone
  split at hy
  · next z hz =>
    obtain rfl := Option.some.inj hy
    obtain ⟨p, n, c⟩ := a
    cases c with
    | «open» path fd | mkdir path | mknod path => exact h.create (by decide) hz
    | link old new => exact h.link hz
    | unlink path => exact h.unlink hG hz
    | close i =>
      obtain rfl := Except.ok.inj hz
      exact h.close p i
    | exit =>
      obtain rfl := Except.ok.inj hz
      exact h.exit p
    | chdir path =>
      obtain rfl | ⟨ip, _, -, hin⟩ := withPath_ok hz
      · exact h
      · dsimp only at hin
        by_cases h0 : x.type ip = 0
        · rw [if_pos h0] at hin
          exact absurd hin nofun
        · rw [if_neg h0] at hin
          by_cases hdir : x.type ip = T_DIR
          · rw [if_neg (not_not.mpr hdir)] at hin
            obtain rfl := Except.ok.inj hin
            exact h.chdir p (fun _ => hdir) _
          · rw [if_pos hdir] at hin
            obtain rfl := Except.ok.inj hin
            exact h
  · exact absurd hy nofun

omit [Fintype P] [DecidableEq P] in
theorem sound_mkfs : Sound (mkfs : St P) := by
  have hroot : ∀ d, (mkfs : St P).type d ≠ 0 → d = ROOTINO := by
    intro d hd
    by_contra hne
    simp [mkfs, hne] at hd
  have hdir : ∀ d, (mkfs : St P).type d = T_DIR → d = ROOTINO := fun d hd =>
    hroot d (by rw [hd]; decide)
  refine ⟨⟨?_, fun i hi => ?_, ?_, fun d hd => ?_, fun d hd => ?_, fun q => ?_⟩,
    ⟨fun d hd hdr => absurd (hdir d hd) hdr, ?_, fun d hd => ?_, ?_, rfl, ?_⟩⟩
  · simp [mkfs, T_DIR]
  · obtain rfl := hroot i hi
    simp [mkfs, names]
  · simp [mkfs]
  · obtain rfl := hdir d hd
    simp [mkfs]
  · obtain rfl := hdir d hd
    exact ⟨(ROOTINO, ".", ROOTINO), by simp [mkfs], rfl, rfl⟩
  · exact ⟨fun _ => rfl, nofun⟩
  · simp [mkfs, child]
  · obtain rfl := hdir d hd
    simp [mkfs, up]
  · simp [mkfs]
  · simp [mkfs]

theorem Sound.of_reach (h : Reach St.step Calm (mkfs : St P) x) : Sound x :=
  h.invariant sound_mkfs fun _ _ _ ht hG hy => ht.step hG hy

omit [Fintype P] [DecidableEq P] in
/-- A lookup that starts at an inode in use meets no free one. -/
theorem Shape.namex_ok (h : Shape x) (parent : Bool) : ∀ (path : List Name) (ip : ℕ), x.type ip ≠ 0 →
    ∃ r, x.namex parent path ip = .ok r
  | [], _, _ => ⟨_, rfl⟩
  | nm :: rest, ip, hip => by
    unfold St.namex
    rw [if_neg hip]
    split_ifs with hdir hlast
    · exact ⟨_, rfl⟩
    · exact ⟨_, rfl⟩
    · cases hf : x.find ip nm with
      | none => exact ⟨_, rfl⟩
      | some e => exact h.namex_ok parent rest e.2.2 (h.live e (find_some hf).1).2

/-- In every run in which no directory in use is removed, every directory entry names an inode in use,
  in every state reached, and no lookup of a path by a process meets a free inode. -/
theorem no_dangling (h : Reach St.step Calm (mkfs : St P) x) : NoDangling x ∧
    ∀ (p : P) (parent : Bool) (path : Path), x.cwd p ≠ 0 →
      ∃ r, x.namex parent path.elems (x.root p path) = .ok r := by
  have hs := Sound.of_reach h
  refine ⟨fun e he _ => (hs.shape.live e he).2, fun p parent path hp => ?_⟩
  refine hs.shape.namex_ok parent path.elems _ ?_
  unfold St.root
  split_ifs with habs
  · rw [hs.rooted.top.1]
    decide
  · rw [(hs.shape.users p).1 hp]
    decide

/-- In every run in which no directory in use is removed, `nlink` of every inode in use is the number of
  entries that name it, other than `.`, in directories with links, in every state reached; an inode
  with links is named in such a directory. -/
theorem links_exact (h : Reach St.step Calm (mkfs : St P) x) : Exact x ∧
    ∀ i, x.type i ≠ 0 → 0 < x.nlink i → ∃ e ∈ x.ents, e.2.1 ≠ "." ∧ e.2.2 = i ∧ 0 < x.nlink e.1 := by
  have hs := (Sound.of_reach h).shape
  refine ⟨fun i hi => ?_, fun i hi hpos => ?_⟩
  · rw [hs.count i hi]
    refine congrArg _ (countP_congr fun e he => ?_)
    have hl := hs.linked e.1 (hs.live e he).1
    simp [names, hl]
  · rw [hs.count i hi] at hpos
    obtain ⟨e, he, hname⟩ := countP_pos_iff.mp (Int.natCast_pos.mp hpos)
    have hname' : e.2.1 ≠ "." ∧ e.2.2 = i := by simpa [names] using hname
    exact ⟨e, he, hname'.1, hname'.2, hs.linked e.1 (hs.live e he).1⟩

/-- A directory and a file in it are made, the file gets a second name, and both names and the directory
  are removed while the file is open. -/
def busyRun : List (Fin 2 × ℕ × Call) :=
  [(0, 2, .mkdir (abs ["d"])), (1, 3, .open (abs ["d", "f"]) true),
    (0, 0, .link (abs ["d", "f"]) (abs ["g"])), (0, 0, .unlink (abs ["d", "f"])),
    (1, 0, .unlink (abs ["d"]))]

theorem no_dangling_busy :
    ∃ x : St (Fin 2), Reach St.step Calm mkfs x ∧ x.type 2 = 0 ∧ NoDangling x := by
  have h : (follow St.step Calm mkfs busyRun).map (fun x => x.type 2) = some 0 := by decide +kernel
  obtain ⟨x, hx, ht⟩ := exists_reach h
  exact ⟨x, hx, ht, (no_dangling hx).1⟩

theorem links_exact_busy : ∃ x : St (Fin 2), Reach St.step Calm mkfs x ∧ x.nlink 3 = 1 ∧ Exact x := by
  have h : (follow St.step Calm mkfs busyRun).map (fun x => x.nlink 3) = some 1 := by decide +kernel
  obtain ⟨x, hx, hn⟩ := exists_reach h
  exact ⟨x, hx, hn, (links_exact hx).1⟩

end Xv6.Fs.Tree

import Xv6.Fs.Balance

/-! @src sysfile.c, fs.c | part:failed calls | scheme:machine

  What a call that returns -1 leaves behind when no other process runs during it. On the way to an
  error the disk is as it was before and the process has some inodes in hand (`Quiet`); putting one
  of them back frees nothing, because an inode that a path leads to has a link or is in use. One
  call is different: `open` with `O_CREATE` makes the file first and asks for a descriptor
  afterwards.

      open(O_CREATE) -- create --> new inode, new entry -- fdalloc --> none --> -1 -/

namespace Xv6.Fs.Calls
open List
open Schemes
open Locks (Name Path)
open Xv6.Ftable (NOFILE NFILE Fd Fid)
open Function

variable {P : Type} [DecidableEq P] {x s y t' : St P} {p : P}

/-! ### Calls without interruption -/

/-- Process `p` runs its code to the end and returns `r`, and no other process runs. -/
inductive Runs (p : P) : St P → Code → St P → ℤ → Prop
  | ret {s r} : Runs p s (.ret r) s r
  | act {s t y c k r} (n : ℕ) (b : Bool) (ha : s.act p n b c = some (t, k))
      (hrest : Runs p t k y r) : Runs p s c y r

def solo (p : P) (n : ℕ) (b : Bool) : ℕ → St P → Code → Option (St P × ℤ)
  | _, s, .ret r => some (s, r)
  | 0, _, _ => none
  | fuel + 1, s, c => (s.act p n b c).bind fun u => solo p n b fuel u.1 u.2

variable {dp n : ℕ} {b : Bool} {nm : Name}

theorem runs_of_solo {r : ℤ} : ∀ {fuel : ℕ} {s : St P} {c : Code},
    solo p n b fuel s c = some (y, r) → Runs p s c y r := by
  intro fuel
  induction fuel with
  | zero =>
    intro s c h
    cases c <;> simp only [solo] at h <;> cases h
    exact .ret
  | succ fuel ih =>
    intro s c h
    by_cases hc : ∃ v, c = .ret v
    · obtain ⟨v, rfl⟩ := hc
      simp only [solo] at h
      cases h
      exact .ret
    · have hstep : solo p n b (fuel + 1) s c =
          (s.act p n b c).bind fun u => solo p n b fuel u.1 u.2 := by
        cases c <;> first | rfl | exact absurd ⟨_, rfl⟩ hc
      rw [hstep] at h
      obtain ⟨⟨t, k⟩, ha, hrest⟩ := Option.bind_eq_some_iff.mp h
      exact .act n b ha (ih hrest)

def Post (p : P) (s : St P) (c : Code) (Q : St P → ℤ → Prop) : Prop :=
  ∀ y r, Runs p s c y r → Q y r

variable {k c : Code} {Q : St P → ℤ → Prop} {i : ℕ}

theorem Post.ret {r : ℤ} (h : Q s r) : Post p s (.ret r) Q := by
  intro y v hr
  cases hr with
  | ret => exact h
  | act n b ha _ => cases ha

theorem Post.panic {msg : String} : Post p s (.panic msg) Q := by
  intro y v hr
  cases hr with
  | act n b ha _ => cases ha

theorem Post.act (hc : ∀ r, c ≠ .ret r)
    (h : ∀ n b t k, s.act p n b c = some (t, k) → Post p t k Q) : Post p s c Q := by
  intro y v hr
  cases hr with
  | ret => exact absurd rfl (hc v)
  | act n b ha hrest => exact h n b _ _ ha y v hrest

theorem Post.det (hc : ∀ r, c ≠ .ret r) (ha : ∀ n b, s.act p n b c = some (t', k))
    (h : Post p t' k Q) : Post p s c Q := by
  refine Post.act hc fun n b t' k' ha' => ?_
  rw [ha n b] at ha'
  cases ha'
  exact h

def Code.All (φ : Code → Prop) : Code → Prop
  | .ret r => φ (.ret r)
  | .panic _ => True
  | .beginOp k => φ (.beginOp k) ∧ k.All φ
  | .endOp k => φ (.endOp k) ∧ k.All φ
  | .lock i k => φ (.lock i k) ∧ k.All φ
  | .check i k => φ (.check i k) ∧ k.All φ
  | .unlock i k => φ (.unlock i k) ∧ k.All φ
  | .get i k => φ (.get i k) ∧ k.All φ
  | .put i k => φ (.put i k) ∧ k.All φ
  | .deref i k => φ (.deref i k) ∧ k.All φ
  | .type i k => φ (.type i k) ∧ ∀ t, (k t).All φ
  | .links i k => φ (.links i k) ∧ ∀ n, (k n).All φ
  | .look d nm k => φ (.look d nm k) ∧ ∀ r, (k r).All φ
  | .write d nm r k => φ (.write d nm r k) ∧ k.All φ
  | .empty d k => φ (.empty d k) ∧ ∀ b, (k b).All φ
  | .setLinks i f k => φ (.setLinks i f k) ∧ k.All φ
  | .alloc t k => φ (.alloc t k) ∧ ∀ i, (k i).All φ
  | .init i major minor k => φ (.init i major minor k) ∧ k.All φ
  | .writei i bs k => φ (.writei i bs k) ∧ k.All φ
  | .filealloc k => φ (.filealloc k) ∧ ∀ f, (k f).All φ
  | .fdalloc f k => φ (.fdalloc f k) ∧ ∀ fd, (k fd).All φ
  | .fileclose f k => φ (.fileclose f k) ∧ ∀ r, (k r).All φ
  | .closefd fd k => φ (.closefd fd k) ∧ ∀ r, (k r).All φ
  | .argfd fd k => φ (.argfd fd k) ∧ ∀ r, (k r).All φ
  | .dup fd k => φ (.dup fd k) ∧ ∀ r, (k r).All φ
  | .setFile f ip k => φ (.setFile f ip k) ∧ k.All φ
  | .setCwd c k => φ (.setCwd c k) ∧ k.All φ
  | .coin k => φ (.coin k) ∧ ∀ b, (k b).All φ

theorem Code.All.act {φ : Code → Prop} (h : c.All φ) (ha : s.act p n b c = some (t', k))
    : φ c ∧ k.All φ := by
  cases c with
  | ret r | panic msg => cases ha
  | lock i k =>
    simp only [St.act] at ha
    split_ifs at ha
    cases ha
    exact h
  | check i k =>
    simp only [St.act] at ha
    split_ifs at ha <;> cases ha
    · exact ⟨h.1, trivial⟩
    · exact h
  | look d nm k =>
    simp only [St.act] at ha
    split at ha <;> cases ha
    · exact ⟨h.1, h.2 _⟩
    · exact ⟨h.1, h.2 _⟩
  | alloc t k =>
    simp only [St.act] at ha
    split_ifs at ha <;> cases ha
    · exact ⟨h.1, h.2 _⟩
    · exact ⟨h.1, trivial⟩
  | filealloc k =>
    simp only [St.act] at ha
    split at ha <;> cases ha
    · exact ⟨h.1, h.2 _⟩
    · exact ⟨h.1, h.2 _⟩
  | fdalloc f k =>
    simp only [St.act] at ha
    split at ha <;> cases ha
    · exact ⟨h.1, h.2 _⟩
    · exact ⟨h.1, h.2 _⟩
  | fileclose f k =>
    simp only [St.act] at ha
    split_ifs at ha <;> cases ha
    · exact ⟨h.1, trivial⟩
    · exact ⟨h.1, h.2 _⟩
  | closefd fd k =>
    simp only [St.act] at ha
    split at ha
    · cases ha
      exact ⟨h.1, h.2 _⟩
    · split_ifs at ha <;> cases ha
      · exact ⟨h.1, trivial⟩
      · exact ⟨h.1, h.2 _⟩
  | dup fd k =>
    simp only [St.act] at ha
    split at ha
    · split_ifs at ha <;> cases ha
      · exact ⟨h.1, trivial⟩
      · exact ⟨h.1, h.2 _⟩
    · cases ha
      exact ⟨h.1, h.2 _⟩
  | type | links | empty | argfd | coin =>
    cases ha
    exact ⟨h.1, h.2 _⟩
  | _ =>
    cases ha
    exact h

theorem Post.of_all {φ : Code → Prop} {I : St P → Prop} (h : c.All φ) (hs : I s)
    (hstep : ∀ s c n b t k, φ c → I s → s.act p n b c = some (t, k) → I t) :
    Post p s c fun y r => I y ∧ φ (.ret r) := by
  intro y r hr
  induction hr with
  | ret => exact ⟨hs, h⟩
  | act n b ha _ ih =>
    obtain ⟨hc, hk⟩ := h.act ha
    exact ih hk (hstep _ _ n b _ _ hc hs ha)

/-! ### Nothing has changed yet -/

def Named (x : St P) (p : P) (i : ℕ) : Prop :=
  i = ROOTINO ∨ x.cwd p = some i ∨ ∃ d nm, x.disk.find d nm = some i

/-- No path leads to an allocated inode that has no link and is not in use. -/
def NoOrphan (x : St P) (p : P) : Prop :=
  ∀ i, Named x p i → x.disk.type i ≠ 0 → x.disk.nlink i ≤ 0 → 0 < x.ref i

/-- The call that began in `x` has the inodes `held` in hand and has changed nothing. -/
structure Quiet (x : St P) (p : P) (held : List ℕ) (s : St P) : Prop where
  disk : s.disk = x.disk
  cwd : s.cwd p = x.cwd p
  ofile : s.ofile p = x.ofile p
  file : s.file = x.file
  ref : ∀ i, s.ref i = x.ref i + held.count i
  read : ∀ i, x.ref i ≤ 0 → 0 < s.ref i → s.valid i = true → x.disk.type i ≠ 0
  named : ∀ i ∈ held, Named x p i

omit [DecidableEq P] in
theorem Quiet.refl (x : St P) (p : P) : Quiet x p [] x where
  disk := rfl
  cwd := rfl
  ofile := rfl
  file := rfl
  ref := fun i => by simp
  read := fun i hle hpos _ => by omega
  named := fun i hi => by cases hi

variable {held : List ℕ}

omit [DecidableEq P] in
theorem Quiet.perm {held' : List ℕ} (h : Quiet x p held s) (hp : held.Perm held') :
    Quiet x p held' s :=
  ⟨h.disk, h.cwd, h.ofile, h.file, fun i => by rw [h.ref i, hp.count_eq], h.read,
    fun i hi => h.named i (hp.mem_iff.mpr hi)⟩

theorem Quiet.get (h : Quiet x p held s) (hi : Named x p i) :
    Quiet x p (i :: held) (s.iget p i) := by
  refine ⟨h.disk, h.cwd, h.ofile, h.file, fun j => ?_, fun j hle hpos hv => ?_, fun j hj => ?_⟩
  · have hj := h.ref j
    simp only [St.iget, update_apply, count_cons]
    split_ifs with h1 h2 h2
    · subst h1
      push_cast
      omega
    · simp_all
    · simp_all
    · simpa using hj
  · -- the count was zero and the inode has not been read, or it was there before
    have hread := h.read j hle
    simp only [St.iget, update_apply] at hpos hv
    by_cases hji : j = i
    · subst hji
      rw [if_pos rfl] at hpos
      by_cases hz : s.ref j = 0
      · simp [hz] at hv
      · rw [if_neg hz] at hv
        exact hread (by omega) hv
    · rw [if_neg hji] at hpos
      refine hread hpos ?_
      split_ifs at hv with hz
      · simpa [hji] using hv
      · exact hv
  · rcases mem_cons.mp hj with rfl | hj
    · exact hi
    · exact h.named j hj

omit [DecidableEq P] in
theorem Quiet.drop (hx : NoOrphan x p) (h : Quiet x p (i :: held) s) : s.drop i = s := by
  unfold St.drop
  rw [if_neg]
  rintro ⟨hv, hn, hr⟩
  have hi : Named x p i := h.named i (mem_cons_self ..)
  have href := h.ref i
  have hle : x.ref i ≤ 0 := by
    simp only [count_cons_self] at href
    push_cast at href
    omega
  have htype := h.read i hle (by omega) hv
  have hpos := hx i hi htype (by rw [← h.disk, hn])
  omega

theorem Quiet.put (h : Quiet x p (i :: held) s) : Quiet x p held
    { s.setFly p i (s.fly p i - 1) with ref := update s.ref i (s.ref i - 1) } := by
  refine ⟨h.disk, h.cwd, h.ofile, h.file, fun j => ?_, fun j hle hpos hv => ?_, fun j hj => ?_⟩
  · have hj := h.ref j
    simp only [update_apply, count_cons] at hj ⊢
    split_ifs with h1
    · subst h1
      simp only [beq_self_eq_true, if_true] at hj
      push_cast at hj
      omega
    · rw [hj]
      simp [Ne.symm h1]
  · refine h.read j hle ?_ hv
    simp only [update_apply] at hpos
    split_ifs at hpos with hji
    · rw [hji]
      omega
    · exact hpos
  · exact h.named j (mem_cons_of_mem i hj)

/-! ### The steps of a call that has changed nothing -/

theorem Post.beginOp (h : Quiet x p held s) (hk : ∀ t, Quiet x p held t → Post p t k Q) :
    Post p s (.beginOp k) Q :=
  .det (fun r => by simp) (fun _ _ => rfl)
    (hk _ ⟨h.disk, h.cwd, h.ofile, h.file, h.ref, h.read, h.named⟩)

theorem Post.endOp (h : Quiet x p held s) (hk : ∀ t, Quiet x p held t → Post p t k Q) :
    Post p s (.endOp k) Q :=
  .det (fun r => by simp) (fun _ _ => rfl)
    (hk _ ⟨h.disk, h.cwd, h.ofile, h.file, h.ref, h.read, h.named⟩)

theorem Post.lock (h : Quiet x p held s) (hk : ∀ t, Quiet x p held t → Post p t k Q) :
    Post p s (.lock i k) Q := by
  refine .act (fun r => by simp) fun n b t k' ha => ?_
  simp only [St.act] at ha
  split_ifs at ha
  cases ha
  exact hk _ ⟨h.disk, h.cwd, h.ofile, h.file, h.ref, h.read, h.named⟩

theorem Post.unlock (h : Quiet x p held s) (hk : ∀ t, Quiet x p held t → Post p t k Q) :
    Post p s (.unlock i k) Q :=
  .det (fun r => by simp) (fun _ _ => rfl)
    (hk _ ⟨h.disk, h.cwd, h.ofile, h.file, h.ref, h.read, h.named⟩)

theorem Post.ilock (h : Quiet x p held s) (hk : ∀ t, Quiet x p held t → Post p t k Q) :
    Post p s (ilock i k) Q := by
  refine .lock h fun s h => .act (fun r => by simp) fun n b t k' ha => ?_
  simp only [St.act] at ha
  split_ifs at ha with hfree
  · cases ha
    exact .panic
  · cases ha
    refine hk _ ⟨h.disk, h.cwd, h.ofile, h.file, h.ref, fun j hle hpos hv => ?_, h.named⟩
    have hread := h.read j hle hpos
    by_cases hji : j = i
    · -- an inode that had not been read is one that is not free on disk
      subst hji
      intro htype
      rw [← h.disk] at htype
      refine hfree ⟨?_, htype⟩
      by_contra hval
      rw [Bool.not_eq_false] at hval
      exact hread hval (by rw [← h.disk, htype])
    · exact hread (by simpa [hji] using hv)

theorem Post.iput (hx : NoOrphan x p) (h : Quiet x p (i :: held) s)
    (hk : ∀ t, Quiet x p held t → Post p t k Q) : Post p s (iput i k) Q := by
  refine .lock h fun s h => .det (fun r => by simp) (fun _ _ => rfl) ?_
  rw [h.drop hx]
  exact .unlock h fun s h => .det (fun r => by simp) (fun _ _ => rfl) (hk _ h.put)

theorem Post.iunlockput (hx : NoOrphan x p) (h : Quiet x p (i :: held) s)
    (hk : ∀ t, Quiet x p held t → Post p t k Q) : Post p s (iunlockput i k) Q :=
  .unlock h fun _ h => .iput hx h hk

theorem Post.get (h : Quiet x p held s) (hi : Named x p i)
    (hk : ∀ t, Quiet x p (i :: held) t → Post p t k Q) : Post p s (.get i k) Q :=
  .det (fun r => by simp) (fun _ _ => rfl) (hk _ (h.get hi))

theorem Post.type {k : ℕ → Code} (h : Quiet x p held s)
    (hk : Post p s (k (x.disk.type i)) Q) : Post p s (.type i k) Q := by
  refine .det (fun r => by simp) (fun _ _ => rfl) ?_
  rwa [h.disk]

theorem Post.look {d : ℕ} {k : Option ℕ → Code} (h : Quiet x p held s)
    (hnone : x.disk.find d nm = none → Post p s (k none) Q)
    (hsome : ∀ i t, x.disk.find d nm = some i → Quiet x p (i :: held) t →
      Post p t (k (some i)) Q) : Post p s (.look d nm k) Q := by
  rw [← h.disk] at hnone
  rcases hf : s.disk.find d nm with _ | i
  · refine .det (fun r => by simp) (fun n b => ?_) (hnone hf)
    simp only [St.act, hf]
  · refine .det (fun r => by simp) (fun n b => ?_) (hsome i _ (by rw [← h.disk, hf]) (h.get ?_))
    · simp only [St.act, hf]
    · exact .inr (.inr ⟨d, nm, by rw [← h.disk, hf]⟩)

def walk (d : Disk) (parent : Bool) : List Name → ℕ → Option (ℕ × Name)
  | [], ip => if parent then none else some (ip, "")
  | nm :: rest, ip =>
    if d.type ip ≠ T_DIR then none
    else if parent && rest.isEmpty then some (ip, nm)
    else (d.find ip nm).bind fun next => walk d parent rest next

theorem Post.namexLoop (hx : NoOrphan x p) {parent : Bool} {k : Option (ℕ × Name) → Code} :
    ∀ (elems : List Name) (ip : ℕ) {s : St P}, Quiet x p (ip :: held) s →
      (walk x.disk parent elems ip = none → ∀ t, Quiet x p held t → Post p t (k none) Q) →
      (∀ i nm, walk x.disk parent elems ip = some (i, nm) → ∀ t, Quiet x p (i :: held) t →
        Post p t (k (some (i, nm))) Q) →
      Post p s (namexLoop parent k elems ip) Q
  | [], ip, s, h, hnone, hsome => by
    unfold Calls.namexLoop
    split_ifs with hp
    · exact .iput hx h (hnone (by simp [walk, hp]))
    · exact hsome ip "" (by simp [walk, hp]) s h
  | nm :: rest, ip, s, h, hnone, hsome => by
    unfold Calls.namexLoop
    refine .ilock h fun s h => .type h ?_
    unfold walk at hnone hsome
    split_ifs at hnone hsome ⊢ with hdir hlast
    · exact .iunlockput hx h (hnone rfl)
    · exact .unlock h (hsome ip nm rfl)
    · refine .look h (fun hf => ?_) fun next t hf ht => ?_
      · exact .iunlockput hx h (hnone (by rw [hf]; rfl))
      · rw [hf, Option.bind_some] at hnone hsome
        exact .iunlockput hx (ht.perm (List.Perm.swap _ _ _)) fun t ht =>
          Post.namexLoop hx rest next ht hnone hsome

def start (cwd : ℕ) (path : Path) : ℕ := if path.abs then ROOTINO else cwd

theorem Post.namex (hx : NoOrphan x p) {parent : Bool} {k : Option (ℕ × Name) → Code} {cwd : ℕ}
    {path : Path} (hcwd : x.cwd p = some cwd) (h : Quiet x p held s)
    (hnone : walk x.disk parent path.elems (start cwd path) = none →
      ∀ t, Quiet x p held t → Post p t (k none) Q)
    (hsome : ∀ i nm, walk x.disk parent path.elems (start cwd path) = some (i, nm) →
      ∀ t, Quiet x p (i :: held) t → Post p t (k (some (i, nm))) Q) :
    Post p s (namex cwd path parent k) Q := by
  refine .get h ?_ fun t ht => .namexLoop hx path.elems (start cwd path) ht hnone hsome
  by_cases ha : path.abs
  · exact .inl (if_pos ha)
  · exact .inr (.inl (by rw [if_neg ha]; exact hcwd))

/-! ### The error exits -/

/-- The directories, the allocated inodes and what is in them, the caller's current directory and
  its descriptors are the same. -/
structure Same (x y : St P) (p : P) : Prop where
  type : ∀ i, y.disk.type i = x.disk.type i
  inode : ∀ i, x.disk.type i ≠ 0 → y.disk.nlink i = x.disk.nlink i ∧
    y.disk.data i = x.disk.data i ∧ y.disk.major i = x.disk.major i ∧
    y.disk.minor i = x.disk.minor i
  entries : ∀ d nm, y.disk.find d nm = x.disk.find d nm
  cwd : y.cwd p = x.cwd p
  ofile : y.ofile p = x.ofile p

def Failing (x : St P) (p : P) (y : St P) (r : ℤ) : Prop := r = -1 → Same x y p

omit [DecidableEq P] in
theorem Quiet.same (h : Quiet x p held s) : Same x s p := by
  refine ⟨fun i => ?_, fun i _ => ?_, fun d nm => ?_, h.cwd, h.ofile⟩
  all_goals rw [h.disk]
  exact ⟨rfl, rfl, rfl, rfl⟩

theorem post_fail (h : Quiet x p held s) : Post p s fail (Failing x p) :=
  .endOp h fun _ h => .ret fun _ => h.same

theorem post_ok (h : c.All (· ≠ .ret (-1))) : Post p s c (Failing x p) := by
  have hpost : Post p s c fun _ r => True ∧ Code.ret r ≠ .ret (-1) :=
    .of_all h trivial fun _ _ _ _ _ _ _ _ _ => trivial
  intro y r hr hm
  exact absurd (congrArg Code.ret hm) (hpost y r hr).2

theorem post_openEnd (hx : NoOrphan x p) (hu : ∀ f, (x.file f).ref = 0 → (x.file f).ip = none)
    (h : Quiet x p [i] s) : Post p s (openEnd i) (Failing x p) := by
  refine .act (fun r => by simp [openEnd]) fun n b t k ha => ?_
  simp only [St.act] at ha
  rcases hf : s.freeFile with _ | f
  · rw [hf] at ha
    cases ha
    exact .iunlockput hx h fun _ h => post_fail h
  · rw [hf] at ha
    cases ha
    have hzero : (x.file f).ref = 0 := by
      have hfind := List.find?_some hf
      rw [h.file] at hfind
      simpa using hfind
    have hfile : x.file f = ⟨0, none⟩ := by
      rw [← hzero, ← hu f hzero]
    refine .act (fun r => by simp) fun n b t k ha => ?_
    simp only [St.act] at ha
    rcases hfd : St.freeFd ((s.setFile f { s.file f with ref := 1 }).setFresh p (some f)) p
      with _ | fd
    · rw [hfd] at ha
      cases ha
      have hrel : St.release ((s.setFile f { s.file f with ref := 1 }).setFresh p (some f)) p f =
          (((s.setFile f { s.file f with ref := 1 }).setFresh p (some f)).setFile f ⟨0, none⟩,
            none) := by
        simp [St.release, St.setFile, St.setFresh, h.file, hfile]
      refine .act (fun r => by simp) fun n b t k ha => ?_
      simp only [St.act, hrel] at ha
      rw [if_neg (by simp [St.setFile, St.setFresh])] at ha
      cases ha
      suffices hq : Quiet x p [i] _ from .iunlockput hx hq fun _ h => post_fail h
      refine ⟨h.disk, h.cwd, h.ofile, ?_, h.ref, h.read, h.named⟩
      funext g
      simp only [St.setFile, St.setFresh, h.file, update_apply]
      split_ifs with hg
      · rw [hg, hfile]
      · rfl
    · rw [hfd] at ha
      cases ha
      refine post_ok ?_
      have hpos : (fd.val : ℤ) ≠ -1 := by omega
      simp [Code.All, hpos]

variable {cwd t : ℕ} {path : Path} {major minor : ℤ}

theorem post_create (hx : NoOrphan x p) (hcwd : x.cwd p = some cwd) {k : Option ℕ → Code}
    (h : Quiet x p [] s) (hnone : ∀ s, Quiet x p [] s → Post p s (k none) Q)
    (hold : ∀ ip s, Quiet x p [ip] s → t = T_FILE → Post p s (k (some ip)) Q)
    (hnew : ∀ dp nm s, walk x.disk true path.elems (start cwd path) = some (dp, nm) →
      x.disk.find dp nm = none → Quiet x p [dp] s →
      Post p s (createNew dp nm t major minor fun ip => k (some ip)) Q) :
    Post p s (create cwd path t major minor k) Q := by
  refine .namex hx hcwd h (fun _ => hnone) fun dp nm hw s h => .ilock h fun s h => ?_
  refine .look h (fun hf => hnew dp nm s hw hf h) fun ip s hf h => ?_
  refine .iunlockput hx (h.perm (List.Perm.swap _ _ _)) fun s h => .ilock h fun s h => .type h ?_
  split_ifs with ht
  · exact hold ip s h ht.1
  · exact .iunlockput hx h hnone

theorem all_dirlink {k : Bool → Code} (h : ∀ ok, (k ok).All (· ≠ .ret (-1)))
    : (dirlink dp nm i k).All (· ≠ .ret (-1)) := by
  refine ⟨by simp, fun r => ?_⟩
  cases r with
  | none => exact ⟨by simp, h true⟩
  | some j => simpa [Code.All, Calls.iput] using h false

theorem all_createNew {k : ℕ → Code} (h : ∀ ip, (k ip).All (· ≠ .ret (-1))) :
    (createNew dp nm t major minor k).All (· ≠ .ret (-1)) := by
  refine ⟨by simp, fun ip => ⟨by simp, by simp, by simp, ?_⟩⟩
  have hlast : (dirlink dp nm ip fun ok =>
    if ok then Calls.iunlockput dp (k ip) else .panic "create: dirlink").All
    (· ≠ .ret (-1)) := by
    refine all_dirlink fun ok => ?_
    cases ok with
    | true => simpa [Code.All, Calls.iunlockput, Calls.iput] using h ip
    | false => trivial
  dsimp only
  split_ifs
  · refine ⟨by simp, all_dirlink fun ok => ?_⟩
    cases ok with
    | true =>
      rw [if_pos rfl]
      refine all_dirlink fun ok => ?_
      cases ok with
      | true => exact hlast
      | false => trivial
    | false => trivial
  · exact hlast

theorem post_sysMake (hx : NoOrphan x p) (hcwd : x.cwd p = some cwd) (h : Quiet x p [] s)
    (path : Option Path) (ht : t ≠ T_FILE) :
    Post p s (sysMake cwd path t major minor) (Failing x p) := by
  refine .beginOp h fun s h => ?_
  cases path with
  | none => exact post_fail h
  | some path =>
    refine post_create hx hcwd h (fun s h => post_fail h) (fun ip s h hf => absurd hf ht)
      fun dp nm s _ _ _ => post_ok ?_
    exact all_createNew fun ip => by simp [Code.All, Calls.iunlockput, Calls.iput]

theorem post_sysChdir (hx : NoOrphan x p) (hcwd : x.cwd p = some cwd) (h : Quiet x p [] s)
    (path : Option Path) : Post p s (sysChdir cwd path) (Failing x p) := by
  refine .beginOp h fun s h => ?_
  cases path with
  | none => exact post_fail h
  | some path =>
    refine .namex hx hcwd h (fun _ s h => post_fail h) fun ip nm _ s h => .ilock h fun s h =>
      .type h ?_
    split_ifs
    · exact .iunlockput hx h fun s h => post_fail h
    · refine post_ok ?_
      simp [Code.All, iput]

theorem post_sysUnlink (hx : NoOrphan x p) (hcwd : x.cwd p = some cwd) (h : Quiet x p [] s)
    (path : Path) : Post p s (sysUnlink cwd path) (Failing x p) := by
  refine .beginOp h fun s h => .namex hx hcwd h (fun _ s h => post_fail h) fun dp nm _ s h => ?_
  refine .ilock h fun s h => ?_
  split_ifs
  · exact .iunlockput hx h fun s h => post_fail h
  · refine .look h (fun _ => .iunlockput hx h fun s h => post_fail h) fun ip s _ h => ?_
    refine .ilock h fun s h => .det (fun r => by simp) (fun _ _ => rfl) ?_
    dsimp only
    split_ifs
    · exact .panic
    · refine .det (fun r => by simp) (fun _ _ => rfl) (.det (fun r => by simp) (fun _ _ => rfl) ?_)
      dsimp only
      split_ifs
      · exact .iunlockput hx h fun s h => .iunlockput hx h fun s h => post_fail h
      · refine post_ok ?_
        unfold unlinkEnd
        split_ifs <;> simp [Code.All, iunlockput, iput]

/-! ### A link that is taken back -/

def St.relink (s : St P) (i : ℕ) (f : ℤ → ℤ) : St P :=
  { s with disk :=
    { s.disk with nlink := update s.disk.nlink i (f (s.disk.nlink i)) } }

omit [DecidableEq P] in
theorem Quiet.relink (h : Quiet x p held s) (i : ℕ) (f : ℤ → ℤ) :
    Quiet (x.relink i f) p held (s.relink i f) := by
  refine ⟨?_, h.cwd, h.ofile, h.file, h.ref, h.read, h.named⟩
  simp only [St.relink, h.disk]

omit [DecidableEq P] in
theorem NoOrphan.relink (hx : NoOrphan x p) (i : ℕ) : NoOrphan (x.relink i (· + 1)) p := by
  intro j hj ht hn
  refine hx j hj ht ?_
  simp only [St.relink, update_apply] at hn
  split_ifs at hn with hji
  · rw [hji]
    omega
  · exact hn

omit [DecidableEq P] in
theorem relink_back (x : St P) (i : ℕ) : (x.relink i (· + 1)).relink i (· - 1) = x := by
  simp [St.relink]

theorem Post.setLinks {f : ℤ → ℤ} (h : Quiet x p held s)
    (hk : ∀ s, Quiet (x.relink i f) p held s → Post p s k Q) : Post p s (.setLinks i f k) Q :=
  .det (fun r => by simp) (fun _ _ => rfl) (hk _ (h.relink i f))

theorem post_linkBad (hx : NoOrphan x p) (h : Quiet (x.relink i (· + 1)) p [i] s) :
    Post p s (linkBad i) (Failing x p) := by
  refine .ilock h fun s h => .setLinks h fun s h => ?_
  rw [relink_back] at h
  exact .iunlockput hx h fun s h => post_fail h

theorem post_sysLink (hx : NoOrphan x p) (hcwd : x.cwd p = some cwd) (h : Quiet x p [] s)
    (old new : Path) : Post p s (sysLink cwd old new) (Failing x p) := by
  refine .beginOp h fun s h => .namex hx hcwd h (fun _ s h => post_fail h) fun ip nm _ s h => ?_
  refine .ilock h fun s h => .type h ?_
  split_ifs
  · exact .iunlockput hx h fun s h => post_fail h
  · have hx' := hx.relink ip
    refine .setLinks h fun s h => .unlock h fun s h => ?_
    refine .namex hx' hcwd h (fun _ s h => post_linkBad hx h) fun dp nm _ s h => ?_
    refine .ilock h fun s h => .look h (fun _ => post_ok ?_) fun j s _ h => ?_
    · simp [Code.All, iunlockput, iput]
    · refine .iput hx' h fun s h => .iunlockput hx' h fun s h => post_linkBad hx h

/-! ### A file that is created and not opened -/

def Gentle : Code → Prop
  | .alloc _ _ => False
  | .init _ _ _ _ => False
  | .setLinks _ _ _ => False
  | _ => True

theorem release_disk (s : St P) (p : P) (f : Fid) : (s.release p f).1.disk = s.disk := by
  unfold St.release
  split_ifs
  · rfl
  · split <;> rfl

def Linked (n : ℕ) (s : St P) : Prop := s.disk.type n ≠ 0 ∧ 0 < s.disk.nlink n

theorem Linked.act {m : ℕ} (hc : Gentle c) (h : Linked n s) (ha : s.act p m b c = some (t', k))
    : Linked n t' := by
  cases c with
  | alloc t k | init i major minor k | setLinks i f k => exact hc.elim
  | ret r | panic msg => cases ha
  | put i k =>
    cases ha
    unfold St.drop
    split_ifs with hd
    · -- it is not the one that is freed
      have hne : n ≠ i := by
        rintro rfl
        have hpos := h.2
        omega
      refine ⟨?_, h.2⟩
      simpa [Disk.free, hne] using h.1
    · exact h
  | fileclose f k =>
    simp only [St.act] at ha
    split_ifs at ha <;> cases ha
    · exact h
    · show Linked n (s.release p f).1
      unfold Linked
      rw [release_disk]
      exact h
  | closefd fd k =>
    simp only [St.act] at ha
    split at ha
    · cases ha
      exact h
    · split_ifs at ha <;> cases ha
      · exact h
      · show Linked n (s.release p _).1
        unfold Linked
        rw [release_disk]
        exact h
  | lock | check =>
    simp only [St.act] at ha
    split_ifs at ha <;> cases ha <;> exact h
  | look | filealloc | fdalloc =>
    simp only [St.act] at ha
    split at ha <;> cases ha <;> exact h
  | dup fd k =>
    simp only [St.act] at ha
    split at ha
    · split_ifs at ha <;> cases ha <;> exact h
    · cases ha
      exact h
  | _ =>
    cases ha
    exact h

theorem gentle_openEnd (n : ℕ) : (openEnd n).All Gentle := by
  refine ⟨trivial, fun f => ?_⟩
  cases f with
  | none => simp [Code.All, Gentle, Calls.iunlockput, Calls.iput, fail]
  | some f =>
    refine ⟨trivial, fun fd => ?_⟩
    cases fd with
    | none =>
      refine ⟨trivial, fun r => ?_⟩
      cases r <;> simp [Code.All, Gentle, Calls.iunlockput, Calls.iput, fail]
    | some fd => simp [Code.All, Gentle]

theorem Post.ilock_disk (h : ∀ t, t.disk = s.disk → Post p t k Q) :
    Post p s (Calls.ilock i k) Q := by
  unfold Calls.ilock
  refine .act (fun r => by simp) fun n b t k' ha => ?_
  simp only [St.act] at ha
  split_ifs at ha
  cases ha
  refine .act (fun r => by simp) fun n b t k' ha => ?_
  simp only [St.act] at ha
  split_ifs at ha <;> cases ha
  · exact .panic
  · exact h _ rfl

theorem post_createNew (h : Quiet x p held s) : Post p s (createNew dp nm T_FILE 0 0 openEnd)
      fun y _ => ∃ n, x.disk.type n = 0 ∧ y.disk.type n ≠ 0 := by
  refine .act (fun r => by simp [createNew]) fun n b t' k ha => ?_
  simp only [St.act] at ha
  split_ifs at ha with hn
  · cases ha
    refine .ilock_disk fun s hs => .det (fun r => by simp) (fun _ _ => rfl) ?_
    rw [if_neg (by decide)]
    have hall : (dirlink dp nm n fun ok =>
      if ok then Calls.iunlockput dp (openEnd n) else .panic "create: dirlink").All Gentle := by
      refine ⟨trivial, fun r => ?_⟩
      cases r with
      | none => exact ⟨trivial, trivial, trivial, trivial, trivial, trivial, gentle_openEnd n⟩
      | some j => simp [Code.All, Gentle, Calls.iput]
    have hpost := Post.of_all (p := p) (I := Linked n) hall
      (s := { s with disk :=
        { s.disk with
          major := update s.disk.major n 0
          minor := update s.disk.minor n 0
          nlink := update s.disk.nlink n 1 } }) ⟨?_, ?_⟩
      fun s c m b t k hc hi ha => hi.act hc ha
    · intro y r hr
      exact ⟨n, by rw [← h.disk]; exact hn.1, (hpost y r hr).1.1⟩
    · simp [hs, Disk.make, T_FILE]
    · simp
  · cases ha
    exact .panic

def Creates (x : St P) (cwd : ℕ) : Call → Prop
  | .open (some path) true _ => ∃ dp nm,
      walk x.disk true path.elems (start cwd path) = some (dp, nm) ∧ x.disk.find dp nm = none
  | _ => False

def Call.names : Call → Bool
  | .open _ _ _ => true
  | .link _ _ => true
  | .unlink _ => true
  | .mkdir _ => true
  | .mknod _ _ _ => true
  | .chdir _ => true
  | _ => false

variable {a : Call}

theorem post_names (hx : NoOrphan x p) (hu : ∀ f, (x.file f).ref = 0 → (x.file f).ip = none)
    (hcwd : x.cwd p = some cwd) (ha : a.names) (hcr : ¬ Creates x cwd a) :
    Post p x (a.code cwd) (Failing x p) := by
  have h := Quiet.refl x p
  have hbad : Post p x (.ret (-1)) (Failing x p) := .ret fun _ => h.same
  cases a with
  | «open» path creat rdonly =>
    cases path with
    | none => exact hbad
    | some path =>
      refine .beginOp h fun s h => ?_
      cases creat with
      | true =>
        rw [if_pos rfl]
        refine post_create hx hcwd h (fun s h => post_fail h)
          (fun ip s h _ => post_openEnd hx hu h) fun dp nm s hw hf _ => ?_
        exact absurd ⟨dp, nm, hw, hf⟩ hcr
      | false =>
        rw [if_neg Bool.false_ne_true]
        refine .namex hx hcwd h (fun _ s h => post_fail h) fun ip nm _ s h => .ilock h fun s h =>
          .type h ?_
        split_ifs
        · exact .iunlockput hx h fun s h => post_fail h
        · exact post_openEnd hx hu h
  | link old new =>
    cases old with
    | none => exact hbad
    | some old =>
      cases new with
      | none => exact hbad
      | some new => exact post_sysLink hx hcwd h old new
  | unlink path =>
    cases path with
    | none => exact hbad
    | some path => exact post_sysUnlink hx hcwd h path
  | mkdir path | mknod path major minor => exact post_sysMake hx hcwd h path (by decide)
  | chdir path => exact post_sysChdir hx hcwd h path
  | _ => cases ha

theorem post_creates (hx : NoOrphan x p) (hcwd : x.cwd p = some cwd) (hcr : Creates x cwd a) :
    Post p x (a.code cwd) fun y _ => ∃ n, x.disk.type n = 0 ∧ y.disk.type n ≠ 0 := by
  cases a with
  | «open» path creat rdonly =>
    cases path with
    | none => exact hcr.elim
    | some path =>
      cases creat with
      | false => exact hcr.elim
      | true =>
        obtain ⟨dp, nm, hw, hf⟩ := hcr
        refine .beginOp (Quiet.refl x p) fun s h => ?_
        rw [if_pos rfl]
        refine .namex hx hcwd h (fun hno => ?_) fun dp' nm' hw' s h => .ilock h fun s h => ?_
        · rw [hw] at hno
          cases hno
        · rw [hw] at hw'
          cases hw'
          refine .look h (fun _ => post_createNew h) fun ip s hf' _ => ?_
          rw [hf] at hf'
          cases hf'
  | _ => exact hcr.elim

/-- A call on names that returns -1 has changed nothing, except for an `open` that creates its
  file. -/
theorem failed_changes_nothing [Fintype P] {disk : Disk} {p0 : P} {x : Sys P}
    (h : Reach Sys.step (fun _ _ => True) (boot disk p0) x) (hx : NoOrphan x.st p)
    (hcwd : x.st.cwd p = some cwd) (ha : a.names) (hy : Runs p x.st (a.code cwd) y (-1)) :
    Same x.st y p ↔ ¬ Creates x.st cwd a := by
  have htables := (Inv.of_reach h).books.tables
  have hu : ∀ f, (x.st.file f).ref = 0 → (x.st.file f).ip = none := by
    intro f hf
    rcases hip : (x.st.file f).ip with _ | i
    · rfl
    · have hpos := htables.used f i hip
      omega
  constructor
  · intro hsame hcr
    obtain ⟨n, hfree, hused⟩ := post_creates hx hcwd hcr y (-1) hy
    exact hused ((hsame.type n).trans hfree)
  · intro hcr
    exact post_names hx hu hcwd ha hcr y (-1) hy rfl

/-- Open the root directory and copy the descriptor until there is none left. -/
def fillTable : List (Ev Bool) :=
  .start false (.open (some ⟨true, []⟩) false true) :: replicate 10 (.run false 0 true) ++
    (replicate 15 [.start false (.dup (some ⟨0, by decide⟩)), .run false 0 true]).flatten

/-- All descriptors are taken: the new file is made and the call returns -1. -/
theorem open_creates_and_fails : ∃ (x : Sys Bool) (y : St Bool),
    Reach Sys.step (fun _ _ => True) (boot emptyRoot false) x ∧ (x.code false).idle = true ∧
    x.st.cwd false = some ROOTINO ∧
    Runs false x.st (Call.code ROOTINO (.open (some ⟨true, ["a"]⟩) true false)) y (-1) ∧
    x.st.disk.find ROOTINO "a" = none ∧ y.disk.find ROOTINO "a" = some 2 ∧
    x.st.disk.type 2 = 0 ∧ y.disk.type 2 = T_FILE ∧ ¬ Same x.st y false := by
  have hrun : ((follow Sys.step (fun _ _ => True) (boot emptyRoot false) fillTable).bind fun x =>
    (solo false 2 true 60 x.st
      (Call.code ROOTINO (.open (some ⟨true, ["a"]⟩) true false))).map fun u =>
    (((x.code false).idle, x.st.cwd false, u.2),
      (x.st.disk.find ROOTINO "a", u.1.disk.find ROOTINO "a"),
      x.st.disk.type 2, u.1.disk.type 2)) =
    some ((true, some ROOTINO, -1), (none, some 2), 0, T_FILE) := by decide +kernel
  obtain ⟨x, hx, hrest⟩ := Option.bind_eq_some_iff.mp hrun
  obtain ⟨⟨y, r⟩, hy, hobs⟩ := Option.map_eq_some_iff.mp hrest
  simp only [Prod.mk.injEq] at hobs
  obtain ⟨⟨hidle, hcwd, rfl⟩, ⟨hfind, hfind'⟩, htype, htype'⟩ := hobs
  refine ⟨x, y, reach_of_follow _ hx, hidle, hcwd, runs_of_solo hy, hfind, hfind', htype, htype',
    fun hsame => ?_⟩
  have hsame := hsame.type 2
  rw [htype, htype'] at hsame
  exact absurd hsame (by decide)

/-- A change to a directory that is not there. -/
theorem failed_changes_nothing_chdir : ∃ y : St Bool,
    Runs false (boot emptyRoot false).st (Call.code ROOTINO (.chdir (some ⟨true, ["a"]⟩))) y (-1) ∧
    Same (boot emptyRoot false).st y false := by
  have hrun : (solo false 0 true 60 (boot emptyRoot false).st
      (Call.code ROOTINO (.chdir (some ⟨true, ["a"]⟩)))).map (·.2) = some (-1) := by decide +kernel
  obtain ⟨⟨y, r⟩, hy, rfl⟩ := Option.map_eq_some_iff.mp hrun
  have hruns := runs_of_solo hy
  have horphan : NoOrphan (boot emptyRoot false).st false := by
    intro i _ ht hn
    simp only [boot, emptyRoot] at ht hn ⊢
    split_ifs at ht hn ⊢ with hi
    · decide
    · exact absurd rfl ht
  exact ⟨y, hruns, (failed_changes_nothing Relation.ReflTransGen.refl horphan rfl rfl hruns).mpr
    fun hcr => hcr⟩

end Xv6.Fs.Calls

import Xv6.Fs.Dir

/-! @src fs.c, sysfile.c, file.c | part:block ownership over whole calls | scheme:prog

  The calls that allocate and free blocks and inodes: `ialloc`, `iput` of a last reference, and over
  them `create`, `link`, `unlink` and writes to files, each from the point where its path has been
  resolved. Between transactions `inode` is what is on disk, because `writei` lets `bmap` allocate
  only where it extends the file, and then calls `iupdate`.

      create -> ialloc · iupdate · dirlink -> writei -> bmap -> balloc
      unlink -> writei · iupdate · iput -> itrunc -> bfree -/

namespace Xv6.Fs
open List
open Schemes Prog
open Function

variable (sb : Super) (devsw : Devsw)

/-! ### The calls -/

def ilock (i : ℕ) : K Unit := do
  modify fun s => { s with inode := update s.inode i (s.dinode i) }
  let s ← get
  if (s.inode i).type = 0 then stop "ilock: no type" else pure ()

/-- Set fields of an inode that are not about its blocks, and write it to disk. -/
def setMeta (i : ℕ) (major minor nlink : ℤ → ℤ) : K Unit := do
  setInode i fun d => { d with major := major d.major, minor := minor d.minor, nlink := nlink d.nlink }
  iupdate i

def addLink (i : ℕ) (n : ℤ) : K Unit := setMeta i id id (· + n)

def fresh (type : ℕ) : Dinode := ⟨type, 0, 0, 0, 0, fun _ => 0⟩

def ialloc (ninodes type : ℕ) : K ℕ := do
  let s ← get
  match (range' 1 (ninodes - 1)).find? (fun n => (s.dinode n).type = 0) with
  | some n =>
    modify fun s => { s with dinode := update s.dinode n (fresh type) }
    pure n
  | none => stop "ialloc: no inodes"

/-- Drop a reference, the last one if `last`; a free inode is not valid, so it is not freed again. -/
def iput (i : ℕ) (last : Bool) : K Unit := do
  let s ← get
  if (s.inode i).type ≠ 0 ∧ (s.inode i).nlink = 0 ∧ last = true then
    itrunc i
    setInode i fun d => { d with type := 0 }
    iupdate i
  else pure ()

def dirlinkPut (last : ℕ → Bool) (dp : ℕ) (name : CStr) (inum : ℕ) : K Bool := do
  match ← dirlookup sb devsw dp name with
  | some (e, _) =>
    iput e (last e)
    pure false
  | none => dirlink sb devsw dp name inum

def whenDir (type : ℕ) (m : K Unit) : K Unit := if type = T_DIR then m else pure ()

def createDots (dp ip : ℕ) : K Unit := do
  addLink dp 1
  if ← dirlink sb devsw ip [46] ip then
    if ← dirlink sb devsw ip [46, 46] dp then pure () else stop "create dots"
  else stop "create dots"

def createNew (ninodes : ℕ) (dp : ℕ) (name : CStr) (type : ℕ) (major minor : ℤ) : K Unit := do
  let ip ← ialloc ninodes type
  ilock ip
  setMeta ip (fun _ => major) (fun _ => minor) fun _ => 1
  whenDir type (createDots sb devsw dp ip)
  if ← dirlink sb devsw dp name ip then pure () else stop "create: dirlink"

/-- `create` in the directory `dp`; `last i` says whether `iput(i)` drops the last reference. -/
def create (ninodes : ℕ) (last : ℕ → Bool) (dp : ℕ) (name : CStr) (type : ℕ) (major minor : ℤ) :
    K Unit := do
  ilock dp
  match ← dirlookup sb devsw dp name with
  | some (ip, _) =>
    iput dp (last dp)
    ilock ip
    let s ← get
    if type = T_FILE ∧ (s.inode ip).type = T_FILE then pure () else iput ip (last ip)
  | none =>
    createNew sb devsw ninodes dp name type major minor
    iput dp (last dp)

def link (last : ℕ → Bool) (ip dp : ℕ) (name : CStr) : K Unit := do
  ilock ip
  let s ← get
  if (s.inode ip).type = T_DIR then iput ip (last ip)
  else
    addLink ip 1
    ilock dp
    if ← dirlinkPut sb devsw last dp name ip then
      iput dp (last dp)
      iput ip (last ip)
    else
      iput dp (last dp)
      ilock ip
      addLink ip (-1)
      iput ip (last ip)

def isdiremptyLoop (dp : ℕ) : ℕ → ℕ → K Bool
  | 0, _ => pure true
  | turns + 1, off => do
    let s ← get
    if off < (s.inode dp).size then
      let de ← readDirent sb devsw dp off "isdirempty: readi"
      if de.inum = 0 then isdiremptyLoop dp turns (off + DESIZE) else pure false
    else pure true

def isdirempty (dp : ℕ) : K Bool := do
  let s ← get
  isdiremptyLoop sb devsw dp ((s.inode dp).size / DESIZE + 1) (2 * DESIZE)

def busyDir (ip : ℕ) : K Bool := do
  let s ← get
  if (s.inode ip).type = T_DIR then
    let e ← isdirempty sb devsw ip
    pure !e
  else pure false

/-- `sys_unlink` once the entry at `off` has been found to name `ip`. -/
def unlinkAt (last : ℕ → Bool) (dp ip off : ℕ) : K Unit := do
  let s ← get
  if (s.inode ip).nlink < 1 then stop "unlink: nlink < 1"
  else if ← busyDir sb devsw ip then
    iput ip (last ip)
    iput dp (last dp)
  else
    writeDirent sb devsw dp off (replicate DESIZE 0) "unlink: writei"
    whenDir (s.inode ip).type (addLink dp (-1))
    iput dp (last dp)
    addLink ip (-1)
    iput ip (last ip)

def unlink (last : ℕ → Bool) (dp : ℕ) (name : CStr) : K Unit := do
  ilock dp
  if namecmp name [46] = 0 ∨ namecmp name [46, 46] = 0 then iput dp (last dp)
  else
    match ← dirlookup sb devsw dp name with
    | none => iput dp (last dp)
    | some (ip, off) =>
      ilock ip
      unlinkAt sb devsw last dp ip off

inductive Op where
  | write (i off : ℕ) (src : List UInt8)
  | create (dp : ℕ) (name : CStr) (type : ℕ) (major minor : ℤ)
  | link (ip dp : ℕ) (name : CStr)
  | unlink (dp : ℕ) (name : CStr)
  | put (i : ℕ)

/-- `last i` says whether the references dropped to inode `i` are the last ones. -/
def Op.run (ninodes : ℕ) (last : ℕ → Bool) : Op → K Unit
  | .write i off src => do
    ilock i
    let _ ← writei sb devsw i off src
    pure ()
  | .create dp name type major minor => Fs.create sb devsw ninodes last dp name type major minor
  | .link ip dp name => Fs.link sb devsw last ip dp name
  | .unlink dp name => Fs.unlink sb devsw last dp name
  | .put i => iput i (last i)

/-- Arguments of the sizes the code has: a write is of fewer than 2³² bytes. -/
def Op.Proper : Op → Prop
  | .write _ _ src => src.length < 2 ^ 32
  | _ => True

def runOps (ninodes : ℕ) : List ((ℕ → Bool) × Op) → K Unit
  | [] => pure ()
  | (last, op) :: ops => do
    op.run sb devsw ninodes last
    runOps ninodes ops

/-! ### What survives a transaction -/

variable {sb devsw} {s s' : St} {i j dp : ℕ}

/-- Between transactions: blocks are owned, and the inodes in memory are those on disk. -/
structure Sane (sb : Super) (s : St) : Prop where
  owned : Owned sb s
  synced : ∀ i, s.dinode i = s.inode i

structure Kept (sb : Super) (s s' : St) : Prop where
  sane : Sane sb s'
  live : ∀ j, Live s j → Live s' j

def NotTwice (msg : String) : Prop := msg ≠ "freeing free block"

variable {msg : String}

theorem OutOfBlocks.notTwice (h : OutOfBlocks msg) : NotTwice msg := by
  rw [OutOfBlocks] at h
  rw [NotTwice, h]
  decide

theorem stop_ends {α : Type} {Q : α → St → Prop} (h : NotTwice msg) :
    Prog.Ends NotTwice s (stop msg) Q := h

theorem Kept.refl (h : Sane sb s) : Kept sb s s := ⟨h, fun _ hj => hj⟩

theorem Kept.trans {u : St} (h : Kept sb s s') (h' : Kept sb s' u) : Kept sb s u :=
  ⟨h'.sane, fun j hj => h'.live j (h.live j hj)⟩

theorem readi_same (devsw : Devsw) (h : Owned sb s) (hi : Live s i) (off n : ℕ) :
    ∃ r, readi sb devsw i off n s = (.ok r, s) := by
  simp only [readi, bind_apply, get_apply]
  by_cases hdev : (s.inode i).type = T_DEV
  · rw [if_pos hdev]
    split_ifs with hmajor
    · exact ⟨_, rfl⟩
    · exact ⟨_, rfl⟩
  · rw [if_neg hdev]
    by_cases hoff : off > (s.inode i).size ∨ (off + n) % 2 ^ 32 < off
    · rw [if_pos hoff]
      exact ⟨_, rfl⟩
    · have hle : off + (if off + n > (s.inode i).size then (s.inode i).size - off else n) ≤
          (s.inode i).size := by
        split_ifs with hclip <;> omega
      rw [if_neg hoff, bind_apply, readLoop_run h hi _ off _ hle le_rfl]
      exact ⟨_, rfl⟩

theorem readDirent_same (h : Sane sb s) (hi : Live s dp) (off : ℕ) (hmsg : NotTwice msg) :
    Prog.Ends NotTwice s (readDirent sb devsw dp off msg) fun _ s' => s' = s := by
  obtain ⟨r, hr⟩ := readi_same devsw h.owned hi off DESIZE
  refine .ok_bind hr ?_
  cases r with
  | none => exact stop_ends hmsg
  | some bs =>
    dsimp only
    split_ifs with hlen
    · exact .ok rfl rfl
    · exact stop_ends hmsg

theorem dirlookupLoop_same (h : Sane sb s) (hi : Live s dp) (name : CStr) : ∀ turns off : ℕ,
    Prog.Ends NotTwice s (dirlookupLoop sb devsw dp name turns off) fun _ s' => s' = s
  | 0, _ => .ok rfl rfl
  | turns + 1, off => by
    refine .ok_bind rfl ?_
    split_ifs with hlt
    · refine (readDirent_same h hi off (by simp [NotTwice])).bind fun de s' hs => ?_
      rw [hs]
      split_ifs with h0 hname
      · exact dirlookupLoop_same h hi name turns (off + DESIZE)
      · exact .ok rfl rfl
      · exact dirlookupLoop_same h hi name turns (off + DESIZE)
    · exact .ok rfl rfl

theorem dirlookup_same (h : Sane sb s) (name : CStr) :
    Prog.Ends NotTwice s (dirlookup sb devsw dp name) fun _ s' => s' = s := by
  refine .ok_bind rfl ?_
  split_ifs with hdir
  · exact dirlookupLoop_same h (by rw [Live, hdir]; decide) name _ 0
  · exact stop_ends (by simp [NotTwice])

theorem emptyLoop_same (h : Sane sb s) (hi : Live s dp) : ∀ turns off : ℕ,
    Prog.Ends NotTwice s (emptyLoop sb devsw dp turns off) fun _ s' => s' = s
  | 0, _ => .ok rfl rfl
  | turns + 1, off => by
    refine .ok_bind rfl ?_
    split_ifs with hlt
    · refine (readDirent_same h hi off (by simp [NotTwice])).bind fun de s' hs => ?_
      rw [hs]
      split_ifs with h0
      · exact .ok rfl rfl
      · exact emptyLoop_same h hi turns (off + DESIZE)
    · exact .ok rfl rfl

theorem isdiremptyLoop_same (h : Sane sb s) (hi : Live s dp) : ∀ turns off : ℕ,
    Prog.Ends NotTwice s (isdiremptyLoop sb devsw dp turns off) fun _ s' => s' = s
  | 0, _ => .ok rfl rfl
  | turns + 1, off => by
    refine .ok_bind rfl ?_
    split_ifs with hlt
    · refine (readDirent_same h hi off (by simp [NotTwice])).bind fun de s' hs => ?_
      rw [hs]
      split_ifs with h0
      · exact isdiremptyLoop_same h hi turns (off + DESIZE)
      · exact .ok rfl rfl
    · exact .ok rfl rfl

theorem busyDir_same (h : Sane sb s) (hi : Live s i) :
    Prog.Ends NotTwice s (busyDir sb devsw i) fun _ s' => s' = s := by
  refine .ok_bind rfl ?_
  split_ifs with hdir
  · refine Prog.Ends.bind (.ok_bind rfl (isdiremptyLoop_same h hi _ _)) ?_
    rintro e _ rfl
    exact .ok rfl rfl
  · exact .ok rfl rfl

/-! ### Writing -/

def Aside (i : ℕ) (s s' : St) : Prop := s'.dinode = s.dinode ∧ ∀ j, j ≠ i → s'.inode j = s.inode j

theorem Aside.refl : Aside i s s := ⟨rfl, fun _ _ => rfl⟩

theorem Aside.trans {u : St} (h : Aside i s s') (h' : Aside i s' u) : Aside i s u :=
  ⟨h'.1.trans h.1, fun j hj => (h'.2 j hj).trans (h.2 j hj)⟩

theorem addrAlloc_aside (s : St) (i k : ℕ) :
    Prog.Ends OutOfBlocks s (addrAlloc sb i k) fun _ s' => Aside i s s' := by
  refine .ok_bind rfl ?_
  split_ifs with hempty
  · refine (balloc_ends s).bind ?_
    rintro b _ ⟨-, -, rfl⟩
    exact .ok rfl ⟨rfl, fun j hj => update_of_ne hj _ _⟩
  · exact .ok rfl .refl

theorem entryAlloc_aside (s : St) (i r k : ℕ) :
    Prog.Ends OutOfBlocks s (entryAlloc sb r k) fun _ s' => Aside i s s' := by
  refine .ok_bind rfl ?_
  split_ifs with hempty
  · refine (balloc_ends s).bind ?_
    rintro b _ ⟨-, -, rfl⟩
    exact .ok rfl ⟨rfl, fun _ _ => rfl⟩
  · exact .ok rfl .refl

theorem bmap_aside (s : St) (i bn : ℕ) :
    Prog.Ends (fun _ => True) s (bmap sb i bn) fun _ s' => Aside i s s' := by
  have hweak : ∀ msg, OutOfBlocks msg → True := fun _ _ => trivial
  unfold bmap
  split_ifs with hd hind
  · exact (addrAlloc_aside s i bn).mono hweak fun _ _ h => h
  · refine ((addrAlloc_aside s i NDIRECT).mono hweak fun _ _ h => h).bind fun r s1 h1 => ?_
    exact (entryAlloc_aside s1 i r _).mono hweak fun _ _ h => h1.trans h
  · trivial

theorem writeLoop_aside (i : ℕ) : ∀ (turns : ℕ) (s : St) (off : ℕ) (src : List UInt8),
    Prog.Ends (fun _ => True) s (writeLoop sb i turns off src) fun _ s' => Aside i s s'
  | 0, _, _, _ => .ok rfl .refl
  | turns + 1, s, off, src => by
    unfold writeLoop
    split_ifs with hnil
    · exact .ok rfl .refl
    · refine (bmap_aside s i (off / BSIZE)).bind fun b s1 h1 => ?_
      refine .ok_bind rfl (.ok_bind rfl ?_)
      refine (writeLoop_aside i turns _ _ _).post fun _ u hu => ?_
      exact h1.trans ⟨hu.1, fun j hj => hu.2 j hj⟩

theorem writeLoop_within : ∀ (turns : ℕ) (s : St) (off : ℕ) (src : List UInt8), Owned sb s → Live s i →
    off + src.length ≤ (s.inode i).size →
    Prog.Ends (fun _ => True) s (writeLoop sb i turns off src) fun _ s' => s'.inode = s.inode
  | 0, _, _, _, _, _, _ => .ok rfl rfl
  | turns + 1, s, off, src, h, hi, hle => by
    unfold writeLoop
    split_ifs with hnil
    · exact .ok rfl rfl
    · have hpos : 0 < src.length := length_pos_iff.mpr hnil
      have hlt : off / BSIZE * BSIZE < (s.inode i).size :=
        (Nat.div_mul_le_self off BSIZE).trans_lt (by omega)
      have hbn := h.lt_maxfile hi hlt
      refine .ok_bind (bmap_old hbn (h.full i _ hi hlt)) (.ok_bind rfl (.ok_bind rfl ?_))
      have hchunk := (chunk_le off src.length).1
      refine writeLoop_within turns (withData s (name s (.blk i (off / BSIZE))) _) _ _
        (h.withData ⟨hi, hbn⟩ _) hi ?_
      have hsize : ((withData s (name s (.blk i (off / BSIZE))) (store (s.data (name s (.blk i
        (off / BSIZE)))) (off % BSIZE) (src.take (chunk off src.length)))).inode i).size =
        (s.inode i).size := rfl
      rw [hsize, length_drop]
      omega

theorem writei_kept (h : Sane sb s) (hi : Live s i) (off : ℕ) {src : List UInt8}
    (hn : src.length < 2 ^ 32) :
    Prog.Ends NotTwice s (writei sb devsw i off src) fun _ s' => Kept sb s s' := by
  by_cases hdev : (s.inode i).type = T_DEV
  · refine .ok_bind rfl ?_
    rw [if_pos hdev]
    split_ifs with hmajor
    · exact .ok rfl (.refl h)
    · exact .ok rfl (.refl h)
  by_cases hoff : off > (s.inode i).size
  · refine .ok_bind rfl ?_
    rw [if_neg hdev, if_pos (.inl hoff)]
    exact .ok rfl (.refl h)
  have ho : off < 2 ^ 32 := by
    have := h.owned.bound i hi
    have : MAXFILE * BSIZE < 2 ^ 32 := by decide
    omega
  have hsync : Prog.Ends (fun _ => True) s (writei sb devsw i off src)
      fun _ s' => ∀ j, s'.dinode j = s'.inode j := by
    refine .ok_bind rfl ?_
    rw [if_neg hdev]
    split_ifs with hlow hhigh hgrow
    · exact .ok rfl h.synced
    · exact .ok rfl h.synced
    · refine (writeLoop_aside i src.length s off src).bind fun _ s1 h1 => ?_
      refine .ok rfl fun j => ?_
      by_cases hj : j = i
      · simp [hj]
      · simp [hj, h1.1, h1.2 j hj, h.synced]
    · -- the write is empty or ends inside the file
      refine ((writeLoop_aside i src.length s off src).and
        (writeLoop_within src.length s off src h.owned hi (by omega))).bind ?_
      rintro _ s1 ⟨haside, hinode⟩
      refine .ok rfl fun j => ?_
      rw [haside.1, hinode]
      exact h.synced j
  refine ((writei_ends h.owned hi hdev ho hn).and hsync).mono (fun _ he => he.notTwice) ?_
  rintro r s1 ⟨href, hsynced⟩
  exact ⟨⟨href.owned, hsynced⟩, fun j hj => by rwa [Live, href.type]⟩

theorem writeDirent_kept (h : Sane sb s) (hi : Live s dp) (off : ℕ) {bs : List UInt8}
    (hn : bs.length < 2 ^ 32) (hmsg : NotTwice msg) :
    Prog.Ends NotTwice s (writeDirent sb devsw dp off bs msg) fun _ s' => Kept sb s s' := by
  refine (writei_kept h hi off hn).bind fun r s1 h1 => ?_
  split_ifs with hr
  · exact .ok rfl h1
  · exact stop_ends hmsg

theorem dirlink_kept (h : Sane sb s) (hi : Live s dp) (name : CStr) (inum : ℕ) :
    Prog.Ends NotTwice s (dirlink sb devsw dp name inum) fun _ s' => Kept sb s s' := by
  refine (dirlookup_same h name).bind fun r s1 hs => ?_
  rw [hs]
  cases r with
  | some e => exact .ok rfl (.refl h)
  | none =>
    refine .ok_bind rfl ((emptyLoop_same h hi _ 0).bind fun off s2 hs2 => ?_)
    rw [hs2]
    have hlen : (Dirent.bytes ⟨inum, strncpy name DIRSIZ⟩).length < 2 ^ 32 := by
      rw [length_direntBytes]
      decide
    refine (writeDirent_kept h hi off hlen (by simp [NotTwice])).bind fun _ s3 h3 => ?_
    exact .ok rfl h3

/-! ### Inodes -/

theorem ilock_ends (h : Sane sb s) (i : ℕ) :
    Prog.Ends NotTwice s (ilock i) fun _ s' => s' = s ∧ Live s i := by
  have hload : { s with inode := update s.inode i (s.dinode i) } = s := by
    rw [h.synced i, update_eq_self]
  refine .ok_bind (congrArg (Prod.mk (Except.ok ())) hload) (.ok_bind rfl ?_)
  split_ifs with hfree
  · exact stop_ends (by simp [NotTwice])
  · exact .ok rfl ⟨rfl, hfree⟩

theorem Owned.congr (h : Owned sb s) (hdata : s'.data = s.data) (hused : s'.used = s.used)
    (htype : ∀ j, (s'.inode j).type = (s.inode j).type)
    (hsize : ∀ j, (s'.inode j).size = (s.inode j).size)
    (haddrs : ∀ j, (s'.inode j).addrs = (s.inode j).addrs) : Owned sb s' := by
  have hname : ∀ t, name s' t = name s t := by
    intro t
    cases t with
    | root j => rw [name, name, haddrs]
    | blk j bn => simp only [name, haddrs, hdata]
  have hvalid := valid_of_type htype
  have hlive : ∀ j, Live s' j ↔ Live s j := fun j => by rw [Live, Live, htype]
  refine ⟨fun t t' ht ht' => ?_, fun t ht => ?_, fun b hb => ?_, fun j bn hj => ?_, fun j hj => ?_⟩
  · rw [hname, hname]
    exact h.inj t t' ((hvalid t).mp ht) ((hvalid t').mp ht')
  · rw [hname]
    exact h.area t ((hvalid t).mp ht)
  · rw [hused, h.used b hb]
    refine or_congr_right (exists_congr fun t => ?_)
    rw [hvalid, hname]
  · rw [hsize, hname]
    exact h.full j bn ((hlive j).mp hj)
  · rw [hsize]
    exact h.bound j ((hlive j).mp hj)

theorem setMeta_kept (h : Sane sb s) (i : ℕ) (major minor nlink : ℤ → ℤ) :
    Prog.Ends NotTwice s (setMeta i major minor nlink) fun _ s' => Kept sb s s' := by
  have hfield : ∀ {β : Type} (f : Dinode → β) (d : Dinode), f d = f (s.inode i) →
      ∀ j, f (update s.inode i d j) = f (s.inode j) := by
    intro β f d hd j
    by_cases hj : j = i
    · rw [hj, update_self, hd]
    · rw [update_of_ne hj]
  refine .ok rfl ⟨⟨h.owned.congr rfl rfl (hfield Dinode.type _ rfl) (hfield Dinode.size _ rfl)
    (hfield Dinode.addrs _ rfl), fun j => ?_⟩, fun j hj hj0 => ?_⟩
  · by_cases hj : j = i
    · simp [hj]
    · simp [hj, h.synced]
  · exact hj (Eq.trans (Eq.symm (hfield Dinode.type _ (by rfl) j)) hj0)

theorem Owned.blank (h : Owned sb s) (hdata : s'.data = s.data) (hused : s'.used = s.used)
    (hother : ∀ j, j ≠ i → s'.inode j = s.inode j)
    (hold : ∀ t, t.inum = i → Valid s t → name s t = 0)
    (hsize : (s'.inode i).size = 0) (haddrs : ∀ k, k ≤ NDIRECT → (s'.inode i).addrs k = 0) :
    Owned sb s' := by
  have hself : ∀ t : Slot, t.inum = i → name s' t = 0 := by
    intro t ht
    cases t with
    | root j =>
      obtain rfl : j = i := ht
      exact haddrs _ le_rfl
    | blk j bn =>
      obtain rfl : j = i := ht
      by_cases hd : bn < NDIRECT
      · rw [name_direct hd, haddrs bn hd.le]
      · rw [name_indirect hd, haddrs _ le_rfl, if_pos rfl]
  have hrest : ∀ t : Slot, t.inum ≠ i → name s' t = name s t ∧ (Valid s' t ↔ Valid s t) := by
    intro t ht
    cases t with
    | root j => simp [name, Valid, Live, hother j ht]
    | blk j bn => simp [name, Valid, Live, hother j ht, hdata]
  -- a slot that names a block is one of another inode
  have hne : ∀ t, name s' t ≠ 0 → t.inum ≠ i := fun t hn ht => hn (hself t ht)
  refine ⟨fun t t' ht ht' hn heq => ?_, fun t ht hn => ?_, fun b hb => ?_, fun j bn hj hlt => ?_,
    fun j hj => ?_⟩
  · have ht1 := hrest t (hne t hn)
    have ht2 := hrest t' (hne t' (heq ▸ hn))
    rw [ht1.1] at hn heq
    rw [ht2.1] at heq
    exact h.inj t t' (ht1.2.mp ht) (ht2.2.mp ht') hn heq
  · have ht1 := hrest t (hne t hn)
    rw [ht1.1] at hn ⊢
    exact h.area t (ht1.2.mp ht) hn
  · rw [hused, h.used b hb]
    by_cases hb0 : b = 0
    · have hmeta : b < sb.nmeta := hb0 ▸ sb.nmeta_pos
      exact ⟨fun _ => .inl hmeta, fun _ => .inl hmeta⟩
    · refine or_congr_right (exists_congr fun t => ?_)
      by_cases ht : t.inum = i
      · exact ⟨fun h => absurd (h.2.symm.trans (hold t ht h.1)) hb0,
          fun h => absurd (h.2.symm.trans (hself t ht)) hb0⟩
      · rw [(hrest t ht).1, (hrest t ht).2]
  · have hji : j ≠ i := by
      rintro rfl
      omega
    have hj' : Live s j := by rwa [Live, ← hother j hji]
    rw [(hrest (.blk j bn) hji).1]
    exact h.full j bn hj' (by rwa [← hother j hji])
  · by_cases hji : j = i
    · rw [hji, hsize]
      exact Nat.zero_le _
    · rw [hother j hji]
      exact h.bound j (by rwa [Live, ← hother j hji])

theorem ialloc_ends (s : St) (ninodes type : ℕ) : Prog.Ends NotTwice s (ialloc ninodes type)
    fun n s' => (s.dinode n).type = 0 ∧
      s' = { s with dinode := update s.dinode n (fresh type) } := by
  refine .ok_bind rfl ?_
  cases hf : (range' 1 (ninodes - 1)).find? fun n => (s.dinode n).type = 0 with
  | none => exact stop_ends (by simp [NotTwice])
  | some n =>
    have htest := List.find?_some hf
    exact .ok rfl ⟨of_decide_eq_true htest, rfl⟩

theorem ilock_fresh (h : Sane sb s) {n : ℕ} (hn : (s.dinode n).type = 0) (type : ℕ) :
    Prog.Ends NotTwice { s with dinode := update s.dinode n (fresh type) } (ilock n)
      fun _ s' => Kept sb s s' ∧ Live s' n := by
  have hdead : ¬ Live s n := fun hlive => hlive (by rw [← h.synced, hn])
  refine .ok_bind rfl (.ok_bind rfl ?_)
  split_ifs with hfree
  · exact stop_ends (by simp [NotTwice])
  · refine .ok rfl ⟨⟨⟨?_, fun j => ?_⟩, fun j hj => ?_⟩, hfree⟩
    · refine h.owned.blank (i := n) rfl rfl (fun j hj => update_of_ne hj _ _)
        (fun t ht hv => absurd (ht ▸ hv.live) hdead) ?_ fun k _ => ?_
      · simp [fresh]
      · simp [fresh]
    · by_cases hj : j = n
      · simp [hj]
      · simp [hj, h.synced]
    · have hjn : j ≠ n := by
        rintro rfl
        exact hdead hj
      simpa [Live, hjn] using hj

theorem iput_sane (h : Sane sb s) (i : ℕ) (last : Bool) :
    Prog.Ends NotTwice s (iput i last) fun _ s' => Sane sb s' := by
  refine .ok_bind rfl ?_
  split_ifs with hgo
  · have hown := h.owned.truncated hgo.1
    refine .ok_bind (itrunc_run (h.owned.freeable hgo.1)) (.ok rfl ⟨?_, fun j => ?_⟩)
    · refine hown.blank (i := i) rfl rfl (fun j hj => ?_) (fun t ht hv => ?_) ?_ fun k hk => ?_
      · exact update_of_ne hj _ _
      · rw [name_truncated ((valid_of_type (truncated_type s i) t).mp hv), if_pos ht]
      · simp [truncated, emptied]
      · simp [truncated, emptied, cleared, Nat.lt_succ_of_le hk]
    · by_cases hj : j = i
      · simp [hj]
      · simp [hj, truncated, h.synced]
  · exact .ok rfl h

/-! ### Whole calls -/

theorem dirlinkPut_sane (h : Sane sb s) (hi : Live s dp) (last : ℕ → Bool) (name : CStr) (inum : ℕ) :
    Prog.Ends NotTwice s (dirlinkPut sb devsw last dp name inum) fun _ s' => Sane sb s' := by
  refine (dirlookup_same h name).bind fun r s1 hs => ?_
  rw [hs]
  cases r with
  | none => exact (dirlink_kept h hi name inum).post fun _ _ hk => hk.sane
  | some e => exact (iput_sane h e.1 _).bind fun _ _ h1 => .ok rfl h1

theorem whenDir_kept (h : Sane sb s) (type : ℕ) {m : K Unit}
    (hm : Prog.Ends NotTwice s m fun _ s' => Kept sb s s') :
    Prog.Ends NotTwice s (whenDir type m) fun _ s' => Kept sb s s' := by
  unfold whenDir
  split_ifs with hdir
  · exact hm
  · exact .ok rfl (.refl h)

theorem createDots_kept (h : Sane sb s) {ip : ℕ} (hip : Live s ip) :
    Prog.Ends NotTwice s (createDots sb devsw dp ip) fun _ s' => Kept sb s s' := by
  refine (setMeta_kept h dp _ _ _).bind fun _ s1 h1 => ?_
  refine (dirlink_kept h1.sane (h1.live ip hip) _ _).bind fun ok s2 h2 => ?_
  have h12 := h1.trans h2
  split_ifs with hok
  · refine (dirlink_kept h2.sane (h12.live ip hip) _ _).bind fun ok' s3 h3 => ?_
    split_ifs with hok'
    · exact .ok rfl (h12.trans h3)
    · exact stop_ends (by simp [NotTwice])
  · exact stop_ends (by simp [NotTwice])

theorem createNew_kept (h : Sane sb s) (hdp : Live s dp) (ninodes : ℕ) (name : CStr) (type : ℕ)
    (major minor : ℤ) : Prog.Ends NotTwice s (createNew sb devsw ninodes dp name type major minor)
      fun _ s' => Kept sb s s' := by
  refine (ialloc_ends s ninodes type).bind ?_
  rintro ip _ ⟨hfree, rfl⟩
  refine (ilock_fresh h hfree type).bind ?_
  rintro _ s1 ⟨h1, hip⟩
  refine (setMeta_kept h1.sane ip _ _ _).bind fun _ s2 h2 => ?_
  refine (whenDir_kept h2.sane type (createDots_kept h2.sane (h2.live ip hip))).bind fun _ s3 h3 => ?_
  have hall := (h1.trans h2).trans h3
  refine (dirlink_kept h3.sane (hall.live dp hdp) name ip).bind fun ok s4 h4 => ?_
  split_ifs with hok
  · exact .ok rfl (hall.trans h4)
  · exact stop_ends (by simp [NotTwice])

theorem create_sane (h : Sane sb s) (ninodes : ℕ) (last : ℕ → Bool) (dp : ℕ) (name : CStr) (type : ℕ)
    (major minor : ℤ) : Prog.Ends NotTwice s
      (create sb devsw ninodes last dp name type major minor) fun _ s' => Sane sb s' := by
  refine (ilock_ends h dp).bind ?_
  rintro _ _ ⟨rfl, hdp⟩
  refine (dirlookup_same h name).bind fun r s1 hs => ?_
  rw [hs]
  cases r with
  | some e =>
    refine (iput_sane h dp _).bind fun _ s2 h2 => (ilock_ends h2 e.1).bind ?_
    rintro _ _ ⟨rfl, -⟩
    refine .ok_bind rfl ?_
    split_ifs with hfile
    · exact .ok rfl h2
    · exact iput_sane h2 e.1 _
  | none =>
    refine (createNew_kept h hdp ninodes name type major minor).bind fun _ s2 h2 => ?_
    exact iput_sane h2.sane dp _

theorem link_sane (h : Sane sb s) (last : ℕ → Bool) (ip dp : ℕ) (name : CStr) :
    Prog.Ends NotTwice s (link sb devsw last ip dp name) fun _ s' => Sane sb s' := by
  refine (ilock_ends h ip).bind ?_
  rintro _ _ ⟨rfl, hip⟩
  refine .ok_bind rfl ?_
  split_ifs with hdir
  · exact iput_sane h ip _
  · refine (setMeta_kept h ip _ _ _).bind fun _ s1 h1 => (ilock_ends h1.sane dp).bind ?_
    rintro _ _ ⟨rfl, hdp⟩
    refine (dirlinkPut_sane h1.sane hdp last name ip).bind fun ok s2 h2 => ?_
    split_ifs with hok
    · exact (iput_sane h2 dp _).bind fun _ s3 h3 => iput_sane h3 ip _
    · refine (iput_sane h2 dp _).bind fun _ s3 h3 => (ilock_ends h3 ip).bind ?_
      rintro _ _ ⟨rfl, -⟩
      exact (setMeta_kept h3 ip _ _ _).bind fun _ s4 h4 => iput_sane h4.sane ip _

theorem unlinkAt_sane (h : Sane sb s) (last : ℕ → Bool) {ip : ℕ} (hdp : Live s dp) (hip : Live s ip)
    (off : ℕ) : Prog.Ends NotTwice s (unlinkAt sb devsw last dp ip off) fun _ s' => Sane sb s' := by
  refine .ok_bind rfl ?_
  split_ifs with hn
  · exact stop_ends (by simp [NotTwice])
  · refine (busyDir_same h hip).bind fun busy s1 hs => ?_
    rw [hs]
    by_cases hbusy : busy = true
    · rw [if_pos hbusy]
      exact (iput_sane h ip _).bind fun _ s2 h2 => iput_sane h2 dp _
    · rw [if_neg hbusy]
      have hlen : (replicate DESIZE (0 : UInt8)).length < 2 ^ 32 := by decide
      refine (writeDirent_kept h hdp off hlen (by simp [NotTwice])).bind fun _ s2 h2 => ?_
      refine (whenDir_kept h2.sane _ (setMeta_kept h2.sane dp _ _ _)).bind fun _ s3 h3 => ?_
      refine (iput_sane h3.sane dp _).bind fun _ s4 h4 => ?_
      exact (setMeta_kept h4 ip _ _ _).bind fun _ s5 h5 => iput_sane h5.sane ip _

theorem unlink_sane (h : Sane sb s) (last : ℕ → Bool) (dp : ℕ) (name : CStr) :
    Prog.Ends NotTwice s (unlink sb devsw last dp name) fun _ s' => Sane sb s' := by
  refine (ilock_ends h dp).bind ?_
  rintro _ _ ⟨rfl, hdp⟩
  split_ifs with hdots
  · exact iput_sane h dp _
  · refine (dirlookup_same h name).bind fun r s1 hs => ?_
    rw [hs]
    cases r with
    | none => exact iput_sane h dp _
    | some e =>
      refine (ilock_ends h e.1).bind ?_
      rintro _ _ ⟨rfl, hip⟩
      exact unlinkAt_sane h last hdp hip e.2

theorem Op.run_sane (h : Sane sb s) (ninodes : ℕ) (last : ℕ → Bool) : ∀ op : Op, op.Proper →
    Prog.Ends NotTwice s (op.run sb devsw ninodes last) fun _ s' => Sane sb s'
  | .write i off src, hn => by
    refine (ilock_ends h i).bind ?_
    rintro _ _ ⟨rfl, hi⟩
    exact (writei_kept h hi off hn).bind fun _ s1 h1 => .ok rfl h1.sane
  | .create dp name type major minor, _ => create_sane h ninodes last dp name type major minor
  | .link ip dp name, _ => link_sane h last ip dp name
  | .unlink dp name, _ => unlink_sane h last dp name
  | .put i, _ => iput_sane h i (last i)

theorem runOps_sane (ninodes : ℕ) : ∀ (ops : List ((ℕ → Bool) × Op)) (s : St), Sane sb s →
    (∀ op ∈ ops, op.2.Proper) →
    Prog.Ends NotTwice s (runOps sb devsw ninodes ops) fun _ s' => Sane sb s'
  | [], _, h, _ => .ok rfl h
  | (last, op) :: ops, s, h, hp => by
    refine (op.run_sane h ninodes last (hp _ mem_cons_self)).bind fun _ s1 h1 => ?_
    exact runOps_sane ninodes ops s1 h1 fun o ho => hp o (mem_cons_of_mem _ ho)

def onDisk (s : St) : St := { s with inode := s.dinode }

/-- Block ownership. From a consistent image, every sequence of writes, `create`, `link`, `unlink`
  and dropped references that ends leaves on disk: the blocks of all inodes in use all different and
  in the data area, the bitmap marking exactly these and the metadata blocks, and a block for every
  index below the size. No free block is freed, and afterwards `readi` changes nothing. -/
theorem blocks_stay_owned (sb : Super) (devsw : Devsw) (ninodes : ℕ) (s : St)
    (hdisk : Owned sb (onDisk s)) (hsync : ∀ i, s.dinode i = s.inode i)
    (ops : List ((ℕ → Bool) × Op)) (hops : ∀ op ∈ ops, op.2.Proper) :
    Prog.Ends (fun msg => msg ≠ "freeing free block") s (runOps sb devsw ninodes ops) fun _ s' =>
      Owned sb (onDisk s') ∧ (∀ i, s'.dinode i = s'.inode i) ∧
        ∀ i off n, (s'.dinode i).type ≠ 0 → ∃ r, readi sb devsw i off n s' = (.ok r, s') := by
  have hsame : ∀ {u : St}, (∀ i, u.dinode i = u.inode i) → onDisk u = u := by
    intro u hu
    exact congrArg (fun f => ({ u with inode := f } : St)) (funext hu)
  have hsane : Sane sb s := ⟨hsame hsync ▸ hdisk, hsync⟩
  refine (runOps_sane ninodes ops s hsane hops).post fun _ s' h' => ⟨?_, h'.synced, ?_⟩
  · rw [hsame h'.synced]
    exact h'.owned
  · intro i off n hi
    rw [h'.synced] at hi
    exact readi_same devsw h'.owned hi off n

/-- A file is created, written, linked under a second name and unlinked twice, the second time with its
  last reference. -/
def comeAndGo : List ((ℕ → Bool) × Op) :=
  [(fun _ => false, .create 1 [65] T_FILE 0 0), (fun _ => false, .write 2 0 [7, 8, 9]),
    (fun _ => false, .link 2 1 [66]), (fun _ => false, .unlink 1 [65]),
    (fun i => decide (i = 2), .unlink 1 [66])]

/-- The directory keeps its block, the block of the file is free again. -/
theorem blocks_stay_owned_come_and_go :
    ∃ s', runOps twentyBlocks noDevices 4 comeAndGo emptyDir = (.ok (), s') ∧
      Owned twentyBlocks (onDisk s') ∧ s'.used 10 = true ∧ s'.used 11 = false := by
  have hok : (runOps twentyBlocks noDevices 4 comeAndGo emptyDir).1.toOption = some () := by
    decide +kernel
  have hbits : (runOps twentyBlocks noDevices 4 comeAndGo emptyDir).2.used 10 = true ∧
      (runOps twentyBlocks noDevices 4 comeAndGo emptyDir).2.used 11 = false := by decide +kernel
  have hown : Owned twentyBlocks (onDisk emptyDir) := owned_emptyDir
  have hsync : ∀ i, emptyDir.dinode i = emptyDir.inode i := fun _ => rfl
  have hproper : ∀ op ∈ comeAndGo, op.2.Proper := by simp [comeAndGo, Op.Proper]
  -- from here on the run is not computed again
  generalize emptyDir = x at hok hbits hown hsync ⊢
  generalize comeAndGo = ops at hok hbits hproper ⊢
  obtain ⟨s', hrun, howned, -⟩ :=
    (blocks_stay_owned twentyBlocks noDevices 4 x hown hsync ops hproper).of_ok hok
  rw [hrun] at hbits
  exact ⟨s', hrun, howned, hbits⟩

end Xv6.Fs

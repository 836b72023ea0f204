import Xv6.Mkfs.Build

/-! @src mkfs.c, fs.c | part:the kernel reads the image | scheme:prog

  The image as the kernel finds it: the superblock says where the inodes and the bitmap are, and
  `dirlookup` and `readi` are the kernel's own. The root directory may have a hole past its entries,
  so the lookup is followed only as far as the entry it finds.

      name --dirlookup--> entry k + 2 of the root --> inode k + 2 --readi--> bytes of file k -/

namespace Xv6.Mkfs
open List
open Schemes Prog Xv6.Fs

/-- The file system of the image, by the fields of its superblock. -/
def Img.mounted (r : Img) : St :=
  let ninodes := le32 (r.sect 1) 8
  let inodestart := le32 (r.sect 1) 20
  let bmapstart := le32 (r.sect 1) 24
  let inode := fun i =>
    if i < ninodes then dinodeOf (window (r.sect (i / IPB + inodestart)) (DISIZE * (i % IPB)) DISIZE)
    else noInode
  { data := r.data
    used := fun b => bitAt (r.sect (b / (BSIZE * 8) + bmapstart)) (b % (BSIZE * 8))
    dinode := inode
    inode := inode }

variable {r m : Img} {S : Super} {devsw : Devsw} {s : St} {files : List HostFile} {f : HostFile}

theorem mounted_inode (h : r.sect 1 = superBlock) : r.mounted.inode = r.inode := by
  have hn : le32 superBlock 8 = NINODES := by decide +kernel
  have hi : le32 superBlock 20 = inodestart := by decide +kernel
  funext i
  simp only [Img.mounted, Img.inode, h, hn, hi, IBLOCK]

theorem mounted_content (h : r.sect 1 = superBlock) (t : Slot) (i k : ℕ) :
    name r.mounted t = name r.view t ∧ content r.mounted i k = content r.view i k := by
  have hinode : r.mounted.inode = r.view.inode := mounted_inode h
  have hname : ∀ t, name r.mounted t = name r.view t := by
    intro t
    have hsame := name_same (congrFun hinode t.inum) fun _ => show r.mounted.data _ = r.view.data _ from rfl
    cases t with
    | root j => exact hsame.1
    | blk j bn => exact hsame.2 bn
  refine ⟨hname t, ?_⟩
  unfold content
  rw [hname]
  rfl

/-! ### Reading what is there -/

theorem readi_full {i off n : ℕ} (hdev : (s.inode i).type ≠ T_DEV) (ho : off ≤ (s.inode i).size)
    (hn : off + n < 2 ^ 32)
    (hfull : ∀ bn, bn * BSIZE < off + min n ((s.inode i).size - off) →
      bn < MAXFILE ∧ name s (.blk i bn) ≠ 0) : readi S devsw i off n s =
      (.ok (some ((List.range (min n ((s.inode i).size - off))).map fun k => content s i
        (off + k))), s) := by
  have hlen : (if off + n > (s.inode i).size then (s.inode i).size - off else n) =
      min n ((s.inode i).size - off) := by
    split_ifs <;> omega
  unfold readi
  rw [bind_apply, get_apply]
  simp only
  rw [if_neg hdev, if_neg (by rw [Nat.mod_eq_of_lt hn]; omega), hlen, bind_apply,
    readLoop_full _ off _ hfull le_rfl]
  rfl

theorem dirlookupLoop_first {dp k0 : ℕ} {name : CStr} {a : List UInt8}
    (hread : ∀ j, j ≤ k0 → readDirent S devsw dp (DESIZE * j) "dirlookup read" s = (.ok (slot a j), s))
    (hsize : DESIZE * k0 < (s.inode dp).size) (hhit : Hit a name k0) (hno : ∀ j, j < k0 → ¬ Hit a name j) :
    ∀ turns k, k ≤ k0 → k0 - k < turns → dirlookupLoop S devsw dp name turns (DESIZE * k) s =
      (.ok (some ((slot a k0).inum, DESIZE * k0)), s)
  | 0, _, _, hturns => absurd hturns (Nat.not_lt_zero _)
  | turns + 1, k, hk, hturns => by
    have hlt : DESIZE * k < (s.inode dp).size := (Nat.mul_le_mul_left _ hk).trans_lt hsize
    unfold dirlookupLoop
    simp only [bind_apply, get_apply]
    rw [if_pos hlt, bind_apply, hread k hk]
    simp only
    rcases Nat.eq_or_lt_of_le hk with rfl | hk'
    · rw [if_neg hhit.1, if_pos ((namecmp_eq_zero _ _).mpr hhit.2)]
      rfl
    · have hnext := dirlookupLoop_first hread hsize hhit hno turns (k + 1) hk' (by omega)
      rw [Nat.mul_succ] at hnext
      by_cases hzero : (slot a k).inum = 0
      · rw [if_pos hzero, hnext]
      · rw [if_neg hzero, if_neg fun hx => hno k hk' ⟨hzero, (namecmp_eq_zero _ _).mp hx⟩, hnext]

/-! ### The entries of the root -/

theorem take_drop_flatten {n : ℕ} : ∀ {l : List (List UInt8)} {j : ℕ} {e : List UInt8},
    (∀ e' ∈ l, e'.length = n) → l[j]? = some e → (l.flatten.drop (n * j)).take n = e
  | [], _, _, _, hj => by cases hj
  | e :: l, 0, _, hall, hj => by
    cases hj
    rw [Nat.mul_zero, drop_zero, flatten_cons, ← hall e mem_cons_self, take_left]
  | e :: l, j + 1, _, hall, hj => by
    have hrest := take_drop_flatten (l := l) (fun e' he' => hall e' (mem_cons_of_mem e he')) hj
    have hlen := hall e mem_cons_self
    rw [flatten_cons, Nat.mul_succ, add_comm, ← drop_drop, ← hlen, drop_left, hlen]
    exact hrest

/-- The inode number and the name of entry `j` of the root directory. -/
def entryOf (files : List HostFile) : ℕ → Option (ℕ × CStr)
  | 0 => some (ROOTINO, [46])
  | 1 => some (ROOTINO, [46, 46])
  | k + 2 => files[k]?.map fun f => (k + 2, skip f.name)

theorem slot_dirents (hn : files.length + 2 ≤ NINODES) {j : ℕ} {e : ℕ × CStr}
    (he : entryOf files j = some e) :
    slot (dirents files).flatten j = ⟨e.1, strncpy e.2 DIRSIZ⟩ := by
  have hget : (dirents files)[j]? = some (de e.1 e.2) ∧ e.1 < 65536 := by
    match j, he with
    | 0, he =>
      cases he
      exact ⟨rfl, by decide⟩
    | 1, he =>
      cases he
      exact ⟨rfl, by decide⟩
    | k + 2, he =>
      obtain ⟨f, hf, rfl⟩ := Option.map_eq_some_iff.mp he
      have hk := (List.getElem?_eq_some_iff.mp hf).1
      refine ⟨?_, by simp only [NINODES] at hn; omega⟩
      simp [dirents, hf]
  rw [slot, take_drop_flatten (fun _ he' => length_of_mem_dirents he') hget.1]
  exact dirent_bytes hget.2 _

theorem hit_dirents (hn : files.length + 2 ≤ NINODES) {j : ℕ} {e : ℕ × CStr} {name : CStr}
    (he : entryOf files j = some e) :
    Hit (dirents files).flatten name j ↔ e.1 ≠ 0 ∧ key name = key e.2 := by
  rw [Hit, slot_dirents hn he, key_strncpy]

theorem key_take (name : CStr) : key (name.take DIRSIZ) = key name := by
  rw [key, take_take, Nat.min_self]
  rfl

/-! ### Looking a file up and reading it -/

/-- The names the kernel compares: distinct, and none that of an entry `mkfs` makes itself. -/
def Separate (files : List HostFile) : Prop :=
  (files.map fun f => key (skip f.name)).Nodup ∧
    ∀ f ∈ files, key (skip f.name) ≠ [46] ∧ key (skip f.name) ≠ [46, 46]

theorem Separate.first_hit (h : Separate files) (hn : files.length + 2 ≤ NINODES) {k : ℕ}
    (hf : files[k]? = some f) : Hit (dirents files).flatten ((skip f.name).take DIRSIZ) (k + 2) ∧
      ∀ j, j < k + 2 → ¬ Hit (dirents files).flatten ((skip f.name).take DIRSIZ) j := by
  have hmem : f ∈ files := mem_of_getElem? hf
  obtain ⟨hdot, hdotdot⟩ := h.2 f hmem
  have he : entryOf files (k + 2) = some (k + 2, skip f.name) := by simp [entryOf, hf]
  refine ⟨(hit_dirents hn he).mpr ⟨by simp, key_take _⟩, fun j hj hhit => ?_⟩
  match j, hj, hhit with
  | 0, _, hhit =>
    have := ((hit_dirents hn (show entryOf files 0 = some (ROOTINO, [46]) from rfl)).mp hhit).2
    rw [key_take] at this
    exact hdot (this.trans (by decide))
  | 1, _, hhit =>
    have := ((hit_dirents hn (show entryOf files 1 = some (ROOTINO, [46, 46]) from rfl)).mp hhit).2
    rw [key_take] at this
    exact hdotdot (this.trans (by decide))
  | i + 2, hi, hhit =>
    -- an earlier file with the same key
    have hk := (List.getElem?_eq_some_iff.mp hf).1
    have hik : i < k := by omega
    obtain ⟨g, hg⟩ : ∃ g, files[i]? = some g := ⟨files[i], List.getElem?_eq_getElem (by omega)⟩
    have heg : entryOf files (i + 2) = some (i + 2, skip g.name) := by simp [entryOf, hg]
    have hkey := ((hit_dirents hn heg).mp hhit).2
    rw [key_take] at hkey
    have h1 : (files.map fun f => key (skip f.name))[i]? = some (key (skip g.name)) := by
      rw [List.getElem?_map, hg]
      rfl
    have h2 : (files.map fun f => key (skip f.name))[k]? = some (key (skip g.name)) := by
      rw [List.getElem?_map, hf, ← hkey]
      rfl
    have := (List.getElem?_inj (by rw [length_map]; omega) h.1).mp (h1.trans h2.symm)
    omega

def Reads (devsw : Devsw) (r : Img) (name : CStr) (f : HostFile) : Prop :=
  ∃ inum off, dirlookup sb devsw ROOTINO name r.mounted = (.ok (some (inum, off)), r.mounted) ∧
    (r.mounted.inode inum).size = f.bytes.length ∧
    ∀ n, f.bytes.length ≤ n → n < 2 ^ 32 →
      readi sb devsw inum 0 n r.mounted = (.ok (some f.bytes), r.mounted)

/-- The image once it is mounted, against the image before the root was rounded up. -/
structure Mounted (r m : Img) (files : List HostFile) : Prop where
  built : Built m files
  name : ∀ t, name r.mounted t = name m.view t
  content : ∀ i j, content r.mounted i j = content m.view i j
  type : ∀ i, (r.mounted.inode i).type = (m.inode i).type
  size : ∀ i, (r.mounted.inode i).size =
    if i = ROOTINO then rounded files else (bytes m.view i).length

theorem mounted_of_ok (hn : files.length + 2 ≤ NINODES) (hr : mkfs files = .ok r) :
    ∃ m, Mounted r m files := by
  obtain ⟨m, hb, hview, -, hsuper, -, -⟩ := mkfs_of_ok hn hr
  have hinode : r.mounted.inode = (resized m.view ROOTINO (rounded files)).inode :=
    (mounted_inode hsuper).trans (congrArg St.inode hview)
  have hfields := resized_fields m.view ROOTINO (rounded files)
  refine ⟨m, hb, fun t => ?_, fun i j => ?_, fun i => ?_, fun i => ?_⟩
  · rw [(mounted_content hsuper t 0 0).1, hview, name_resized]
  · rw [(mounted_content hsuper (.root 0) i j).2, hview, content_resized]
  · rw [hinode, (hfields i).1]
    rfl
  · rw [hinode, (hfields i).2.2, length_bytes]

theorem Mounted.full (h : Mounted r m files) {i bn : ℕ} (hi : Live m.view i)
    (hbn : bn * BSIZE < (bytes m.view i).length) :
    bn < MAXFILE ∧ Fs.name r.mounted (.blk i bn) ≠ 0 := by
  rw [length_bytes] at hbn
  rw [h.name]
  exact ⟨h.built.good.owned.lt_maxfile hi hbn, h.built.good.owned.full i bn hi hbn⟩

theorem rounded_bounds (hn : files.length + 2 ≤ NINODES) :
    DESIZE * (files.length + 2) ≤ rounded files ∧ rounded files < 2 ^ 31 := by
  simp only [rounded, NINODES, DESIZE, BSIZE] at hn ⊢
  omega

theorem Mounted.readDirent (devsw : Devsw) (h : Mounted r m files) (hn : files.length + 2 ≤ NINODES) {j : ℕ}
    (hj : j < files.length + 2) (msg : String) :
    readDirent sb devsw ROOTINO (DESIZE * j) msg r.mounted =
      (.ok (slot (dirents files).flatten j), r.mounted) := by
  have hroot : Live m.view ROOTINO := (h.built.live ROOTINO).mpr ⟨le_rfl, by simp only [ROOTINO]; omega⟩
  have hrsize : (r.mounted.inode ROOTINO).size = rounded files := (h.size ROOTINO).trans (if_pos rfl)
  have hrtype : (r.mounted.inode ROOTINO).type ≠ T_DEV := by
    rw [h.type, h.built.root]
    decide
  have hlen := h.built.length_dir
  obtain ⟨hlow, hhigh⟩ := rounded_bounds hn
  have hend : DESIZE * j + DESIZE ≤ DESIZE * (files.length + 2) := by
    simp only [DESIZE]
    omega
  have hmin : min DESIZE ((r.mounted.inode ROOTINO).size - DESIZE * j) = DESIZE := by
    rw [hrsize]
    omega
  have hde : DESIZE < 2 ^ 31 := by decide
  have hfull : ∀ bn, bn * BSIZE < DESIZE * j + min DESIZE ((r.mounted.inode ROOTINO).size - DESIZE * j) →
      bn < MAXFILE ∧ Fs.name r.mounted (.blk ROOTINO bn) ≠ 0 := by
    intro bn hbn
    rw [hmin] at hbn
    exact h.full hroot (by omega)
  unfold Fs.readDirent
  rw [bind_apply, readi_full hrtype (by omega) (by omega) hfull, hmin]
  simp only [length_map, length_range, if_true]
  rw [slot, ← h.built.dir, bytes, slice_eq, ← length_bytes, hlen,
    show min DESIZE (DESIZE * (files.length + 2) - DESIZE * j) = DESIZE by omega]
  simp only [h.content]
  rfl

theorem Mounted.lookup (devsw : Devsw) {name : CStr} (h : Mounted r m files)
    (hn : files.length + 2 ≤ NINODES) {k : ℕ} (hk : files[k]? = some f) (hhit : Hit
      (dirents files).flatten name (k + 2))
    (hno : ∀ j, j < k + 2 → ¬ Hit (dirents files).flatten name j) :
    dirlookup sb devsw ROOTINO name r.mounted = (.ok (some (k + 2, DESIZE * (k + 2))), r.mounted) := by
  have hlt := (List.getElem?_eq_some_iff.mp hk).1
  have he : entryOf files (k + 2) = some (k + 2, skip f.name) := by simp [entryOf, hk]
  have hrsize : (r.mounted.inode ROOTINO).size = rounded files := (h.size ROOTINO).trans (if_pos rfl)
  have hrtype : (r.mounted.inode ROOTINO).type = T_DIR := (h.type ROOTINO).trans h.built.root
  have hsmall : DESIZE * (k + 2) < (r.mounted.inode ROOTINO).size := by
    have hround := rounded_bounds hn
    rw [hrsize]
    simp only [DESIZE] at hround ⊢
    omega
  have hturns : k + 2 ≤ (r.mounted.inode ROOTINO).size / DESIZE := by
    rw [Nat.le_div_iff_mul_le (by decide), Nat.mul_comm]
    exact hsmall.le
  have hloop := dirlookupLoop_first (fun j hj => h.readDirent devsw hn (by omega) _) hsmall hhit
    hno ((r.mounted.inode ROOTINO).size / DESIZE + 1) 0 (Nat.zero_le _) (by omega)
  rw [slot_dirents hn he, Nat.mul_zero] at hloop
  unfold dirlookup
  rw [bind_apply, get_apply]
  simp only [hrtype, if_true]
  exact hloop

theorem Mounted.size_file (h : Mounted r m files) {k : ℕ} (hk : files[k]? = some f) :
    (r.mounted.inode (k + 2)).size = f.bytes.length := by
  rw [h.size, if_neg (by simp only [ROOTINO]; omega), (h.built.file k f hk).2]

theorem Mounted.readi (h : Mounted r m files) {k : ℕ} (hk : files[k]? = some f) {n : ℕ}
    (hle : f.bytes.length ≤ n) (hn : n < 2 ^ 32) :
    readi sb devsw (k + 2) 0 n r.mounted = (.ok (some f.bytes), r.mounted) := by
  obtain ⟨htype, hbytes⟩ := h.built.file k f hk
  have hlt := (List.getElem?_eq_some_iff.mp hk).1
  have hsize := h.size_file hk
  have hlive : Live m.view (k + 2) := (h.built.live _).mpr ⟨by omega, by omega⟩
  have hmin : min n ((r.mounted.inode (k + 2)).size - 0) = f.bytes.length := by
    rw [hsize]
    omega
  have hdev : (r.mounted.inode (k + 2)).type ≠ T_DEV := by
    rw [h.type, htype]
    decide
  have hfull : ∀ bn, bn * BSIZE < 0 + min n ((r.mounted.inode (k + 2)).size - 0) →
      bn < MAXFILE ∧ Fs.name r.mounted (.blk (k + 2) bn) ≠ 0 := by
    intro bn hbn
    rw [hmin, Nat.zero_add] at hbn
    exact h.full hlive (by rwa [hbytes])
  have hself : bytes m.view (k + 2) = (List.range f.bytes.length).map (Fs.content m.view (k + 2)) := by
    rw [← hbytes, length_bytes]
    rfl
  rw [readi_full hdev (Nat.zero_le _) (by omega) hfull, hmin]
  simp only [Nat.zero_add, h.content]
  rw [← hself, hbytes]

/-- Files whose names the kernel can tell apart, and which fit in the inodes and the data blocks: the
  kernel finds each of them in the image under its name, with its length and its bytes. -/
theorem kernel_reads_files (devsw : Devsw) {files : List HostFile} (hn : files.length + 2 ≤ NINODES)
    (hf : ∀ f ∈ files, 47 ∉ f.name.takeWhile (· ≠ 0) ∧ f.bytes.length ≤ MAXFILE * BSIZE)
    (hfit : nmeta + usage files ≤ FSSIZE) (hsep : Separate files) :
    ∃ r, mkfs files = .ok r ∧ ∀ f ∈ files, Reads devsw r ((skip f.name).take DIRSIZ) f := by
  obtain ⟨r, hr⟩ := mkfs_ok hn hf hfit
  obtain ⟨m, h⟩ := mounted_of_ok hn hr
  refine ⟨r, hr, fun f hmem => ?_⟩
  obtain ⟨k, hk⟩ := List.getElem?_of_mem hmem
  obtain ⟨hhit, hno⟩ := hsep.first_hit hn hk
  exact ⟨k + 2, DESIZE * (k + 2), h.lookup devsw hn hk hhit hno, h.size_file hk, fun n => h.readi hk⟩

def noDev : Devsw := ⟨fun _ => none, fun _ => none⟩

theorem kernel_reads_three_bytes :
    ∃ r, mkfs [threeBytes] = .ok r ∧ ∀ f ∈ [threeBytes], Reads noDev r ((skip f.name).take DIRSIZ) f := by
  have hname : ∀ f ∈ [threeBytes],
      47 ∉ f.name.takeWhile (· ≠ 0) ∧ f.bytes.length ≤ MAXFILE * BSIZE := by decide
  have husage : nmeta + usage [threeBytes] ≤ FSSIZE := by decide
  exact kernel_reads_files noDev (by decide) hname husage ⟨by decide, by decide⟩

def oneByte : HostFile := ⟨[97], [[4]], by decide⟩

/-- The names `_a` and `a` differ, but both files get an entry `a`: the kernel finds the first. -/
theorem kernel_reads_other_file : ([threeBytes, oneByte].map HostFile.name).Nodup ∧
    (∀ f ∈ [threeBytes, oneByte], f.bytes.length ≤ MAXFILE * BSIZE) ∧
    nmeta + usage [threeBytes, oneByte] ≤ FSSIZE ∧ ∃ r, mkfs [threeBytes, oneByte] = .ok r ∧
    ¬ Reads noDev r ((skip oneByte.name).take DIRSIZ) oneByte := by
  have hname : ∀ f ∈ [threeBytes, oneByte],
      47 ∉ f.name.takeWhile (· ≠ 0) ∧ f.bytes.length ≤ MAXFILE * BSIZE := by decide
  have husage : nmeta + usage [threeBytes, oneByte] ≤ FSSIZE := by decide
  have hn : [threeBytes, oneByte].length + 2 ≤ NINODES := by decide
  obtain ⟨r, hr⟩ := mkfs_ok hn hname husage
  obtain ⟨m, h⟩ := mounted_of_ok hn hr
  refine ⟨by decide, fun f hf => (hname f hf).2, husage, r, hr, ?_⟩
  rintro ⟨inum, off, hlook, hsize, -⟩
  have hk : [threeBytes, oneByte][0]? = some threeBytes := rfl
  have hhit : Hit (dirents [threeBytes, oneByte]).flatten ((skip oneByte.name).take DIRSIZ) (0 + 2) := by
    decide
  have hfirst := h.lookup noDev hn hk hhit (by decide)
  rw [hlook] at hfirst
  simp only [Prod.mk.injEq, Except.ok.injEq, Option.some.injEq, and_true] at hfirst
  rw [hfirst.1, h.size_file hk] at hsize
  exact absurd hsize (by decide)

end Xv6.Mkfs

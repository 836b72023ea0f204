import Xv6.Mkfs.Image

/-! @src mkfs.c | part:the image of a list of files | scheme:prog

  The whole of `mkfs`: the root directory with its two entries, then for each file an inode, an
  entry in the root and the contents, as the host's `read` hands them over; at the end the root's
  length is rounded up and the bitmap is written.

      format -> root, ".", ".." -> file 2 -> file 3 -> … -> round up the root -> bitmap

  The image is consistent unless the rounding makes the root longer than its blocks, or there are
  more files than inodes: `mkfs` checks neither. -/

namespace Xv6.Mkfs
open Schemes Xv6.Fs
open List (range)
open List
open Function

structure HostFile where
  name : CStr
  pieces : List (List UInt8)
  sized : ∀ p ∈ pieces, p ≠ [] ∧ p.length ≤ BSIZE

def HostFile.bytes (f : HostFile) : List UInt8 := f.pieces.flatten

def skip (name : CStr) : CStr := if name.headD 0 = 95 then name.tail else name

def de (inum : ℕ) (name : CStr) : List UInt8 := Dirent.bytes ⟨inum, strncpy name DIRSIZ⟩

def appendAll (inum : ℕ) : List (List UInt8) → Img → Except String Img
  | [], m => .ok m
  | p :: ps, m =>
    match iappend m inum p with
    | .error e => .error e
    | .ok m => appendAll inum ps m

def addFile (m : Img) (f : HostFile) : Except String Img :=
  if 47 ∈ f.name.takeWhile (· ≠ 0) then .error "Assertion failed: index(argv[i], '/') == 0"
  else
    match ialloc m T_FILE with
    | .error e => .error e
    | .ok (inum, m) =>
      match iappend m ROOTINO (de inum (skip f.name)) with
      | .error e => .error e
      | .ok m => appendAll inum f.pieces m

def addFiles : List HostFile → Img → Except String Img
  | [], m => .ok m
  | f :: fs, m =>
    match addFile m f with
    | .error e => .error e
    | .ok m => addFiles fs m

def setBit (buf : Block) (i : ℕ) : Block :=
  store buf (i / 8) [byteAt buf (i / 8) ||| UInt8.ofNat (2 ^ (i % 8))]

def balloc (m : Img) (used : ℕ) : Except String Img :=
  if used < BSIZE * 8 then .ok (wsect m bmapstart ((range used).foldl setBit fun _ => 0))
  else .error "Assertion failed: used < BSIZE*8"

def format : Img :=
  wsect ((range FSSIZE).foldl (fun m i => wsect m i fun _ => 0) ⟨0, fun _ _ => 0, 1, nmeta⟩)
    1 superBlock

def makeRoot : Except String Img :=
  match ialloc format T_DIR with
  | .error e => .error e
  | .ok (rootino, m) =>
    if rootino = ROOTINO then
      match iappend m rootino (de rootino [46]) with
      | .error e => .error e
      | .ok m => iappend m rootino (de rootino [46, 46])
    else .error "Assertion failed: rootino == ROOTINO"

def fixRoot (m : Img) : Except String Img :=
  match rinode m ROOTINO with
  | .error e => .error e
  | .ok din => winode m ROOTINO (store din 8 (bytes32 ((le32 din 8 / BSIZE + 1) * BSIZE)))

/-- The image with these files. -/
def mkfs (files : List HostFile) : Except String Img :=
  match makeRoot with
  | .error e => .error e
  | .ok m =>
    match addFiles files m with
    | .error e => .error e
    | .ok m =>
      match fixRoot m with
      | .error e => .error e
      | .ok m => balloc m m.freeblock

/-! ### A new inode -/

variable {m m' : Img} {inum type : ℕ}

def newInode (type : ℕ) : Dinode := ⟨type, 0, 0, 1, 0, fun _ => 0⟩

theorem dinodeOf_new (ht : type < 2 ^ 16) : dinodeOf (store (store (store (fun _ => 0) 0 (bytes16 type)) 6
    (bytes16 1)) 8 (bytes32 0)) = newInode type := by
  have haddr : ∀ k, addrOf (store (store (fun _ => 0) 0 (bytes16 type)) 6 (bytes16 1)) k = 0 := by
    intro k
    unfold addrOf
    rw [le32_store_of_disjoint _ (by rw [bytes16_length]; omega),
      le32_store_of_disjoint _ (by rw [bytes16_length]; omega), le32_zero]
  have h0 : le16 (store (store (fun _ => 0 : Bytes DISIZE) 0 (bytes16 type)) 6 (bytes16 1)) 0 = type := by
    rw [le16_store_of_disjoint _ (by omega), le16_store_same _ (by decide), Nat.mod_eq_of_lt ht]
  have h2 : ∀ o, 2 ≤ o → o + 2 ≤ 6 →
      le16 (store (store (fun _ => 0 : Bytes DISIZE) 0 (bytes16 type)) 6 (bytes16 1)) o = 0 := by
    intro o hlo hhi
    rw [le16_store_of_disjoint _ (by omega), le16_store_of_disjoint _ (by rw [bytes16_length]; omega),
      le16_zero]
  have h6 : le16 (store (store (fun _ => 0 : Bytes DISIZE) 0 (bytes16 type)) 6 (bytes16 1)) 6 = 1 :=
    le16_store_same _ (by decide) 1
  rw [dinodeOf_store_size _ (by decide)]
  simp only [dinodeOf, newInode, h0, h2 2 (by decide) (by decide), h2 4 (by decide) (by decide), h6, haddr,
    toInt16]
  simp

theorem Owned.born {S : Super} {s : St} {i : ℕ} {d : Dinode} (s' : St) (h : Owned S s) (hdead : ¬ Live s i)
    (hd : d.size = 0 ∧ d.addrs = fun _ => 0) (hinode : s'.inode = update s.inode i d)
    (hdata : s'.data = s.data) (hused : s'.used = s.used) :
    Owned S s' ∧ ∀ t, name s' t = if t.inum = i then 0 else name s t := by
  have hother : ∀ j, j ≠ i → s'.inode j = s.inode j := fun j hj => by
    rw [hinode, update_of_ne hj]
  have hself : s'.inode i = d := by rw [hinode, update_self]
  have hname : ∀ t, name s' t = if t.inum = i then 0 else name s t := by
    intro t
    split_ifs with ht
    · cases t with
      | root j =>
        obtain rfl : j = i := ht
        simp [name, hself, hd.2]
      | blk j bn =>
        obtain rfl : j = i := ht
        simp [name, hself, hd.2]
    · have hsame := name_same (u := s') (hother t.inum ht) fun _ => by rw [hdata]
      cases t with
      | root j => exact hsame.1
      | blk j bn => exact hsame.2 bn
  have hlive : ∀ j, j ≠ i → (Live s' j ↔ Live s j) := fun j hj => by rw [Live, Live, hother j hj]
  have hvalid : ∀ t, t.inum ≠ i → (Valid s' t ↔ Valid s t) := by
    intro t ht
    cases t with
    | root j => exact hlive j ht
    | blk j bn => exact and_congr_left fun _ => hlive j ht
  have hne : ∀ t, name s' t ≠ 0 → t.inum ≠ i := fun t hn hx => hn (by rw [hname, if_pos hx])
  have hold : ∀ t, Valid s' t → name s' t ≠ 0 → Valid s t ∧ name s' t = name s t := fun t ht hn =>
    ⟨(hvalid t (hne t hn)).mp ht, by rw [hname, if_neg (hne t hn)]⟩
  refine ⟨⟨fun t t' ht ht' hn heq => ?_, fun t ht hn => ?_, fun b hb => ?_, fun j bn hj hlt => ?_,
    fun j hj => ?_⟩, hname⟩
  · obtain ⟨hv, he⟩ := hold t ht hn
    obtain ⟨hv', he'⟩ := hold t' ht' (heq ▸ hn)
    exact h.inj t t' hv hv' (he ▸ hn) (by rw [← he, ← he', heq])
  · obtain ⟨hv, he⟩ := hold t ht hn
    rw [he] at hn ⊢
    exact h.area t hv hn
  · rw [hused, h.used b hb]
    refine or_congr_right' fun hmeta => ⟨?_, ?_⟩
    · rintro ⟨t, ht, rfl⟩
      have hti : t.inum ≠ i := fun hx => hdead (hx ▸ ht.live)
      exact ⟨t, (hvalid t hti).mpr ht, by rw [hname, if_neg hti]⟩
    · rintro ⟨t, ht, rfl⟩
      by_cases hn : name s' t = 0
      · rw [hn] at hmeta
        exact absurd S.nmeta_pos hmeta
      · obtain ⟨hv, he⟩ := hold t ht hn
        exact ⟨t, hv, he.symm⟩
  · rcases eq_or_ne j i with rfl | hji
    · rw [hself, hd.1] at hlt
      exact absurd hlt (Nat.not_lt_zero _)
    · rw [hname, Slot.inum, if_neg hji]
      rw [hother j hji] at hlt
      exact h.full j bn ((hlive j hji).mp hj) hlt
  · rcases eq_or_ne j i with rfl | hji
    · rw [hself, hd.1]
      exact Nat.zero_le _
    · rw [hother j hji]
      exact h.bound j ((hlive j hji).mp hj)

theorem Good.ialloc_ok (h : Good m) (hlt : m.freeinode < NINODES) (hdead : ¬ Live m.view m.freeinode)
    (ht : type < 2 ^ 16) : ∃ m', ialloc m type = .ok (m.freeinode, m') ∧ Good m' ∧
      m'.freeinode = m.freeinode + 1 ∧ m'.freeblock = m.freeblock ∧
      m'.inode = update m.inode m.freeinode (newInode type) ∧ m'.data = m.data := by
  have hclean : Clean { m with freeinode := m.freeinode + 1 } :=
    ⟨h.clean.len, h.clean.super, h.clean.low, h.clean.high, h.clean.zero⟩
  obtain ⟨m1, hw, hclean1, hinode, hfb, hfi, hsect⟩ := winode_ok hclean hlt (store (store (store
    (fun _ => 0)
    0 (bytes16 type)) 6 (bytes16 1)) 8 (bytes32 0))
  rw [dinodeOf_new ht] at hinode
  have hinode' : m1.inode = update m.inode m.freeinode (newInode type) := hinode
  have hdata : m1.data = m.data := by
    funext b
    unfold Img.data
    split_ifs with hb
    · rfl
    · exact hsect b (Nat.not_lt.mp hb)
  have hused : m1.view.used = m.view.used := by
    simp only [Img.view, hfb]
  obtain ⟨howned, hname⟩ := Owned.born m1.view h.owned hdead ⟨rfl, rfl⟩ hinode' hdata hused
  refine ⟨m1, ?_, ⟨hclean1, howned, fun j hj => ?_⟩, hfi, hfb, hinode', hdata⟩
  · unfold ialloc
    dsimp only
    rw [hw]
    rfl
  · rcases eq_or_ne j m.freeinode with rfl | hji
    · refine ⟨fun bn _ hn => absurd ?_ hn, fun hn => absurd ?_ hn⟩
      · exact (hname _).trans (if_pos rfl)
      · exact (hname _).trans (if_pos rfl)
    · have hsame : m1.inode j = m.inode j := by rw [hinode', update_of_ne hji]
      have hj' : Live m.view j := by
        have : (m1.inode j).type ≠ 0 := hj
        rwa [hsame] at this
      obtain ⟨hblk, hroot⟩ := h.tight j hj'
      have hsame' : ∀ t : Slot, t.inum = j → name m1.view t = name m.view t := fun t ht =>
        (hname t).trans (if_neg (ht ▸ hji))
      dsimp only
      rw [hsame]
      exact ⟨fun bn hbn hn => hblk bn hbn (by rwa [hsame' _ rfl] at hn),
        fun hn => hroot (by rwa [hsame' _ rfl] at hn)⟩

/-! ### Appending -/

variable {p : List UInt8} {ps : List (List UInt8)}

structure Grown (m : Img) (inum : ℕ) (p : List UInt8) (m' : Img) : Prop where
  good : Good m'
  freeinode : m'.freeinode = m.freeinode
  freeblock : m'.freeblock + blocksFor (bytes m.view inum).length =
    m.freeblock + blocksFor ((bytes m.view inum).length + p.length)
  type : ∀ j, (m'.inode j).type = (m.inode j).type
  self : bytes m'.view inum = bytes m.view inum ++ p
  other : ∀ j, j ≠ inum → Live m.view j → bytes m'.view j = bytes m.view j

theorem size_eq (m : Img) (i : ℕ) : (m.inode i).size = (bytes m.view i).length :=
    (length_bytes m.view i).symm

theorem Grown.live (h : Grown m inum p m') (j : ℕ) : Live m'.view j ↔ Live m.view j := by
  show (m'.inode j).type ≠ 0 ↔ (m.inode j).type ≠ 0
  rw [h.type]

theorem Good.grown (h : Good m) (hlt : inum < NINODES) (hi : Live m.view inum)
    (hdev : (m.inode inum).type ≠ T_DEV) (hp : p ≠ []) (hfit : Fits m (bytes m.view inum).length p.length) :
    ∃ m', iappend m inum p = .ok m' ∧ Grown m inum p m' := by
  rw [← size_eq] at hfit
  obtain ⟨m', hok, hgood, hfi, hfb, hsim⟩ := h.iappend_sim hlt hi hdev hp hfit
  have hbound : MAXFILE * BSIZE < 2 ^ 32 := by decide
  have hmax := hfit.1
  have hrun := hsim ⟨fun _ => none, fun _ => none⟩
  have hr := (writei_ends h.owned hi hdev (by omega) (by omega)).of_run hrun
  refine ⟨m', hok, hgood, hfi, by rw [← size_eq]; exact hfb, hr.type, ?_, hr.other⟩
  have hself : bytes m'.view inum =
      (act (bytes m.view inum) (.write inum (m.inode inum).size p)).2 := hr.self
  rw [hself, act, if_pos ⟨(size_eq m inum).le, by omega, hmax⟩]
  dsimp only
  rw [size_eq, take_length, drop_eq_nil_of_le (Nat.le_add_right _ _), append_nil]

theorem Good.grown_of_ok (h : Good m) (hlt : inum < NINODES) (hi : Live m.view inum)
    (hdev : (m.inode inum).type ≠ T_DEV) (hp : p ≠ []) (hok : iappend m inum p = .ok m') :
    Fits m (bytes m.view inum).length p.length ∧ Grown m inum p m' := by
  have hfit := h.iappend_fits hlt hi hok
  rw [size_eq] at hfit
  obtain ⟨m1, hok1, hgrown⟩ := h.grown hlt hi hdev hp hfit
  rw [hok, Except.ok.injEq] at hok1
  exact ⟨hfit, hok1 ▸ hgrown⟩

theorem Grown.refl (h : Good m) : Grown m inum [] m :=
  ⟨h, rfl, rfl, fun _ => rfl, (append_nil _).symm, fun _ _ _ => rfl⟩

theorem Grown.trans {m1 : Img} {q : List UInt8} (h : Grown m inum p m1) (h' : Grown m1 inum q m') :
    Grown m inum (p ++ q) m' where
  good := h'.good
  freeinode := h'.freeinode.trans h.freeinode
  freeblock := by
    have h₁ := h.freeblock
    have h₂ := h'.freeblock
    rw [h.self, length_append] at h₂
    rw [length_append, ← Nat.add_assoc]
    omega
  type := fun j => (h'.type j).trans (h.type j)
  self := by rw [h'.self, h.self, append_assoc]
  other := fun j hj hl => (h'.other j hj ((h.live j).mpr hl)).trans (h.other j hj hl)

theorem Good.appendAll_ok (hlt : inum < NINODES) : ∀ (ps : List (List UInt8)) {m : Img}, Good m →
    Live m.view inum → (m.inode inum).type ≠ T_DEV → (∀ p ∈ ps, p ≠ []) →
    Fits m (bytes m.view inum).length ps.flatten.length → ∃ m', appendAll inum ps m = .ok m'
  | [], m, _, _, _, _, _ => ⟨m, rfl⟩
  | p :: ps, m, h, hi, hdev, hps, ⟨hmax, hroom⟩ => by
    rw [flatten_cons, length_append, ← Nat.add_assoc] at hmax hroom
    have hmono : blocksFor ((bytes m.view inum).length + p.length) ≤
        blocksFor ((bytes m.view inum).length + p.length + ps.flatten.length) :=
      blocksFor_mono (Nat.le_add_right _ _)
    obtain ⟨m1, hok, hg⟩ := h.grown hlt hi hdev (hps p mem_cons_self)
      ⟨by omega, by omega⟩
    have hfb := hg.freeblock
    have hlen : (bytes m1.view inum).length = (bytes m.view inum).length + p.length := by
      rw [hg.self, length_append]
    rw [appendAll, hok]
    exact Good.appendAll_ok hlt ps hg.good ((hg.live inum).mpr hi) (by rwa [hg.type])
      (fun q hq => hps q (mem_cons_of_mem p hq)) ⟨by omega, by rw [hlen]; omega⟩

theorem Good.appendAll_of_ok (hlt : inum < NINODES) : ∀ (ps : List (List UInt8)) {m : Img}, Good m →
    Live m.view inum → (m.inode inum).type ≠ T_DEV → (∀ p ∈ ps, p ≠ []) →
    appendAll inum ps m = .ok m' → Grown m inum ps.flatten m'
  | [], m, h, _, _, _, hok => by
    rw [appendAll, Except.ok.injEq] at hok
    exact hok ▸ .refl h
  | p :: ps, m, h, hi, hdev, hps, hok => by
    rw [appendAll] at hok
    cases hp : iappend m inum p with
    | error e =>
      rw [hp] at hok
      cases hok
    | ok m1 =>
      rw [hp] at hok
      have hg := (h.grown_of_ok hlt hi hdev (hps p mem_cons_self) hp).2
      have hrest := Good.appendAll_of_ok hlt ps hg.good ((hg.live inum).mpr hi) (by rwa [hg.type])
        (fun q hq => hps q (mem_cons_of_mem p hq)) hok
      exact hg.trans hrest

/-! ### Files -/

def dirents (files : List HostFile) : List (List UInt8) :=
  [de ROOTINO [46], de ROOTINO [46, 46]] ++ files.mapIdx fun k f => de (k + 2) (skip f.name)

def usage (files : List HostFile) : ℕ :=
  blocksFor (DESIZE * (files.length + 2)) + (files.map fun f => blocksFor f.bytes.length).sum

structure Built (m : Img) (files : List HostFile) : Prop where
  good : Good m
  freeinode : m.freeinode = files.length + 2
  freeblock : m.freeblock = nmeta + usage files
  live : ∀ i, Live m.view i ↔ 1 ≤ i ∧ i < files.length + 2
  root : (m.inode ROOTINO).type = T_DIR
  dir : bytes m.view ROOTINO = (dirents files).flatten
  file : ∀ k f, files[k]? = some f → (m.inode (k + 2)).type = T_FILE ∧ bytes m.view (k + 2) = f.bytes

theorem length_de (inum : ℕ) (name : CStr) : (de inum name).length = DESIZE := length_direntBytes inum name

theorem length_of_mem_dirents {files : List HostFile} {e : List UInt8} (he : e ∈ dirents files) :
    e.length = DESIZE := by
  unfold dirents at he
  simp only [cons_append, nil_append, mem_cons, mem_mapIdx] at he
  rcases he with rfl | rfl | ⟨k, hk, rfl⟩
  · exact length_de _ _
  · exact length_de _ _
  · exact length_de _ _

theorem length_flatten_of_all {l : List (List UInt8)} {n : ℕ} (h : ∀ e ∈ l, e.length = n) :
    l.flatten.length = n * l.length := by
  induction l with
  | nil => rfl
  | cons e l ih =>
    rw [flatten_cons, length_append, h e mem_cons_self,
      ih fun e' he' => h e' (mem_cons_of_mem e he'), length_cons, Nat.mul_succ, Nat.add_comm]

theorem length_dirents (files : List HostFile) : (dirents files).length = files.length + 2 := by
  simp only [dirents, length_append, length_mapIdx, length_cons, length_nil]
  omega

theorem Built.length_dir {files : List HostFile} (h : Built m files) :
    (bytes m.view ROOTINO).length = DESIZE * (files.length + 2) := by
  rw [h.dir, length_flatten_of_all fun _ he => length_of_mem_dirents he, length_dirents]

theorem dirents_concat (files : List HostFile) (f : HostFile) :
    dirents (files ++ [f]) = dirents files ++ [de (files.length + 2) (skip f.name)] := by
  simp [dirents, mapIdx_append]

theorem usage_concat (files : List HostFile) (f : HostFile) :
    usage (files ++ [f]) + blocksFor (DESIZE * (files.length + 2)) =
      usage files + blocksFor (DESIZE * (files.length + 3)) + blocksFor f.bytes.length := by
  have hlen : (files ++ [f]).length + 2 = files.length + 3 := by simp
  unfold usage
  rw [hlen]
  simp only [map_append, sum_append, map_cons, map_nil,
    sum_cons, sum_nil]
  omega

variable {files : List HostFile} {f : HostFile}

theorem desize_succ (n : ℕ) : DESIZE * (n + 2) + DESIZE = DESIZE * (n + 3) := rfl

theorem HostFile.pieces_ne (f : HostFile) : ∀ p ∈ f.pieces, p ≠ [] := fun p hp => (f.sized p hp).1

theorem de_ne_nil (inum : ℕ) (name : CStr) : de inum name ≠ [] := fun hx => by
  have := length_de inum name
  rw [hx] at this
  cases this

structure Opened (m : Img) (files : List HostFile) (m1 : Img) : Prop where
  ialloc : Mkfs.ialloc m T_FILE = .ok (files.length + 2, m1)
  good : Good m1
  freeinode : m1.freeinode = files.length + 3
  freeblock : m1.freeblock = m.freeblock
  type : ∀ j, (m1.inode j).type = if j = files.length + 2 then T_FILE else (m.inode j).type
  bytes : ∀ j, bytes m1.view j = if j = files.length + 2 then [] else bytes m.view j

theorem Built.opened (h : Built m files) (hn : files.length + 3 ≤ NINODES) : ∃ m1, Opened m files m1 := by
  have hdead : ¬ Live m.view m.freeinode := by
    rw [h.live, h.freeinode]
    omega
  obtain ⟨m1, hok, hgood, hfi, hfb, hinode, hdata⟩ := h.good.ialloc_ok
    (by rw [h.freeinode]; omega) hdead (show T_FILE < 2 ^ 16 by decide)
  rw [h.freeinode] at hok hfi hinode
  have hother : ∀ j, j ≠ files.length + 2 → m1.inode j = m.inode j := fun j hj => by
    rw [hinode, update_of_ne hj]
  have hself : m1.inode (files.length + 2) = newInode T_FILE := by rw [hinode, update_self]
  refine ⟨m1, hok, hgood, hfi, hfb, fun j => ?_, fun j => ?_⟩
  · split_ifs with hj
    · rw [hj, hself]
      rfl
    · rw [hother j hj]
  · split_ifs with hj
    · have hsize : (m1.view.inode j).size = 0 := by
        show (m1.inode j).size = 0
        rw [hj, hself]
        rfl
      rw [Fs.bytes, hsize]
      rfl
    · have hsame : m1.view.inode j = m.view.inode j := hother j hj
      have hname : ∀ bn, name m1.view (.blk j bn) = name m.view (.blk j bn) :=
        (name_same hsame fun _ => by simp only [Img.view, hdata]).2
      unfold Fs.bytes content
      simp only [hsame, hname]
      have hdata' : m1.view.data = m.view.data := hdata
      rw [hdata']

theorem Opened.live {m1 : Img} (h : Built m files) (ho : Opened m files m1) (j : ℕ) :
    Live m1.view j ↔ 1 ≤ j ∧ j < files.length + 3 := by
  have hlive := h.live j
  show (m1.inode j).type ≠ 0 ↔ _
  rw [ho.type]
  split_ifs with hj
  · exact iff_of_true (by decide) (by omega)
  · refine hlive.trans ?_
    omega

theorem Built.addFile_of_ok (h : Built m files) (hn : files.length + 3 ≤ NINODES)
    (hok : addFile m f = .ok m') : Built m' (files ++ [f]) := by
  obtain ⟨m1, ho⟩ := h.opened hn
  have hlive := ho.live h
  unfold addFile at hok
  split_ifs at hok
  rw [ho.ialloc] at hok
  dsimp only at hok
  cases hde : iappend m1 ROOTINO (de (files.length + 2) (skip f.name)) with
  | error e =>
    rw [hde] at hok
    cases hok
  | ok m2 =>
    rw [hde] at hok
    have hroot : (m1.inode ROOTINO).type = T_DIR := by
      rw [ho.type, if_neg (by simp only [ROOTINO]; omega), h.root]
    have hrootlive : Live m1.view ROOTINO := (hlive ROOTINO).mpr ⟨le_rfl, by simp only [ROOTINO]; omega⟩
    have hg2 := (ho.good.grown_of_ok (by decide) hrootlive (by rw [hroot]; decide) (de_ne_nil _ _) hde).2
    have hfile2 : (m2.inode (files.length + 2)).type = T_FILE := by
      rw [hg2.type, ho.type, if_pos rfl]
    have hg3 := Good.appendAll_of_ok (by omega) f.pieces hg2.good
      ((hg2.live _).mpr ((hlive _).mpr ⟨by omega, by omega⟩)) (by rw [hfile2]; decide) f.pieces_ne hok
    have hne : ROOTINO ≠ files.length + 2 := by simp only [ROOTINO]; omega
    have hempty : bytes m2.view (files.length + 2) = [] := by
      rw [hg2.other _ hne.symm ((hlive _).mpr ⟨by omega, by omega⟩), ho.bytes, if_pos rfl]
    have hdir1 : bytes m1.view ROOTINO = bytes m.view ROOTINO := by rw [ho.bytes, if_neg hne]
    have hlen : (files ++ [f]).length = files.length + 1 := by simp
    have hbytes : ∀ j, 1 ≤ j → j < files.length + 2 → j ≠ ROOTINO → bytes m'.view j = bytes m.view j := by
      intro j hlo hhi hj
      rw [hg3.other j (by omega) ((hg2.live j).mpr ((hlive j).mpr ⟨hlo, by omega⟩)),
        hg2.other j hj ((hlive j).mpr ⟨hlo, by omega⟩), ho.bytes, if_neg (by omega)]
    have htype : ∀ j, (m'.inode j).type = if j = files.length + 2 then T_FILE else (m.inode j).type :=
      fun j => by rw [hg3.type, hg2.type, ho.type]
    refine ⟨hg3.good, ?_, ?_, fun j => ?_, ?_, ?_, fun k g hk => ?_⟩
    · rw [hg3.freeinode, hg2.freeinode, ho.freeinode, hlen]
    · have h₂ := hg2.freeblock
      have h3 := hg3.freeblock
      have hu := usage_concat files f
      rw [hdir1, h.length_dir, length_de, desize_succ] at h₂
      rw [hempty, length_nil, zero_add] at h3
      have hzero : blocksFor 0 = 0 := by decide
      have hfb := ho.freeblock
      have hfb' := h.freeblock
      have hbytes' : f.pieces.flatten.length = f.bytes.length := rfl
      rw [hbytes', hzero] at h3
      omega
    · rw [hg3.live, hg2.live, hlive, hlen]
    · rw [htype, if_neg hne, h.root]
    · rw [hg3.other _ hne ((hg2.live _).mpr hrootlive), hg2.self, hdir1, h.dir, dirents_concat,
      flatten_append, flatten_singleton]
    · rcases lt_or_ge k files.length with hlt | hge
      · rw [List.getElem?_append_left hlt] at hk
        obtain ⟨ht, hb⟩ := h.file k g hk
        refine ⟨by rw [htype, if_neg (by omega), ht], ?_⟩
        rw [hbytes (k + 2) (by omega) (by omega) (by simp only [ROOTINO]; omega), hb]
      · have hk' : k = files.length := by
          have := (List.getElem?_eq_some_iff.mp hk).1
          omega
        subst hk'
        rw [List.getElem?_concat_length, Option.some.injEq] at hk
        subst hk
        refine ⟨by rw [htype, if_pos rfl], ?_⟩
        rw [hg3.self, hempty, nil_append]
        rfl

theorem Built.addFile_ok (h : Built m files) (hn : files.length + 3 ≤ NINODES)
    (hname : 47 ∉ f.name.takeWhile (· ≠ 0)) (hsize : f.bytes.length ≤ MAXFILE * BSIZE)
    (hfit : nmeta + usage (files ++ [f]) ≤ FSSIZE) : ∃ m', addFile m f = .ok m' := by
  obtain ⟨m1, ho⟩ := h.opened hn
  have hlive := ho.live h
  have hne : ROOTINO ≠ files.length + 2 := by simp only [ROOTINO]; omega
  have hdir1 : bytes m1.view ROOTINO = bytes m.view ROOTINO := by rw [ho.bytes, if_neg hne]
  have hroot : (m1.inode ROOTINO).type = T_DIR := by rw [ho.type, if_neg hne, h.root]
  have hu := usage_concat files f
  have hfb := ho.freeblock
  have hfb' := h.freeblock
  have hlen1 : (bytes m1.view ROOTINO).length = DESIZE * (files.length + 2) := by
    rw [hdir1, h.length_dir]
  have hmax : DESIZE * (files.length + 3) ≤ MAXFILE * BSIZE := by
    simp only [NINODES, DESIZE, MAXFILE, NDIRECT, NINDIRECT, BSIZE] at hn ⊢
    omega
  have hrootlive : Live m1.view ROOTINO := (hlive ROOTINO).mpr ⟨le_rfl, by simp only [ROOTINO]; omega⟩
  obtain ⟨m2, hok2, hg2⟩ := ho.good.grown (by decide) hrootlive (by rw [hroot]; decide)
    (de_ne_nil (files.length + 2) (skip f.name))
    ⟨by rw [hlen1, length_de, desize_succ]; exact hmax, by
      rw [hlen1, length_de, desize_succ]; omega⟩
  have hfile2 : (m2.inode (files.length + 2)).type = T_FILE := by
    rw [hg2.type, ho.type, if_pos rfl]
  have hempty : bytes m2.view (files.length + 2) = [] := by
    rw [hg2.other _ hne.symm ((hlive _).mpr ⟨by omega, by omega⟩), ho.bytes, if_pos rfl]
  have h₂ := hg2.freeblock
  rw [hlen1, length_de, desize_succ] at h₂
  have hbytes' : f.pieces.flatten.length = f.bytes.length := rfl
  obtain ⟨m3, hok3⟩ := Good.appendAll_ok (show files.length + 2 < NINODES by omega) f.pieces hg2.good
    ((hg2.live _).mpr ((hlive _).mpr ⟨by omega, by omega⟩)) (by rw [hfile2]; decide) f.pieces_ne
    ⟨by rw [hempty, length_nil, hbytes']; omega, by
      rw [hempty, length_nil, hbytes', zero_add]; omega⟩
  refine ⟨m3, ?_⟩
  unfold addFile
  rw [if_neg hname, ho.ialloc]
  dsimp only
  rw [hok2]
  exact hok3

theorem usage_le_append (files rest : List HostFile) : usage files ≤ usage (files ++ rest) := by
  have hmono : blocksFor (DESIZE * (files.length + 2)) ≤
      blocksFor (DESIZE * ((files ++ rest).length + 2)) :=
    blocksFor_mono (Nat.mul_le_mul_left _ (by simp))
  unfold usage
  rw [map_append, sum_append]
  omega

theorem Built.addFiles_of_ok : ∀ (rest : List HostFile) {m : Img} {files : List HostFile}, Built m files →
    files.length + rest.length + 2 ≤ NINODES → addFiles rest m = .ok m' → Built m' (files ++ rest)
  | [], m, files, h, _, hok => by
    rw [addFiles, Except.ok.injEq] at hok
    rw [append_nil]
    exact hok ▸ h
  | f :: rest, m, files, h, hn, hok => by
    rw [addFiles] at hok
    rw [length_cons] at hn
    cases hf : addFile m f with
    | error e =>
      rw [hf] at hok
      cases hok
    | ok m1 =>
      rw [hf] at hok
      have h₁ := h.addFile_of_ok (by omega) hf
      have hlen : (files ++ [f]).length = files.length + 1 := by simp
      have h₂ := Built.addFiles_of_ok rest h₁ (by omega) hok
      rwa [append_assoc] at h₂

theorem Built.addFiles_ok : ∀ (rest : List HostFile) {m : Img} {files : List HostFile}, Built m files →
    files.length + rest.length + 2 ≤ NINODES →
    (∀ f ∈ rest, 47 ∉ f.name.takeWhile (· ≠ 0) ∧ f.bytes.length ≤ MAXFILE * BSIZE) →
    nmeta + usage (files ++ rest) ≤ FSSIZE → ∃ m', addFiles rest m = .ok m'
  | [], m, _, _, _, _, _ => ⟨m, rfl⟩
  | f :: rest, m, files, h, hn, hf, hfit => by
    rw [length_cons] at hn
    have hsplit : files ++ f :: rest = (files ++ [f]) ++ rest := by simp
    have hmono := usage_le_append (files ++ [f]) rest
    rw [hsplit] at hfit
    obtain ⟨hname, hsize⟩ := hf f mem_cons_self
    obtain ⟨m1, hok⟩ := h.addFile_ok (by omega) hname hsize (by omega)
    have h₁ := h.addFile_of_ok (by omega) hok
    have hlen : (files ++ [f]).length = files.length + 1 := by simp
    rw [addFiles, hok]
    exact Built.addFiles_ok rest h₁ (by omega) (fun g hg => hf g (mem_cons_of_mem f hg)) hfit

/-! ### The empty image and the root directory -/

theorem zeroed (n : ℕ) : (range n).foldl (fun m i => wsect m i fun _ => 0)
    ⟨0, fun _ _ => 0, 1, nmeta⟩ = ⟨n, fun _ _ => 0, 1, nmeta⟩ := by
  induction n with
  | zero => rfl
  | succ n ih =>
    rw [range_succ, foldl_append, ih, foldl_cons, foldl_nil, wsect]
    simp only [Img.mk.injEq, and_true]
    exact ⟨Nat.max_eq_right (Nat.le_succ n), update_eq_self n (fun _ _ => (0 : UInt8))⟩

theorem format_eq : format = ⟨FSSIZE, update (fun _ _ => 0) 1 superBlock, 1, nmeta⟩ := by
  rw [format, zeroed]
  rfl

theorem format_sect : format.sect = update (fun _ _ => 0) 1 superBlock := by rw [format_eq]

theorem format_freeblock : format.freeblock = nmeta := by rw [format_eq]

theorem dinodeOf_zero : dinodeOf (fun _ => 0) = noInode := by
  simp [dinodeOf, noInode, addrOf, le32_zero, le16_zero, toInt16]

theorem format_inode (i : ℕ) : format.inode i = noInode := by
  have hne : IBLOCK i ≠ 1 := by
    have : inodestart ≤ IBLOCK i := Nat.le_add_left _ _
    have : 1 < inodestart := by decide
    omega
  have hsect : format.sect (IBLOCK i) = fun _ => 0 := by
    rw [format_sect, update_of_ne hne]
  have hwin : window (fun _ => 0 : Block) (DISIZE * (i % IPB)) DISIZE = fun _ => 0 := by
    funext k
    exact byteAt_zero _
  unfold Img.inode
  split_ifs
  · rw [hsect, hwin, dinodeOf_zero]
  · rfl

theorem good_format : Good format := by
  have hdead : ∀ i, ¬ Live format.view i := fun i hi => hi (by
    show (format.inode i).type = 0
    rw [format_inode]
    rfl)
  have hlow : nmeta ≤ format.freeblock := format_freeblock.ge
  refine ⟨⟨by rw [format_eq], ?_, hlow, ?_, fun b hb => ?_⟩, ?_, fun i hi => absurd hi (hdead i)⟩
  · rw [format_sect, update_self]
  · rw [format_freeblock]
    decide
  · have hb1 : b ≠ 1 := by
      have : 1 < nmeta := by decide
      omega
    rw [format_sect, update_of_ne hb1]
  · refine Owned.of_empty (fun i => ?_) fun b => ?_
    · have hinode : format.view.inode i = noInode := format_inode i
      rw [hinode]
      exact ⟨rfl, rfl⟩
    · have hused : format.view.used b = decide (b < nmeta) := by rw [Img.view, format_freeblock]
      rw [hused, decide_eq_true_iff]
      rfl

theorem makeRoot_ok : ∃ m, makeRoot = .ok m ∧ Built m [] := by
  have hfi : format.freeinode = ROOTINO := by rw [format_eq]; rfl
  have hfb := format_freeblock
  obtain ⟨m1, hok, hgood, hfi1, hfb1, hinode, -⟩ := good_format.ialloc_ok (by rw [hfi]; decide)
    (fun hl => hl (by
      show (format.inode format.freeinode).type = 0
      rw [format_inode]
      rfl)) (show T_DIR < 2 ^ 16 by decide)
  rw [hfi] at hok hfi1 hinode
  rw [hfb] at hfb1
  have htype : ∀ j, (m1.inode j).type = if j = ROOTINO then T_DIR else 0 := fun j => by
    rw [hinode, update_apply]
    split_ifs
    · rfl
    · rw [format_inode]
      rfl
  have hsize : (m1.inode ROOTINO).size = 0 := by
    rw [hinode, update_self]
    rfl
  have hbytes : bytes m1.view ROOTINO = [] :=
    eq_nil_of_length_eq_zero (by rw [← size_eq, hsize])
  have hlive : Live m1.view ROOTINO := by
    show (m1.inode ROOTINO).type ≠ 0
    rw [htype, if_pos rfl]
    decide
  have hdev : (m1.inode ROOTINO).type ≠ T_DEV := by
    rw [htype, if_pos rfl]
    decide
  obtain ⟨m2, hok2, hg2⟩ := hgood.grown (by decide) hlive hdev (de_ne_nil ROOTINO [46])
    (by rw [Fits, hbytes, length_de, hfb1]; decide)
  have hfb2 := hg2.freeblock
  have hself2 := hg2.self
  rw [hbytes, nil_append] at hself2
  rw [hbytes, length_de, hfb1] at hfb2
  have hfb2' : m2.freeblock = nmeta + 1 := by
    have h0 : blocksFor ([] : List UInt8).length = 0 := by decide
    have h1 : blocksFor (([] : List UInt8).length + DESIZE) = 1 := by decide
    omega
  obtain ⟨m3, hok3, hg3⟩ := hg2.good.grown (by decide) ((hg2.live _).mpr hlive) (by rwa [hg2.type])
    (de_ne_nil ROOTINO [46, 46]) (by rw [Fits, hself2, length_de, length_de, hfb2']; decide)
  have hfb3 := hg3.freeblock
  rw [hself2, length_de, length_de, hfb2'] at hfb3
  refine ⟨m3, ?_, hg3.good, ?_, ?_, fun i => ?_, ?_, ?_, nofun⟩
  · unfold makeRoot
    rw [hok]
    dsimp only
    rw [if_pos rfl, hok2]
    exact hok3
  · rw [hg3.freeinode, hg2.freeinode, hfi1]
    rfl
  · have h1 : blocksFor DESIZE = 1 := by decide
    have h2 : blocksFor (DESIZE + DESIZE) = 1 := by decide
    have hu : usage [] = 1 := by decide
    omega
  · rw [hg3.live, hg2.live]
    show (m1.inode i).type ≠ 0 ↔ _
    rw [htype]
    split_ifs with hi
    · exact iff_of_true (by decide) (by rw [hi]; decide)
    · refine iff_of_false (fun hx => hx rfl) ?_
      simp only [ROOTINO, length_nil] at hi ⊢
      omega
  · rw [hg3.type, hg2.type, htype, if_pos rfl]
  · rw [hg3.self, hself2]
    rfl

/-! ### The end -/

def rounded (files : List HostFile) : ℕ := (DESIZE * (files.length + 2) / BSIZE + 1) * BSIZE

theorem fixRoot_ok (h : Built m files) (hn : files.length + 2 ≤ NINODES) :
    ∃ m', fixRoot m = .ok m' ∧ Clean m' ∧ m'.view = resized m.view ROOTINO (rounded files) ∧
      m'.freeblock = m.freeblock ∧ m'.freeinode = m.freeinode := by
  obtain ⟨din, hread, hdin, hsize⟩ := rinode_ok h.good.clean (show ROOTINO < NINODES by decide)
  rw [size_eq, h.length_dir] at hsize
  obtain ⟨m2, hw, hclean, hinode, hfb, hfi, hsect⟩ :=
    winode_ok h.good.clean (show ROOTINO < NINODES by decide) (store din 8 (bytes32 (rounded files)))
  have hlt : rounded files < 2 ^ 32 := by
    simp only [rounded, NINODES, DESIZE, BSIZE] at hn ⊢
    omega
  refine ⟨m2, ?_, hclean, ?_, hfb, hfi⟩
  · unfold fixRoot
    rw [hread]
    dsimp only
    rw [hsize]
    exact hw
  · rw [view_resized hsect hfb hlt hinode, mid_eq_view hdin]

def bitAt (buf : Block) (b : ℕ) : Bool := (byteAt buf (b / 8)).toNat.testBit (b % 8)

theorem bitAt_setBit (buf : Block) {i : ℕ} (hi : i < BSIZE * 8) (b : ℕ) :
    bitAt (setBit buf i) b = (decide (b = i) || bitAt buf b) := by
  have hdiv : i / 8 < BSIZE := Nat.div_lt_of_lt_mul (by rwa [Nat.mul_comm])
  have hmod : i % 8 < 8 := Nat.mod_lt _ (by decide)
  have hpow : (UInt8.ofNat (2 ^ (i % 8))).toNat = 2 ^ (i % 8) := by
    rw [UInt8.toNat_ofNat']
    exact Nat.mod_eq_of_lt (Nat.pow_lt_pow_right (by decide) hmod)
  unfold bitAt setBit
  rw [byteAt_store]
  by_cases hb : b / 8 = i / 8
  · rw [if_pos (by rw [hb]; exact ⟨le_rfl, by simp, hdiv⟩), hb, Nat.sub_self, getD_cons_zero,
      UInt8.toNat_or, hpow, Nat.testBit_or, Nat.testBit_two_pow, Bool.or_comm]
    congr 1
    exact decide_eq_decide.mpr (by omega)
  · rw [if_neg (by simp only [length_singleton]; omega)]
    have hne : b ≠ i := fun hx => hb (by rw [hx])
    simp [hne]

theorem bitAt_bits {used : ℕ} (h : used ≤ BSIZE * 8) (b : ℕ) :
    bitAt ((range used).foldl setBit fun _ => 0) b = decide (b < used) := by
  induction used with
  | zero =>
    have hz : bitAt (fun _ => 0) b = false := by simp [bitAt, byteAt_zero]
    simpa using hz
  | succ n ih =>
    rw [range_succ, foldl_append, foldl_cons, foldl_nil,
      bitAt_setBit _ (by omega), ih (by omega), ← Bool.decide_or]
    exact decide_eq_decide.mpr (by omega)

theorem balloc_ok (h : Clean m) : ∃ r, balloc m m.freeblock = .ok r ∧ r.view = m.view ∧
    (∀ b, bitAt (r.sect bmapstart) b = decide (b < m.freeblock)) ∧ r.sect 1 = superBlock ∧
    r.freeblock = m.freeblock ∧ r.freeinode = m.freeinode := by
  have hhigh := h.high
  have hsmall : FSSIZE < BSIZE * 8 := by decide
  refine ⟨_, if_pos (by omega), ?_, fun b => ?_, ?_, rfl, rfl⟩
  · have hinode := inode_wsect (m := m) le_rfl ((range m.freeblock).foldl setBit fun _ => 0)
    have hdata : (wsect m bmapstart ((range m.freeblock).foldl setBit fun _ => 0)).data = m.data := by
      funext b
      unfold Img.data
      split_ifs with hb
      · rfl
      · rw [sect_wsect, update_of_ne]
        rw [nmeta_eq] at hb
        omega
    simp only [Img.view, hinode, hdata]
    rfl
  · rw [sect_wsect, update_self, bitAt_bits (by omega)]
  · rw [sect_wsect, update_of_ne (by decide), h.super]

variable {r : Img} {din : Bytes DISIZE}

theorem mkfs_of_ok (hn : files.length + 2 ≤ NINODES) (hok : mkfs files = .ok r) :
    ∃ m, Built m files ∧ r.view = resized m.view ROOTINO (rounded files) ∧
      (∀ b, bitAt (r.sect bmapstart) b = decide (b < m.freeblock)) ∧ r.sect 1 = superBlock ∧
      r.freeblock = m.freeblock ∧ r.freeinode = m.freeinode := by
  obtain ⟨m0, hroot, hbuilt0⟩ := makeRoot_ok
  unfold mkfs at hok
  rw [hroot] at hok
  dsimp only at hok
  cases hadd : addFiles files m0 with
  | error e =>
    rw [hadd] at hok
    cases hok
  | ok m =>
    rw [hadd] at hok
    have hbuilt := hbuilt0.addFiles_of_ok files (by simpa using hn) hadd
    rw [nil_append] at hbuilt
    obtain ⟨m', hfix, hclean, hview, hfb, hfi⟩ := fixRoot_ok hbuilt hn
    obtain ⟨r', hr', hview', hbits, hsuper, hfb', hfi'⟩ := balloc_ok hclean
    dsimp only at hok
    rw [hfix] at hok
    dsimp only at hok
    rw [hr', Except.ok.injEq] at hok
    subst hok
    exact ⟨m, hbuilt, hview'.trans hview, fun b => by rw [hbits, hfb], hsuper, hfb'.trans hfb,
      hfi'.trans hfi⟩

theorem mkfs_ok (hn : files.length + 2 ≤ NINODES)
    (hf : ∀ f ∈ files, 47 ∉ f.name.takeWhile (· ≠ 0) ∧ f.bytes.length ≤ MAXFILE * BSIZE)
    (hfit : nmeta + usage files ≤ FSSIZE) : ∃ r, mkfs files = .ok r := by
  obtain ⟨m0, hroot, hbuilt0⟩ := makeRoot_ok
  obtain ⟨m, hadd⟩ := hbuilt0.addFiles_ok files (by simpa using hn) hf hfit
  have hbuilt := hbuilt0.addFiles_of_ok files (by simpa using hn) hadd
  obtain ⟨m', hfix, hclean, -⟩ := fixRoot_ok hbuilt hn
  obtain ⟨r, hr, -⟩ := balloc_ok hclean
  refine ⟨r, ?_⟩
  unfold mkfs
  rw [hroot]
  dsimp only
  rw [hadd]
  dsimp only
  rw [hfix]
  exact hr

/-! ### How many inodes are used

  These hold of every image, also of one whose inodes have run over the bitmap and the data. -/

theorem winode_freeinode (hok : winode m inum din = .ok m') : m'.freeinode = m.freeinode := by
  unfold winode at hok
  cases hr : rsect m (IBLOCK inum) with
  | error e =>
    rw [hr] at hok
    cases hok
  | ok buf =>
    rw [hr] at hok
    cases hok
    rfl

theorem blockOf_freeinode {din' : Bytes DISIZE} {fbn x : ℕ}
    (hok : blockOf m din fbn = .ok (m', din', x)) : m'.freeinode = m.freeinode := by
  by_cases hd : fbn < NDIRECT
  · rw [blockOf_direct hd, Except.ok.injEq, Prod.mk.injEq] at hok
    rw [← hok.1, (takeAddr_rest m din fbn).2.2]
  · unfold blockOf at hok
    rw [if_neg hd] at hok
    dsimp only at hok
    cases hr : rsect (takeAddr m din NDIRECT).1 (addrOf (takeAddr m din NDIRECT).2 NDIRECT) with
    | error e =>
      rw [hr] at hok
      cases hok
    | ok d =>
      rw [hr, Except.ok.injEq, Prod.mk.injEq] at hok
      rw [← hok.1, ← (takeAddr_rest m din NDIRECT).2.2]
      unfold takeEntry
      split_ifs <;> rfl

theorem appendTurn_freeinode {off : ℕ} {r : Img × Bytes DISIZE × ℕ}
    (hok : appendTurn m din off p = .ok r) : r.1.freeinode = m.freeinode := by
  unfold appendTurn at hok
  dsimp only at hok
  split_ifs at hok
  cases hb : blockOf m din (off / BSIZE) with
  | error e =>
    rw [hb] at hok
    cases hok
  | ok v =>
    obtain ⟨m1, din1, x⟩ := v
    rw [hb] at hok
    dsimp only at hok
    cases hr : rsect m1 x with
    | error e =>
      rw [hr] at hok
      cases hok
    | ok buf =>
      rw [hr] at hok
      cases hok
      have hfi := blockOf_freeinode hb
      exact hfi

theorem iappendLoop_freeinode : ∀ (turns : ℕ) {m : Img} {din : Bytes DISIZE} {off : ℕ} {p : List UInt8}
    {r : Img × Bytes DISIZE × ℕ}, iappendLoop turns m din off p = .ok r → r.1.freeinode = m.freeinode
  | 0, _, _, _, _, _, hok => by
    cases hok
    rfl
  | turns + 1, m, din, off, p, r, hok => by
    rw [iappendLoop] at hok
    split_ifs at hok
    · cases hok
      rfl
    · cases ht : appendTurn m din off p with
      | error e =>
        rw [ht] at hok
        cases hok
      | ok v =>
        rw [ht] at hok
        exact (iappendLoop_freeinode turns hok).trans (appendTurn_freeinode ht)

theorem iappend_freeinode (hok : iappend m inum p = .ok m') : m'.freeinode = m.freeinode := by
  unfold iappend at hok
  cases hr : rinode m inum with
  | error e =>
    rw [hr] at hok
    cases hok
  | ok din =>
    rw [hr] at hok
    dsimp only at hok
    cases hl : iappendLoop p.length m din (le32 din 8) p with
    | error e =>
      rw [hl] at hok
      cases hok
    | ok v =>
      rw [hl] at hok
      exact (winode_freeinode hok).trans (iappendLoop_freeinode _ hl)

theorem appendAll_freeinode : ∀ (ps : List (List UInt8)) {m : Img}, appendAll inum ps m = .ok m' →
    m'.freeinode = m.freeinode
  | [], _, hok => by
    cases hok
    rfl
  | p :: ps, m, hok => by
    rw [appendAll] at hok
    cases hp : iappend m inum p with
    | error e =>
      rw [hp] at hok
      cases hok
    | ok m1 =>
      rw [hp] at hok
      exact (appendAll_freeinode ps hok).trans (iappend_freeinode hp)

theorem ialloc_freeinode (hok : ialloc m type = .ok (inum, m')) : m'.freeinode = m.freeinode + 1 := by
  unfold ialloc at hok
  dsimp only at hok
  cases hw : winode { m with freeinode := m.freeinode + 1 } m.freeinode (store (store (store (fun _ => 0) 0
      (bytes16 type)) 6 (bytes16 1)) 8 (bytes32 0)) with
  | error e =>
    rw [hw] at hok
    cases hok
  | ok m1 =>
    rw [hw] at hok
    cases hok
    exact winode_freeinode hw

theorem addFile_freeinode (hok : addFile m f = .ok m') : m'.freeinode = m.freeinode + 1 := by
  unfold addFile at hok
  split_ifs at hok
  cases hi : ialloc m T_FILE with
  | error e =>
    rw [hi] at hok
    cases hok
  | ok v =>
    obtain ⟨inum, m1⟩ := v
    rw [hi] at hok
    dsimp only at hok
    have hfi := ialloc_freeinode hi
    cases hde : iappend m1 ROOTINO (de inum (skip f.name)) with
    | error e =>
      rw [hde] at hok
      cases hok
    | ok m2 =>
      rw [hde] at hok
      rw [appendAll_freeinode f.pieces hok, iappend_freeinode hde, hfi]

theorem addFiles_freeinode : ∀ (files : List HostFile) {m : Img}, addFiles files m = .ok m' →
    m'.freeinode = m.freeinode + files.length
  | [], _, hok => by
    cases hok
    rfl
  | f :: files, m, hok => by
    rw [addFiles] at hok
    cases hf : addFile m f with
    | error e =>
      rw [hf] at hok
      cases hok
    | ok m1 =>
      rw [hf] at hok
      rw [addFiles_freeinode files hok, addFile_freeinode hf, length_cons]
      omega

theorem mkfs_freeinode (hok : mkfs files = .ok r) : r.freeinode = files.length + 2 := by
  obtain ⟨m0, hroot, hbuilt⟩ := makeRoot_ok
  unfold mkfs at hok
  rw [hroot] at hok
  dsimp only at hok
  cases hadd : addFiles files m0 with
  | error e =>
    rw [hadd] at hok
    cases hok
  | ok m =>
    rw [hadd] at hok
    have hcount := addFiles_freeinode files hadd
    rw [hbuilt.freeinode] at hcount
    dsimp only at hok
    cases hfix : fixRoot m with
    | error e =>
      rw [hfix] at hok
      cases hok
    | ok m' =>
      rw [hfix] at hok
      unfold fixRoot at hfix
      cases hr : rinode m ROOTINO with
      | error e =>
        rw [hr] at hfix
        cases hfix
      | ok din =>
        rw [hr] at hfix
        have hfi := winode_freeinode hfix
        dsimp only at hok
        unfold balloc at hok
        split_ifs at hok
        cases hok
        show m'.freeinode = _
        rw [hfi, hcount, length_nil]
        omega

/-! ### Consistent images -/

/-- What an image should be: addresses are distinct and in the data area, the bitmap marks the blocks
  below the first unused one, the inode numbers exist, and no file has a hole. -/
structure Consistent (r : Img) : Prop where
  distinct : ∀ t t', Valid r.view t → Valid r.view t' → name r.view t ≠ 0 →
    name r.view t = name r.view t' → t = t'
  area : ∀ t, Valid r.view t → name r.view t ≠ 0 → nmeta ≤ name r.view t ∧ name r.view t < FSSIZE
  bitmap : ∀ b, b < FSSIZE → (bitAt (r.sect bmapstart) b = true ↔ b < r.freeblock)
  first : ∀ b, nmeta ≤ b → b < r.freeblock → ∃ t, Valid r.view t ∧ name r.view t = b
  inodes : ∀ i, 1 ≤ i → i < r.freeinode → i < NINODES
  full : ∀ i bn, Live r.view i → bn < ((r.inode i).size + (BSIZE - 1)) / BSIZE →
    name r.view (.blk i bn) ≠ 0

theorem lt_blocks {n bn : ℕ} : bn < (n + (BSIZE - 1)) / BSIZE ↔ bn * BSIZE < n := by
  simp only [BSIZE]
  omega

theorem lt_rounded {bn : ℕ} (h : (files.length + 2) % 32 ≠ 0) :
    bn * BSIZE < rounded files ↔ bn * BSIZE < DESIZE * (files.length + 2) := by
  simp only [rounded, DESIZE, BSIZE]
  omega

theorem consistent_of_built (hn : files.length + 2 ≤ NINODES) (hrem : (files.length + 2) % 32 ≠ 0)
    (hb : Built m files) (hview : r.view = resized m.view ROOTINO (rounded files))
    (hbits : ∀ b, bitAt (r.sect bmapstart) b = decide (b < m.freeblock))
    (hfb : r.freeblock = m.freeblock) (hfi : r.freeinode = m.freeinode) : Consistent r := by
  have hroot : Live m.view ROOTINO := (hb.live ROOTINO).mpr ⟨le_rfl, by simp only [ROOTINO]; omega⟩
  have howned : Owned sb r.view := by
    rw [hview]
    refine hb.good.owned.resized ?_ fun bn hbn => ?_
    · simp only [rounded, NINODES, DESIZE, BSIZE, MAXFILE, NDIRECT, NINDIRECT] at hn ⊢
      omega
    · refine hb.good.owned.full ROOTINO bn hroot ?_
      have hsize : (m.view.inode ROOTINO).size = DESIZE * (files.length + 2) := by
        rw [← length_bytes, hb.length_dir]
      rw [hsize]
      exact (lt_rounded hrem).mp hbn
  have hused : ∀ b, r.view.used b = decide (b < r.freeblock) := fun _ => rfl
  have hhigh := hb.good.clean.high
  refine ⟨howned.inj, howned.area, fun b _ => ?_, fun b hlo hhi => ?_, fun i _ hi => ?_,
    fun i bn hi hlt => howned.full i bn hi (lt_blocks.mp hlt)⟩
  · rw [hbits, decide_eq_true_iff, hfb]
  · have hmark := (howned.used b (show b < FSSIZE by omega)).mp (by rw [hused]; exact decide_eq_true hhi)
    rcases hmark with hlow | ht
    · exact absurd hlow (Nat.not_lt.mpr hlo)
    · exact ht
  · rw [hfi, hb.freeinode] at hi
    omega

/-- `mkfs` builds a consistent image exactly when there are inodes enough and the entries of the root
  directory do not fill its last block. -/
theorem mkfs_consistent_iff {files : List HostFile} {r : Img} (hok : mkfs files = .ok r) :
    Consistent r ↔ files.length + 2 ≤ NINODES ∧ (files.length + 2) % 32 ≠ 0 := by
  constructor
  · intro hc
    have hfi := mkfs_freeinode hok
    have hn : files.length + 2 ≤ NINODES := by
      have := hc.inodes (files.length + 1) (by omega) (by omega)
      omega
    refine ⟨hn, fun hrem => ?_⟩
    obtain ⟨m, hb, hview, -⟩ := mkfs_of_ok hn hok
    have hroot : Live m.view ROOTINO := (hb.live ROOTINO).mpr ⟨le_rfl, by simp only [ROOTINO]; omega⟩
    have hfields := resized_fields m.view ROOTINO (rounded files) ROOTINO
    -- the block after the last one of the directory
    have hlive : Live r.view ROOTINO := by
      rw [hview, Live, hfields.1]
      exact hroot
    have hsize : (r.inode ROOTINO).size = rounded files := by
      have : r.inode ROOTINO = (resized m.view ROOTINO (rounded files)).inode ROOTINO :=
        congrFun (congrArg St.inode hview) ROOTINO
      rw [this, hfields.2.2, if_pos rfl]
    have hname := hc.full ROOTINO (DESIZE * (files.length + 2) / BSIZE) hlive (by
      rw [hsize, lt_blocks]
      simp only [rounded, DESIZE, BSIZE]
      omega)
    rw [hview, name_resized] at hname
    have hpast := (hb.good.tight ROOTINO hroot).1 _ (by
      simp only [NINODES, DESIZE, BSIZE, MAXFILE, NDIRECT, NINDIRECT] at hn ⊢
      omega) hname
    dsimp only at hpast
    rw [size_eq, hb.length_dir] at hpast
    simp only [DESIZE, BSIZE] at hpast
    omega
  · rintro ⟨hn, hrem⟩
    obtain ⟨m, hb, hview, hbits, -, hfb, hfi⟩ := mkfs_of_ok hn hok
    exact consistent_of_built hn hrem hb hview hbits hfb hfi

def threeBytes : HostFile := ⟨[95, 97], [[1, 2], [3]], by decide⟩

theorem mkfs_consistent_one : ∃ r, mkfs [threeBytes] = .ok r ∧ Consistent r := by
  have hname : ∀ f ∈ [threeBytes],
      47 ∉ f.name.takeWhile (· ≠ 0) ∧ f.bytes.length ≤ MAXFILE * BSIZE := by decide
  have husage : nmeta + usage [threeBytes] ≤ FSSIZE := by decide
  obtain ⟨r, hr⟩ := mkfs_ok (by decide) hname husage
  exact ⟨r, hr, (mkfs_consistent_iff hr).mpr (by decide)⟩

def emptyFile (k : ℕ) : HostFile := ⟨[UInt8.ofNat (97 + k)], [], nofun⟩

/-- With thirty empty files the root directory has 32 entries: one block, and a length of two. -/
theorem mkfs_thirty_files : (((range 30).map emptyFile).map HostFile.name).Nodup ∧
    ∃ r, mkfs ((range 30).map emptyFile) = .ok r ∧ ¬ Consistent r := by
  have hlen : ((range 30).map emptyFile).length = 30 := by simp
  have hname : ∀ f ∈ (range 30).map emptyFile,
      47 ∉ f.name.takeWhile (· ≠ 0) ∧ f.bytes.length ≤ MAXFILE * BSIZE := by decide +kernel
  have husage : nmeta + usage ((range 30).map emptyFile) ≤ FSSIZE := by decide +kernel
  obtain ⟨r, hr⟩ := mkfs_ok (by rw [hlen]; decide) hname husage
  refine ⟨by decide +kernel, r, hr, fun hc => ((mkfs_consistent_iff hr).mp hc).2 ?_⟩
  rw [hlen]

end Xv6.Mkfs

import Xv6.Fs.Dir

/-! @src mkfs.c, fs.h | part:building an image | scheme:prog

  `mkfs` writes the image of a new file system sector by sector. It never frees anything: inodes and
  blocks are handed out in order, and `iappend` grows a file at its end. The image is kept as bytes,
  so that the kernel finds the `struct dinode`s that `mkfs` put there.

      0 boot | 1 super | 2 log … | 32 inodes … | 58 bitmap | 59 data …  freeblock > … 999

  Against the kernel's model `iappend` is `writei` at the end of the file: `freeblock` is the first
  clear bit of the bitmap, and every block from it on is still zero. -/

namespace Xv6.Mkfs
open List
open Nat
open Schemes Prog Xv6.Fs
open Function
open Prod (mk)
open Except (ok)

def NINODES : ℕ := 200
def FSSIZE : ℕ := 1000
def DISIZE : ℕ := 64
def IPB : ℕ := BSIZE / DISIZE
def nbitmap : ℕ := FSSIZE / (BSIZE * 8) + 1
def ninodeblocks : ℕ := NINODES / IPB + 1
def nlog : ℕ := LOGSIZE
def nmeta : ℕ := 2 + nlog + ninodeblocks + nbitmap
def inodestart : ℕ := 2 + nlog
def bmapstart : ℕ := 2 + nlog + ninodeblocks

structure Img where
  len : ℕ
  sect : ℕ → Block
  freeinode : ℕ
  freeblock : ℕ

def rsect (m : Img) (sec : ℕ) : Except String Block :=
  if sec < m.len then .ok (m.sect sec) else .error "read"

def wsect (m : Img) (sec : ℕ) (buf : Block) : Img :=
  { m with len := max m.len (sec + 1), sect := update m.sect sec buf }

def IBLOCK (inum : ℕ) : ℕ := inum / IPB + inodestart

def rinode (m : Img) (inum : ℕ) : Except String (Bytes DISIZE) :=
  (rsect m (IBLOCK inum)).map fun buf => window buf (DISIZE * (inum % IPB)) DISIZE

def winode (m : Img) (inum : ℕ) (din : Bytes DISIZE) : Except String Img :=
  (rsect m (IBLOCK inum)).map fun buf =>
    wsect m (IBLOCK inum) (store buf (DISIZE * (inum % IPB)) (ofFn din))

def ialloc (m : Img) (type : ℕ) : Except String (ℕ × Img) :=
  let din : Bytes DISIZE :=
    store (store (store (fun _ => 0) 0 (bytes16 type)) 6 (bytes16 1)) 8 (bytes32 0)
  (winode { m with freeinode := m.freeinode + 1 } m.freeinode din).map fun m' => (m.freeinode, m')

def addrOf (din : Bytes DISIZE) (k : ℕ) : ℕ := le32 din (12 + 4 * k)

def takeAddr (m : Img) (din : Bytes DISIZE) (k : ℕ) : Img × Bytes DISIZE :=
  if addrOf din k = 0 then
    ({ m with freeblock := m.freeblock + 1 }, store din (12 + 4 * k) (bytes32 m.freeblock))
  else (m, din)

def takeEntry (m : Img) (root : ℕ) (indirect : Block) (j : ℕ) : Img × ℕ :=
  if entry indirect j = 0 then
    let indirect := store indirect (4 * j) (bytes32 m.freeblock)
    (wsect { m with freeblock := m.freeblock + 1 } root indirect, entry indirect j)
  else (m, entry indirect j)

def blockOf (m : Img) (din : Bytes DISIZE) (fbn : ℕ) : Except String (Img × Bytes DISIZE × ℕ) :=
  if fbn < NDIRECT then
    let (m, din) := takeAddr m din fbn
    .ok (m, din, addrOf din fbn)
  else
    let (m, din) := takeAddr m din NDIRECT
    match rsect m (addrOf din NDIRECT) with
    | .error e => .error e
    | .ok indirect =>
      let (m, x) := takeEntry m (addrOf din NDIRECT) indirect (fbn - NDIRECT)
      .ok (m, din, x)

def appendTurn (m : Img) (din : Bytes DISIZE) (off : ℕ) (p : List UInt8) :
    Except String (Img × Bytes DISIZE × ℕ) :=
  let fbn := off / BSIZE
  if fbn < MAXFILE then
    match blockOf m din fbn with
    | .error e => .error e
    | .ok (m, din, x) =>
      let n1 := min p.length ((fbn + 1) * BSIZE - off)
      match rsect m x with
      | .error e => .error e
      | .ok buf => .ok (wsect m x (store buf (off - fbn * BSIZE) (p.take n1)), din, n1)
  else .error "Assertion failed: fbn < MAXFILE"

def iappendLoop : ℕ → Img → Bytes DISIZE → ℕ → List UInt8 → Except String (Img × Bytes DISIZE × ℕ)
  | 0, m, din, off, _ => .ok (m, din, off)
  | turns + 1, m, din, off, p =>
    if p = [] then .ok (m, din, off)
    else
      match appendTurn m din off p with
      | .error e => .error e
      | .ok (m, din, n1) => iappendLoop turns m din (off + n1) (p.drop n1)

/-- Append bytes to a file. -/
def iappend (m : Img) (inum : ℕ) (p : List UInt8) : Except String Img :=
  match rinode m inum with
  | .error e => .error e
  | .ok din =>
    match iappendLoop p.length m din (le32 din 8) p with
    | .error e => .error e
    | .ok (m, din, off) => winode m inum (store din 8 (bytes32 off))

/-! ### What the kernel finds in the image -/

def dinodeOf (d : Bytes DISIZE) : Dinode where
  type := le16 d 0
  major := toInt16 (le16 d 2)
  minor := toInt16 (le16 d 4)
  nlink := toInt16 (le16 d 6)
  size := le32 d 8
  addrs := fun k => if k ≤ NDIRECT then addrOf d k else 0

def noInode : Dinode := ⟨0, 0, 0, 0, 0, fun _ => 0⟩

def Img.inode (m : Img) (i : ℕ) : Dinode :=
  if i < NINODES then dinodeOf (window (m.sect (IBLOCK i)) (DISIZE * (i % IPB)) DISIZE) else noInode

def Img.data (m : Img) (b : ℕ) : Block := if b < nmeta then fun _ => 0 else m.sect b

/-- The image so far as a file system in which the blocks below `freeblock` are in use. -/
def Img.view (m : Img) : St where
  data := m.data
  used := fun b => decide (b < m.freeblock)
  dinode := m.inode
  inode := m.inode

def Img.mid (m : Img) (inum : ℕ) (din : Bytes DISIZE) : St :=
  { m.view with inode := update m.inode inum (dinodeOf din) }

def sb : Super := ⟨FSSIZE, nmeta, by decide, by decide⟩

def superBlock : Block :=
  [FSSIZE, FSSIZE - nmeta, NINODES, nlog, 2, inodestart, bmapstart].zipIdx.foldl
    (fun buf f => store buf (4 * f.2) (bytes32 f.1)) fun _ => 0

/-- All sectors are there, the superblock is in its place, the free blocks are zero. -/
structure Clean (m : Img) : Prop where
  len : m.len = FSSIZE
  super : m.sect 1 = superBlock
  low : nmeta ≤ m.freeblock
  high : m.freeblock ≤ FSSIZE
  zero : ∀ b, m.freeblock ≤ b → m.sect b = fun _ => 0

variable {m m' : Img} {din din' : Bytes DISIZE} {inum k : ℕ}

/-! ### Fields of an inode -/

theorem addrOf_store (din : Bytes DISIZE) {k a : ℕ} (hk : k ≤ NDIRECT) (ha : a < 2 ^ 32) (j : ℕ) :
    addrOf (store din (12 + 4 * k) (bytes32 a)) j = if j = k then a else addrOf din j := by
  simp only [NDIRECT] at hk
  unfold addrOf
  split_ifs with hj
  · rw [hj, le32_store_same, mod_eq_of_lt ha]
    simp only [DISIZE]
    omega
  · rw [le32_store_of_disjoint]
    rw [bytes32_length]
    omega

theorem dinodeOf_store_addr (din : Bytes DISIZE) {k a : ℕ} (hk : k ≤ NDIRECT) (ha : a < 2 ^ 32) :
    dinodeOf (store din (12 + 4 * k) (bytes32 a)) =
      { dinodeOf din with addrs := update (dinodeOf din).addrs k a } := by
  have h16 : ∀ o, o + 2 ≤ 12 → le16 (store din (12 + 4 * k) (bytes32 a)) o = le16 din o := fun o ho =>
    le16_store_of_disjoint din (by omega)
  have h32 : le32 (store din (12 + 4 * k) (bytes32 a)) 8 = le32 din 8 :=
    le32_store_of_disjoint din (by omega)
  unfold dinodeOf
  simp only [h16 0 (by omega), h16 2 (by omega), h16 4 (by omega), h16 6 (by omega), h32,
    Dinode.mk.injEq, true_and]
  funext j
  rw [addrOf_store din hk ha, update_apply]
  split_ifs with h1 h2
  · rfl
  · rfl
  · omega
  · rfl

variable {fbn n : ℕ}

theorem dinodeOf_store_size (din : Bytes DISIZE) (hn : n < 2 ^ 32) :
    dinodeOf (store din 8 (bytes32 n)) = { dinodeOf din with size := n } := by
  have h16 : ∀ o, o + 2 ≤ 8 → le16 (store din 8 (bytes32 n)) o = le16 din o := fun o ho =>
    le16_store_of_disjoint din (by omega)
  have h32 : le32 (store din 8 (bytes32 n)) 8 = n := by
    rw [le32_store_same din (by decide), mod_eq_of_lt hn]
  have haddr : ∀ k, addrOf (store din 8 (bytes32 n)) k = addrOf din k := fun k =>
    le32_store_of_disjoint din (by rw [bytes32_length]; omega)
  unfold dinodeOf
  simp only [h16 0 (by omega), h16 2 (by omega), h16 4 (by omega), h16 6 (by omega), h32, haddr]

/-! ### Inodes and sectors -/

theorem IBLOCK_lt (h : inum < NINODES) : IBLOCK inum < bmapstart := by
  simp only [NINODES, IBLOCK, bmapstart, inodestart, ninodeblocks, IPB, nlog, LOGSIZE, MAXOPBLOCKS, BSIZE,
    DISIZE] at *
  omega

theorem slot_lt (inum : ℕ) : DISIZE * (inum % IPB) + DISIZE ≤ BSIZE := by
  simp only [IPB, BSIZE, DISIZE]
  omega

theorem sect_wsect (m : Img) (sec : ℕ) (buf : Block) :
    (wsect m sec buf).sect = update m.sect sec buf := rfl

theorem inode_wsect (hsec : bmapstart ≤ k) (buf : Block) : (wsect m k buf).inode = m.inode := by
  funext i
  unfold Img.inode
  split_ifs with hi
  · have := IBLOCK_lt hi
    rw [sect_wsect, update_of_ne (by omega)]
  · rfl

theorem data_wsect (hsec : nmeta ≤ k) (buf : Block) :
    (wsect m k buf).data = update m.data k buf := by
  funext b
  rw [update_apply]
  unfold Img.data
  rw [sect_wsect, update_apply]
  split_ifs with hb hbk
  · omega
  · rfl
  · rfl
  · rfl

theorem data_of_le (hb : nmeta ≤ k) : m.data k = m.sect k := if_neg (Nat.not_lt.mpr hb)

theorem inode_store (hi : inum < NINODES) (din : Bytes DISIZE) :
    (wsect m (IBLOCK inum) (store (m.sect (IBLOCK inum)) (DISIZE * (inum % IPB)) (ofFn din))).inode =
      update m.inode inum (dinodeOf din) := by
  funext j
  rw [update_apply]
  unfold Img.inode
  rcases eq_or_ne j inum with rfl | hj
  · rw [if_pos hi, if_pos rfl, sect_wsect, update_self, window_store_same _ (slot_lt j)]
  · rw [if_neg hj]
    split_ifs with hlt
    · congr 1
      rw [sect_wsect]
      rcases eq_or_ne (IBLOCK j) (IBLOCK inum) with hb | hb
      · -- the same sector: another part of it
        rw [hb, update_self, window_store_of_disjoint]
        rw [length_ofFn]
        have hmod : j % IPB ≠ inum % IPB := by
          simp only [IBLOCK, IPB, BSIZE, DISIZE] at hb ⊢
          omega
        simp only [DISIZE]
        omega
      · rw [update_of_ne hb]
    · rfl

theorem rsect_ok (h : Clean m) (hk : k < FSSIZE) : rsect m k = .ok (m.sect k) := by
  rw [rsect, h.len, if_pos hk]

theorem nmeta_eq : nmeta = bmapstart + 1 := rfl

theorem IBLOCK_room (h : inum < NINODES) : IBLOCK inum < FSSIZE ∧ IBLOCK inum < nmeta := by
  have hlt := IBLOCK_lt h
  have hmeta := nmeta_eq
  have hsize : bmapstart < FSSIZE := by decide
  omega

theorem Clean.wsect (h : Clean m) (hlow : 1 < k) (hk : k < m.freeblock) (buf : Block) :
    Clean (wsect m k buf) := by
  refine ⟨?_, ?_, h.low, h.high, fun b hb => ?_⟩
  · have hlen := h.len
    have hhigh := h.high
    show max m.len (k + 1) = FSSIZE
    omega
  · rw [sect_wsect, update_of_ne (by omega), h.super]
  · have hb' : m.freeblock ≤ b := hb
    show update m.sect k buf b = _
    rw [update_of_ne (by omega)]
    exact h.zero b hb'

theorem rinode_ok (h : Clean m) (hi : inum < NINODES) : ∃ din, rinode m inum = .ok din ∧
    dinodeOf din = m.inode inum ∧ le32 din 8 = (m.inode inum).size := by
  rw [rinode, rsect_ok h (IBLOCK_room hi).1]
  have hinode : m.inode inum =
      dinodeOf (window (m.sect (IBLOCK inum)) (DISIZE * (inum % IPB)) DISIZE) := if_pos hi
  exact ⟨_, rfl, hinode.symm, by rw [hinode]; rfl⟩

theorem winode_ok (h : Clean m) (hi : inum < NINODES) (din : Bytes DISIZE) :
    ∃ m', winode m inum din = .ok m' ∧ Clean m' ∧
      m'.inode = update m.inode inum (dinodeOf din) ∧ m'.freeblock = m.freeblock ∧
      m'.freeinode = m.freeinode ∧ ∀ b, nmeta ≤ b → m'.sect b = m.sect b := by
  obtain ⟨hroom, hmeta⟩ := IBLOCK_room hi
  rw [winode, rsect_ok h hroom]
  have hlow : 1 < IBLOCK inum := lt_of_lt_of_le (by decide) (Nat.le_add_left inodestart _)
  refine ⟨_, rfl, h.wsect hlow (by have := h.low; omega) _, inode_store hi din, rfl, rfl,
    fun b hb => ?_⟩
  exact update_of_ne (by omega) _ _

/-! ### `iappend` is `writei` at the end

  One turn of its loop is one turn of the kernel's. -/

theorem balloc_mid (h : Clean m) (hroom : m.freeblock < FSSIZE) :
    balloc sb (m.mid inum din) =
      (.ok m.freeblock, ({ m with freeblock := m.freeblock + 1 } : Img).mid inum din) := by
  have hfind : (List.range sb.size).find? (fun b => !(m.mid inum din).used b) = some m.freeblock := by
    rw [List.find?_range_eq_some]
    refine ⟨by simp [Img.mid, Img.view], mem_range.mpr hroom, fun j hj => ?_⟩
    simpa [Img.mid, Img.view] using hj
  have hused : update (fun b => decide (b < m.freeblock)) m.freeblock true =
      fun b => decide (b < m.freeblock + 1) := by
    funext b
    rw [update_apply]
    split_ifs with hb
    · simp [hb]
    · exact decide_eq_decide.mpr (by omega)
  have hdata : update m.data m.freeblock (fun _ => 0) = m.data := by
    rw [← h.zero m.freeblock le_rfl, ← data_of_le h.low, update_eq_self]
  simp only [balloc, bind_apply, get_apply, hfind, setUsed, bzero, setData, modify_apply,
    pure_apply, mk.injEq, true_and]
  simp only [Img.mid, Img.view, hused, hdata]
  rfl

theorem mid_addrs (hk : k ≤ NDIRECT) :
    ((m.mid inum din).inode inum).addrs k = addrOf din k := by
  have hself : (m.mid inum din).inode inum = dinodeOf din := update_self _ _ _
  rw [hself]
  exact if_pos hk

theorem takeAddr_sim (inum : ℕ) (h : Clean m) (hk : k ≤ NDIRECT)
    (hroom : addrOf din k = 0 → m.freeblock < FSSIZE) :
    addrAlloc sb inum k (m.mid inum din) = (.ok (addrOf (takeAddr m din k).2 k),
      (takeAddr m din k).1.mid inum (takeAddr m din k).2) ∧ Clean (takeAddr m din k).1 := by
  unfold addrAlloc takeAddr
  rw [bind_apply, get_apply]
  simp only [mid_addrs hk]
  by_cases hz : addrOf din k = 0
  · have hlt := hroom hz
    have hsmall : m.freeblock < 2 ^ 32 := hlt.trans (by decide)
    rw [if_pos hz, if_pos hz]
    refine ⟨?_, h.len, h.super, h.low.trans (le_succ _), hlt, fun b hb => h.zero b (by
      have : m.freeblock + 1 ≤ b := hb
      omega)⟩
    rw [bind_apply, balloc_mid h hlt]
    simp only [setAddr, setInode, bind_apply, modify_apply, pure_apply, mk.injEq,
      addrOf_store din hk hsmall, if_true, true_and]
    simp only [Img.mid, update_self, update_idem, dinodeOf_store_addr din hk hsmall]
  · rw [if_neg hz, if_neg hz]
    exact ⟨rfl, h⟩

theorem takeEntry_sim (inum : ℕ) (din : Bytes DISIZE) (h : Clean m) {root j : ℕ}
    (hj : j < NINDIRECT) (hlow : nmeta ≤ root)
    (hroot : root < m.freeblock) (hroom : entry (m.sect root) j = 0 → m.freeblock < FSSIZE) :
    entryAlloc sb root j (m.mid inum din) = (.ok (takeEntry m root (m.sect root) j).2,
      (takeEntry m root (m.sect root) j).1.mid inum din) ∧ Clean (takeEntry m root (m.sect root) j).1 ∧
      (takeEntry m root (m.sect root) j).1.inode = m.inode := by
  have hdata : ∀ m : Img, (m.mid inum din).data root = m.sect root := fun m => data_of_le hlow
  unfold entryAlloc takeEntry
  rw [bind_apply, get_apply]
  simp only [hdata]
  by_cases hz : entry (m.sect root) j = 0
  · have hlt := hroom hz
    have hsmall : m.freeblock < 2 ^ 32 := hlt.trans (by decide)
    have hinode : (wsect { m with freeblock := m.freeblock + 1 } root
        (store (m.sect root) (4 * j) (bytes32 m.freeblock))).inode = m.inode :=
      inode_wsect (by rw [nmeta_eq] at hlow; omega) _
    have hnext : Clean { m with freeblock := m.freeblock + 1 } :=
      ⟨h.len, h.super, h.low.trans (le_succ _), hlt, fun b hb => h.zero b (by
        have : m.freeblock + 1 ≤ b := hb
        omega)⟩
    rw [if_pos hz, if_pos hz]
    refine ⟨?_, hnext.wsect (lt_of_lt_of_le (by decide) hlow) (lt_succ_of_lt hroot) _, hinode⟩
    rw [bind_apply, balloc_mid h hlt]
    simp only [setData, bind_apply, get_apply, modify_apply, pure_apply,
      mk.injEq, entry_store _ hj hsmall, if_true, true_and, hdata]
    simp only [Img.mid, Img.view, hinode, data_wsect hlow]
    rfl
  · rw [if_neg hz, if_neg hz]
    exact ⟨rfl, h, rfl⟩

theorem takeAddr_freeblock (m : Img) (din : Bytes DISIZE) (k : ℕ) :
    (takeAddr m din k).1.freeblock = m.freeblock + if addrOf din k = 0 then 1 else 0 := by
  unfold takeAddr
  split_ifs <;> rfl

theorem takeAddr_rest (m : Img) (din : Bytes DISIZE) (k : ℕ) :
    (takeAddr m din k).1.sect = m.sect ∧ (takeAddr m din k).1.len = m.len ∧
      (takeAddr m din k).1.freeinode = m.freeinode := by
  unfold takeAddr
  split_ifs <;> exact ⟨rfl, rfl, rfl⟩

theorem takeAddr_addr (din : Bytes DISIZE) (h : Clean m) (hk : k ≤ NDIRECT) :
    addrOf (takeAddr m din k).2 k = if addrOf din k = 0 then m.freeblock else addrOf din k := by
  have hsmall : m.freeblock < 2 ^ 32 := h.high.trans_lt (by decide)
  unfold takeAddr
  split_ifs with hz
  · rw [addrOf_store din hk hsmall, if_pos rfl]
  · rfl

theorem takeEntry_freeblock (m : Img) (root j : ℕ) (d : Block) :
    (takeEntry m root d j).1.freeblock = m.freeblock + if entry d j = 0 then 1 else 0 := by
  unfold takeEntry
  split_ifs <;> rfl

theorem takeEntry_entry (root : ℕ) (h : Clean m) {j : ℕ} (hj : j < NINDIRECT) (d : Block) :
    (takeEntry m root d j).2 = if entry d j = 0 then m.freeblock else entry d j := by
  have hsmall : m.freeblock < 2 ^ 32 := h.high.trans_lt (by decide)
  unfold takeEntry
  split_ifs with hz
  · exact (entry_store d hj hsmall j).trans (if_pos rfl)
  · rfl

theorem blockOf_direct (hd : fbn < NDIRECT) : blockOf m din fbn =
    .ok ((takeAddr m din fbn).1, (takeAddr m din fbn).2, addrOf (takeAddr m din fbn).2 fbn) := if_pos hd

def missing (s : St) (i fbn : ℕ) : ℕ :=
  (if ¬ fbn < NDIRECT ∧ name s (.root i) = 0 then 1 else 0) + if name s (.blk i fbn) = 0 then 1 else 0

theorem name_mid_root : name (m.mid inum din) (.root inum) = addrOf din NDIRECT := mid_addrs le_rfl

theorem entry_zero (j : ℕ) : entry (fun _ => 0 : Block) j = 0 := le32_zero _

theorem takeAddr_root (h : Clean m) (hO : Owned sb (m.mid inum din))
    (hi : Live (m.mid inum din) inum) :
    nmeta ≤ addrOf (takeAddr m din NDIRECT).2 NDIRECT ∧
    addrOf (takeAddr m din NDIRECT).2 NDIRECT < (takeAddr m din NDIRECT).1.freeblock ∧
    ∀ bn, ¬ bn < NDIRECT → name (m.mid inum din) (.blk inum bn) =
      entry ((takeAddr m din NDIRECT).1.sect (addrOf (takeAddr m din NDIRECT).2 NDIRECT))
        (bn - NDIRECT) := by
  rw [takeAddr_addr din h le_rfl, takeAddr_freeblock, (takeAddr_rest m din NDIRECT).1]
  by_cases hz : addrOf din NDIRECT = 0
  · rw [if_pos hz, if_pos hz]
    refine ⟨h.low, lt_succ_self _, fun bn hbn => ?_⟩
    rw [name_indirect hbn, mid_addrs le_rfl, if_pos hz, h.zero _ le_rfl, entry_zero]
  · rw [if_neg hz, if_neg hz]
    have hn : name (m.mid inum din) (.root inum) ≠ 0 := by rwa [name_mid_root]
    have hvalid : Valid (m.mid inum din) (.root inum) := hi
    have hused := hO.used_of_name hvalid hn
    have harea := (hO.area _ hvalid hn).1
    rw [name_mid_root] at hused harea
    refine ⟨harea, of_decide_eq_true hused, fun bn hbn => ?_⟩
    rw [name_indirect hbn, mid_addrs le_rfl, if_neg hz]
    exact congrArg (fun d => entry d (bn - NDIRECT)) (data_of_le harea)

theorem blockOf_sim (h : Clean m) (hO : Owned sb (m.mid inum din))
    (hi : Live (m.mid inum din) inum) (hfbn : fbn < MAXFILE)
    (hroom : m.freeblock + missing (m.mid inum din) inum fbn ≤ FSSIZE) :
    ∃ m' din' x, blockOf m din fbn = .ok (m', din', x) ∧
      bmap sb inum fbn (m.mid inum din) = (.ok x, m'.mid inum din') ∧ Clean m' ∧
      m'.inode = m.inode ∧ m'.freeinode = m.freeinode ∧
      m'.freeblock = m.freeblock + missing (m.mid inum din) inum fbn := by
  unfold missing at *
  by_cases hd : fbn < NDIRECT
  · rw [name_direct hd, mid_addrs hd.le, if_neg (fun hx => hx.1 hd)] at *
    have hone : addrOf din fbn = 0 → m.freeblock < FSSIZE := fun hz => by
      rw [if_pos hz] at hroom
      omega
    obtain ⟨hsim, hclean⟩ := takeAddr_sim inum h hd.le hone
    obtain ⟨hsect, -, hfi⟩ := takeAddr_rest m din fbn
    refine ⟨_, _, _, blockOf_direct hd, ?_, hclean, ?_, hfi, ?_⟩
    · rw [bmap, if_pos hd, hsim]
    · funext i
      simp only [Img.inode, hsect]
    · rw [takeAddr_freeblock, zero_add]
  · have hind : fbn - NDIRECT < NINDIRECT := by simp only [MAXFILE] at hfbn; omega
    have hroot : addrOf din NDIRECT = 0 → m.freeblock < FSSIZE := fun hz => by
      rw [if_pos ⟨hd, by rw [name_mid_root, hz]⟩] at hroom
      omega
    obtain ⟨hsim, hclean⟩ := takeAddr_sim inum h le_rfl hroot
    obtain ⟨hlow, hhigh, hname⟩ := takeAddr_root h hO hi
    obtain ⟨hsect, -, hfi⟩ := takeAddr_rest m din NDIRECT
    have hfb := takeAddr_freeblock m din NDIRECT
    rw [name_mid_root, hname fbn hd] at *
    simp only [hd, not_false_eq_true, true_and] at hroom ⊢
    generalize hm1 : (takeAddr m din NDIRECT).1 = m1 at *
    generalize hd1 : (takeAddr m din NDIRECT).2 = din1 at *
    generalize hr : addrOf din1 NDIRECT = r at *
    obtain ⟨hsim', hclean', hinode'⟩ := takeEntry_sim inum din1 hclean hind hlow hhigh
      (fun hz => by rw [if_pos hz] at hroom; omega)
    refine ⟨(takeEntry m1 r (m1.sect r) (fbn - NDIRECT)).1, din1,
      (takeEntry m1 r (m1.sect r) (fbn - NDIRECT)).2, ?_, ?_, hclean', ?_, ?_, ?_⟩
    · unfold blockOf
      rw [if_neg hd]
      simp only [hm1, hd1, hr, rsect_ok hclean (hhigh.trans_le hclean.high)]
    · rw [bmap, if_neg hd, if_pos hind, bind_apply, hsim]
      exact hsim'
    · rw [hinode']
      funext i
      simp only [Img.inode, hsect]
    · rw [← hfi]
      unfold takeEntry
      split_ifs <;> rfl
    · rw [takeEntry_freeblock, hfb, add_assoc]

theorem blockOf_len (h : Clean m) {x : ℕ} (hok : blockOf m din fbn = .ok (m', din', x)) :
    m'.len ≤ FSSIZE := by
  by_cases hd : fbn < NDIRECT
  · rw [blockOf_direct hd, ok.injEq, mk.injEq] at hok
    rw [← hok.1, (takeAddr_rest m din fbn).2.1, h.len]
  · obtain ⟨-, hlen, -⟩ := takeAddr_rest m din NDIRECT
    unfold blockOf at hok
    rw [if_neg hd] at hok
    simp only [rsect, hlen, h.len] at hok
    split_ifs at hok with hr
    · simp only [ok.injEq, mk.injEq] at hok
      rw [← hok.1]
      unfold takeEntry
      split_ifs
      · show max (takeAddr m din NDIRECT).1.len _ ≤ FSSIZE
        rw [hlen, h.len]
        omega
      · rw [hlen, h.len]

theorem blockOf_room (h : Clean m) (hO : Owned sb (m.mid inum din))
    (hi : Live (m.mid inum din) inum) {x : ℕ} (hfbn : fbn < MAXFILE)
    (hok : blockOf m din fbn = .ok (m', din', x)) (hx : x < FSSIZE)
    : m.freeblock + missing (m.mid inum din) inum fbn ≤ FSSIZE := by
  have hhigh := h.high
  unfold missing
  by_cases hd : fbn < NDIRECT
  · rw [blockOf_direct hd, ok.injEq, mk.injEq, mk.injEq] at hok
    rw [name_direct hd, mid_addrs hd.le, if_neg (fun hx => hx.1 hd), zero_add]
    have haddr := takeAddr_addr din h hd.le
    rw [hok.2.2] at haddr
    split_ifs at haddr ⊢ <;> omega
  · have hind : fbn - NDIRECT < NINDIRECT := by simp only [MAXFILE] at hfbn; omega
    obtain ⟨hsect, hlen, -⟩ := takeAddr_rest m din NDIRECT
    have haddr := takeAddr_addr din h le_rfl
    unfold blockOf at hok
    rw [if_neg hd] at hok
    simp only [rsect, hlen, h.len] at hok
    by_cases hr : addrOf (takeAddr m din NDIRECT).2 NDIRECT < FSSIZE
    · have hroot : addrOf din NDIRECT = 0 → m.freeblock < FSSIZE := fun hz => by
        rwa [haddr, if_pos hz] at hr
      obtain ⟨-, hclean⟩ := takeAddr_sim inum h le_rfl hroot
      obtain ⟨-, -, hname⟩ := takeAddr_root h hO hi
      have hfb := takeAddr_freeblock m din NDIRECT
      simp only [if_pos hr, ok.injEq, mk.injEq] at hok
      have hentry := takeEntry_entry (addrOf (takeAddr m din NDIRECT).2 NDIRECT) hclean hind
        ((takeAddr m din NDIRECT).1.sect (addrOf (takeAddr m din NDIRECT).2 NDIRECT))
      rw [hok.2.2, hfb] at hentry
      have hclean' := hclean.high
      rw [hfb] at hclean'
      rw [name_mid_root, hname fbn hd]
      simp only [hd, not_false_eq_true, true_and]
      split_ifs at hentry hclean' ⊢ <;> omega
    · rw [if_neg hr] at hok
      cases hok

/-! ### A file grows at its end -/

variable {S : Super} {s : St} {i bn : ℕ}

theorem addrAlloc_names (h : Owned S s) (hi : Live s i) (hk : k ≤ NDIRECT) :
    Prog.Ends OutOfBlocks s (addrAlloc S i k) fun _ s' =>
      ∀ t, Valid s t → t ≠ addrSlot i k → name s' t = name s t := by
  refine .ok_bind rfl ?_
  by_cases hempty : (s.inode i).addrs k = 0
  · rw [if_pos hempty]
    refine (balloc_ends s).bind ?_
    rintro b _ ⟨hb, hfree, rfl⟩
    refine .ok rfl fun t ht hne => ?_
    exact ((filled_withAddr h hi hk hempty hfree).names t ht).trans (if_neg hne)
  · rw [if_neg hempty]
    exact .ok rfl fun t _ _ => rfl

theorem entryAlloc_names (h : Owned S s) (hi : Live s i) (hd : ¬ bn < NDIRECT) (hbn : bn < MAXFILE)
    {r : ℕ} (hr : (s.inode i).addrs NDIRECT = r) (hr0 : r ≠ 0) :
    Prog.Ends OutOfBlocks s (entryAlloc S r (bn - NDIRECT)) fun _ s' =>
      ∀ t, Valid s t → t ≠ .blk i bn → name s' t = name s t := by
  refine .ok_bind rfl ?_
  by_cases hempty : entry (s.data r) (bn - NDIRECT) = 0
  · rw [if_pos hempty]
    refine (balloc_ends s).bind ?_
    rintro b _ ⟨hb, hfree, rfl⟩
    have hfill := filled_withEntry h hi hd hbn (hr ▸ hr0) hfree hb
    rw [hr] at hfill
    exact .ok rfl fun t ht hne => (hfill.names t ht).trans (if_neg hne)
  · rw [if_neg hempty]
    exact .ok rfl fun t _ _ => rfl

theorem bmap_names (h : Owned S s) (hi : Live s i) (hbn : bn < MAXFILE) :
    Prog.Ends OutOfBlocks s (bmap S i bn) fun _ s' => ∀ t, Valid s t → t ≠ .blk i bn →
      (t = .root i → bn < NDIRECT) → name s' t = name s t := by
  unfold bmap
  by_cases hd : bn < NDIRECT
  · rw [if_pos hd]
    refine (addrAlloc_names h hi hd.le).post fun _ s' hs t ht hne _ => hs t ht ?_
    rwa [addrSlot, if_pos hd]
  · have hind : bn - NDIRECT < NINDIRECT := by simp only [MAXFILE] at hbn; omega
    rw [if_neg hd, if_pos hind]
    refine ((addrAlloc_ends 0 h hi le_rfl).and (addrAlloc_names h hi le_rfl)).bind ?_
    rintro r s1 ⟨⟨hw, hr, hr0⟩, hs1⟩
    rw [addrSlot, if_neg (lt_irrefl _)] at hr hs1
    refine (entryAlloc_names hw.owned (hw.live.mpr hi) hd hbn hr hr0).post ?_
    intro _ s2 hs2 t ht hne hroot
    rw [hs2 t ((valid_of_type hw.type t).mpr ht) hne, hs1 t ht fun hx => hd (hroot hx)]

def Tight (s : St) (len : ℕ → ℕ) : Prop :=
  ∀ i, Live s i → (∀ bn, bn < MAXFILE → name s (.blk i bn) ≠ 0 → bn * BSIZE < len i) ∧
    (name s (.root i) ≠ 0 → NDIRECT * BSIZE < len i)

structure Mid (m : Img) (inum : ℕ) (din : Bytes DISIZE) (off : ℕ) : Prop where
  lt : inum < NINODES
  clean : Clean m
  owned : Owned sb (m.mid inum din)
  live : Live (m.mid inum din) inum
  full : ∀ bn, bn * BSIZE < off → name (m.mid inum din) (.blk inum bn) ≠ 0
  tight : Tight (m.mid inum din) (update (fun i => (m.inode i).size) inum off)

def blocksFor (n : ℕ) : ℕ := (n + (BSIZE - 1)) / BSIZE + if NDIRECT * BSIZE < n then 1 else 0

variable {off : ℕ} {p : List UInt8}

theorem name_ne_zero_root (hd : ¬ bn < NDIRECT) (hn : name s (.blk i bn) ≠ 0) : name s (.root i) ≠ 0 := by
  rw [name_indirect hd] at hn
  exact fun hz => hn (if_pos hz)

theorem blocksFor_add {c : ℕ} (hc : 0 < c) (hle : off % BSIZE + c ≤ BSIZE) :
    blocksFor (off + c) = blocksFor off +
      ((if ¬ off / BSIZE < NDIRECT ∧ off ≤ NDIRECT * BSIZE then 1 else 0) +
        if off % BSIZE = 0 then 1 else 0) := by
  unfold blocksFor
  split_ifs
  all_goals
    simp only [BSIZE, NDIRECT] at *
    omega

theorem Mid.missing_eq (h : Mid m inum din off) (hfbn : off / BSIZE < MAXFILE) {c : ℕ} (hc : 0 < c)
    (hle : off % BSIZE + c ≤ BSIZE) :
    blocksFor (off + c) = blocksFor off + missing (m.mid inum din) inum (off / BSIZE) := by
  obtain ⟨htight, hroot⟩ := h.tight inum h.live
  rw [update_self] at htight hroot
  have hdm := div_add_mod off BSIZE
  have hfull := h.full (off / BSIZE)
  have htight := htight (off / BSIZE) hfbn
  have hroot' : NDIRECT * BSIZE < off → name (m.mid inum din) (.root inum) ≠ 0 := fun hlt =>
    name_ne_zero_root (lt_irrefl _) (h.full NDIRECT hlt)
  have hblk : name (m.mid inum din) (.blk inum (off / BSIZE)) = 0 ↔ off % BSIZE = 0 := by
    constructor
    · intro hz
      by_contra hne
      exact hfull (by rw [Nat.mul_comm]; omega) hz
    · intro hz
      by_contra hne
      have hlt := htight hne
      rw [Nat.mul_comm] at hlt
      omega
  have hind : name (m.mid inum din) (.root inum) = 0 ↔ off ≤ NDIRECT * BSIZE := by
    constructor
    · intro hz
      by_contra hlt
      exact hroot' (by omega) hz
    · intro hz
      by_contra hne
      have := hroot hne
      omega
  rw [blocksFor_add hc hle]
  unfold missing
  simp only [hblk, hind]

theorem mid_wsect (hk : nmeta ≤ k) (buf : Block) :
    (wsect m k buf).mid inum din = withData (m.mid inum din) k buf := by
  have hinode : (wsect m k buf).inode = m.inode := inode_wsect (by rw [nmeta_eq] at hk; omega) buf
  simp only [Img.mid, Img.view, hinode, data_wsect hk]
  rfl

theorem turn_size (off n : ℕ) : min n ((off / BSIZE + 1) * BSIZE - off) = chunk off n ∧
    off - off / BSIZE * BSIZE = off % BSIZE := by
  have hdm := div_add_mod off BSIZE
  have hmod := mod_lt off (show 0 < BSIZE by decide)
  unfold chunk
  rw [Nat.add_mul, Nat.mul_comm (off / BSIZE)]
  omega

theorem Tight.turn {s' : St} {len : ℕ → ℕ} (h : Tight s (update len inum off))
    (hlive : ∀ j, Live s' j → Live s j) (hnames : ∀ t, Valid s t → t ≠ .blk inum (off / BSIZE) →
      (t = .root inum → off / BSIZE < NDIRECT) → name s' t = name s t) (hn : 0 < n)
    : Tight s' (update len inum (off + n)) := by
  intro j hj
  have hdm := div_add_mod off BSIZE
  obtain ⟨hblks, hroot⟩ := h j (hlive j hj)
  have hgrow : update len inum off j ≤ update len inum (off + n) j := by
    simp only [update_apply]
    split_ifs <;> omega
  refine ⟨fun bn hbn hne => ?_, fun hne => ?_⟩
  · by_cases hnew : Slot.blk j bn = .blk inum (off / BSIZE)
    · obtain ⟨rfl, rfl⟩ := Slot.blk.inj hnew
      rw [update_self, Nat.mul_comm]
      omega
    · rw [hnames (.blk j bn) ⟨hlive j hj, hbn⟩ hnew (by simp)] at hne
      exact (hblks bn hbn hne).trans_le hgrow
  · by_cases hnew : j = inum ∧ ¬ off / BSIZE < NDIRECT
    · obtain ⟨rfl, hd⟩ := hnew
      rw [update_self]
      simp only [BSIZE, NDIRECT] at *
      omega
    · have hkeep : Slot.root j = .root inum → off / BSIZE < NDIRECT := fun hx => by
        rw [Slot.root.injEq] at hx
        by_contra hd
        exact hnew ⟨hx, hd⟩
      rw [hnames (.root j) (hlive j hj) (by simp) hkeep] at hne
      exact (hroot hne).trans_le hgrow

theorem Mid.turn (h : Mid m inum din off) (hp : p ≠ []) (hfbn : off / BSIZE < MAXFILE)
    (hroom : m.freeblock + missing (m.mid inum din) inum (off / BSIZE) ≤ FSSIZE) :
    ∃ m' din', appendTurn m din off p = .ok (m', din', chunk off p.length) ∧
      m'.freeblock = m.freeblock + missing (m.mid inum din) inum (off / BSIZE) ∧
      m'.freeinode = m.freeinode ∧ m'.inode = m.inode ∧
      Mid m' inum din' (off + chunk off p.length) ∧
      ∀ turns, writeLoop sb inum (turns + 1) off p (m.mid inum din) =
        writeLoop sb inum turns (off + chunk off p.length) (p.drop (chunk off p.length))
          (m'.mid inum din') := by
  obtain ⟨m1, din1, x, hblk, hbmap, hclean, hinode, hfi, hfb⟩ :=
    blockOf_sim h.clean h.owned h.live hfbn hroom
  obtain ⟨hw, hx, hx0⟩ := (bmap_ends off h.owned h.live hfbn).of_run hbmap
  have hnames := (bmap_names h.owned h.live hfbn).of_run hbmap
  have hlive : Live (m1.mid inum din1) inum := hw.live.mpr h.live
  have hv : Valid (m1.mid inum din1) (.blk inum (off / BSIZE)) := ⟨hlive, hfbn⟩
  have hlow : nmeta ≤ x := by
    have harea := (hw.owned.area _ hv (hx ▸ hx0)).1
    rwa [hx] at harea
  have hhigh : x < m1.freeblock := by
    have hused := hw.owned.used_of_name hv (hx ▸ hx0)
    rw [hx] at hused
    exact of_decide_eq_true hused
  obtain ⟨hn1, hoff⟩ := turn_size off p.length
  have hlen : p.length ≠ 0 := fun hz => hp (eq_nil_of_length_eq_zero hz)
  have hpos := chunk_pos off hlen
  have hend := (chunk_le off p.length).2
  have hdm := div_add_mod off BSIZE
  let d := store (m1.sect x) (off % BSIZE) (p.take (chunk off p.length))
  have hmid : (wsect m1 x d).mid inum din1 = withData (m1.mid inum din1) x d := mid_wsect hlow d
  have hname : ∀ t, Valid (m1.mid inum din1) t →
      name ((wsect m1 x d).mid inum din1) t = name (m1.mid inum din1) t := by
    intro t ht
    rw [hmid, ← hx]
    exact name_withData hw.owned hv _ ht
  have hinode' : (wsect m1 x d).inode = m.inode :=
    (inode_wsect (by rw [nmeta_eq] at hlow; omega) d).trans hinode
  refine ⟨wsect m1 x d, din1, ?_, hfb, hfi, hinode', ⟨h.lt, hclean.wsect
    (lt_of_lt_of_le (by decide) hlow) hhigh d, ?_, ?_, ?_, ?_⟩, ?_⟩
  · unfold appendTurn
    dsimp only
    rw [if_pos hfbn, hblk]
    dsimp only
    rw [rsect_ok hclean (hhigh.trans_le hclean.high), hn1, hoff]
  · rw [hmid, ← hx]
    exact hw.owned.withData hv _
  · rw [hmid]
    exact hlive
  · -- the blocks before, and the one just written
    intro bn hbn
    have hbn' : bn ≤ off / BSIZE := by
      simp only [BSIZE] at *
      omega
    rw [hname (.blk inum bn) ⟨hlive, hbn'.trans_lt hfbn⟩]
    rcases lt_or_ge (bn * BSIZE) off with hlt | hge
    · have hold := h.full bn hlt
      rw [hw.names (.blk inum bn) ⟨h.live, hbn'.trans_lt hfbn⟩ hold]
      exact hold
    · obtain rfl : bn = off / BSIZE := by
        simp only [BSIZE] at *
        omega
      rw [hx]
      exact hx0
  · rw [hinode']
    refine h.tight.turn (fun j hj => hw.live.mp (by rwa [hmid] at hj)) (fun t ht hne hroot => ?_)
      hpos
    rw [hname t ((valid_of_type hw.type t).mpr ht), hnames t ht hne hroot]
  · intro turns
    have hdata : (m1.mid inum din1).data x = m1.sect x := data_of_le hlow
    conv_lhs => unfold writeLoop
    rw [if_neg hp, bind_apply, hbmap]
    simp only [bind_apply, get_apply, setData, modify_apply, hdata]
    rw [hmid]
    rfl

theorem Mid.turn_room (h : Mid m inum din off) {r : Img × Bytes DISIZE × ℕ}
    (hok : appendTurn m din off p = .ok r) : off / BSIZE < MAXFILE ∧
      m.freeblock + missing (m.mid inum din) inum (off / BSIZE) ≤ FSSIZE := by
  unfold appendTurn at hok
  dsimp only at hok
  split_ifs at hok with hfbn
  refine ⟨hfbn, ?_⟩
  cases hb : blockOf m din (off / BSIZE) with
  | error e =>
    rw [hb] at hok
    cases hok
  | ok v =>
    obtain ⟨m1, din1, x⟩ := v
    rw [hb] at hok
    have hlen := blockOf_len h.clean hb
    by_cases hx : x < FSSIZE
    · exact blockOf_room h.clean h.owned h.live hfbn hb hx
    · dsimp only at hok
      rw [rsect, if_neg] at hok
      · cases hok
      · omega

theorem blocksFor_mono {a b : ℕ} (h : a ≤ b) : blocksFor a ≤ blocksFor b := by
  unfold blocksFor
  have hdiv : (a + (BSIZE - 1)) / BSIZE ≤ (b + (BSIZE - 1)) / BSIZE :=
    Nat.div_le_div_right (by omega)
  split_ifs <;> omega

def Fits (m : Img) (off n : ℕ) : Prop :=
  off + n ≤ MAXFILE * BSIZE ∧ m.freeblock + blocksFor (off + n) ≤ FSSIZE + blocksFor off

theorem div_lt_of_fits (hn : 0 < n) (h : off + n ≤ MAXFILE * BSIZE) : off / BSIZE < MAXFILE :=
  Nat.div_lt_of_lt_mul (by rw [Nat.mul_comm]; omega)

theorem Mid.loop : ∀ (turns : ℕ) {m : Img} {din : Bytes DISIZE} {off : ℕ} {p : List UInt8},
    Mid m inum din off → p.length ≤ turns → Fits m off p.length →
    ∃ m' din', iappendLoop turns m din off p = .ok (m', din', off + p.length) ∧
      m'.freeblock + blocksFor off = m.freeblock + blocksFor (off + p.length) ∧
      m'.freeinode = m.freeinode ∧ m'.inode = m.inode ∧ Mid m' inum din' (off + p.length) ∧
      writeLoop sb inum turns off p (m.mid inum din) = (.ok (), m'.mid inum din')
  | 0, m, din, off, p, h, hturns, _ => by
    obtain rfl : p = [] := eq_nil_of_length_eq_zero (le_zero.mp hturns)
    exact ⟨m, din, rfl, rfl, rfl, rfl, h, rfl⟩
  | turns + 1, m, din, off, p, h, hturns, ⟨hmax, hroom⟩ => by
    by_cases hp : p = []
    · subst hp
      exact ⟨m, din, rfl, rfl, rfl, rfl, h, rfl⟩
    have hlen : 0 < p.length := length_pos_iff.mpr hp
    have hpos := chunk_pos off hlen.ne'
    obtain ⟨hle, hend⟩ := chunk_le off p.length
    have hfbn := div_lt_of_fits hlen hmax
    have hmiss := h.missing_eq hfbn hpos hend
    have hmono : blocksFor (off + chunk off p.length) ≤ blocksFor (off + p.length) :=
      blocksFor_mono (by omega)
    obtain ⟨m1, din1, hturn, hfb, hfi, hinode, hmid, hsim⟩ := h.turn hp hfbn (by omega)
    have hdrop : (p.drop (chunk off p.length)).length = p.length - chunk off p.length :=
      length_drop
    have htotal : off + chunk off p.length + (p.length - chunk off p.length) = off + p.length := by
      omega
    obtain ⟨m2, din2, hloop, hfb', hfi', hinode', hmid', hsim'⟩ :=
      Mid.loop turns (p := p.drop (chunk off p.length)) hmid (by omega)
        ⟨by omega, by rw [hdrop, htotal]; omega⟩
    rw [hdrop, htotal] at hloop hfb' hmid'
    refine ⟨m2, din2, ?_, by omega, hfi'.trans hfi, hinode'.trans hinode, hmid', ?_⟩
    · rw [iappendLoop, if_neg hp, hturn]
      exact hloop
    · rw [hsim]
      exact hsim'

theorem Mid.loop_fits : ∀ (turns : ℕ) {m : Img} {din : Bytes DISIZE} {off : ℕ} {p : List UInt8},
    Mid m inum din off → p.length ≤ turns → off ≤ MAXFILE * BSIZE →
    ∀ {r : Img × Bytes DISIZE × ℕ}, iappendLoop turns m din off p = .ok r → Fits m off p.length
  | 0, m, din, off, p, h, hturns, hoff, r, _ => by
    obtain rfl : p = [] := eq_nil_of_length_eq_zero (le_zero.mp hturns)
    exact ⟨hoff, Nat.add_le_add_right h.clean.high _⟩
  | turns + 1, m, din, off, p, h, hturns, hoff, r, hok => by
    by_cases hp : p = []
    · subst hp
      exact ⟨hoff, Nat.add_le_add_right h.clean.high _⟩
    have hlen : 0 < p.length := length_pos_iff.mpr hp
    have hpos := chunk_pos off hlen.ne'
    obtain ⟨hle, hend⟩ := chunk_le off p.length
    rw [iappendLoop, if_neg hp] at hok
    cases hturn : appendTurn m din off p with
    | error e =>
      rw [hturn] at hok
      cases hok
    | ok v =>
      obtain ⟨hfbn, hroom⟩ := h.turn_room hturn
      obtain ⟨m1, din1, hturn', hfb, -, -, hmid, -⟩ := h.turn hp hfbn hroom
      rw [hturn'] at hok
      have hmiss := h.missing_eq hfbn hpos hend
      have hdrop : (p.drop (chunk off p.length)).length = p.length - chunk off p.length :=
        length_drop
      have htotal : off + chunk off p.length + (p.length - chunk off p.length) = off + p.length := by
        omega
      have hdm := div_add_mod off BSIZE
      have hnext : off + chunk off p.length ≤ MAXFILE * BSIZE := by
        have : (off / BSIZE + 1) * BSIZE ≤ MAXFILE * BSIZE := Nat.mul_le_mul_right _ hfbn
        rw [Nat.add_mul, Nat.mul_comm] at this
        omega
      obtain ⟨hmax, hroom'⟩ := Mid.loop_fits turns hmid (by omega) hnext hok
      rw [hdrop, htotal] at hmax hroom'
      exact ⟨hmax, by omega⟩

/-- A consistent image in which no inode has more blocks than it needs. -/
structure Good (m : Img) : Prop where
  clean : Clean m
  owned : Owned sb m.view
  tight : Tight m.view fun i => (m.inode i).size

theorem mid_eq_view (hdin : dinodeOf din = m.inode inum) : m.mid inum din = m.view := by
  rw [Img.mid, hdin, update_eq_self]
  rfl

theorem Good.mid (h : Good m) (hlt : inum < NINODES) (hi : Live m.view inum)
    (hdin : dinodeOf din = m.inode inum) : Mid m inum din (m.inode inum).size := by
  have hview := mid_eq_view hdin
  refine ⟨hlt, h.clean, ?_, ?_, ?_, ?_⟩
  · rw [hview]
    exact h.owned
  · rw [hview]
    exact hi
  · rw [hview]
    exact fun bn hbn => h.owned.full inum bn hi hbn
  · rw [hview, update_eq_self]
    exact h.tight

theorem view_resized {m1 m2 : Img} (hsect : ∀ b, nmeta ≤ b → m2.sect b = m1.sect b)
    (hfb : m2.freeblock = m1.freeblock) (hn : n < 2 ^ 32)
    (hinode : m2.inode = update m1.inode inum (dinodeOf (store din 8 (bytes32 n)))) :
    m2.view = resized (m1.mid inum din) inum n := by
  have hdata : m2.data = m1.data := by
    funext b
    unfold Img.data
    split_ifs with hb
    · rfl
    · exact hsect b (Nat.not_lt.mp hb)
  rw [dinodeOf_store_size din hn] at hinode
  simp only [Img.view, resized, Img.mid, update_self, update_idem, hdata, hfb, hinode]

theorem Mid.resized (h : Mid m inum din off) (hoff : off ≤ MAXFILE * BSIZE) {m2 : Img}
    (hclean : Clean m2) (hview : m2.view = resized (m.mid inum din) inum off) : Good m2 := by
  have hinode : m2.inode = (Fs.resized (m.mid inum din) inum off).inode := congrArg St.inode hview
  refine ⟨hclean, ?_, fun j hj => ?_⟩
  · rw [hview]
    exact h.owned.resized hoff h.full
  · rw [hinode]
    rw [hview] at hj ⊢
    have hfields := resized_fields (m.mid inum din) inum off j
    have hj' : Live (m.mid inum din) j := by rwa [Live, ← hfields.1]
    have hlen : update (fun i => (m.inode i).size) inum off j =
        ((Fs.resized (m.mid inum din) inum off).inode j).size := by
      rw [hfields.2.2, update_apply]
      split_ifs with hji
      · rfl
      · exact (congrArg Dinode.size (update_of_ne hji _ _)).symm
    obtain ⟨hblk, hroot⟩ := h.tight j hj'
    rw [hlen] at hblk hroot
    simp only [name_resized]
    exact ⟨hblk, hroot⟩

theorem Good.iappend_sim (h : Good m) (hlt : inum < NINODES) (hi : Live m.view inum)
    (hdev : (m.inode inum).type ≠ T_DEV) (hp : p ≠ []) (hfit : Fits m (m.inode inum).size p.length) :
    ∃ m', iappend m inum p = .ok m' ∧ Good m' ∧ m'.freeinode = m.freeinode ∧
      m'.freeblock + blocksFor (m.inode inum).size =
        m.freeblock + blocksFor ((m.inode inum).size + p.length) ∧
      ∀ devsw, writei sb devsw inum (m.inode inum).size p m.view = (.ok (some p.length), m'.view) := by
  obtain ⟨din, hread, hdin, hsize⟩ := rinode_ok h.clean hlt
  have hmid := h.mid hlt hi hdin
  obtain ⟨m1, din1, hloop, hfb, hfi, hinode, hmid1, hsim⟩ := hmid.loop p.length le_rfl hfit
  obtain ⟨hmax, -⟩ := hfit
  have hbound : MAXFILE * BSIZE < 2 ^ 32 := by decide
  have hn : (m.inode inum).size + p.length < 2 ^ 32 := by omega
  obtain ⟨m2, hwrite, hclean2, hinode2, hfb2, hfi2, hsect2⟩ :=
    winode_ok hmid1.clean hlt (store din1 8 (bytes32 ((m.inode inum).size + p.length)))
  have hview := view_resized hsect2 hfb2 hn hinode2
  refine ⟨m2, ?_, hmid1.resized hmax hclean2 hview, hfi2.trans hfi, by omega, fun devsw => ?_⟩
  · unfold iappend
    rw [hread]
    dsimp only
    rw [hsize, hloop]
    exact hwrite
  · have hlen : 0 < p.length := length_pos_iff.mpr hp
    rw [mid_eq_view hdin] at hsim
    have hip : m.view.inode inum = m.inode inum := rfl
    unfold writei
    rw [bind_apply, get_apply]
    simp only [hip]
    rw [if_neg hdev, if_neg (by rw [mod_eq_of_lt hn]; omega), if_neg (by
      rw [mod_eq_of_lt hn]; omega), bind_apply, hsim]
    simp only
    rw [if_pos ⟨hlen, by omega⟩, hview]
    simp only [setInode, iupdate, bind_apply, modify_apply, pure_apply, Fs.resized,
      update_self]

theorem Good.iappend_fits (h : Good m) (hlt : inum < NINODES) (hi : Live m.view inum)
    (hok : iappend m inum p = .ok m') : Fits m (m.inode inum).size p.length := by
  obtain ⟨din, hread, hdin, hsize⟩ := rinode_ok h.clean hlt
  have hmid := h.mid hlt hi hdin
  unfold iappend at hok
  rw [hread] at hok
  dsimp only at hok
  rw [hsize] at hok
  cases hloop : iappendLoop p.length m din (m.inode inum).size p with
  | error e =>
    rw [hloop] at hok
    cases hok
  | ok r => exact hmid.loop_fits p.length le_rfl (h.owned.bound inum hi) hloop

end Xv6.Mkfs

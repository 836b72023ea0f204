import Xv6.Fs.Contents

/-! @src fs.c, fs.h, string.c, sysfile.c | part:directories as finite maps | scheme:prog

  A directory is an inode whose contents are `struct dirent`s of 16 bytes: an inode number of two
  bytes, 0 for a free entry, and a name of `DIRSIZ` bytes, ended by a NUL only if it is shorter.
  `dirlookup` and `dirlink` go through the entries with `readi`.

      slot 0     slot 1     slot 2  …        key: the first DIRSIZ bytes up to a NUL
      inum name  inum name  0    –           map: key ↦ inum of the live slot with that key -/

namespace Xv6.Fs
open Nat
open Schemes Prog
open List (range cons)
open List
open Function

def DIRSIZ : ℕ := 14

/-- A C string: the bytes up to the NUL, or at least the first `DIRSIZ` of them. What is read past the
  list is the NUL. -/
abbrev CStr := List UInt8

def strncmp : CStr → CStr → ℕ → ℤ
  | _, _, 0 => 0
  | p, q, n + 1 =>
    if p.headD 0 ≠ 0 ∧ p.headD 0 = q.headD 0 then strncmp p.tail q.tail n
    else (p.headD 0).toNat - (q.headD 0).toNat

/-- The `n` bytes that a copy of at most `n` bytes of `t` leaves, padded with NULs. -/
def strncpy : CStr → ℕ → List UInt8
  | _, 0 => []
  | t, n + 1 =>
    if t.headD 0 ≠ 0 then t.headD 0 :: strncpy t.tail n else 0 :: replicate n 0

def namecmp (s t : CStr) : ℤ := strncmp s t DIRSIZ

/-- A directory entry. -/
structure Dirent where
  inum : ℕ
  name : List UInt8

def DESIZE : ℕ := 16

def dirent (bs : List UInt8) : Dirent := ⟨(bs.getD 0 0).toNat + 2 ^ 8 * (bs.getD 1 0).toNat, bs.drop 2⟩

def Dirent.bytes (de : Dirent) : List UInt8 :=
  [UInt8.ofNat de.inum, UInt8.ofNat (de.inum / 2 ^ 8)] ++ de.name

variable (sb : Super) (devsw : Devsw)

def readDirent (dp off : ℕ) (msg : String) : K Dirent := do
  match ← readi sb devsw dp off DESIZE with
  | some bs => if bs.length = DESIZE then pure (dirent bs) else stop msg
  | none => stop msg

def dirlookupLoop (dp : ℕ) (name : CStr) : ℕ → ℕ → K (Option (ℕ × ℕ))
  | 0, _ => pure none
  | turns + 1, off => do
    let s ← get
    if off < (s.inode dp).size then
      let de ← readDirent sb devsw dp off "dirlookup read"
      if de.inum = 0 then dirlookupLoop dp name turns (off + DESIZE)
      else if namecmp name de.name = 0 then pure (some (de.inum, off))
      else dirlookupLoop dp name turns (off + DESIZE)
    else pure none

/-- Look for a directory entry: its inode number, and its offset for `*poff`. -/
def dirlookup (dp : ℕ) (name : CStr) : K (Option (ℕ × ℕ)) := do
  let s ← get
  if (s.inode dp).type = T_DIR then
    dirlookupLoop sb devsw dp name ((s.inode dp).size / DESIZE + 1) 0
  else stop "dirlookup not DIR"

def emptyLoop (dp : ℕ) : ℕ → ℕ → K ℕ
  | 0, off => pure off
  | turns + 1, off => do
    let s ← get
    if off < (s.inode dp).size then
      let de ← readDirent sb devsw dp off "dirlink read"
      if de.inum = 0 then pure off else emptyLoop dp turns (off + DESIZE)
    else pure off

/-- Overwrite the entry at `off`; anything but a whole entry written is a panic. -/
def writeDirent (dp off : ℕ) (bs : List UInt8) (msg : String) : K Unit := do
  if (← writei sb devsw dp off bs) = some DESIZE then pure () else stop msg

/-- Write a new entry into a directory. -/
def dirlink (dp : ℕ) (name : CStr) (inum : ℕ) : K Bool := do
  match ← dirlookup sb devsw dp name with
  | some _ => pure false
  | none =>
    let s ← get
    let off ← emptyLoop sb devsw dp ((s.inode dp).size / DESIZE + 1) 0
    writeDirent sb devsw dp off (Dirent.bytes ⟨inum, strncpy name DIRSIZ⟩) "dirlink"
    pure true

/-- What `sys_unlink` does to the directory: look the name up and clear its entry. -/
def dirunlink (dp : ℕ) (name : CStr) : K Bool := do
  match ← dirlookup sb devsw dp name with
  | none => pure false
  | some (_, off) =>
    writeDirent sb devsw dp off (replicate DESIZE 0) "unlink: writei"
    pure true

/-! ### Names -/

def key (p : CStr) : List UInt8 := (p.take DIRSIZ).takeWhile (· ≠ 0)

theorem toNat_sub_eq_zero (a b : UInt8) : (a.toNat : ℤ) - b.toNat = 0 ↔ a = b := by
  rw [sub_eq_zero, Nat.cast_inj, UInt8.toNat_inj]

theorem takeWhile_take_succ (p : CStr) (n : ℕ) : (p.take (n + 1)).takeWhile (· ≠ 0) =
    if p.headD 0 = 0 then [] else p.headD 0 :: (p.tail.take n).takeWhile (· ≠ 0) := by
  cases p with
  | nil => rfl
  | cons a p =>
    rw [take_succ_cons, takeWhile_cons]
    by_cases ha : a = 0 <;> simp [ha]

theorem strncmp_eq_zero : ∀ (n : ℕ) (p q : CStr), strncmp p q n = 0 ↔
    (p.take n).takeWhile (· ≠ 0) = (q.take n).takeWhile (· ≠ 0)
  | 0, _, _ => by simp [strncmp]
  | n + 1, p, q => by
    rw [strncmp, takeWhile_take_succ, takeWhile_take_succ]
    have ih := strncmp_eq_zero n p.tail q.tail
    generalize p.headD 0 = a
    generalize q.headD 0 = b
    by_cases hab : a = b
    · subst hab
      by_cases ha : a = 0
      · simp [ha]
      · simp only [ne_eq, ha, not_false_eq_true, and_self, if_true, if_false, cons.injEq,
          true_and]
        exact ih
    · rw [if_neg (fun hx => hab hx.2), toNat_sub_eq_zero]
      refine iff_of_false hab ?_
      split_ifs with ha hb hb
      · exact fun _ => hab (ha.trans hb.symm)
      · simp
      · simp
      · exact fun hx => hab (cons.inj hx).1

theorem namecmp_eq_zero (p q : CStr) : namecmp p q = 0 ↔ key p = key q := strncmp_eq_zero DIRSIZ p q

theorem length_strncpy : ∀ (n : ℕ) (t : CStr), (strncpy t n).length = n
  | 0, _ => rfl
  | n + 1, t => by
    rw [strncpy]
    split_ifs
    · rw [length_cons, length_strncpy n]
    · simp

theorem strncpy_takeWhile : ∀ (n : ℕ) (t : CStr),
    ((strncpy t n).take n).takeWhile (· ≠ 0) = (t.take n).takeWhile (· ≠ 0)
  | 0, _ => rfl
  | n + 1, t => by
    rw [strncpy, takeWhile_take_succ t]
    by_cases ht : t.headD 0 = 0
    · rw [if_neg (by simpa using ht), if_pos ht]
      simp
    · rw [if_pos ht, if_neg ht, take_succ_cons, takeWhile_cons, strncpy_takeWhile n]
      exact if_pos (by simpa using ht)

theorem key_strncpy (t : CStr) : key (strncpy t DIRSIZ) = key t := strncpy_takeWhile DIRSIZ t

theorem length_direntBytes (inum : ℕ) (t : CStr) :
    (Dirent.bytes ⟨inum, strncpy t DIRSIZ⟩).length = DESIZE := by
  rw [Dirent.bytes, length_append, length_strncpy]
  rfl

theorem dirent_bytes {inum : ℕ} (h : inum < 65536) (t : List UInt8) :
    dirent (Dirent.bytes ⟨inum, t⟩) = ⟨inum, t⟩ := by
  simp only [dirent, Dirent.bytes, cons_append, nil_append, getD_cons_zero,
    getD_cons_succ, UInt8.toNat_ofNat', drop_succ_cons, drop_zero, Dirent.mk.injEq,
    and_true]
  omega

/-! ### Entries -/

def nslots (a : List UInt8) : ℕ := a.length / DESIZE

def slot (a : List UInt8) (k : ℕ) : Dirent := dirent ((a.drop (DESIZE * k)).take DESIZE)

theorem getElem?_overwrite {a src : List UInt8} {off : ℕ} (h : off ≤ a.length) (x : ℕ) :
    (a.take off ++ src ++ a.drop (off + src.length))[x]? =
      if off ≤ x ∧ x < off + src.length then src[x - off]? else a[x]? := by
  have hlen : (a.take off).length = off := by rw [length_take]; omega
  by_cases hlow : x < off
  · rw [if_neg (by omega), append_assoc, List.getElem?_append_left (by omega),
      List.getElem?_take_of_lt hlow]
  · by_cases hmid : x < off + src.length
    · rw [if_pos ⟨by omega, hmid⟩, List.getElem?_append_left (by simp; omega),
        List.getElem?_append_right (by omega), hlen]
    · rw [if_neg (by omega), List.getElem?_append_right (by simp; omega), List.getElem?_drop]
      congr 1
      simp only [length_append, hlen]
      omega

variable {k : ℕ}

theorem slot_overwrite {a src : List UInt8} (hsrc : src.length = DESIZE)
    (hk : DESIZE * k ≤ a.length) (j : ℕ) :
    slot (a.take (DESIZE * k) ++ src ++ a.drop (DESIZE * k + src.length)) j =
      if j = k then dirent src else slot a j := by
  have hget : ∀ (l : List UInt8) (r : ℕ), ((l.drop (DESIZE * j)).take DESIZE)[r]? =
      if r < DESIZE then l[DESIZE * j + r]? else none := fun l r => by
    rw [List.getElem?_take, List.getElem?_drop]
  have hwin : ((a.take (DESIZE * k) ++ src ++ a.drop (DESIZE * k + src.length)).drop
      (DESIZE * j)).take DESIZE = if j = k then src else (a.drop (DESIZE * j)).take DESIZE := by
    refine ext_getElem? fun r => ?_
    rw [hget, getElem?_overwrite hk]
    split_ifs with hr hin hjk hjk hjk
    · rw [hjk, Nat.add_sub_cancel_left]
    · simp only [DESIZE] at *
      omega
    · simp only [DESIZE] at *
      omega
    · rw [hget, if_pos hr]
    · rw [hjk] at *
      exact (List.getElem?_eq_none (by omega)).symm
    · rw [hget, if_neg hr]
  rw [slot, hwin]
  split_ifs <;> rfl

variable {sb devsw} {s : St} {dp : ℕ} {name : CStr}

structure IsDir (sb : Super) (s : St) (dp : ℕ) : Prop where
  owned : Owned sb s
  live : Live s dp
  type : (s.inode dp).type = T_DIR
  whole : DESIZE ∣ (bytes s dp).length

theorem IsDir.length_eq (h : IsDir sb s dp) :
    (bytes s dp).length = DESIZE * nslots (bytes s dp) := (Nat.mul_div_cancel' h.whole).symm

theorem IsDir.lt_size (h : IsDir sb s dp) :
    DESIZE * k < (s.inode dp).size ↔ k < nslots (bytes s dp) := by
  rw [← length_bytes, h.length_eq]
  exact Nat.mul_lt_mul_left (by decide)

theorem range'_of_lt {n : ℕ} (hk : k < n) :
    range' k (n - k) = k :: range' (k + 1) (n - (k + 1)) := by
  rw [show n - k = n - (k + 1) + 1 by omega, range'_succ]

theorem IsDir.bound (h : IsDir sb s dp) : (bytes s dp).length ≤ MAXFILE * BSIZE := by
  rw [length_bytes]
  exact h.owned.bound dp h.live

theorem IsDir.not_dev (h : IsDir sb s dp) : (s.inode dp).type ≠ T_DEV := by
  rw [h.type]
  decide

theorem readDirent_run (h : IsDir sb s dp) (hk : k < nslots (bytes s dp)) (msg : String) :
    readDirent sb devsw dp (DESIZE * k) msg s = (.ok (slot (bytes s dp) k), s) := by
  have hlen := h.length_eq
  have hbound := h.bound
  have hend : DESIZE * k + DESIZE ≤ (bytes s dp).length := by
    rw [hlen]
    exact Nat.mul_le_mul_left DESIZE hk
  have hmax : MAXFILE * BSIZE < 2 ^ 32 := by decide
  have hde : DESIZE < 2 ^ 32 := by decide
  unfold readDirent
  rw [bind_apply, readi_run h.owned h.live h.not_dev (by omega) hde,
    if_pos ⟨by omega, by omega⟩]
  simp only
  rw [if_pos (by rw [length_take, length_drop]; omega)]
  rfl

def Hit (a : List UInt8) (name : CStr) (k : ℕ) : Prop :=
  (slot a k).inum ≠ 0 ∧ key name = key (slot a k).name

instance (a : List UInt8) (name : CStr) (k : ℕ) : Decidable (Hit a name k) :=
  inferInstanceAs (Decidable (_ ∧ _))

theorem dirlookupLoop_run (h : IsDir sb s dp) : ∀ (turns k : ℕ),
    nslots (bytes s dp) - k < turns →
    dirlookupLoop sb devsw dp name turns (DESIZE * k) s =
      (.ok (((range' k (nslots (bytes s dp) - k)).find? (fun j => Hit (bytes s dp) name j)).map
        fun j => ((slot (bytes s dp) j).inum, DESIZE * j)), s)
  | 0, _, hturns => absurd hturns (Nat.not_lt_zero _)
  | turns + 1, k, hturns => by
    unfold dirlookupLoop
    simp only [bind_apply, get_apply]
    rcases Nat.lt_or_ge k (nslots (bytes s dp)) with hk | hk
    · have hnext := dirlookupLoop_run h turns (k + 1) (by omega)
      rw [if_pos (h.lt_size.mpr hk), bind_apply, readDirent_run h hk, range'_of_lt hk,
        List.find?_cons]
      simp only
      rw [mul_succ] at hnext
      by_cases hzero : (slot (bytes s dp) k).inum = 0
      · rw [if_pos hzero, hnext, decide_eq_false (fun hx => hx.1 hzero)]
      · rw [if_neg hzero]
        by_cases hkey : key name = key (slot (bytes s dp) k).name
        · rw [if_pos ((namecmp_eq_zero _ _).mpr hkey), decide_eq_true ⟨hzero, hkey⟩]
          rfl
        · rw [if_neg fun hx => hkey ((namecmp_eq_zero _ _).mp hx), hnext,
            decide_eq_false fun hx => hkey hx.2]
    · rw [if_neg fun hlt => Nat.not_lt.mpr hk (h.lt_size.mp hlt), Nat.sub_eq_zero_of_le hk]
      rfl

theorem dirlookup_run (h : IsDir sb s dp) : dirlookup sb devsw dp name s =
    (.ok (((range (nslots (bytes s dp))).find? (fun j => Hit (bytes s dp) name j)).map
      fun j => ((slot (bytes s dp) j).inum, DESIZE * j)), s) := by
  have hloop : dirlookupLoop sb devsw dp name ((s.inode dp).size / DESIZE + 1) (DESIZE * 0) s = _ :=
    dirlookupLoop_run h _ 0 (by rw [← length_bytes]; exact lt_succ_self _)
  rw [Nat.mul_zero, Nat.sub_zero, ← range_eq_range'] at hloop
  unfold dirlookup
  rw [bind_apply, get_apply]
  simp only [h.type, if_true]
  exact hloop

/-- The entry `dirlink` writes: the first free one, or a new one at the end. -/
def freeSlot (a : List UInt8) : ℕ :=
  ((range (nslots a)).find? (fun j => (slot a j).inum = 0)).getD (nslots a)

theorem emptyLoop_run (h : IsDir sb s dp) : ∀ (turns k : ℕ), nslots (bytes s dp) - k < turns →
    k ≤ nslots (bytes s dp) →
    emptyLoop sb devsw dp turns (DESIZE * k) s =
      (.ok (DESIZE * ((range' k (nslots (bytes s dp) - k)).find?
        (fun j => (slot (bytes s dp) j).inum = 0)).getD (nslots (bytes s dp))), s)
  | 0, _, hturns, _ => absurd hturns (Nat.not_lt_zero _)
  | turns + 1, k, hturns, hle => by
    unfold emptyLoop
    simp only [bind_apply, get_apply]
    rcases Nat.lt_or_ge k (nslots (bytes s dp)) with hk | hk
    · have hnext := emptyLoop_run h turns (k + 1) (by omega) hk
      rw [if_pos (h.lt_size.mpr hk), bind_apply, readDirent_run h hk, range'_of_lt hk,
        List.find?_cons]
      simp only
      rw [mul_succ] at hnext
      by_cases hzero : (slot (bytes s dp) k).inum = 0
      · rw [if_pos hzero, decide_eq_true hzero]
        rfl
      · rw [if_neg hzero, hnext, decide_eq_false hzero]
    · rw [if_neg fun hlt => Nat.not_lt.mpr hk (h.lt_size.mp hlt), Nat.sub_eq_zero_of_le hk,
        Nat.le_antisymm hle hk]
      rfl

/-! ### Finite maps -/

/-- The directory with contents `a` is the map `m` from keys to inode numbers, 0 where there is none:
  its live entries have different keys, and they are the map. -/
structure Names (a : List UInt8) (m : List UInt8 → ℕ) : Prop where
  distinct : ∀ j k, j < nslots a → k < nslots a → (slot a j).inum ≠ 0 → (slot a k).inum ≠ 0 →
    key (slot a j).name = key (slot a k).name → j = k
  entry : ∀ k, k < nslots a → (slot a k).inum ≠ 0 → m (key (slot a k).name) = (slot a k).inum
  only : ∀ c, m c ≠ 0 → ∃ k, k < nslots a ∧ (slot a k).inum ≠ 0 ∧ key (slot a k).name = c

variable {a : List UInt8} {m : List UInt8 → ℕ}

theorem Names.find (h : Names a m) (name : CStr) :
    match (range (nslots a)).find? (fun j => Hit a name j) with
    | none => m (key name) = 0
    | some k => k < nslots a ∧ (slot a k).inum = m (key name) ∧ m (key name) ≠ 0 ∧
        key (slot a k).name = key name := by
  cases hf : (range (nslots a)).find? (fun j => Hit a name j) with
  | none =>
    by_contra hm
    obtain ⟨k, hk, hlive, hkey⟩ := h.only _ hm
    have := List.find?_eq_none.mp hf k (mem_range.mpr hk)
    exact this (decide_eq_true ⟨hlive, hkey.symm⟩)
  | some k =>
    have hk : k < nslots a := mem_range.mp (List.mem_of_find?_eq_some hf)
    have htest := List.find?_some hf
    have hhit : Hit a name k := of_decide_eq_true htest
    have hm : m (key name) = (slot a k).inum := by
      rw [hhit.2]
      exact h.entry k hk hhit.1
    exact ⟨hk, hm.symm, hm ▸ hhit.1, hhit.2.symm⟩

theorem Names.insert (h : Names a m) {a' : List UInt8} {inum : ℕ} {nm : List UInt8}
    (hslots : ∀ j, slot a' j = if j = k then ⟨inum, nm⟩ else slot a j)
    (hn : ∀ j, j < nslots a' ↔ j < nslots a ∨ j = k) (hfree : k < nslots a → (slot a k).inum = 0)
    (hinum : inum ≠ 0) (hnew : m (key nm) = 0) : Names a' (update m (key nm) inum) := by
  have hold : ∀ j, j < nslots a' → j ≠ k → j < nslots a := fun j hj hjk =>
    ((hn j).mp hj).resolve_right hjk
  -- no live entry has the key of the new one
  have hother : ∀ j, j < nslots a → (slot a j).inum ≠ 0 → key (slot a j).name ≠ key nm := by
    intro j hj hlive hx
    have := h.entry j hj hlive
    rw [hx, hnew] at this
    exact hlive this.symm
  refine ⟨?_, ?_, ?_⟩
  · intro i j hi hj hli hlj hkey
    rw [hslots] at hli hlj hkey
    rw [hslots j] at hkey
    split_ifs at hli hlj hkey with hik hjk hjk
    · rw [hik, hjk]
    · exact absurd hkey.symm (hother j (hold j hj hjk) hlj)
    · exact absurd hkey (hother i (hold i hi hik) hli)
    · exact h.distinct i j (hold i hi hik) (hold j hj hjk) hli hlj hkey
  · intro j hj hlj
    rw [hslots] at hlj ⊢
    split_ifs at hlj ⊢ with hjk
    · exact update_self _ _ _
    · rw [update_of_ne (hother j (hold j hj hjk) hlj)]
      exact h.entry j (hold j hj hjk) hlj
  · intro c hc
    by_cases hck : c = key nm
    · exact ⟨k, (hn k).mpr (.inr rfl), by rw [hslots, if_pos rfl]; exact hinum,
        by rw [hslots, if_pos rfl, hck]⟩
    · rw [update_of_ne hck] at hc
      obtain ⟨j, hj, hlive, hkey⟩ := h.only c hc
      have hjk : j ≠ k := fun hx => hlive (hx ▸ hfree (hx ▸ hj))
      exact ⟨j, (hn j).mpr (.inl hj), by rw [hslots, if_neg hjk]; exact hlive,
        by rw [hslots, if_neg hjk, hkey]⟩

theorem Names.remove (h : Names a m) {a' : List UInt8} {de : Dirent} (hde : de.inum = 0)
    (hslots : ∀ j, slot a' j = if j = k then de else slot a j) (hn : nslots a' = nslots a)
    (hk : k < nslots a) (hlive : (slot a k).inum ≠ 0) :
    Names a' (update m (key (slot a k).name) 0) := by
  refine ⟨?_, ?_, ?_⟩
  · intro i j hi hj hli hlj hkey
    rw [hn] at hi hj
    rw [hslots] at hli hlj hkey
    rw [hslots j] at hkey
    split_ifs at hli hlj hkey with hik hjk hjk
    · exact absurd hde hli
    · exact absurd hde hli
    · exact absurd hde hlj
    · exact h.distinct i j hi hj hli hlj hkey
  · intro j hj hlj
    rw [hn] at hj
    rw [hslots] at hlj ⊢
    split_ifs at hlj ⊢ with hjk
    · exact absurd hde hlj
    · have hne : key (slot a j).name ≠ key (slot a k).name := fun hx =>
        hjk (h.distinct j k hj hk hlj hlive hx)
      rw [update_of_ne hne]
      exact h.entry j hj hlj
  · intro c hc
    have hck : c ≠ key (slot a k).name := fun hx => by
      rw [hx, update_self] at hc
      exact hc rfl
    rw [update_of_ne hck] at hc
    obtain ⟨j, hj, hlj, hkey⟩ := h.only c hc
    have hjk : j ≠ k := fun hx => hck (by rw [← hkey, hx])
    exact ⟨j, hn ▸ hj, by rw [hslots, if_neg hjk]; exact hlj, by rw [hslots, if_neg hjk, hkey]⟩

def dirMap (a : List UInt8) (c : List UInt8) : ℕ :=
  match (range (nslots a)).find?
      (fun k => (slot a k).inum ≠ 0 ∧ key (slot a k).name = c) with
  | some k => (slot a k).inum
  | none => 0

theorem names_dirMap (h : ∀ j k, j < nslots a → k < nslots a → (slot a j).inum ≠ 0 →
    (slot a k).inum ≠ 0 → key (slot a j).name = key (slot a k).name → j = k) :
    Names a (dirMap a) := by
  refine ⟨h, fun k hk hlive => ?_, fun c hc => ?_⟩
  · unfold dirMap
    cases hf : (range (nslots a)).find?
        (fun j => (slot a j).inum ≠ 0 ∧ key (slot a j).name = key (slot a k).name) with
    | none =>
      have := List.find?_eq_none.mp hf k (mem_range.mpr hk)
      exact absurd (decide_eq_true ⟨hlive, rfl⟩) this
    | some j =>
      have htest := List.find?_some hf
      have hj := of_decide_eq_true htest
      have hlt : j < nslots a := mem_range.mp (List.mem_of_find?_eq_some hf)
      rw [h j k hlt hk hj.1 hlive hj.2]
  · unfold dirMap at hc
    cases hf : (range (nslots a)).find?
        (fun k => (slot a k).inum ≠ 0 ∧ key (slot a k).name = c) with
    | none =>
      rw [hf] at hc
      exact absurd rfl hc
    | some k =>
      have htest := List.find?_some hf
      have hk := of_decide_eq_true htest
      exact ⟨k, mem_range.mp (List.mem_of_find?_eq_some hf), hk.1, hk.2⟩

/-! ### The calls -/

theorem writeDirent_ends (h : IsDir sb s dp) (hk : k ≤ nslots (bytes s dp)) {bs : List UInt8}
    (hbs : bs.length = DESIZE) (msg : String) :
    Prog.Ends (fun e => OutOfBlocks e ∨ e = msg ∧ MAXFILE * BSIZE < DESIZE * k + DESIZE) s
      (writeDirent sb devsw dp (DESIZE * k) bs msg) fun _ s' => IsDir sb s' dp ∧
        (∀ j, slot (bytes s' dp) j = if j = k then dirent bs else slot (bytes s dp) j) ∧
        ∀ j, j < nslots (bytes s' dp) ↔ j < nslots (bytes s dp) ∨ j = k := by
  have hlen := h.length_eq
  have hbound := h.bound
  have hoff : DESIZE * k ≤ (bytes s dp).length := by
    rw [hlen]
    exact Nat.mul_le_mul_left DESIZE hk
  have hmax : MAXFILE * BSIZE + DESIZE < 2 ^ 32 := by decide
  have hde : DESIZE < 2 ^ 32 := by decide
  have hwrite : Prog.Ends OutOfBlocks s (writei sb devsw dp (DESIZE * k) bs) _ :=
    writei_ends h.owned h.live h.not_dev (by omega) (by omega)
  refine (hwrite.mono (fun _ => .inl) fun _ _ => id).bind ?_
  intro r s' hr
  have hresult := hr.result
  have hself := hr.self
  rw [Call.inum, act] at hresult hself
  by_cases hok : DESIZE * k ≤ (bytes s dp).length ∧ DESIZE * k + bs.length < 2 ^ 32 ∧
      DESIZE * k + bs.length ≤ MAXFILE * BSIZE
  · rw [if_pos hok] at hresult hself
    obtain rfl : r = some bs.length := Result.count.inj hresult
    have hlen' : (bytes s' dp).length = DESIZE * max (nslots (bytes s dp)) (k + 1) := by
      rw [hself, ← Nat.mul_max_mul_left, ← hlen, mul_succ]
      simp only [length_append, length_take, length_drop]
      omega
    rw [hbs, if_pos rfl]
    refine .ok rfl ⟨⟨hr.owned, by rw [Live, hr.type]; exact h.live, by rw [hr.type]; exact h.type,
      ⟨_, hlen'⟩⟩, fun j => ?_, fun j => ?_⟩
    · rw [hself]
      exact slot_overwrite hbs hoff j
    · rw [nslots, hlen', Nat.mul_div_cancel_left _ (by decide)]
      omega
  · rw [if_neg hok] at hresult
    obtain rfl : r = none := Result.count.inj hresult
    rw [if_neg (by simp)]
    exact .inr ⟨rfl, by omega⟩

inductive DirCall where
  | lookup (name : CStr)
  | link (name : CStr) (inum : ℕ)
  | unlink (name : CStr)

inductive DirResult where
  | inum (n : ℕ)
  | ok (b : Bool)
  deriving DecidableEq

def execDir (sb : Super) (devsw : Devsw) (dp : ℕ) : DirCall → K DirResult
  | .lookup name => do
    match ← dirlookup sb devsw dp name with
    | some (inum, _) => pure (.inum inum)
    | none => pure (.inum 0)
  | .link name inum => do pure (.ok (← dirlink sb devsw dp name inum))
  | .unlink name => do pure (.ok (← dirunlink sb devsw dp name))

def actDir (m : List UInt8 → ℕ) : DirCall → DirResult × (List UInt8 → ℕ)
  | .lookup name => (.inum (m (key name)), m)
  | .link name inum =>
    if m (key name) = 0 then (.ok true, update m (key name) inum) else (.ok false, m)
  | .unlink name =>
    if m (key name) = 0 then (.ok false, m) else (.ok true, update m (key name) 0)

def DirCall.Proper : DirCall → Prop
  | .link _ inum => 0 < inum ∧ inum < 65536
  | .lookup _ | .unlink _ => True

/-- `panic("dirlink")`: no entry is free and the directory has the largest size. -/
def NoRoom (s : St) (dp : ℕ) (msg : String) : Prop :=
  msg = "dirlink" ∧ (∀ k, k < nslots (bytes s dp) → (slot (bytes s dp) k).inum ≠ 0) ∧
    MAXFILE * BSIZE < (s.inode dp).size + DESIZE

def RefinesMap (sb : Super) (dp : ℕ) (m : List UInt8 → ℕ) (c : DirCall) (r : DirResult) (s' : St) :
    Prop :=
  r = (actDir m c).1 ∧ IsDir sb s' dp ∧ Names (bytes s' dp) (actDir m c).2

theorem freeSlot_spec (a : List UInt8) : freeSlot a ≤ nslots a ∧
    (freeSlot a < nslots a → (slot a (freeSlot a)).inum = 0) ∧
    (¬ freeSlot a < nslots a → freeSlot a = nslots a ∧
      ∀ k, k < nslots a → (slot a k).inum ≠ 0) := by
  unfold freeSlot
  cases hf : (range (nslots a)).find? (fun j => (slot a j).inum = 0) with
  | none =>
    refine ⟨le_rfl, fun hx => absurd hx (Nat.lt_irrefl _), fun _ => ⟨rfl, fun k hk => ?_⟩⟩
    have := List.find?_eq_none.mp hf k (mem_range.mpr hk)
    simpa using this
  | some k =>
    have htest := List.find?_some hf
    have hk : k < nslots a := mem_range.mp (List.mem_of_find?_eq_some hf)
    exact ⟨hk.le, fun _ => of_decide_eq_true htest, fun hx => absurd hk hx⟩

theorem dirlink_ends (h : IsDir sb s dp) (hm : Names (bytes s dp) m) {inum : ℕ}
    (hpos : 0 < inum) (hlt : inum < 65536) :
    Prog.Ends (fun e => OutOfBlocks e ∨ NoRoom s dp e) s (dirlink sb devsw dp name inum)
      fun b s' => RefinesMap sb dp m (.link name inum) (.ok b) s' := by
  have hfind := hm.find name
  refine .ok_bind (dirlookup_run h) ?_
  cases hf : (range (nslots (bytes s dp))).find? (fun j => Hit (bytes s dp) name j) with
  | some k =>
    rw [hf] at hfind
    refine .ok rfl ⟨?_, h, ?_⟩
    · rw [actDir, if_neg hfind.2.2.1]
    · rw [actDir, if_neg hfind.2.2.1]
      exact hm
  | none =>
    rw [hf] at hfind
    obtain ⟨hle, hfree, hfull⟩ := freeSlot_spec (bytes s dp)
    have hempty : emptyLoop sb devsw dp ((s.inode dp).size / DESIZE + 1) (DESIZE * 0) s = _ :=
      emptyLoop_run h _ 0 (by rw [← length_bytes]; exact lt_succ_self _) (Nat.zero_le _)
    rw [Nat.sub_zero, ← range_eq_range', Nat.mul_zero] at hempty
    refine .ok_bind rfl (.ok_bind hempty ?_)
    have hwrite : Prog.Ends _ s (writeDirent sb devsw dp (DESIZE * freeSlot (bytes s dp))
        (Dirent.bytes ⟨inum, strncpy name DIRSIZ⟩) "dirlink") _ :=
      writeDirent_ends h hle (length_direntBytes inum name) "dirlink"
    refine (hwrite.mono ?_ fun _ _ => id).bind ?_
    · rintro e (he | ⟨he, hroom⟩)
      · exact .inl he
      · -- a free entry inside the directory always fits
        have hlen := h.length_eq
        have hbound := h.bound
        have hlast : ¬ freeSlot (bytes s dp) < nslots (bytes s dp) := fun hx => by
          have := Nat.mul_le_mul_left DESIZE (succ_le_of_lt hx)
          rw [mul_succ] at this
          omega
        obtain ⟨heq, hlive⟩ := hfull hlast
        refine .inr ⟨he, hlive, ?_⟩
        rw [← length_bytes, hlen, ← heq]
        exact hroom
    · rintro _ s' ⟨hdir, hslots, hn⟩
      refine .ok rfl ⟨?_, hdir, ?_⟩
      · rw [actDir, if_pos hfind]
      · rw [actDir, if_pos hfind, ← key_strncpy name]
        refine hm.insert (k := freeSlot (bytes s dp)) ?_ hn hfree hpos.ne' ?_
        · intro j
          rw [hslots, dirent_bytes hlt]
        · rw [key_strncpy]
          exact hfind

theorem dirunlink_ends (h : IsDir sb s dp) (hm : Names (bytes s dp) m) :
    Prog.Ends OutOfBlocks s (dirunlink sb devsw dp name)
      fun b s' => RefinesMap sb dp m (.unlink name) (.ok b) s' := by
  have hfind := hm.find name
  refine .ok_bind (dirlookup_run h) ?_
  cases hf : (range (nslots (bytes s dp))).find? (fun j => Hit (bytes s dp) name j) with
  | none =>
    rw [hf] at hfind
    refine .ok rfl ⟨?_, h, ?_⟩
    · rw [actDir, if_pos hfind]
    · rw [actDir, if_pos hfind]
      exact hm
  | some k =>
    rw [hf] at hfind
    obtain ⟨hk, hinum, hne, hkey⟩ := hfind
    have hwrite : Prog.Ends _ s (writeDirent sb devsw dp (DESIZE * k) (replicate DESIZE 0)
        "unlink: writei") _ :=
      writeDirent_ends h hk.le length_replicate "unlink: writei"
    refine (hwrite.mono ?_ fun _ _ => id).bind ?_
    · rintro e (he | ⟨_, hroom⟩)
      · exact he
      · have hlen := h.length_eq
        have hbound := h.bound
        have := Nat.mul_le_mul_left DESIZE (succ_le_of_lt hk)
        rw [mul_succ] at this
        omega
    · rintro _ s' ⟨hdir, hslots, hn⟩
      refine .ok rfl ⟨?_, hdir, ?_⟩
      · rw [actDir, if_neg hne]
      · rw [actDir, if_neg hne, ← hkey]
        refine hm.remove (by decide) hslots ?_ hk (hinum ▸ hne)
        refine Nat.le_antisymm ?_ ?_
        · by_contra hx
          rcases (hn _).mp (Nat.not_le.mp hx) with hlt | heq
          · exact absurd hlt (Nat.lt_irrefl _)
          · omega
        · by_contra hx
          exact absurd ((hn _).mpr (.inl (Nat.not_le.mp hx))) (Nat.lt_irrefl _)

theorem execDir_ends (h : IsDir sb s dp) (hm : Names (bytes s dp) m) : ∀ {c : DirCall}, c.Proper →
    Prog.Ends (fun e => OutOfBlocks e ∨ NoRoom s dp e) s (execDir sb devsw dp c)
      (RefinesMap sb dp m c)
  | .lookup name, _ => by
    have hfind := hm.find name
    refine .ok_bind (dirlookup_run h) ?_
    cases hf : (range (nslots (bytes s dp))).find? (fun j => Hit (bytes s dp) name j) with
    | none =>
      rw [hf] at hfind
      exact .ok rfl ⟨by rw [actDir, hfind], h, hm⟩
    | some k =>
      rw [hf] at hfind
      exact .ok rfl ⟨by rw [actDir, hfind.2.1], h, hm⟩
  | .link name inum, hc => (dirlink_ends h hm hc.1 hc.2).bind fun _ _ hr => .ok rfl hr
  | .unlink name, _ =>
    ((dirunlink_ends h hm).mono (fun _ => .inl) fun _ _ => id).bind fun _ _ hr => .ok rfl hr

/-! ### Sequences of calls -/

def runDir (sb : Super) (devsw : Devsw) (dp : ℕ) : List DirCall → K (List DirResult)
  | [] => pure []
  | c :: cs => do
    let r ← execDir sb devsw dp c
    let rs ← runDir sb devsw dp cs
    pure (r :: rs)

def replayDir (m : List UInt8 → ℕ) : List DirCall → List DirResult × (List UInt8 → ℕ)
  | [] => ([], m)
  | c :: cs => ((actDir m c).1 :: (replayDir (actDir m c).2 cs).1, (replayDir (actDir m c).2 cs).2)

theorem runDir_ends : ∀ (cs : List DirCall) (s : St) (m : List UInt8 → ℕ), IsDir sb s dp →
    Names (bytes s dp) m → (∀ c ∈ cs, c.Proper) →
    Prog.Ends (fun e => OutOfBlocks e ∨ e = "dirlink") s (runDir sb devsw dp cs) fun rs s' =>
      rs = (replayDir m cs).1 ∧ IsDir sb s' dp ∧ Names (bytes s' dp) (replayDir m cs).2
  | [], s, m, h, hm, _ => .ok rfl ⟨rfl, h, hm⟩
  | c :: cs, s, m, h, hm, hc => by
    have hone : Prog.Ends _ s (execDir sb devsw dp c) _ :=
      execDir_ends h hm (hc c mem_cons_self)
    refine (hone.mono (fun e he => he.imp_right fun hx => hx.1) fun _ _ => id).bind ?_
    rintro r s1 ⟨hr, hdir, hnames⟩
    have hrest : Prog.Ends _ s1 (runDir sb devsw dp cs) _ :=
      runDir_ends cs s1 _ hdir hnames fun c' hc' => hc c' (mem_cons_of_mem _ hc')
    refine hrest.bind ?_
    rintro rs s2 ⟨hrs, hdir', hnames'⟩
    exact .ok rfl ⟨by rw [hr, hrs]; rfl, hdir', hnames'⟩

/-- Directories are finite maps. On a directory of whole entries whose live ones have different
  names, any sequence of lookups, `dirlink`s and removals returns what it returns on their map, and
  leaves such a directory: a lookup gives the number last linked and not since removed, or 0; a link
  fails exactly if the name is present. It stops only when the disk is exhausted or the directory is
  full. -/
theorem directories_refine_maps (sb : Super) (devsw : Devsw) (s : St) (dp : ℕ) (h : IsDir sb s dp)
    (hdistinct : ∀ j k, j < nslots (bytes s dp) → k < nslots (bytes s dp) →
      (slot (bytes s dp) j).inum ≠ 0 → (slot (bytes s dp) k).inum ≠ 0 →
      key (slot (bytes s dp) j).name = key (slot (bytes s dp) k).name → j = k) :
    (∀ cs : List DirCall, (∀ c ∈ cs, c.Proper) →
      Prog.Ends (fun e => OutOfBlocks e ∨ e = "dirlink") s (runDir sb devsw dp cs) fun rs s' =>
        rs = (replayDir (dirMap (bytes s dp)) cs).1 ∧ IsDir sb s' dp ∧
        Names (bytes s' dp) (replayDir (dirMap (bytes s dp)) cs).2) ∧
    ∀ c : DirCall, c.Proper → Prog.Ends (fun e => OutOfBlocks e ∨ NoRoom s dp e) s
      (execDir sb devsw dp c) (RefinesMap sb dp (dirMap (bytes s dp)) c) :=
  ⟨fun cs hcs => runDir_ends cs s _ h (names_dirMap hdistinct) hcs,
    fun _ hc => execDir_ends h (names_dirMap hdistinct) hc⟩

def emptyDir : St where
  data := fun _ _ => 0
  used := fun b => decide (b < 10)
  dinode := fun i => ⟨if i = 1 then T_DIR else 0, 0, 0, 1, 0, fun _ => 0⟩
  inode := fun i => ⟨if i = 1 then T_DIR else 0, 0, 0, 1, 0, fun _ => 0⟩

theorem owned_emptyDir : Owned twentyBlocks emptyDir :=
  .of_empty (fun _ => ⟨rfl, rfl⟩) fun b => by simp [emptyDir, twentyBlocks]

theorem isDir_emptyDir : IsDir twentyBlocks emptyDir 1 :=
  ⟨owned_emptyDir, by simp [Live, emptyDir, T_DIR], rfl, by simp [bytes, emptyDir]⟩

def longName : CStr := replicate 15 65

/-- A name of fifteen characters is linked, and looked up by its first fourteen; then its entry is
  removed and taken by another name. -/
def reuse : List DirCall :=
  [.link longName 5, .lookup (longName.take 14), .link (longName.take 14) 6, .unlink longName,
    .link [66] 7, .lookup longName, .lookup [66]]

theorem directories_refine_maps_reuse :
    IsDir twentyBlocks emptyDir 1 ∧ (∀ c ∈ reuse, c.Proper) ∧
    ∃ rs s', runDir twentyBlocks noDevices 1 reuse emptyDir = (.ok rs, s') ∧
      rs = (replayDir (dirMap (bytes emptyDir 1)) reuse).1 ∧
      rs = [.ok true, .inum 5, .ok false, .ok true, .ok true, .inum 0, .inum 7] := by
  have hproper : ∀ c ∈ reuse, c.Proper := by
    simp [reuse, DirCall.Proper]
  have hnone : nslots (bytes emptyDir 1) = 0 := by simp [nslots, bytes, emptyDir]
  have hends := (directories_refine_maps twentyBlocks noDevices emptyDir 1 isDir_emptyDir
    (fun j _ hj => absurd (hnone ▸ hj) (Nat.not_lt_zero j))).1 reuse hproper
  have hrun : (runDir twentyBlocks noDevices 1 reuse emptyDir).1.toOption =
      some [.ok true, .inum 5, .ok false, .ok true, .ok true, .inum 0, .inum 7] := by
    decide +kernel
  obtain ⟨s', hr, hresults, -⟩ := hends.of_ok hrun
  exact ⟨isDir_emptyDir, hproper, _, s', hr, hresults, rfl⟩

end Xv6.Fs

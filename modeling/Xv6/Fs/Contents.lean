import Xv6.Fs.Blocks

/-! @src fs.c | part:inode contents as byte arrays | scheme:prog

  What an inode is for: an array of bytes that `writei` overwrites and extends, `itrunc` empties and
  `readi` reads. The arrays are independent, though their blocks share one disk.

      readi, writei, itrunc on St  --bytes-->  act on one List UInt8 -/

namespace Xv6.Fs
open Schemes Prog
open List (range nodup_range)
open List
open Function

variable {sb : Super} {devsw : Devsw} {s s' : St} {i j : ℕ}

/-! ### Truncation -/

/-- The bitmap after the blocks in `as` have been freed; 0 in the list is no block. -/
def unuse (u : ℕ → Bool) (as : List ℕ) : ℕ → Bool := fun b => u b && (decide (b = 0) || decide (b ∉ as))

theorem unuse_nil (u : ℕ → Bool) : unuse u [] = u := by
  funext b
  simp [unuse]

theorem unuse_cons_zero (u : ℕ → Bool) (as : List ℕ) : unuse u (0 :: as) = unuse u as := by
  funext b
  by_cases hb : b = 0 <;> simp [unuse, hb]

theorem unuse_cons {a : ℕ} (ha : a ≠ 0) (u : ℕ → Bool) (as : List ℕ) :
    unuse (update u a false) as = unuse u (a :: as) := by
  funext b
  unfold unuse
  rcases eq_or_ne b a with rfl | hb
  · simp [ha]
  · simp [hb]

theorem unuse_append (u : ℕ → Bool) : ∀ as bs : List ℕ, unuse (unuse u as) bs = unuse u (as ++ bs) := by
  intro as bs
  funext b
  by_cases hb : b = 0 <;> simp [unuse, hb, Bool.and_assoc]

def Freeable (u : ℕ → Bool) (as : List ℕ) : Prop :=
  (∀ a ∈ as, a ≠ 0 → u a = true) ∧ (as.filter (· ≠ 0)).Nodup

variable {u : ℕ → Bool} {as : List ℕ}

theorem Freeable.tail {a : ℕ} (h : Freeable u (a :: as)) (ha : a ≠ 0) :
    u a = true ∧ Freeable (update u a false) as := by
  obtain ⟨hused, hnd⟩ := h
  rw [filter_cons_of_pos (by simpa using ha), nodup_cons] at hnd
  refine ⟨hused a mem_cons_self ha, fun c hc hc0 => ?_, hnd.2⟩
  have hca : c ≠ a := fun hx => hnd.1 (mem_filter.mpr ⟨hx ▸ hc, by simpa using ha⟩)
  rw [update_of_ne hca]
  exact hused c (mem_cons_of_mem _ hc) hc0

theorem Freeable.tail_zero (h : Freeable u (0 :: as)) : Freeable u as := by
  refine ⟨fun c hc => h.1 c (mem_cons_of_mem _ hc), ?_⟩
  have := h.2
  rwa [filter_cons_of_neg (by simp)] at this

theorem bfree_run {b : ℕ} (h : s.used b = true) :
    bfree b s = (.ok (), { s with used := update s.used b false }) := by
  simp [bfree, bind_apply, h, setUsed]

theorem itruncIndirect_run : ∀ (as : List ℕ) (s : St), Freeable s.used as →
    itruncIndirect as s = (.ok (), { s with used := unuse s.used as })
  | [], s, _ => by rw [unuse_nil]; rfl
  | a :: as, s, h => by
    unfold itruncIndirect
    by_cases ha : a = 0
    · subst ha
      rw [if_pos rfl, itruncIndirect_run as s h.tail_zero, unuse_cons_zero]
    · obtain ⟨hused, htail⟩ := h.tail ha
      rw [if_neg ha, bind_apply, bfree_run hused]
      exact (itruncIndirect_run as { s with used := update s.used a false } htail).trans
        (by rw [unuse_cons ha])

def cleared (f : ℕ → ℕ) (ks : List ℕ) : ℕ → ℕ := fun m => if m ∈ ks then 0 else f m

theorem cleared_nil (f : ℕ → ℕ) : cleared f [] = f := by
  funext m
  simp [cleared]

theorem cleared_cons_of_zero {f : ℕ → ℕ} {k : ℕ} (hk : f k = 0) (ks : List ℕ) :
    cleared f (k :: ks) = cleared f ks := by
  funext m
  by_cases hm : m = k <;> simp [cleared, hm, hk]

theorem cleared_update (f : ℕ → ℕ) (k : ℕ) (ks : List ℕ) :
    cleared (update f k 0) ks = cleared f (k :: ks) := by
  funext m
  by_cases hm : m = k <;> simp [cleared, hm]

/-- The state after the direct blocks `ks` of an inode have been freed. -/
def truncDirect (s : St) (i : ℕ) (ks : List ℕ) : St :=
  { s with
    used := unuse s.used (ks.map (s.inode i).addrs)
    inode := update s.inode i
      { s.inode i with addrs := cleared (s.inode i).addrs ks } }

theorem itruncDirect_run (i : ℕ) : ∀ (ks : List ℕ) (s : St), ks.Nodup →
    Freeable s.used (ks.map (s.inode i).addrs) →
    itruncDirect i ks s = (.ok (), truncDirect s i ks)
  | [], s, _, _ => by
    rw [truncDirect, map_nil, unuse_nil, cleared_nil]
    simp [itruncDirect]
  | k :: ks, s, hnd, h => by
    rw [nodup_cons] at hnd
    rw [map_cons] at h
    unfold itruncDirect
    simp only [bind_apply, get_apply]
    by_cases ha : (s.inode i).addrs k = 0
    · rw [if_pos ha]
      rw [ha] at h
      rw [itruncDirect_run i ks s hnd.2 h.tail_zero, truncDirect, truncDirect, map_cons, ha,
        unuse_cons_zero, cleared_cons_of_zero ha]
    · obtain ⟨hused, htail⟩ := h.tail ha
      have hmap : ks.map (update (s.inode i).addrs k 0) = ks.map (s.inode i).addrs := by
        refine map_congr_left fun m hm => update_of_ne ?_ _ _
        rintro rfl
        exact hnd.1 hm
      rw [if_neg ha]
      simp only [bind_apply, bfree_run hused, setAddr, setInode, modify_apply]
      rw [itruncDirect_run i ks _ hnd.2 (by simpa [hmap] using htail)]
      simp only [truncDirect, update_self, hmap, unuse_cons ha, map_cons,
        update_idem, cleared_update]

theorem Freeable.append {bs : List ℕ} (h : Freeable u (as ++ bs)) :
    Freeable u as ∧ Freeable (unuse u as) bs := by
  obtain ⟨hused, hnd⟩ := h
  rw [filter_append, nodup_append] at hnd
  refine ⟨⟨fun a ha => hused a (mem_append_left _ ha), hnd.1⟩, fun b hb hb0 => ?_, hnd.2.1⟩
  have hnot : b ∉ as := fun ha => by
    have hz : decide (b ≠ 0) = true := by simpa using hb0
    exact hnd.2.2 b (mem_filter.mpr ⟨ha, hz⟩) b (mem_filter.mpr ⟨hb, hz⟩) rfl
  simp [unuse, hused b (mem_append_right _ hb) hb0, hnot]

def rootBlocks (s : St) (i : ℕ) : List ℕ :=
  if (s.inode i).addrs NDIRECT = 0 then []
  else (range NINDIRECT).map (entry (s.data ((s.inode i).addrs NDIRECT))) ++
    [(s.inode i).addrs NDIRECT]

theorem itruncRoot_run (h : Freeable s.used (rootBlocks s i)) : itruncRoot i s = (.ok (), { s with
    used := unuse s.used (rootBlocks s i)
    inode := update s.inode i
      { s.inode i with addrs := update (s.inode i).addrs NDIRECT 0 } }) := by
  unfold itruncRoot rootBlocks at *
  simp only [bind_apply, get_apply]
  by_cases hr : (s.inode i).addrs NDIRECT = 0
  · have hsame : update (s.inode i).addrs NDIRECT 0 = (s.inode i).addrs := by
      rw [update_eq_self_iff, hr]
    simp [hr, hsame, unuse_nil]
  · rw [if_neg hr] at h ⊢
    obtain ⟨hind, hlast⟩ := h.append
    have hone := (hlast.tail hr).1
    rw [if_neg hr, bind_apply, itruncIndirect_run _ _ hind]
    simp only [bind_apply]
    rw [bfree_run (s := { s with used := unuse s.used ((range NINDIRECT).map
      (entry (s.data ((s.inode i).addrs NDIRECT)))) }) hone]
    simp only [setAddr, setInode, modify_apply]
    rw [← unuse_append, ← unuse_cons hr, unuse_nil]

/-- All the blocks an inode names, in the order in which `itrunc` frees them. -/
def blocksOf (s : St) (i : ℕ) : List ℕ :=
  (range NDIRECT).map (s.inode i).addrs ++ rootBlocks s i

def emptied (d : Dinode) : Dinode :=
  { d with size := 0, addrs := cleared d.addrs (range (NDIRECT + 1)) }

def truncated (s : St) (i : ℕ) : St :=
  { s with
    used := unuse s.used (blocksOf s i)
    inode := update s.inode i (emptied (s.inode i))
    dinode := update s.dinode i (emptied (s.inode i)) }

theorem itrunc_run (h : Freeable s.used (blocksOf s i)) :
    itrunc i s = (.ok (), truncated s i) := by
  obtain ⟨hdirect, hrest⟩ := h.append
  have hself : (truncDirect s i (range NDIRECT)).inode i =
      { s.inode i with addrs := cleared (s.inode i).addrs (range NDIRECT) } :=
    update_self _ _ _
  have hroot : rootBlocks (truncDirect s i (range NDIRECT)) i = rootBlocks s i := by
    have : cleared (s.inode i).addrs (range NDIRECT) NDIRECT = (s.inode i).addrs NDIRECT := by
      simp [cleared]
    simp only [rootBlocks, hself, this]
    rfl
  have hlast : update (cleared (s.inode i).addrs (range NDIRECT)) NDIRECT 0 =
      cleared (s.inode i).addrs (range (NDIRECT + 1)) := by
    funext m
    rcases eq_or_ne m NDIRECT with rfl | hm
    · simp [cleared]
    · have hlt : m < NDIRECT + 1 ↔ m < NDIRECT := by omega
      simp only [cleared, mem_range, hlt, update_of_ne hm]
  unfold itrunc
  rw [bind_apply, itruncDirect_run i _ s nodup_range hdirect]
  simp only
  rw [bind_apply, itruncRoot_run (s := truncDirect s i (range NDIRECT)) (hroot ▸ hrest),
    hroot, hself]
  simp only [bind_apply, setInode, iupdate, modify_apply, update_self,
    update_idem, hlast]
  simp only [truncDirect, update_idem, unuse_append, truncated, blocksOf, emptied]

def slotsOf (s : St) (i : ℕ) : List Slot :=
  (range NDIRECT).map (.blk i) ++
    if (s.inode i).addrs NDIRECT = 0 then []
    else (range NINDIRECT).map (fun j => .blk i (NDIRECT + j)) ++ [.root i]

theorem blocksOf_eq (s : St) (i : ℕ) : blocksOf s i = (slotsOf s i).map (name s) := by
  have hdirect : (range NDIRECT).map (s.inode i).addrs =
      ((range NDIRECT).map (Slot.blk i)).map (name s) := by
    rw [map_map]
    refine map_congr_left fun k hk => ?_
    exact (name_direct (mem_range.mp hk)).symm
  unfold blocksOf slotsOf rootBlocks
  rw [map_append, hdirect]
  split_ifs with hr
  · rfl
  · rw [map_append, map_map]
    have hind : (range NINDIRECT).map (entry (s.data ((s.inode i).addrs NDIRECT))) =
        (range NINDIRECT).map (name s ∘ fun j => Slot.blk i (NDIRECT + j)) := by
      refine map_congr_left fun j _ => ?_
      rw [comp_apply, name_indirect (Nat.not_lt.mpr (Nat.le_add_right _ _)), if_neg hr,
        Nat.add_sub_cancel_left]
    rw [hind]
    rfl

theorem nodup_slotsOf (s : St) (i : ℕ) : (slotsOf s i).Nodup := by
  have hdirect : ((range NDIRECT).map (Slot.blk i)).Nodup :=
    nodup_range.map fun _ _ hx => (Slot.blk.inj hx).2
  unfold slotsOf
  split_ifs with hr
  · rwa [append_nil]
  · have hind : ((range NINDIRECT).map fun j => Slot.blk i (NDIRECT + j)).Nodup :=
      nodup_range.map fun _ _ hx => Nat.add_left_cancel (Slot.blk.inj hx).2
    refine nodup_append.mpr ⟨hdirect, nodup_append.mpr ⟨hind, by simp, ?_⟩, ?_⟩
    · simp
    · simp only [mem_map, mem_range, mem_append, mem_singleton]
      rintro _ ⟨k, hk, rfl⟩ _ (⟨j, _, rfl⟩ | rfl) hx
      · have := (Slot.blk.inj hx).2
        omega
      · cases hx

variable {t : Slot} {n off : ℕ} {src : List UInt8}

theorem valid_of_mem_slotsOf (hi : Live s i) (ht : t ∈ slotsOf s i) : Valid s t ∧ t.inum = i := by
  unfold slotsOf at ht
  rcases mem_append.mp ht with hd | hr
  · obtain ⟨k, hk, rfl⟩ := mem_map.mp hd
    have := mem_range.mp hk
    exact ⟨⟨hi, by simp only [MAXFILE]; omega⟩, rfl⟩
  · split_ifs at hr
    · cases hr
    · rcases mem_append.mp hr with hj | hx
      · obtain ⟨m, hm, rfl⟩ := mem_map.mp hj
        have := mem_range.mp hm
        exact ⟨⟨hi, by simp only [MAXFILE]; omega⟩, rfl⟩
      · rw [mem_singleton.mp hx]
        exact ⟨hi, rfl⟩

theorem mem_slotsOf (ht : Valid s t) (hn : name s t ≠ 0) : t ∈ slotsOf s t.inum := by
  unfold slotsOf
  cases t with
  | root i =>
    have hr : (s.inode i).addrs NDIRECT ≠ 0 := hn
    simp [Slot.inum, hr]
  | blk i bn =>
    by_cases hd : bn < NDIRECT
    · exact mem_append_left _ (mem_map_of_mem (mem_range.mpr hd))
    · have hr : (s.inode i).addrs NDIRECT ≠ 0 := fun hr => hn (by rw [name_indirect hd, if_pos hr])
      have hbn := ht.2
      refine mem_append_right _ ?_
      rw [Slot.inum, if_neg hr]
      refine mem_append_left _ (mem_map.mpr ⟨bn - NDIRECT, ?_, ?_⟩)
      · simp only [MAXFILE] at hbn
        exact mem_range.mpr (by omega)
      · rw [Nat.add_sub_cancel' (Nat.not_lt.mp hd)]

theorem Owned.freeable (h : Owned sb s) (hi : Live s i) : Freeable s.used (blocksOf s i) := by
  rw [blocksOf_eq]
  refine ⟨fun a ha ha0 => ?_, ?_⟩
  · obtain ⟨t, ht, rfl⟩ := mem_map.mp ha
    exact h.used_of_name (valid_of_mem_slotsOf hi ht).1 ha0
  · rw [filter_map]
    refine List.Nodup.map_on (fun t ht t' ht' heq => ?_) ((nodup_slotsOf s i).filter _)
    rw [mem_filter] at ht ht'
    exact h.inj t t' (valid_of_mem_slotsOf hi ht.1).1 (valid_of_mem_slotsOf hi ht'.1).1
      (by simpa using ht.2) heq

theorem Owned.mem_blocksOf (h : Owned sb s) (hi : Live s i) (ht : Valid s t) (hn : name s t ≠ 0)
    : name s t ∈ blocksOf s i ↔ t.inum = i := by
  rw [blocksOf_eq, mem_map]
  constructor
  · rintro ⟨u, hu, heq⟩
    obtain ⟨hv, hin⟩ := valid_of_mem_slotsOf hi hu
    rw [h.inj t u ht hv hn heq.symm]
    exact hin
  · rintro rfl
    exact ⟨t, mem_slotsOf ht hn, rfl⟩

theorem truncated_type (s : St) (i j : ℕ) :
    ((truncated s i).inode j).type = (s.inode j).type := by
  simp only [truncated]
  rcases eq_or_ne j i with rfl | hj
  · rw [update_self]
    rfl
  · rw [update_of_ne hj]

theorem truncated_other (s : St) (hj : j ≠ i) : (truncated s i).inode j = s.inode j :=
  update_of_ne hj _ _

theorem name_truncated (ht : Valid s t) :
    name (truncated s i) t = if t.inum = i then 0 else name s t := by
  split_ifs with hin
  · have hzero : ∀ m, m ≤ NDIRECT → ((truncated s i).inode i).addrs m = 0 := fun m hm => by
      simp only [truncated, update_self, emptied, cleared, mem_range]
      exact if_pos (by omega)
    cases t with
    | root j =>
      obtain rfl : j = i := hin
      exact hzero _ le_rfl
    | blk j bn =>
      obtain rfl : j = i := hin
      by_cases hd : bn < NDIRECT
      · rw [name_direct hd]
        exact hzero bn hd.le
      · rw [name_indirect hd, hzero _ le_rfl, if_pos rfl]
  · have hsame := name_same (s := s) (u := truncated s i) (truncated_other s hin) fun _ => rfl
    cases t with
    | root j => exact hsame.1
    | blk j bn => exact hsame.2 bn

theorem Owned.truncated (h : Owned sb s) (hi : Live s i) : Owned sb (truncated s i) := by
  have hvalid := valid_of_type (truncated_type s i)
  -- a slot that still names a block belongs to another inode
  have hold : ∀ t, Valid s t → name (Fs.truncated s i) t ≠ 0 →
      t.inum ≠ i ∧ name (Fs.truncated s i) t = name s t := by
    intro t ht hn
    rw [name_truncated ht] at hn ⊢
    split_ifs at hn ⊢ with hin
    · exact absurd rfl hn
    · exact ⟨hin, rfl⟩
  refine ⟨?_, ?_, ?_, ?_, ?_⟩
  · intro t t' ht ht' hn heq
    rw [hvalid] at ht ht'
    have hn' : name (Fs.truncated s i) t' ≠ 0 := heq ▸ hn
    have hname := (hold t ht hn).2
    rw [hname] at hn heq
    rw [(hold t' ht' hn').2] at heq
    exact h.inj t t' ht ht' hn heq
  · intro t ht hn
    rw [hvalid] at ht
    have hname := (hold t ht hn).2
    rw [hname] at hn ⊢
    exact h.area t ht hn
  · intro b hb
    have hused := h.used b hb
    have hbit : (Fs.truncated s i).used b = true ↔ s.used b = true ∧ (b = 0 ∨ b ∉ blocksOf s i) := by
      simp [Fs.truncated, unuse]
    rw [hbit, hused]
    rcases lt_or_ge b sb.nmeta with hlow | hhigh
    · refine iff_of_true ⟨.inl hlow, ?_⟩ (.inl hlow)
      by_contra hx
      rw [not_or, not_not, blocksOf_eq, mem_map] at hx
      obtain ⟨hb0, t, ht, rfl⟩ := hx
      exact absurd (h.area t (valid_of_mem_slotsOf hi ht).1 hb0).1 (Nat.not_le.mpr hlow)
    · have hb0 : b ≠ 0 := ne_of_gt (sb.nmeta_pos.trans_le hhigh)
      simp only [Nat.not_lt.mpr hhigh, false_or, hb0]
      constructor
      · rintro ⟨⟨t, ht, rfl⟩, hnot⟩
        rw [h.mem_blocksOf hi ht hb0] at hnot
        exact ⟨t, (hvalid t).mpr ht, by rw [name_truncated ht, if_neg hnot]⟩
      · rintro ⟨t, ht, rfl⟩
        rw [hvalid] at ht
        obtain ⟨hin, hname⟩ := hold t ht hb0
        rw [hname] at hb0 ⊢
        exact ⟨⟨t, ht, rfl⟩, fun hx => hin ((h.mem_blocksOf hi ht hb0).mp hx)⟩
  · intro j bn hj hlt
    rcases eq_or_ne j i with rfl | hji
    · simp [Fs.truncated, emptied] at hlt
    · rw [truncated_other s hji] at hlt
      have hj' : Live s j := (hvalid (.root j)).mp hj
      rw [name_truncated (t := .blk j bn) ⟨hj', h.lt_maxfile hj' hlt⟩, Slot.inum, if_neg hji]
      exact h.full j bn hj' hlt
  · intro j hj
    rcases eq_or_ne j i with rfl | hji
    · simp [Fs.truncated, emptied]
    · rw [truncated_other s hji]
      exact h.bound j ((hvalid (.root j)).mp hj)

theorem content_truncated (hj : Live s j) (hji : j ≠ i) {k : ℕ} (hk : k < MAXFILE * BSIZE) :
    content (truncated s i) j k = content s j k := by
  have hv : Valid s (.blk j (k / BSIZE)) := ⟨hj, Nat.div_lt_of_lt_mul (by rwa [mul_comm])⟩
  unfold content
  rw [name_truncated hv, Slot.inum, if_neg hji]
  rfl

/-! ### Byte arrays -/

def bytes (s : St) (i : ℕ) : List UInt8 := (range (s.inode i).size).map (content s i)

inductive Call where
  | read (i off n : ℕ)
  | write (i off : ℕ) (src : List UInt8)
  | trunc (i : ℕ)

inductive Result where
  | bytes (r : Option (List UInt8))
  | count (r : Option ℕ)
  | done
  deriving DecidableEq

def Call.inum : Call → ℕ
  | .read i _ _ | .write i _ _ | .trunc i => i

def exec (sb : Super) (devsw : Devsw) : Call → K Result
  | .read i off n => do pure (.bytes (← readi sb devsw i off n))
  | .write i off src => do pure (.count (← writei sb devsw i off src))
  | .trunc i => do
    itrunc i
    pure .done

/-- The calls on one array: what is accepted, what is returned and what the array is afterwards. -/
def act (a : List UInt8) : Call → Result × List UInt8
  | .read _ off n =>
    if off ≤ a.length ∧ off + n < 2 ^ 32 then (.bytes (some ((a.drop off).take n)), a)
    else (.bytes none, a)
  | .write _ off src =>
    if off ≤ a.length ∧ off + src.length < 2 ^ 32 ∧ off + src.length ≤ MAXFILE * BSIZE then
      (.count (some src.length), a.take off ++ src ++ a.drop (off + src.length))
    else (.count none, a)
  | .trunc _ => (.done, [])

/-- A call on an inode in use that is no device, with arguments of type `uint`. -/
def Call.Proper (s : St) (c : Call) : Prop :=
  Live s c.inum ∧ (s.inode c.inum).type ≠ T_DEV ∧
    match c with
    | .read _ off n => off < 2 ^ 32 ∧ n < 2 ^ 32
    | .write _ off src => off < 2 ^ 32 ∧ src.length < 2 ^ 32
    | .trunc _ => True

/-- One call refines its action on the array of its inode, and leaves the other arrays alone. -/
structure Refines (sb : Super) (s : St) (c : Call) (r : Result) (s' : St) : Prop where
  owned : Owned sb s'
  type : ∀ j, (s'.inode j).type = (s.inode j).type
  result : r = (act (bytes s c.inum) c).1
  self : bytes s' c.inum = (act (bytes s c.inum) c).2
  other : ∀ j, j ≠ c.inum → Live s j → bytes s' j = bytes s j

theorem length_bytes (s : St) (i : ℕ) : (bytes s i).length = (s.inode i).size := by
  rw [bytes, length_map, length_range]

theorem wraps_iff (ho : off < 2 ^ 32) (hn : n < 2 ^ 32) :
    (off + n) % 2 ^ 32 < off ↔ ¬ off + n < 2 ^ 32 := by
  omega

theorem slice_eq (f : ℕ → UInt8) (size off n : ℕ) :
    (((range size).map f).drop off).take n =
      (range (min n (size - off))).map fun k => f (off + k) := by
  refine ext_getElem (by simp) fun k h1 h2 => ?_
  simp

theorem overwrite_eq {f f' : ℕ → UInt8} {size : ℕ} (hoff : off ≤ size)
    (hf : ∀ k, k < max size (off + src.length) →
      f' k = if off ≤ k ∧ k < off + src.length then src.getD (k - off) 0 else f k) :
    (range (max size (off + src.length))).map f' =
      ((range size).map f).take off ++ src ++ ((range size).map f).drop (off + src.length) := by
  refine ext_getElem (by simp; omega) fun k h1 h2 => ?_
  have hk : k < max size (off + src.length) := by simpa using h1
  have hlen : (((range size).map f).take off).length = off := by simp; omega
  rw [getElem_map, getElem_range, hf k hk]
  by_cases hlow : k < off
  · rw [if_neg (by omega), getElem_append_left (by simp; omega),
      getElem_append_left (by omega)]
    simp
  · by_cases hmid : k < off + src.length
    · rw [if_pos ⟨by omega, hmid⟩, getElem_append_left (by simp; omega),
        getElem_append_right (by omega), getD_eq_getElem _ _ (by omega)]
      simp only [hlen]
    · rw [if_neg (by omega), getElem_append_right (by simp; omega)]
      simp only [getElem_drop, getElem_map, getElem_range, length_append, hlen]
      congr 1
      omega

theorem readi_run (h : Owned sb s) (hi : Live s i) (hdev : (s.inode i).type ≠ T_DEV)
    (ho : off < 2 ^ 32) (hn : n < 2 ^ 32) : readi sb devsw i off n s =
      (.ok (if off ≤ (bytes s i).length ∧ off + n < 2 ^ 32 then
        some (((bytes s i).drop off).take n) else none), s) := by
  rw [length_bytes]
  by_cases hok : off ≤ (s.inode i).size ∧ off + n < 2 ^ 32
  · have hread := readLoop_run h hi (min n ((s.inode i).size - off)) off
      (min n ((s.inode i).size - off)) (by omega) le_rfl
    have hclip : (if off + n > (s.inode i).size then (s.inode i).size - off else n) =
        min n ((s.inode i).size - off) := by
      split_ifs <;> omega
    have hno : ¬ (off > (s.inode i).size ∨ (off + n) % 2 ^ 32 < off) := by
      rw [wraps_iff ho hn]
      omega
    rw [if_pos hok, bytes, slice_eq]
    simp only [readi, bind_apply, get_apply, hdev, if_false, hno, hclip, hread,
      pure_apply]
  · have hno : off > (s.inode i).size ∨ (off + n) % 2 ^ 32 < off := by
      rw [wraps_iff ho hn]
      omega
    rw [if_neg hok]
    simp only [readi, bind_apply, get_apply, hdev, if_false, hno, if_true,
      pure_apply]

theorem readi_refines (h : Owned sb s) (hc : (Call.read i off n).Proper s) :
    Prog.Ends OutOfBlocks s (exec sb devsw (.read i off n)) (Refines sb s (.read i off n)) := by
  obtain ⟨hi, hdev, ho, hn⟩ := hc
  refine .ok_bind (readi_run h hi hdev ho hn) (.ok rfl ⟨h, fun _ => rfl, ?_, ?_, fun _ _ _ => rfl⟩)
  · rw [Call.inum, act]
    split_ifs <;> rfl
  · rw [Call.inum, act]
    split_ifs <;> rfl

theorem itrunc_refines (h : Owned sb s) (hi : Live s i) :
    Prog.Ends OutOfBlocks s (exec sb devsw (.trunc i)) (Refines sb s (.trunc i)) := by
  refine .ok_bind (itrunc_run (h.freeable hi)) (.ok rfl ?_)
  refine ⟨h.truncated hi, truncated_type s i, rfl, ?_, fun j hji hj => ?_⟩
  · have hsize : ((truncated s i).inode i).size = 0 := by simp [truncated, emptied]
    rw [bytes, Call.inum, hsize]
    rfl
  · have hji : j ≠ i := hji
    unfold bytes
    rw [truncated_other s hji]
    refine map_congr_left fun k hk => content_truncated hj hji ?_
    exact (mem_range.mp hk).trans_le (h.bound j hj)

def resized (s : St) (i n : ℕ) : St :=
  { s with
    inode := update s.inode i { s.inode i with size := n }
    dinode := update s.dinode i { s.inode i with size := n } }

theorem resized_fields (s : St) (i n j : ℕ) :
    ((resized s i n).inode j).type = (s.inode j).type ∧
    ((resized s i n).inode j).addrs = (s.inode j).addrs ∧
    ((resized s i n).inode j).size = if j = i then n else (s.inode j).size := by
  unfold resized
  rcases eq_or_ne j i with rfl | hj
  · simp
  · simp [hj]

theorem name_resized (s : St) (i n : ℕ) (t : Slot) : name (resized s i n) t = name s t := by
  cases t with
  | root j => simp only [name, (resized_fields s i n j).2.1]
  | blk j bn =>
    simp only [name, (resized_fields s i n j).2.1]
    rfl

theorem content_resized (s : St) (i n j k : ℕ) : content (resized s i n) j k = content s j k := by
  unfold content
  rw [name_resized]
  rfl

theorem Owned.resized (h : Owned sb s) (hn : n ≤ MAXFILE * BSIZE)
    (hcover : ∀ bn, bn * BSIZE < n → name s (.blk i bn) ≠ 0) : Owned sb (resized s i n) := by
  have hvalid := valid_of_type fun j => (resized_fields s i n j).1
  refine ⟨fun t t' ht ht' => ?_, fun t ht => ?_, fun b hb => ?_, fun j bn hj hlt => ?_,
    fun j hj => ?_⟩
  · rw [hvalid] at ht ht'
    rw [name_resized, name_resized]
    exact h.inj t t' ht ht'
  · rw [hvalid] at ht
    rw [name_resized]
    exact h.area t ht
  · refine (h.used b hb).trans (or_congr_right (exists_congr fun t => ?_))
    rw [hvalid, name_resized]
  · rw [(resized_fields s i n j).2.2] at hlt
    rw [name_resized]
    split_ifs at hlt with hji
    · exact hji ▸ hcover bn hlt
    · exact h.full j bn ((hvalid (.root j)).mp hj) hlt
  · rw [(resized_fields s i n j).2.2]
    split_ifs
    · exact hn
    · exact h.bound j ((hvalid (.root j)).mp hj)

theorem Wrote.refines (h : Owned sb s) (hi : Live s i)
    (hok : off ≤ (s.inode i).size ∧ off + src.length < 2 ^ 32 ∧
      off + src.length ≤ MAXFILE * BSIZE) (hw : Wrote sb i off src s s') {s'' : St}
    (howned : Owned sb s'') (htype : ∀ j, (s''.inode j).type = (s'.inode j).type)
    (hcontent : ∀ j k, Fs.content s'' j k = Fs.content s' j k)
    (hsize : ∀ j, (s''.inode j).size = if j = i then max (s.inode i).size (off + src.length)
      else (s.inode j).size) :
    Refines sb s (.write i off src) (.count (some src.length)) s'' := by
  have hbound := h.bound i hi
  refine ⟨howned, fun j => (htype j).trans (hw.type j), ?_, ?_, fun j hji hj => ?_⟩
  · rw [Call.inum, act, length_bytes, if_pos hok]
  · rw [Call.inum, act, length_bytes, if_pos hok, bytes, bytes, hsize, if_pos rfl]
    refine overwrite_eq hok.1 fun k hk => ?_
    rw [hcontent, hw.content i k hi (by omega)]
    simp only [true_and]
  · have hji : j ≠ i := hji
    rw [bytes, bytes, hsize, if_neg hji]
    refine map_congr_left fun k hk => ?_
    rw [hcontent, hw.content j k hj ((mem_range.mp hk).trans_le (h.bound j hj)),
      if_neg fun hx => hji hx.1]

theorem writei_ends (h : Owned sb s) (hi : Live s i) (hdev : (s.inode i).type ≠ T_DEV)
    (ho : off < 2 ^ 32) (hn : src.length < 2 ^ 32) :
    Prog.Ends OutOfBlocks s (writei sb devsw i off src)
      fun r s' => Refines sb s (.write i off src) (.count r) s' := by
  by_cases hok : off ≤ (s.inode i).size ∧ off + src.length < 2 ^ 32 ∧
      off + src.length ≤ MAXFILE * BSIZE
  · have hno : ¬ (off > (s.inode i).size ∨ (off + src.length) % 2 ^ 32 < off) := by
      rw [wraps_iff ho hn]
      omega
    have hno' : ¬ (off + src.length) % 2 ^ 32 > MAXFILE * BSIZE := by
      rw [Nat.mod_eq_of_lt hok.2.1]
      omega
    refine .ok_bind rfl ?_
    rw [if_neg hdev, if_neg hno, if_neg hno']
    refine (writeLoop_ends src.length s off src h hi hok.2.2 le_rfl).bind ?_
    rintro _ s1 ⟨hw, hcover⟩
    by_cases hgrow : src.length > 0 ∧ off + src.length > (s.inode i).size
    · -- the new blocks and those below the old size cover the new size
      rw [if_pos hgrow]
      have hblocks : ∀ bn, bn * BSIZE < off + src.length → name s1 (.blk i bn) ≠ 0 := by
        intro bn hlt
        rcases lt_or_ge (bn * BSIZE) (s.inode i).size with hold | hnew
        · have hn := h.full i bn hi hold
          rwa [hw.names (.blk i bn) ⟨hi, h.lt_maxfile hi hold⟩ hn]
        · have := hcover (bn * BSIZE) (by omega) hlt
          rwa [Nat.mul_div_cancel _ (by decide)] at this
      refine .ok ?_ (hw.refines h hi hok (hw.owned.resized hok.2.2 hblocks)
        (fun j => (resized_fields s1 i _ j).1) (content_resized s1 i _) fun j => ?_)
      · simp only [bind_apply, setInode, iupdate, modify_apply, pure_apply,
          update_self]
        rfl
      · rw [(resized_fields s1 i _ j).2.2, hw.size, Nat.max_eq_right hgrow.2.le]
    · rw [if_neg hgrow]
      refine .ok rfl (hw.refines h hi hok hw.owned (fun _ => rfl) (fun _ _ => rfl) fun j => ?_)
      rw [hw.size]
      split_ifs with hji
      · rw [hji, Nat.max_eq_left (by omega)]
      · rfl
  · refine .ok (a := none) ?_ ⟨h, fun _ => rfl, ?_, ?_, fun _ _ _ => rfl⟩
    · simp only [writei, bind_apply, get_apply, hdev, if_false]
      by_cases hlow : off > (s.inode i).size ∨ (off + src.length) % 2 ^ 32 < off
      · simp only [hlow, if_true, pure_apply]
      · have hhigh : (off + src.length) % 2 ^ 32 > MAXFILE * BSIZE := by
          rw [wraps_iff ho hn] at hlow
          rw [Nat.mod_eq_of_lt (by omega)]
          omega
        simp only [hlow, hhigh, if_false, if_true, pure_apply]
    · rw [Call.inum, act, length_bytes, if_neg hok]
    · rw [Call.inum, act, length_bytes, if_neg hok]

theorem writei_refines (h : Owned sb s) (hc : (Call.write i off src).Proper s) :
    Prog.Ends OutOfBlocks s (exec sb devsw (.write i off src)) (Refines sb s (.write i off src)) := by
  obtain ⟨hi, hdev, ho, hn⟩ := hc
  exact (writei_ends h hi hdev ho hn).bind fun r s' hr => .ok rfl hr

theorem exec_refines (h : Owned sb s) : ∀ {c : Call}, c.Proper s →
    Prog.Ends OutOfBlocks s (exec sb devsw c) (Refines sb s c)
  | .read _ _ _, hc => readi_refines h hc
  | .write _ _ _, hc => writei_refines h hc
  | .trunc _, hc => itrunc_refines h hc.1

/-! ### Sequences of calls -/

def runCalls (sb : Super) (devsw : Devsw) : List Call → K (List Result)
  | [] => pure []
  | c :: cs => do
    let r ← exec sb devsw c
    let rs ← runCalls sb devsw cs
    pure (r :: rs)

def replay (i : ℕ) (cs : List Call) (a : List UInt8) : List UInt8 :=
  (cs.filter (fun c => c.inum = i)).foldl (fun a c => (act a c).2) a

theorem replay_cons (i : ℕ) (c : Call) (cs : List Call) (a : List UInt8) :
    replay i (c :: cs) a = replay i cs (if c.inum = i then (act a c).2 else a) := by
  unfold replay
  split_ifs with hc
  · rw [filter_cons_of_pos (by simpa using hc), foldl_cons]
  · rw [filter_cons_of_neg (by simpa using hc)]

theorem Refines.bytes_eq {c : Call} {r : Result} (h : Refines sb s c r s') (hj : Live s j) :
    bytes s' j = if c.inum = j then (act (bytes s j) c).2 else bytes s j := by
  split_ifs with hcj
  · exact hcj ▸ h.self
  · exact h.other j (Ne.symm hcj) hj

theorem Refines.proper {c c' : Call} {r : Result} (h : Refines sb s c r s') (hc' : c'.Proper s) :
    c'.Proper s' := by
  obtain ⟨hlive, hdev, harg⟩ := hc'
  exact ⟨by rwa [Live, h.type], by rwa [h.type], harg⟩

/-- The results and the final contents are those of the arrays replayed one by one. -/
structure Replayed (sb : Super) (cs : List Call) (s : St) (rs : List Result) (s' : St) : Prop where
  owned : Owned sb s'
  length : rs.length = cs.length
  results : ∀ k c, cs[k]? = some c →
    rs[k]? = some (act (replay c.inum (cs.take k) (bytes s c.inum)) c).1
  contents : ∀ i, Live s i → bytes s' i = replay i cs (bytes s i)

theorem runCalls_ends : ∀ (cs : List Call) (s : St), Owned sb s → (∀ c ∈ cs, c.Proper s) →
    Prog.Ends OutOfBlocks s (runCalls sb devsw cs) (Replayed sb cs s)
  | [], s, h, _ => .ok rfl ⟨h, rfl, nofun, fun _ _ => rfl⟩
  | c :: cs, s, h, hc => by
    refine (exec_refines h (hc c mem_cons_self)).bind fun r s1 hr => ?_
    have hproper : ∀ c' ∈ cs, c'.Proper s1 := fun c' hc' =>
      hr.proper (hc c' (mem_cons_of_mem _ hc'))
    refine (runCalls_ends cs s1 hr.owned hproper).bind fun rs s2 hrs => .ok rfl ?_
    refine ⟨hrs.owned, congrArg (· + 1) hrs.length, ?_, fun i hi => ?_⟩
    · intro k c' hk
      cases k with
      | zero =>
        rw [List.getElem?_cons_zero, Option.some.injEq] at hk
        subst hk
        rw [List.getElem?_cons_zero, hr.result]
        rfl
      | succ k =>
        rw [List.getElem?_cons_succ] at hk ⊢
        have hlive := (hc c' (mem_cons_of_mem _ (mem_of_getElem? hk))).1
        rw [hrs.results k c' hk, hr.bytes_eq hlive, take_succ_cons, replay_cons]
    · rw [hrs.contents i (by rwa [Live, hr.type]), hr.bytes_eq hi, replay_cons]

/-- Inode contents are independent byte arrays. From a consistent file system, any sequence of
  `readi`, `writei` and `itrunc` calls on inodes that are no devices either exhausts the disk, or
  each call returns what it returns on the array got by replaying the calls on its inode alone, and
  these arrays are the contents in the end. A `writei` is accepted if and only if it starts inside
  the file and stays below the largest size. -/
theorem contents_refine_arrays (sb : Super) (devsw : Devsw) (s : St) (h : Owned sb s) :
    (∀ cs : List Call, (∀ c ∈ cs, c.Proper s) →
      Prog.Ends OutOfBlocks s (runCalls sb devsw cs) (Replayed sb cs s)) ∧
    ∀ (i off : ℕ) (src : List UInt8), (Call.write i off src).Proper s →
      Prog.Ends OutOfBlocks s (exec sb devsw (.write i off src)) fun r s' =>
        if off ≤ (s.inode i).size ∧ off + src.length < 2 ^ 32 ∧
          off + src.length ≤ MAXFILE * BSIZE then
          r = .count (some src.length) ∧ (s'.inode i).size = max (s.inode i).size (off + src.length)
        else r = .count none ∧ (s'.inode i).size = (s.inode i).size := by
  refine ⟨fun cs hcs => runCalls_ends cs s h hcs, fun i off src hc => ?_⟩
  refine (writei_refines h hc).post fun r s' hr => ?_
  have hresult := hr.result
  have hself := congrArg List.length hr.self
  simp only [Call.inum, act, length_bytes] at hresult hself
  split_ifs with hok
  · rw [if_pos hok] at hresult hself
    refine ⟨hresult, ?_⟩
    rw [hself]
    simp only [length_append, length_take, length_drop, length_bytes]
    omega
  · rw [if_neg hok] at hresult hself
    rw [length_bytes] at hself
    exact ⟨hresult, hself⟩

def twentyBlocks : Super := ⟨20, 10, by decide, by decide⟩

def noDevices : Devsw := ⟨fun _ => none, fun _ => none⟩

def twoFiles : St where
  data := fun _ _ => 0
  used := fun b => decide (b < 10)
  dinode := fun i => ⟨if i = 1 ∨ i = 2 then T_FILE else 0, 0, 0, 1, 0, fun _ => 0⟩
  inode := fun i => ⟨if i = 1 ∨ i = 2 then T_FILE else 0, 0, 0, 1, 0, fun _ => 0⟩

theorem owned_twoFiles : Owned twentyBlocks twoFiles :=
  .of_empty (fun _ => ⟨rfl, rfl⟩) fun b => by simp [twoFiles, twentyBlocks]

/-- Writes to the two files one after the other, and reads across what was written. -/
def twoWrites : List Call := [.write 1 0 [7, 8, 9], .write 2 0 [1, 1], .write 1 2 [5], .read 1 1 9]

/-- The reading call returns the bytes written to its own file. -/
theorem contents_refine_arrays_two :
    (∀ c ∈ twoWrites, c.Proper twoFiles) ∧
    ∃ rs s', runCalls twentyBlocks noDevices twoWrites twoFiles = (.ok rs, s') ∧
      Replayed twentyBlocks twoWrites twoFiles rs s' ∧ rs[3]? = some (.bytes (some [8, 5])) := by
  have hproper : ∀ c ∈ twoWrites, c.Proper twoFiles := by
    simp [twoWrites, Call.Proper, Call.inum, Live, twoFiles, T_FILE, T_DEV]
  have hends := (contents_refine_arrays twentyBlocks noDevices twoFiles owned_twoFiles).1 twoWrites
    hproper
  have hlast : ((runCalls twentyBlocks noDevices twoWrites twoFiles).1.toOption.bind (·[3]?)) =
      some (.bytes (some [8, 5])) := by decide +kernel
  refine ⟨hproper, ?_⟩
  rcases hrun : runCalls twentyBlocks noDevices twoWrites twoFiles with ⟨msg | rs, s'⟩
  · rw [hrun] at hlast
    cases hlast
  · rw [Prog.Ends, hrun] at hends
    rw [hrun] at hlast
    exact ⟨rs, s', rfl, hends, hlast⟩

end Xv6.Fs

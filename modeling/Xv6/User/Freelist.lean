import Xv6.User.Umalloc

/-! @src umalloc.c | part:user | name:The free list | scheme:circle

  What `free`, `morecore` and the loop of `malloc` do to the free list. Every unit that `sbrk` gave
  is one element of a multiset: `free` moves the units of a block to the list, `malloc` from the
  list to its caller, `morecore` adds a region to both sides.

      units of the free blocks + units of the live blocks = units of the regions -/

namespace Xv6.Umalloc
open Function
open List (mem_cons_self mem_cons_of_mem append_of_mem pairwise_cons pairwise_append mem_append
  mem_cons mem_append_right)
open Multiset (mem_map map_map nodup_of_le mem_of_le disjoint_left nodup_add mem_add range)

open Schemes

/-! ### Units -/

def units (b : ℕ × ℕ) : Multiset ℕ := (range b.2).map fun i => b.1 + 8 * i

def held (bs : List (ℕ × ℕ)) : Multiset ℕ := (bs.map units).sum

def Apart (b c : ℕ × ℕ) : Prop := b.1 + 8 * b.2 ≤ c.1 ∨ c.1 + 8 * c.2 ≤ b.1

@[simp]
theorem held_nil : held [] = 0 := rfl

@[simp]
theorem held_cons (b : ℕ × ℕ) (bs : List (ℕ × ℕ)) : held (b :: bs) = units b + held bs := by
  simp only [held, List.map_cons, List.sum_cons]

@[simp]
theorem held_append (bs cs : List (ℕ × ℕ)) : held (bs ++ cs) = held bs + held cs := by
  simp only [held, List.map_append, List.sum_append]

theorem held_perm {bs cs : List (ℕ × ℕ)} (h : bs.Perm cs) : held bs = held cs :=
  (h.map units).sum_eq

@[simp]
theorem units_empty (a : ℕ) : units (a, 0) = 0 := rfl

theorem mem_units {u : ℕ} {b : ℕ × ℕ} : u ∈ units b ↔ ∃ i < b.2, b.1 + 8 * i = u := by
  simp only [units, mem_map, Multiset.mem_range]

theorem units_add (a n m : ℕ) : units (a, n + m) = units (a, n) + units (a + 8 * n, m) := by
  have hm : (fun i => a + 8 * i) ∘ (fun i => n + i) = fun i => a + 8 * n + 8 * i := by
    funext i
    simp only [comp_apply]
    omega
  simp only [units, Multiset.range_add, Multiset.map_add, map_map, hm]

theorem units_le_held {b : ℕ × ℕ} {bs : List (ℕ × ℕ)} (hb : b ∈ bs) : units b ≤ held bs := by
  obtain ⟨l1, l2, rfl⟩ := append_of_mem hb
  rw [held_append, held_cons]
  exact (Multiset.le_add_right _ _).trans (Multiset.le_add_left _ _)

structure Laid (lo hi : ℕ) (us : Multiset ℕ) : Prop where
  nodup : us.Nodup
  spaced : ∀ u ∈ us, ∀ v ∈ us, u < v → u + 8 ≤ v
  bounds : ∀ u ∈ us, lo < u ∧ u + 8 ≤ hi

section Laid

variable {lo hi : ℕ} {us : Multiset ℕ}

theorem Laid.mono {vs : Multiset ℕ} (h : Laid lo hi us) (hv : vs ≤ us) : Laid lo hi vs where
  nodup := nodup_of_le hv h.nodup
  spaced u hu v hv' := h.spaced u (mem_of_le hv hu) v (mem_of_le hv hv')
  bounds u hu := h.bounds u (mem_of_le hv hu)

variable {b : ℕ × ℕ}

theorem Laid.block (h : Laid lo hi us) (hb : units b ≤ us) (hpos : 0 < b.2) :
    lo < b.1 ∧ b.1 + 8 * b.2 ≤ hi := by
  have hfirst := h.bounds _ (mem_of_le hb (mem_units.mpr ⟨0, hpos, rfl⟩))
  have hlast := h.bounds _ (mem_of_le hb (mem_units.mpr ⟨b.2 - 1, by omega, rfl⟩))
  omega

theorem Laid.not_inside {c : ℕ × ℕ} (h : Laid lo hi us) (hbc : units b + units c ≤ us)
    (hc : 0 < c.2) (hle : b.1 ≤ c.1) : b.1 + 8 * b.2 ≤ c.1 := by
  by_contra hlt
  have hi : (c.1 - b.1) / 8 < b.2 := by omega
  have hu : b.1 + 8 * ((c.1 - b.1) / 8) ∈ units b := mem_units.mpr ⟨_, hi, rfl⟩
  have hv : c.1 ∈ units c := mem_units.mpr ⟨0, hc, rfl⟩
  have hne := disjoint_left.mp
    (nodup_add.mp (nodup_of_le hbc h.nodup)).2.2 hu
  have hspaced := h.spaced _ (mem_of_le hbc (mem_add.mpr (.inl hu))) _
    (mem_of_le hbc (mem_add.mpr (.inr hv)))
  have heq : b.1 + 8 * ((c.1 - b.1) / 8) ≠ c.1 := by
    intro heq
    rw [heq] at hne
    exact hne hv
  omega

theorem Laid.apart {c : ℕ × ℕ} (h : Laid lo hi us) (hbc : units b + units c ≤ us) (hb : 0 < b.2)
    (hc : 0 < c.2) : Apart b c := by
  rcases Nat.le_total b.1 c.1 with hle | hle
  · exact .inl (h.not_inside hbc hc hle)
  · rw [add_comm] at hbc
    exact .inr (h.not_inside hbc hb hle)

theorem Laid.pairwise : ∀ {bs : List (ℕ × ℕ)}, Laid lo hi (held bs) → (∀ b ∈ bs, 0 < b.2) →
    bs.Pairwise Apart
  | [], _, _ => List.Pairwise.nil
  | b :: bs, h, hpos => by
    rw [held_cons] at h
    refine pairwise_cons.mpr ⟨fun c hc => ?_, ?_⟩
    · exact h.apart (add_le_add_right (units_le_held hc) _) (hpos b (mem_cons_self ..))
        (hpos c (mem_cons_of_mem _ hc))
    · exact (h.mono (Multiset.le_add_left _ _)).pairwise
        fun c hc => hpos c (mem_cons_of_mem _ hc)

theorem Laid.region {r n : ℕ} (h : Laid lo hi us) (hlo : lo < r) (hr : hi ≤ r) :
    Laid lo (r + 8 * n) (us + units (r, n)) := by
  have hnew : ∀ u ∈ units (r, n), ∃ i < n, r + 8 * i = u := fun u hu => mem_units.mp hu
  refine ⟨nodup_add.mpr ⟨h.nodup, ?_, ?_⟩, ?_, ?_⟩
  · refine (Multiset.nodup_map_iff_of_injective ?_).mpr (Multiset.nodup_range n)
    intro i j hij
    have hij : r + 8 * i = r + 8 * j := hij
    omega
  · refine disjoint_left.mpr fun {u} hu hv => ?_
    obtain ⟨i, _, hi'⟩ := hnew u hv
    have := h.bounds u hu
    omega
  · intro u hu v hv huv
    rcases mem_add.mp hu with hu | hu <;> rcases mem_add.mp hv with hv | hv
    · exact h.spaced u hu v hv huv
    · obtain ⟨j, _, hj⟩ := hnew v hv
      have := h.bounds u hu
      omega
    · obtain ⟨i, _, hi'⟩ := hnew u hu
      have := h.bounds v hv
      omega
    · obtain ⟨i, _, hi'⟩ := hnew u hu
      obtain ⟨j, _, hj⟩ := hnew v hv
      omega
  · intro u hu
    rcases mem_add.mp hu with hu | hu
    · have := h.bounds u hu
      omega
    · obtain ⟨i, _, hi'⟩ := hnew u hu
      omega

end Laid

/-! ### The list -/

def blocks (size : ℕ → ℕ) (l : List ℕ) : List (ℕ × ℕ) := l.map fun a => (a, size a)

@[simp]
theorem blocks_cons (size : ℕ → ℕ) (a : ℕ) (l : List ℕ) :
    blocks size (a :: l) = (a, size a) :: blocks size l := rfl

@[simp]
theorem blocks_append (size : ℕ → ℕ) (l1 l2 : List ℕ) :
    blocks size (l1 ++ l2) = blocks size l1 ++ blocks size l2 := List.map_append

variable {size : ℕ → ℕ} {l : List ℕ}

variable {size' : ℕ → ℕ}

theorem blocks_congr (h : ∀ a ∈ l, size' a = size a) : blocks size' l = blocks size l :=
  List.map_congr_left fun a ha => by rw [h a ha]

/-- Every block ends before the next one begins, and does not touch it. -/
def Sorted (size : ℕ → ℕ) (l : List ℕ) : Prop := l.Pairwise fun a b => a + 8 * size a < b

theorem Sorted.congr (hl : Sorted size l) (h : ∀ a ∈ l, size' a = size a) : Sorted size' l :=
  hl.imp_of_mem fun ha _ hab => by rw [h _ ha]; exact hab

theorem Sorted.lt (hl : Sorted size l) : l.Pairwise (· < ·) :=
  hl.imp fun h => by omega

theorem Sorted.trichotomy {c x : ℕ} (hl : Sorted size l) (hc : c ∈ l) (hx : x ∈ l)
    : x = c ∨ x < c ∨ c + 8 * size c < x := by
  obtain ⟨l1, l2, rfl⟩ := append_of_mem hc
  obtain ⟨_, hs2, hs1⟩ := pairwise_append.mp hl
  rcases mem_append.mp hx with hx | hx
  · have := hs1 x hx c (mem_cons_self ..)
    omega
  · rcases mem_cons.mp hx with rfl | hx
    · exact .inl rfl
    · exact .inr (.inr ((pairwise_cons.mp hs2).1 x hx))

theorem held_resize {c : ℕ} (hl : l.Nodup) (hc : c ∈ l) (h : ∀ a ∈ l, a ≠ c → size' a = size a) :
    held (blocks size l) + units (c, size' c) = held (blocks size' l) + units (c, size c) := by
  obtain ⟨l1, l2, rfl⟩ := append_of_mem hc
  obtain ⟨_, hnd2, hnd1⟩ := pairwise_append.mp hl
  have h1 : blocks size' l1 = blocks size l1 := blocks_congr fun a ha =>
    h a (List.mem_append_left _ ha) (hnd1 a ha c (mem_cons_self ..))
  have h2 : blocks size' l2 = blocks size l2 := blocks_congr fun a ha =>
    h a (mem_append_right _ (mem_cons_of_mem _ ha))
      ((pairwise_cons.mp hnd2).1 a ha).symm
  simp only [blocks_append, blocks_cons, held_append, held_cons, h1, h2]
  abel

structure Free (base : ℕ) (h : Heap) (fl : List ℕ) : Prop where
  leads : Leads h.ptr (base :: fl) base
  size_base : h.size base = 0
  sorted : Sorted h.size (base :: fl)
  pos : ∀ a ∈ fl, 0 < h.size a
  freep : ∃ p ∈ base :: fl, h.freep = some p

section Free

variable {base : ℕ} {h : Heap} {fl : List ℕ} {p bp : ℕ} {l1 l2 : List ℕ}

theorem Free.nodup (hf : Free base h fl) : fl.Nodup :=
  (pairwise_cons.mp hf.sorted.lt).2.imp fun hlt => hlt.ne

theorem Free.base_lt (hf : Free base h fl) {a : ℕ} (ha : a ∈ fl) : base < a :=
  (pairwise_cons.mp hf.sorted.lt).1 a ha

theorem Free.here_iff (hf : Free base h fl) (hl : base :: fl = l1 ++ p :: l2) (hp : p < bp)
    (hl2 : ∀ y ∈ l2, bp < y) {x : ℕ} (hx : x ∈ base :: fl) : here h bp x = true ↔ x = p := by
  have hbp : ∀ y ∈ base :: fl, y ≤ p ∨ bp < y := by
    have hs := hf.sorted.lt
    rw [hl] at hs ⊢
    intro y hy
    rcases mem_append.mp hy with hy | hy
    · exact .inl ((pairwise_append.mp hs).2.2 y hy p (mem_cons_self ..)).le
    · rcases mem_cons.mp hy with rfl | hy
      · exact .inl le_rfl
      · exact .inr (hl2 y hy)
  have hpm : p ∈ base :: fl := by rw [hl]; simp
  have hbase : ∀ y ∈ base :: fl, base ≤ y := by
    intro y hy
    rcases mem_cons.mp hy with rfl | hy
    · exact le_rfl
    · exact (hf.base_lt hy).le
  have hb := hbase p hpm
  have hxb := hbp x hx
  simp only [here, Bool.or_eq_true, Bool.and_eq_true, decide_eq_true_eq]
  rcases hf.leads.next_cases hf.sorted.lt hx with ⟨hnext, hmax⟩ | ⟨hmem, hlt, hmax⟩
  · have := hmax p hpm
    rw [hnext]
    omega
  · have := hmax p hpm
    have := hbp _ hmem
    omega

/-- The part of the list from the freed block on, after the join with the upper neighbour. -/
structure Upper (base : ℕ) (h : Heap) (bp : ℕ) (l2 : List ℕ) (h' : Heap) (l : List ℕ) : Prop where
  leads : Leads h'.ptr (bp :: l) base
  sorted : Sorted h'.size (bp :: l)
  account : held (blocks h'.size (bp :: l)) = units (bp, h.size bp) + held (blocks h.size l2)
  sub : l.Sublist l2
  grows : h.size bp ≤ h'.size bp
  top : bp + 8 * h'.size bp < 2 ^ 32
  ptr : ∀ x, x ≠ bp → h'.ptr x = h.ptr x
  size : ∀ x, x ≠ bp → h'.size x = h.size x

theorem hop_eq {p n : ℕ} (h : p + 8 * n < 2 ^ 32) : hop p n = p + 8 * n := Nat.mod_eq_of_lt h

theorem joinUpper_spec (hnext : h.ptr p = l2.headD base) (hleads : Leads h.ptr l2 base)
    (hsorted : Sorted h.size l2) (hbase : base < bp) (htop : bp + 8 * h.size bp < 2 ^ 32)
    (htops : ∀ y ∈ l2, y + 8 * h.size y < 2 ^ 32) (hbp : ∀ y ∈ l2, bp < y)
    (hend : ∀ y ∈ l2, bp + 8 * h.size bp ≤ y) :
    ∃ l, Upper base h bp l2 (joinUpper h p bp) l := by
  have hne : ∀ y ∈ l2, y ≠ bp := fun y hy => (hbp y hy).ne'
  by_cases hjoin : hop bp (h.size bp) = h.ptr p
  · -- the successor is a block: `base` lies below `bp`
    rw [joinUpper, if_pos hjoin]
    rw [hop_eq htop] at hjoin
    cases l2 with
    | nil =>
      have hnext : h.ptr p = base := hnext
      omega
    | cons c l =>
      have hnext : h.ptr p = c := hnext
      obtain ⟨hc, hleads⟩ := hleads
      obtain ⟨hcl, hsorted⟩ := pairwise_cons.mp hsorted
      have hctop := htops c (mem_cons_self ..)
      have hsize : (h.size bp + h.size c) % 2 ^ 32 = h.size bp + h.size c :=
        Nat.mod_eq_of_lt (by omega)
      have hupd : ∀ (g : ℕ → ℕ) (v : ℕ), ∀ y ∈ l, update g bp v y = g y := fun g v y hy =>
        update_of_ne (hne y (mem_cons_of_mem _ hy)) _ _
      rw [hnext] at hjoin ⊢
      rw [hsize]
      refine ⟨l, ⟨?_, hleads.congr (hupd _ _)⟩, pairwise_cons.mpr ⟨?_, ?_⟩, ?_,
        List.sublist_cons_self .., ?_, ?_, ?_, ?_⟩
      · exact (update_self ..).trans hc
      · intro y hy
        have := hcl y hy
        simp only [update_self]
        omega
      · exact Sorted.congr hsorted (hupd _ _)
      · simp only [blocks_cons, held_cons, update_self, blocks_congr (hupd _ _), units_add]
        rw [hjoin, add_assoc]
      · simp only [update_self]
        omega
      · simp only [update_self]
        omega
      · exact fun x hx => update_of_ne hx _ _
      · exact fun x hx => update_of_ne hx _ _
  · rw [joinUpper, if_neg hjoin]
    rw [hop_eq htop, hnext] at hjoin
    refine ⟨l2, ⟨?_, hleads.congr fun y hy => update_of_ne (hne y hy) _ _⟩,
      pairwise_cons.mpr ⟨?_, hsorted⟩, rfl, List.Sublist.refl _, le_rfl, htop, ?_,
      fun _ _ => rfl⟩
    · exact (update_self ..).trans hnext
    · intro y hy
      -- the first node is not adjacent, the others come after it
      cases l2 with
      | nil => exact absurd hy (by simp)
      | cons c l =>
        have hjoin : bp + 8 * h.size bp ≠ c := hjoin
        have hc := hend c (mem_cons_self ..)
        rcases mem_cons.mp hy with rfl | hy
        · exact lt_of_le_of_ne hc hjoin
        · have := (pairwise_cons.mp hsorted).1 y hy
          show bp + 8 * h.size bp < y
          omega
    · exact fun x hx => update_of_ne hx _ _

/-- The part of the list from the predecessor of the freed block on, after both joins. -/
structure Lower (base : ℕ) (h : Heap) (p bp : ℕ) (l2 : List ℕ) (h' : Heap) (l : List ℕ) :
    Prop where
  leads : Leads h'.ptr (p :: l) base
  sorted : Sorted h'.size (p :: l)
  account : held (blocks h'.size (p :: l)) =
    units (bp, h.size bp) + held (blocks h.size (p :: l2))
  sub : ∀ a ∈ l, a = bp ∨ a ∈ l2
  length : l.length ≤ l2.length + 1
  fits : ∃ a ∈ p :: l, a ≠ base ∧ h.size bp ≤ h'.size a
  grows : h.size bp ≤ h'.size bp
  pred : h'.size p = h.size p ∨ p ≠ base ∧ h.size p ≤ h'.size p
  ptr : ∀ x, x ≠ p → x ≠ bp → h'.ptr x = h.ptr x
  size : ∀ x, x ≠ p → x ≠ bp → h'.size x = h.size x

variable {l : List ℕ} {h' : Heap}

theorem joinLower_spec {h1 : Heap} (hu : Upper base h bp l2 h1 l) (hbase : base < bp)
    (hp : p < bp) (hend : p + 8 * h.size p ≤ bp) (hzero : h.size base = 0)
    (hl2 : ∀ y ∈ l2, bp < y) : ∃ l', Lower base h p bp l2 (joinLower h1 p bp) l' := by
  have hsizep : h1.size p = h.size p := hu.size p hp.ne
  have htop := hu.top
  have hgrows := hu.grows
  have hheld := hu.account
  have hl : ∀ y ∈ bp :: l, y ≠ p := by
    intro y hy
    rcases mem_cons.mp hy with rfl | hy
    · exact hp.ne'
    · exact (hp.trans (hl2 y (hu.sub.subset hy))).ne'
  have hupd : ∀ (g : ℕ → ℕ) (v : ℕ), ∀ y ∈ bp :: l, update g p v y = g y :=
    fun g v y hy => update_of_ne (hl y hy) _ _
  have hupd' : ∀ (g : ℕ → ℕ) (v : ℕ), ∀ y ∈ l, update g p v y = g y :=
    fun g v y hy => hupd g v y (mem_cons_of_mem _ hy)
  obtain ⟨hbpl, hsorted⟩ := pairwise_cons.mp hu.sorted
  by_cases hjoin : hop p (h1.size p) = bp
  · rw [joinLower, if_pos hjoin]
    rw [hop_eq (by omega), hsizep] at hjoin
    have hne : p ≠ base := by
      rintro rfl
      omega
    have hsize : (h1.size p + h1.size bp) % 2 ^ 32 = h.size p + h1.size bp := by
      rw [hsizep]
      exact Nat.mod_eq_of_lt (by omega)
    rw [hsize]
    have hself : ∀ (g : ℕ → ℕ) (v : ℕ), update g p v p = v := fun g v =>
      update_self ..
    refine ⟨l, ⟨(hself ..).trans hu.leads.1, hu.leads.2.congr (hupd' _ _)⟩,
      pairwise_cons.mpr ⟨?_, Sorted.congr hsorted (hupd' _ _)⟩, ?_,
      fun a ha => .inr (hu.sub.subset ha), hu.sub.length_le.trans (Nat.le_succ _),
      ⟨p, mem_cons_self .., hne, ?_⟩, ?_, .inr ⟨hne, ?_⟩, ?_, ?_⟩
    · intro y hy
      have := hbpl y hy
      simp only [hself]
      omega
    · simp only [blocks_cons, held_cons] at hheld ⊢
      rw [hself, blocks_congr (hupd' _ _), units_add, hjoin, add_assoc, hheld, add_left_comm]
    · simp only [hself]
      omega
    · simp only [hupd _ _ bp (mem_cons_self ..)]
      exact hgrows
    · simp only [hself]
      omega
    · intro x hx hxb
      exact (update_of_ne hx _ _).trans (hu.ptr x hxb)
    · intro x hx hxb
      exact (update_of_ne hx _ _).trans (hu.size x hxb)
  · rw [joinLower, if_neg hjoin]
    rw [hop_eq (by omega), hsizep] at hjoin
    refine ⟨bp :: l, ⟨update_self .., hu.leads.congr (hupd _ _)⟩,
      pairwise_cons.mpr ⟨?_, hu.sorted⟩, ?_, ?_, Nat.succ_le_succ hu.sub.length_le,
      ⟨bp, by simp, hbase.ne', hgrows⟩, hgrows, .inl hsizep, ?_, fun x _ hxb => hu.size x hxb⟩
    · intro y hy
      show p + 8 * h1.size p < y
      rw [hsizep]
      rcases mem_cons.mp hy with rfl | hy
      · omega
      · have := hbpl y hy
        omega
    · rw [blocks_cons, held_cons, hheld, hsizep, blocks_cons, held_cons, add_left_comm]
    · intro a ha
      rcases mem_cons.mp ha with rfl | ha
      · exact .inl rfl
      · exact .inr (hu.sub.subset ha)
    · intro x hx hxb
      exact (update_of_ne hx _ _).trans (hu.ptr x hxb)

structure Freed (base : ℕ) (h : Heap) (fl : List ℕ) (bp : ℕ) (h' : Heap) (fl' : List ℕ) : Prop where
  free : Free base h' fl'
  account : held (blocks h'.size fl') =
    units (bp, h.size bp) + held (blocks h.size fl)
  length : fl'.length ≤ fl.length + 1
  fits : ∃ a ∈ fl', h.size bp ≤ h'.size a
  size : ∀ x, x ∉ base :: fl → x ≠ bp → h'.size x = h.size x

theorem exists_cons_eq (hl : base :: fl = l1 ++ p :: l2) : ∃ fl', l1 ++ p :: l = base :: fl' := by
  cases l1 with
  | nil =>
    obtain ⟨rfl, _⟩ := List.cons.inj hl
    exact ⟨l, rfl⟩
  | cons b l1 =>
    obtain ⟨rfl, _⟩ := List.cons.inj hl
    exact ⟨l1 ++ p :: l, rfl⟩

theorem held_blocks_cons (hz : h.size base = 0) :
    held (blocks h.size (base :: fl)) = held (blocks h.size fl) := by
  rw [blocks_cons, held_cons, hz, units_empty, zero_add]

theorem Lower.below (hw : Lower base h p bp l2 h' l) (hs : Sorted h.size (l1 ++ p :: l2))
    (hp : p < bp) : ∀ a ∈ l1, h'.ptr a = h.ptr a ∧ h'.size a = h.size a := by
  intro a ha
  have hap := (pairwise_append.mp hs).2.2 a ha p (mem_cons_self ..)
  exact ⟨hw.ptr a (by omega) (by omega), hw.size a (by omega) (by omega)⟩

theorem Lower.sorted_append (hw : Lower base h p bp l2 h' l) (hs : Sorted h.size (l1 ++ p :: l2))
    (hp : p < bp) : Sorted h'.size (l1 ++ p :: l) := by
  obtain ⟨hs1, _, hs12⟩ := pairwise_append.mp hs
  have hsize := fun a ha => (hw.below hs hp a ha).2
  refine pairwise_append.mpr ⟨Sorted.congr hs1 hsize, hw.sorted, fun a ha b hb => ?_⟩
  rw [hsize a ha]
  have hap := hs12 a ha p (mem_cons_self ..)
  rcases mem_cons.mp hb with rfl | hb
  · exact hap
  · have := (pairwise_cons.mp hw.sorted).1 b hb
    omega

theorem Lower.size_pos (hw : Lower base h p bp l2 h' l) (hf : Free base h fl)
    (hl : base :: fl = l1 ++ p :: l2) (hpos : 0 < h.size bp) {a : ℕ} (ha : a ∈ l1 ++ p :: l)
    (hne : a ≠ base) : 0 < h'.size a := by
  have hold : ∀ x, x ∈ l1 ++ p :: l2 → x ≠ base → 0 < h.size x := fun x hx hxb =>
    hf.pos x ((mem_cons.mp (hl ▸ hx)).resolve_left hxb)
  by_cases hab : a = bp
  · exact hab ▸ hpos.trans_le hw.grows
  · by_cases hap : a = p
    · have hpp := hold p (by simp) (hap ▸ hne)
      rw [hap]
      rcases hw.pred with hpred | ⟨_, hpred⟩
      · exact hpred ▸ hpp
      · exact hpp.trans_le hpred
    · rw [hw.size a hap hab]
      refine hold a ?_ hne
      rcases mem_append.mp ha with ha | ha
      · exact List.mem_append_left _ ha
      · have ha := (hw.sub a ((mem_cons.mp ha).resolve_left hap)).resolve_left hab
        exact mem_append_right _ (mem_cons_of_mem _ ha)

theorem Lower.size_base (hw : Lower base h p bp l2 h' l) (hz : h.size base = 0)
    (hbase : base < bp) : h'.size base = 0 := by
  by_cases hpb : p = base
  · rcases hw.pred with hpred | ⟨hne, _⟩
    · rw [← hpb, hpred, hpb, hz]
    · exact absurd hpb hne
  · rw [hw.size base (Ne.symm hpb) hbase.ne, hz]

theorem Lower.freed (hw : Lower base h p bp l2 h' l) (hf : Free base h fl)
    (hl : base :: fl = l1 ++ p :: l2) (hp : p < bp) (hbase : base < bp) (hpos : 0 < h.size bp) :
    ∃ fl', Freed base h fl bp { h' with freep := some p } fl' := by
  obtain ⟨fl', hfl'⟩ := exists_cons_eq (l := l) hl
  have hsorted := hf.sorted
  have hleads := hf.leads
  rw [hl] at hsorted hleads
  have hbelow := hw.below hsorted hp
  have hzero := hw.size_base hf.size_base hbase
  have hsorted' : Sorted h'.size (base :: fl') := hfl' ▸ hw.sorted_append hsorted hp
  refine ⟨fl', ⟨?_, hzero, hsorted', fun a ha => ?_, ⟨p, ?_, rfl⟩⟩, ?_, ?_, ?_, ?_⟩
  · rw [← hfl']
    exact leads_append.mpr
      ⟨(leads_append.mp hleads).1.congr fun a ha => (hbelow a ha).1, hw.leads⟩
  · exact hw.size_pos hf hl hpos (hfl' ▸ mem_cons_of_mem _ ha)
      ((pairwise_cons.mp hsorted'.lt).1 a ha).ne'
  · rw [← hfl']
    simp
  · have haccount := hw.account
    calc held (blocks h'.size fl') = held (blocks h'.size (base :: fl')) :=
          (held_blocks_cons hzero).symm
      _ = held (blocks h.size l1) + held (blocks h'.size (p :: l)) := by
        rw [← hfl', blocks_append, held_append, blocks_congr fun a ha => (hbelow a ha).2]
      _ = units (bp, h.size bp) + held (blocks h.size (base :: fl)) := by
        rw [haccount, hl, blocks_append, held_append, add_left_comm]
      _ = units (bp, h.size bp) + held (blocks h.size fl) := by
        rw [held_blocks_cons hf.size_base]
  · have hlen := congrArg List.length hfl'
    have hlen' := congrArg List.length hl
    have := hw.length
    simp only [List.length_cons, List.length_append] at hlen hlen'
    omega
  · obtain ⟨a, ha, hab, hfit⟩ := hw.fits
    have ha : a ∈ base :: fl' := hfl' ▸ mem_append_right _ ha
    exact ⟨a, (mem_cons.mp ha).resolve_left hab, hfit⟩
  · intro x hx hxb
    refine hw.size x ?_ hxb
    rintro rfl
    exact hx (by rw [hl]; simp)

theorem Free.free_spec (hf : Free base h fl) (hbase : base < bp) (hpos : 0 < h.size bp)
    (htop : bp + 8 * h.size bp < 2 ^ 32) (htops : ∀ a ∈ fl, a + 8 * h.size a < 2 ^ 32)
    (hapart : ∀ a ∈ fl, Apart (a, h.size a) (bp, h.size bp)) {fuel : ℕ}
    (hfuel : fl.length < fuel) :
    ∃ h' fl', free fuel h (bp + 8) = some h' ∧ Freed base h fl bp h' fl' := by
  have hnot : bp ∉ fl := by
    intro hb
    rcases hapart bp hb with hle | hle <;> simp only at hle <;> omega
  obtain ⟨l1, p, l2, hl, hp, hl2⟩ := exists_pred hf.sorted.lt hbase hnot
  have hmem : ∀ y, y = p ∨ y ∈ l2 → y ∈ base :: fl := by
    intro y hy
    rw [hl]
    exact mem_append_right _ (mem_cons.mpr hy)
  have hfl : ∀ y ∈ l2, y ∈ fl := fun y hy =>
    (mem_cons.mp (hmem y (.inr hy))).resolve_left (hbase.trans (hl2 y hy)).ne'
  have hend : p + 8 * h.size p ≤ bp := by
    rcases mem_cons.mp (hmem p (.inl rfl)) with rfl | hpf
    · rw [hf.size_base]
      omega
    · rcases hapart p hpf with hle | hle <;> simp only at hle <;> omega
  have hends : ∀ y ∈ l2, bp + 8 * h.size bp ≤ y := by
    intro y hy
    have := hl2 y hy
    rcases hapart y (hfl y hy) with hle | hle <;> simp only at hle <;> omega
  -- the loop starts anywhere on the list and still ends at `p`
  obtain ⟨f, hfm, hfreep⟩ := hf.freep
  obtain ⟨l', hrot, hperm⟩ := hf.leads.rotate hfm
  have hlen := hperm.length_eq
  have hseek : seek (here h bp) h.ptr fuel f = some p := by
    refine hrot.seek (hperm.mem_iff.mpr (hmem p (.inl rfl)))
      (fun x hx => hf.here_iff hl hp hl2 (hperm.mem_iff.mp hx)) ?_
    simp only [List.length_cons] at hlen
    omega
  have hleads := hf.leads
  have hsorted := hf.sorted
  rw [hl] at hleads hsorted
  obtain ⟨_, hnext, hleads⟩ := leads_split.mp hleads
  have hsorted := (pairwise_cons.mp (pairwise_append.mp hsorted).2.1).2
  obtain ⟨l, hu⟩ := joinUpper_spec hnext hleads hsorted hbase htop
    (fun y hy => htops y (hfl y hy)) hl2 hends
  obtain ⟨l', hw⟩ := joinLower_spec hu hbase hp hend hf.size_base hl2
  obtain ⟨fl', hfreed⟩ := hw.freed hf hl hp hbase hpos
  refine ⟨_, fl', ?_, hfreed⟩
  rw [free, hfreep]
  simp only [Option.bind_some, Nat.add_sub_cancel, hseek, Option.map_some]

end Free

end Xv6.Umalloc

import Xv6.User.Freelist

/-! @src umalloc.c | part:user | name:Allocation is sound | scheme:circle machine

  The invariant of the allocator over whole programs, and the requests for which it holds: those
  whose size in bytes does not wrap in `morecore`. A request of 2²⁹ units asks `sbrk` for 2³² ≡ 0
  bytes, gets an empty region and frees it as a block of 2²⁹ units.

      malloc -- search --> take                       free --> join, join
                  | ^
                  v | morecore -- sbrk --> free -/

namespace Xv6.Umalloc
open Function
open List (cons)
open List
open Option (map_some some isSome_some)

open Schemes

structure Inv (base : ℕ) (h : Heap) (m : Brk) (live : List (ℕ × ℕ)) (fl : List ℕ) : Prop where
  free : Free base h fl
  kept : ∀ b ∈ live, h.size b.1 = b.2 ∧ 0 < b.2
  cover : held (blocks h.size fl) + held live = held m.regions
  laid : Laid base m.brk (held m.regions)
  base_lt : base < m.brk
  brk_lt : m.brk < 2 ^ 32

theorem Apart.symm {b c : ℕ × ℕ} (h : Apart b c) : Apart c b := Or.symm h

instance : Std.Symm Apart := ⟨fun _ _ h => h.symm⟩

theorem Apart.ne {b c : ℕ × ℕ} (h : Apart b c) (hb : 0 < b.2) (hc : 0 < c.2) : b.1 ≠ c.1 := by
  rcases h with h | h <;> omega

section Inv

variable {base : ℕ} {h : Heap} {m : Brk} {live : List (ℕ × ℕ)} {fl : List ℕ}

theorem Inv.pos (hI : Inv base h m live fl) : ∀ b ∈ blocks h.size fl ++ live, 0 < b.2 := by
  intro b hb
  rcases mem_append.mp hb with hb | hb
  · obtain ⟨a, ha, rfl⟩ := mem_map.mp hb
    exact hI.free.pos a ha
  · exact (hI.kept b hb).2

theorem Inv.pairwise (hI : Inv base h m live fl) : (blocks h.size fl ++ live).Pairwise Apart := by
  have hlaid := hI.laid
  rw [← hI.cover, ← held_append] at hlaid
  exact hlaid.pairwise hI.pos

variable {b : ℕ × ℕ} {fuel n q : ℕ}

theorem Inv.apart (hI : Inv base h m live fl) {a : ℕ} (ha : a ∈ fl) (hb : b ∈ live) :
    Apart (a, h.size a) b :=
  (pairwise_append.mp hI.pairwise).2.2 _ (mem_map_of_mem ha) b hb

theorem Inv.block (hI : Inv base h m live fl) (hb : b ∈ blocks h.size fl ++ live) :
    base < b.1 ∧ b.1 + 8 * b.2 ≤ m.brk := by
  refine hI.laid.block ?_ (hI.pos b hb)
  rw [← hI.cover, ← held_append]
  exact units_le_held hb

theorem Inv.free_le (hI : Inv base h m live fl) {a : ℕ} (ha : a ∈ fl) :
    a + 8 * h.size a ≤ m.brk :=
  (hI.block (mem_append_left _ (mem_map_of_mem ha))).2

theorem Inv.live_notMem (hI : Inv base h m live fl) (hb : b ∈ live) : b.1 ∉ base :: fl := by
  intro hm
  have hbase := (hI.block (mem_append_right _ hb)).1
  rcases mem_cons.mp hm with heq | hm
  · omega
  · exact (hI.apart hm hb).ne (hI.free.pos _ hm) (hI.kept b hb).2 rfl

theorem Inv.length_le (hI : Inv base h m live fl) : fl.length ≤ m.brk := by
  have hsub : fl.toFinset ⊆ Finset.range m.brk := by
    intro a ha
    have ha := mem_toFinset.mp ha
    have := hI.free.pos a ha
    have := hI.free_le ha
    exact Finset.mem_range.mpr (by omega)
  have hcard := Finset.card_le_card hsub
  rwa [toFinset_card_of_nodup hI.free.nodup, Finset.card_range] at hcard

/-! ### Taking a block -/

variable {c r : ℕ} {l l1 : List ℕ}

theorem mem_second (hl : base :: fl = l1 ++ q :: c :: l) : c ∈ fl := by
  cases l1 with
  | nil =>
    obtain ⟨_, rfl⟩ := cons.inj hl
    exact mem_cons_self ..
  | cons b l1 =>
    obtain ⟨_, rfl⟩ := cons.inj hl
    simp

theorem Inv.take_whole (hI : Inv base h m live fl) (hl : base :: fl = l1 ++ q :: c :: l) :
    ∃ fl', Inv base { h with ptr := update h.ptr q (h.ptr c), freep := some q } m
      ((c, h.size c) :: live) fl' := by
  obtain ⟨fl', hfl'⟩ := exists_cons_eq (l := l) hl
  have hsub : (base :: fl').Sublist (base :: fl) := by
    rw [hl, ← hfl']
    exact (List.Sublist.refl l1).append ((sublist_cons_self c l).cons_cons q)
  have hleads := hI.free.leads
  have hsorted := hI.free.sorted
  rw [hl] at hleads hsorted
  obtain ⟨hleads1, _, hc, hleads⟩ := leads_split.mp hleads
  obtain ⟨_, hs2, hs1⟩ := pairwise_append.mp hsorted
  obtain ⟨hq, _⟩ := pairwise_cons.mp hs2
  have hne1 : ∀ x ∈ l1, x ≠ q := fun x hx => by
    have := hs1 x hx q (mem_cons_self ..)
    omega
  have hne : ∀ x ∈ l, x ≠ q := fun x hx => by
    have := hq x (mem_cons_of_mem _ hx)
    omega
  have hcfl := mem_second hl
  refine ⟨fl', ⟨?_, hI.free.size_base, List.Pairwise.sublist hsub hI.free.sorted, ?_,
    ⟨q, ?_, rfl⟩⟩, ?_, ?_, hI.laid, hI.base_lt, hI.brk_lt⟩
  · rw [← hfl']
    refine leads_split.mpr ⟨hleads1.congr ?_, ?_, hleads.congr ?_⟩
    · exact fun x hx => update_of_ne (hne1 x hx) _ _
    · exact (update_self ..).trans hc
    · exact fun x hx => update_of_ne (hne x hx) _ _
  · exact fun a ha => hI.free.pos a ((cons_sublist_cons.mp hsub).subset ha)
  · rw [← hfl']
    simp
  · intro b hb
    rcases mem_cons.mp hb with rfl | hb
    · exact ⟨rfl, hI.free.pos c hcfl⟩
    · exact hI.kept b hb
  · have hheld : held (blocks h.size fl) = held (blocks h.size fl') + units (c, h.size c) := by
      have hz := hI.free.size_base
      have hfl'' : held (blocks h.size (base :: fl')) = held (blocks h.size fl') :=
        held_blocks_cons hz
      rw [← held_blocks_cons hz, ← hfl'', hl, ← hfl']
      simp only [blocks_append, blocks_cons, held_append, held_cons]
      abel
    rw [held_cons, ← add_assoc, ← hheld]
    exact hI.cover

theorem Inv.take_end (hI : Inv base h m live fl) (hl : base :: fl = l1 ++ q :: c :: l)
    (hn : 0 < n) (hlt : n < h.size c) : Inv base
      { h with
        size := update (update h.size c (h.size c - n))
          (c + 8 * (h.size c - n)) n
        freep := some q } m ((c + 8 * (h.size c - n), n) :: live) fl := by
  set size' := update (update h.size c (h.size c - n))
    (c + 8 * (h.size c - n)) n with hsize'
  have hcfl := mem_second hl
  have hcb : base ≠ c := (hI.free.base_lt hcfl).ne
  have hmem : ∀ x ∈ base :: fl, x = c ∨ x < c ∨ c + 8 * h.size c < x := fun x hx =>
    hI.free.sorted.trichotomy (mem_cons_of_mem _ hcfl) hx
  have hc : size' c = h.size c - n := by
    rw [hsize', update_of_ne (by omega), update_self]
  have hother : ∀ x, x ≠ c → x ≠ c + 8 * (h.size c - n) → size' x = h.size x := by
    intro x hxc hx
    rw [hsize', update_of_ne hx, update_of_ne hxc]
  have hnode : ∀ x ∈ base :: fl, x ≠ c → size' x = h.size x := by
    intro x hx hxc
    have := hmem x hx
    exact hother x hxc (by omega)
  have hle : ∀ x ∈ base :: fl, size' x ≤ h.size x := by
    intro x hx
    by_cases hxc : x = c
    · rw [hxc, hc]
      omega
    · exact (hnode x hx hxc).le
  refine ⟨⟨hI.free.leads, ?_, ?_, ?_, ⟨q, ?_, rfl⟩⟩, ?_, ?_, hI.laid, hI.base_lt, hI.brk_lt⟩
  · exact (hnode base (mem_cons_self ..) hcb).trans hI.free.size_base
  · refine List.Pairwise.imp_of_mem (fun {a b} ha _ hab => ?_) hI.free.sorted
    have := hle a ha
    show a + 8 * size' a < b
    omega
  · intro a ha
    show 0 < size' a
    by_cases hac : a = c
    · rw [hac, hc]
      omega
    · rw [hnode a (mem_cons_of_mem _ ha) hac]
      exact hI.free.pos a ha
  · rw [hl]
    simp
  · intro b hb
    rcases mem_cons.mp hb with rfl | hb
    · exact ⟨update_self .., hn⟩
    · have hap := hI.apart hcfl hb
      have hpos := (hI.kept b hb).2
      have hb' : b.1 ≠ c ∧ b.1 ≠ c + 8 * (h.size c - n) := by
        rcases hap with hap | hap <;> simp only at hap <;> omega
      show size' b.1 = b.2 ∧ 0 < b.2
      rw [hother b.1 hb'.1 hb'.2]
      exact hI.kept b hb
  · have hheld : held (blocks h.size fl) =
        held (blocks size' fl) + units (c + 8 * (h.size c - n), n) := by
      -- only the units of `c` are split
      have hresize := held_resize hI.free.nodup hcfl fun a ha =>
        hnode a (mem_cons_of_mem _ ha)
      have hsplit : units (c, h.size c) =
          units (c, h.size c - n) + units (c + 8 * (h.size c - n), n) := by
        rw [← units_add, Nat.sub_add_cancel hlt.le]
      rw [hc, hsplit, add_left_comm, add_comm] at hresize
      exact add_left_cancel hresize
    show held (blocks size' fl) + held ((c + 8 * (h.size c - n), n) :: live) = held m.regions
    rw [held_cons, ← add_assoc, ← hheld]
    exact hI.cover

theorem Inv.take_spec (hI : Inv base h m live fl) (hq : q ∈ base :: fl) (hn : 0 < n)
    (hle : n ≤ h.size (h.ptr q)) :
    ∃ fl', Inv base (take h q (h.ptr q) n).1 m (((take h q (h.ptr q) n).2, n) :: live) fl' := by
  obtain ⟨l1, l2, hl⟩ := append_of_mem hq
  have hleads := hI.free.leads
  rw [hl] at hleads
  obtain ⟨_, hnext, _⟩ := leads_split.mp hleads
  cases l2 with
  | nil =>
    -- `base` has no units
    have hnext : h.ptr q = base := hnext
    have hz := hI.free.size_base
    rw [hnext] at hle
    omega
  | cons c l =>
    have hnext : h.ptr q = c := hnext
    rw [hnext] at hle ⊢
    rw [take]
    split_ifs with heq
    · obtain ⟨fl', hI'⟩ := hI.take_whole hl
      rw [heq] at hI'
      exact ⟨fl', hI'⟩
    · have htop := hI.free_le (mem_second hl)
      have hbrk := hI.brk_lt
      simp only [hop_eq (show c + 8 * (h.size c - n) < 2 ^ 32 by omega)]
      exact ⟨fl, hI.take_end hl hn (by omega)⟩

/-! ### Giving a block back -/

theorem Free.size_congr {h' : Heap} (hf : Free base h fl) (hptr : h'.ptr = h.ptr)
    (hfreep : h'.freep = h.freep) (hsize : ∀ a ∈ base :: fl, h'.size a = h.size a) :
    Free base h' fl where
  leads := hptr ▸ hf.leads
  size_base := (hsize base (mem_cons_self ..)).trans hf.size_base
  sorted := hf.sorted.congr hsize
  pos a ha := by
    rw [hsize a (mem_cons_of_mem _ ha)]
    exact hf.pos a ha
  freep := hfreep ▸ hf.freep

theorem Inv.free_spec (hI : Inv base h m live fl) (hb : b ∈ live) (hfuel : m.brk < fuel) :
    ∃ h' fl', Umalloc.free fuel h (b.1 + 8) = some h' ∧ Inv base h' m (live.erase b) fl' := by
  obtain ⟨hsize, hpos⟩ := hI.kept b hb
  obtain ⟨hbase, htop⟩ := hI.block (mem_append_right _ hb)
  have hbrk := hI.brk_lt
  have hperm := perm_cons_erase hb
  rw [← hsize] at hpos htop
  obtain ⟨h', fl', hfree, hfreed⟩ := hI.free.free_spec hbase hpos (by omega)
    (fun a ha => lt_of_le_of_lt (hI.free_le ha) hbrk)
    (fun a ha => hsize ▸ hI.apart ha hb) (hI.length_le.trans_lt hfuel)
  refine ⟨h', fl', hfree, hfreed.free, ?_, ?_, hI.laid, hI.base_lt, hI.brk_lt⟩
  · intro c hc
    have hcl : c ∈ live := mem_of_mem_erase hc
    have hlive : (b :: live.erase b).Pairwise Apart :=
      (hperm.pairwise_iff Apart.symm).mp (pairwise_append.mp hI.pairwise).2.1
    have hne := ((pairwise_cons.mp hlive).1 c hc).ne (hI.kept b hb).2 (hI.kept c hcl).2
    rw [hfreed.size c.1 (hI.live_notMem hcl) hne.symm]
    exact hI.kept c hcl
  · have hb' : units (b.1, h.size b.1) = units b := by rw [hsize]
    rw [hfreed.account, hb', add_comm (units b), add_assoc, ← held_cons, ← held_perm hperm]
    exact hI.cover

theorem Inv.store {x : ℕ} (hI : Inv base h m live fl) (hb : b ∈ live) (hlo : b.1 < x)
    (hhi : x < b.1 + 8 * b.2) (v w : ℕ) :
    Inv base { h with ptr := update h.ptr x v, size := update h.size x w } m live
      fl := by
  have hnode : ∀ a ∈ base :: fl, a ≠ x := by
    intro a ha
    rcases mem_cons.mp ha with rfl | ha
    · have := (hI.block (mem_append_right _ hb)).1
      omega
    · have := hI.free.pos a ha
      rcases hI.apart ha hb with hap | hap <;> simp only at hap <;> omega
  have hhead : ∀ c ∈ live, c.1 ≠ x := by
    intro c hc
    by_cases hcb : c = b
    · rw [hcb]
      omega
    · have hlive : live.Pairwise Apart := (pairwise_append.mp hI.pairwise).2.1
      have hap := hlive.forall hc hb hcb
      have := (hI.kept c hc).2
      rcases hap with hap | hap <;> omega
  have hupd : ∀ (g : ℕ → ℕ) (v : ℕ), ∀ a ∈ base :: fl, update g x v a = g a :=
    fun g v a ha => update_of_ne (hnode a ha) _ _
  refine ⟨⟨hI.free.leads.congr (hupd _ _), ?_, hI.free.sorted.congr (hupd _ _), ?_, hI.free.freep⟩,
    ?_, ?_, hI.laid, hI.base_lt, hI.brk_lt⟩
  · exact (hupd _ _ base (mem_cons_self ..)).trans hI.free.size_base
  · intro a ha
    exact (hI.free.pos a ha).trans_eq (hupd _ _ a (mem_cons_of_mem _ ha)).symm
  · intro c hc
    have hsame : update h.size x w c.1 = h.size c.1 :=
      update_of_ne (hhead c hc) _ _
    exact ⟨hsame.trans (hI.kept c hc).1, (hI.kept c hc).2⟩
  · have hsame : blocks (update h.size x w) fl = blocks h.size fl :=
      blocks_congr fun a ha => hupd _ _ a (mem_cons_of_mem _ ha)
    exact hsame ▸ hI.cover

/-! ### More core -/

theorem sbrk_cases (m : Brk) (n : ℕ) :
    (∃ m', sbrk m n = (none, m') ∧ m'.brk = m.brk ∧ m'.regions = m.regions) ∨
      ∃ r m', sbrk m n = (some r, m') ∧ m.brk ≤ r ∧ m'.brk = r + n ∧ r + n < 2 ^ 32 ∧
        m'.regions = m.regions ++ [(r, n / 8)] := by
  rw [sbrk]
  match m.answers with
  | [] => exact .inl ⟨m, rfl, rfl, rfl⟩
  | none :: _ => exact .inl ⟨_, rfl, rfl, rfl⟩
  | some gap :: _ =>
    simp only
    split_ifs with hfit
    · exact .inr ⟨_, _, rfl, Nat.le_add_right .., rfl, hfit, rfl⟩
    · exact .inl ⟨_, rfl, rfl, rfl⟩

/-- Where a block of `n` units is asked for, `grow` answers as `sbrk` does: with nothing, or with a
  region of the size that `morecore` frees. -/
def Serves (grow : Brk → ℕ → Option ℕ × Brk) (n : ℕ) : Prop :=
  ∀ nu, nu = (if n < 4096 then 4096 else n) → ∀ m : Brk,
    (∃ m', grow m (8 * nu) = (none, m') ∧ m'.brk = m.brk ∧ m'.regions = m.regions) ∨
      ∃ r m', grow m (8 * nu) = (some r, m') ∧ m.brk ≤ r ∧ m'.brk = r + 8 * nu ∧
        r + 8 * nu < 2 ^ 32 ∧ m'.regions = m.regions ++ [(r, 8 * nu / 8)]

theorem sbrk_serves (n : ℕ) : Serves sbrk n := fun _ _ m => sbrk_cases m _

variable {grow : Brk → ℕ → Option ℕ × Brk}

theorem Inv.size_region (hI : Inv base h m live fl) (nu : ℕ) (hr : m.brk ≤ r) :
    (∀ a ∈ base :: fl, update h.size r nu a = h.size a) ∧
      ∀ b ∈ live, b.1 ≠ r ∧ update h.size r nu b.1 = h.size b.1 := by
  refine ⟨fun a ha => update_of_ne ?_ _ _, fun b hb => ?_⟩
  · rcases mem_cons.mp ha with rfl | ha
    · exact (hI.base_lt.trans_le hr).ne
    · have := hI.free.pos a ha
      have := hI.free_le ha
      omega
  · have htop := (hI.block (mem_append_right _ hb)).2
    have hpos := (hI.kept b hb).2
    have hne : b.1 ≠ r := by omega
    exact ⟨hne, update_of_ne hne _ _⟩

theorem Inv.free_region {nu : ℕ} (hI : Inv base h m live fl) (hr : m.brk ≤ r) (hpos : 0 < nu)
    (hlt : r + 8 * nu < 2 ^ 32) (hfuel : fl.length < fuel) :
    ∃ h' fl', Umalloc.free fuel { h with size := update h.size r nu } (r + 8) = some h' ∧
      Freed base { h with size := update h.size r nu } fl r h' fl' := by
  have hself : update h.size r nu r = nu := update_self ..
  have hsame := (hI.size_region nu hr).1
  have hle : ∀ a ∈ fl, a + 8 * update h.size r nu a ≤ m.brk := fun a ha => by
    rw [hsame a (mem_cons_of_mem _ ha)]
    exact hI.free_le ha
  have hf : Free base { h with size := update h.size r nu } fl :=
    hI.free.size_congr rfl rfl hsame
  refine hf.free_spec (hI.base_lt.trans_le hr) ?_ ?_ ?_ ?_ hfuel
  · simp only [hself]
    exact hpos
  · simp only [hself]
    exact hlt
  · exact fun a ha => lt_of_le_of_lt (hle a ha) hI.brk_lt
  · exact fun a ha => .inl ((hle a ha).trans hr)

theorem Inv.region {nu : ℕ} {h' : Heap} {m' : Brk} {fl' : List ℕ} (hI : Inv base h m live fl)
    (hr : m.brk ≤ r) (hlt : r + 8 * nu < 2 ^ 32) (hbrk : m'.brk = r + 8 * nu)
    (hreg : m'.regions = m.regions ++ [(r, nu)])
    (hfreed : Freed base { h with size := update h.size r nu } fl r h' fl') :
    Inv base h' m' live fl' := by
  obtain ⟨hsame, hlive⟩ := hI.size_region nu hr
  have hregions : held m'.regions = held m.regions + units (r, nu) := by
    rw [hreg, held_append, held_cons, held_nil, add_zero]
  refine ⟨hfreed.free, fun b hb => ?_, ?_, ?_, ?_, ?_⟩
  · obtain ⟨hne, hb'⟩ := hlive b hb
    rw [hfreed.size b.1 (hI.live_notMem hb) hne]
    exact ⟨hb'.trans (hI.kept b hb).1, (hI.kept b hb).2⟩
  · have haccount := hfreed.account
    simp only [update_self,
      blocks_congr fun a ha => hsame a (mem_cons_of_mem _ ha)] at haccount
    rw [haccount, hregions, add_assoc, hI.cover, add_comm]
  · rw [hregions, hbrk]
    exact hI.laid.region (hI.base_lt.trans_le hr) hr
  · have := hI.base_lt
    omega
  · omega

theorem Inv.morecore_spec (hI : Inv base h m live fl) (hg : Serves grow n) (hn : n < 2 ^ 29)
    (hfuel : fl.length < fuel) :
    (∃ m', morecoreOn grow fuel h m n = some (h, m', none) ∧ Inv base h m' live fl) ∨
      ∃ h' m' q fl', morecoreOn grow fuel h m n = some (h', m', some q) ∧ h'.freep = some q ∧
        Inv base h' m' live fl' ∧ fl'.length ≤ fl.length + 1 ∧ ∃ a ∈ fl', n ≤ h'.size a := by
  obtain ⟨nu, hnu⟩ : ∃ nu, nu = if n < 4096 then 4096 else n := ⟨_, rfl⟩
  have hnu' : n ≤ nu ∧ 0 < nu ∧ nu < 2 ^ 29 := by
    rw [hnu]
    split_ifs <;> omega
  -- here the request does not wrap
  have hbytes : nu * 8 % 2 ^ 32 = 8 * nu := by omega
  simp only [morecoreOn, ← hnu, hbytes]
  rcases hg nu hnu m with ⟨m', hs, hbrk, hreg⟩ | ⟨r, m', hs, hr, hbrk, hlt, hreg⟩
  · refine .inl ⟨m', by rw [hs], hI.free, hI.kept, ?_, ?_, ?_, ?_⟩
    · exact hreg ▸ hI.cover
    · rw [hreg, hbrk]
      exact hI.laid
    · exact hbrk ▸ hI.base_lt
    · exact hbrk ▸ hI.brk_lt
  · rw [Nat.mul_div_cancel_left nu (by omega)] at hreg
    obtain ⟨h', fl', hfree, hfreed⟩ := hI.free_region hr hnu'.2.1 hlt hfuel
    obtain ⟨q, _, hfreep⟩ := hfreed.free.freep
    obtain ⟨a, ha, hfit⟩ := hfreed.fits
    simp only [update_self] at hfit
    refine .inr ⟨h', m', q, fl', ?_, hfreep, hI.region hr hlt hbrk hreg hfreed, hfreed.length, a,
      ha, hnu'.1.trans hfit⟩
    rw [hs]
    simp only [hfree, map_some, hfreep]

/-! ### malloc -/

theorem search_round (m : Brk) (inner n : ℕ) {f : ℕ} (hfreep : h.freep = some f) :
    ∀ (fuel : ℕ) {l : List ℕ} {prevp : ℕ}, Leads h.ptr (prevp :: l) f → f ∉ l → l.length < fuel →
    (∃ q ∈ prevp :: l, n ≤ h.size (h.ptr q) ∧
      searchOn grow inner n fuel h m prevp (h.ptr prevp) =
        some ((take h q (h.ptr q) n).1, m, some ((take h q (h.ptr q) n).2 + 8))) ∨
    (∀ a, a = f ∨ a ∈ l → h.size a < n) ∧ ∃ k, k + 1 + l.length = fuel ∧
      searchOn grow inner n fuel h m prevp (h.ptr prevp) =
        match morecoreOn grow inner h m n with
        | none => none
        | some (h, m, none) => some (h, m, none)
        | some (h, m, some q) => searchOn grow inner n k h m q (h.ptr q)
  | fuel + 1, l, prevp, hleads, hf, hlen => by
    by_cases hfit : n ≤ h.size (h.ptr prevp)
    · refine .inl ⟨prevp, mem_cons_self .., hfit, ?_⟩
      rw [searchOn, if_pos hfit]
    · rw [searchOn, if_neg hfit]
      cases l with
      | nil =>
        have hnext : h.ptr prevp = f := hleads.1
        rw [hnext] at hfit ⊢
        rw [if_pos hfreep]
        refine .inr ⟨fun a ha => ?_, fuel, rfl, rfl⟩
        rcases ha with rfl | ha
        · exact not_le.mp hfit
        · exact absurd ha (by simp)
      | cons y l =>
        have hnext : h.ptr prevp = y := hleads.1
        have hne : h.freep ≠ some y := by
          rw [hfreep]
          intro heq
          exact hf (some.inj heq ▸ mem_cons_self ..)
        rw [hnext] at hfit ⊢
        rw [if_neg hne]
        have hlen : l.length < fuel := Nat.lt_of_succ_lt_succ hlen
        have hf : f ∉ l := fun hm => hf (mem_cons_of_mem _ hm)
        rcases search_round m inner n hfreep fuel hleads.2 hf hlen with
          ⟨q, hq, hle, heq⟩ | ⟨hnone, k, hk, heq⟩
        · exact .inl ⟨q, mem_cons_of_mem _ hq, hle, heq⟩
        · refine .inr ⟨fun a ha => ?_, k, ?_, heq⟩
          · rcases ha with rfl | ha
            · exact hnone a (.inl rfl)
            · rcases mem_cons.mp ha with rfl | ha
              · exact not_le.mp hfit
              · exact hnone a (.inr ha)
          · rw [length_cons]
            omega

def given (n : ℕ) (live : List (ℕ × ℕ)) : Option ℕ → List (ℕ × ℕ)
  | none => live
  | some ap => (ap - 8, n) :: live

theorem Inv.from_freep (hI : Inv base h m live fl) : ∃ f l, h.freep = some f ∧
    Leads h.ptr (f :: l) f ∧ f ∉ l ∧ l.length = fl.length ∧ ∀ a, a ∈ f :: l ↔ a ∈ base :: fl := by
  obtain ⟨f, hfm, hfreep⟩ := hI.free.freep
  obtain ⟨l, hleads, hperm⟩ := hI.free.leads.rotate hfm
  have hnd : (f :: l).Nodup := hperm.nodup_iff.mpr (hI.free.sorted.lt.imp fun hlt => hlt.ne)
  exact ⟨f, l, hfreep, hleads, (nodup_cons.mp hnd).1, Nat.succ.inj hperm.length_eq,
    fun a => hperm.mem_iff⟩

theorem Inv.search_spec {prevp : ℕ} (hI : Inv base h m live fl) (fuel inner : ℕ) (hn : 0 < n)
    (hg : Serves grow n) (hlt : n < 2 ^ 29) (hfuel : 2 * fl.length + 2 < fuel)
    (hinner : fl.length < inner) (hprevp : h.freep = some prevp) :
    ∃ h' m' r fl', searchOn grow inner n fuel h m prevp (h.ptr prevp) = some (h', m', r) ∧
      Inv base h' m' (given n live r) fl' := by
  obtain ⟨f, l, hfreep, hleads, hfl, hlen, hmem⟩ := hI.from_freep
  obtain rfl : f = prevp := some.inj (hfreep.symm.trans hprevp)
  rcases search_round m inner n hfreep fuel hleads hfl (by omega) with
    ⟨q, hq, hle, heq⟩ | ⟨_, k, hk, heq⟩
  · obtain ⟨fl', hI'⟩ := hI.take_spec ((hmem q).mp hq) hn hle
    exact ⟨_, _, _, fl', heq, hI'⟩
  · rw [heq]
    rcases hI.morecore_spec hg hlt hinner with
      ⟨m', hmore, hI'⟩ | ⟨h', m', q, fl', hmore, hq, hI', hlen', a, ha, hfit⟩
    · rw [hmore]
      exact ⟨_, _, _, fl, rfl, hI'⟩
    · -- the second round ends: the list now has a block that is large enough
      rw [hmore]
      obtain ⟨f', l', hfreep', hleads', hfl', hlen'', hmem'⟩ := hI'.from_freep
      obtain rfl : f' = q := some.inj (hfreep'.symm.trans hq)
      rcases search_round m' inner n hfreep' k hleads' hfl' (by omega) with
        ⟨q', hq', hle', heq'⟩ | ⟨hnone, _⟩
      · obtain ⟨fl'', hI''⟩ := hI'.take_spec ((hmem' q').mp hq') hn hle'
        exact ⟨_, _, _, fl'', heq', hI''⟩
      · have ha := (hmem' a).mpr (mem_cons_of_mem _ ha)
        exact absurd hfit (not_le.mpr (hnone a (mem_cons.mp ha)))

theorem start_of_some {f : ℕ} (hf : h.freep = some f) : start base h = h := by
  rw [start, hf]

theorem inv_start (hnone : h.freep = none) (hreg : m.regions = []) (hbase : base < m.brk)
    (hbrk : m.brk < 2 ^ 32) : Inv base (start base h) m [] [] := by
  rw [start, hnone]
  refine ⟨⟨⟨update_self .., trivial⟩, update_self .., pairwise_singleton ..,
    fun a ha => absurd ha (by simp), base, mem_cons_self .., rfl⟩,
    fun b hb => absurd hb (by simp), ?_, ?_, hbase, hbrk⟩
  · rw [hreg]
    rfl
  · rw [hreg]
    exact ⟨Multiset.nodup_zero, fun u hu => absurd hu (Multiset.notMem_zero u),
      fun u hu => absurd hu (Multiset.notMem_zero u)⟩

theorem Inv.malloc_spec {nbytes : ℕ} (hI : Inv base (start base h) m live fl)
    (hg : Serves grow (nunits nbytes)) (hlt : nunits nbytes < 2 ^ 29)
    (hfuel : 2 * m.brk + 2 < fuel) :
    ∃ h' m' r fl', mallocOn grow base fuel h m nbytes = some (h', m', r) ∧
      Inv base h' m' (given (nunits nbytes) live r) fl' := by
  have hlen := hI.length_le
  obtain ⟨f, _, hf⟩ := hI.free.freep
  obtain ⟨h', m', r, fl', heq, hI'⟩ :=
    hI.search_spec fuel fuel (Nat.succ_pos _) hg hlt (by omega) (by omega) hf
  exact ⟨h', m', r, fl', by rw [mallocOn, hf]; exact heq, hI'⟩

end Inv

/-! ### Programs -/

def Ok (base : ℕ) (s : State) : Prop :=
  (s.heap.freep = none ∧ s.live = [] ∧ s.mem.regions = [] ∧ base < s.mem.brk ∧
    s.mem.brk < 2 ^ 32) ∨ ∃ fl, Inv base s.heap s.mem s.live fl

def Fits (_ : State) : Call → Prop
  | .malloc nbytes _ => nunits nbytes < 2 ^ 29
  | .free _ => True
  | .store .. => True

instance (s : State) : (e : Call) → Decidable (Fits s e)
  | .malloc nbytes _ => inferInstanceAs (Decidable (nunits nbytes < 2 ^ 29))
  | .free _ => isTrue trivial
  | .store .. => isTrue trivial

section Ok

variable {base : ℕ} {s : State} {grow : Brk → ℕ → Option ℕ × Brk}

theorem Ok.started (h : Ok base s) (answers : List (Option ℕ)) :
    ∃ fl, Inv base (start base s.heap) { s.mem with answers } s.live fl := by
  rcases h with ⟨hnone, hlive, hreg, hbase, hbrk⟩ | ⟨fl, hI⟩
  · rw [hlive]
    exact ⟨[], inv_start hnone hreg hbase hbrk⟩
  · obtain ⟨f, _, hf⟩ := hI.free.freep
    rw [start_of_some hf]
    exact ⟨fl, hI.free, hI.kept, hI.cover, hI.laid, hI.base_lt, hI.brk_lt⟩

theorem Ok.malloc {nbytes : ℕ} (h : Ok base s) (answers : List (Option ℕ))
    (hg : Serves grow (nunits nbytes)) (hlt : nunits nbytes < 2 ^ 29) :
    ∃ u r, stepOn grow base s (.malloc nbytes answers) = some u ∧
      u.live = given (nunits nbytes) s.live r ∧ Ok base u := by
  obtain ⟨fl, hI⟩ := h.started answers
  have hfuel : 2 * s.mem.brk + 2 < s.fuel := by
    rw [State.fuel]
    omega
  obtain ⟨h', m', r, fl', heq, hI'⟩ := hI.malloc_spec hg hlt hfuel
  refine ⟨⟨h', m', given (nunits nbytes) s.live r⟩, r, ?_, rfl, .inr ⟨fl', hI'⟩⟩
  rw [stepOn, heq, map_some]
  cases r <;> rfl

theorem Ok.free {b : ℕ × ℕ} (h : Ok base s) (hb : b ∈ s.live) :
    ∃ u, stepOn grow base s (.free (b.1 + 8)) = some u ∧ Ok base u := by
  rcases h with ⟨_, hlive, _⟩ | ⟨fl, hI⟩
  · rw [hlive] at hb
    exact absurd hb (by simp)
  · obtain ⟨c, hc⟩ : ∃ c, s.live.find? (·.1 + 8 = b.1 + 8) = some c := by
      rw [← Option.isSome_iff_exists, List.find?_isSome]
      exact ⟨b, hb, by simp⟩
    have hcb : c.1 + 8 = b.1 + 8 := by simpa using List.find?_some hc
    have hfuel : s.mem.brk < s.fuel := by
      rw [State.fuel]
      omega
    obtain ⟨h', fl', heq, hI'⟩ := hI.free_spec (List.mem_of_find?_eq_some hc) hfuel
    refine ⟨{ s with heap := h', live := s.live.erase c }, ?_, .inr ⟨fl', hI'⟩⟩
    rw [stepOn, hc]
    simp only [← hcb, heq, map_some]

theorem Ok.step {e : Call} {u : State} (h : Ok base s) (he : Fits s e)
    (hg : ∀ nbytes answers, e = .malloc nbytes answers → Serves grow (nunits nbytes))
    (hs : stepOn grow base s e = some u) : Ok base u := by
  cases e with
  | malloc nbytes answers =>
    obtain ⟨u', _, heq, _, hok⟩ := h.malloc answers (hg _ _ rfl) he
    exact some.inj (heq.symm.trans hs) ▸ hok
  | free ap =>
    cases hfind : s.live.find? (·.1 + 8 = ap) with
    | none =>
      rw [stepOn, hfind] at hs
      exact absurd hs (by simp)
    | some b =>
      have hap : b.1 + 8 = ap := by simpa using List.find?_some hfind
      obtain ⟨u', heq, hok⟩ := h.free (List.mem_of_find?_eq_some hfind)
      rw [hap] at heq
      exact some.inj (heq.symm.trans hs) ▸ hok
  | store x v w =>
    rw [stepOn] at hs
    split_ifs at hs with hany
    obtain ⟨b, hb, hin⟩ := any_eq_true.mp hany
    obtain ⟨hlo, hhi⟩ : b.1 < x ∧ x < b.1 + 8 * b.2 := by simpa using hin
    rcases h with ⟨_, hlive, _⟩ | ⟨fl, hI⟩
    · rw [hlive] at hb
      exact absurd hb (by simp)
    · exact some.inj hs ▸ .inr ⟨fl, hI.store hb hlo hhi v w⟩

end Ok

/-- The free list is a circle through `base`, increasing up to its one wrap, of non-empty blocks
  that neither overlap nor touch; live blocks overlap neither each other nor free blocks; every
  unit `sbrk` gave is in exactly one of them. Before the first call there is no list and no
  block. -/
def Sound (base : ℕ) (s : State) : Prop :=
  match s.heap.freep with
  | none => s.live = [] ∧ s.mem.regions = []
  | some f => ∃ fl : List ℕ,
      Leads s.heap.ptr (base :: fl) base ∧ f ∈ base :: fl ∧ (base :: fl).Pairwise (· < ·) ∧
      s.heap.size base = 0 ∧ (∀ a ∈ fl, 0 < s.heap.size a) ∧
      (fl.Pairwise fun a b => a + 8 * s.heap.size a < b) ∧
      s.live.Pairwise Apart ∧ (∀ a ∈ fl, ∀ b ∈ s.live, Apart (a, s.heap.size a) b) ∧
      held (blocks s.heap.size fl) + held s.live = held s.mem.regions ∧
      (held s.mem.regions).Nodup

theorem Ok.sound {base : ℕ} {s : State} (h : Ok base s) : Sound base s := by
  rcases h with ⟨hnone, hlive, hreg, _⟩ | ⟨fl, hI⟩
  · rw [Sound, hnone]
    exact ⟨hlive, hreg⟩
  · obtain ⟨f, hmem, hf⟩ := hI.free.freep
    rw [Sound, hf]
    exact ⟨fl, hI.free.leads, hmem, hI.free.sorted.lt, hI.free.size_base, hI.free.pos,
      (pairwise_cons.mp hI.free.sorted).2, (pairwise_append.mp hI.pairwise).2.1,
      fun a ha b hb => hI.apart ha hb, hI.cover, hI.laid.nodup⟩

/-- Over every program whose requests fit, the heap is sound, `malloc` returns on every such
  request and `free` returns on every live block. -/
theorem heap_sound {base brk : ℕ} {ptr size : ℕ → ℕ} {s : State} (hbase : base < brk)
    (hbrk : brk < 2 ^ 32) (h : Reach (step base) Fits (initial ptr size brk) s) :
    Sound base s ∧
      (∀ nbytes answers, nunits nbytes < 2 ^ 29 →
        (step base s (.malloc nbytes answers)).isSome) ∧
      ∀ b ∈ s.live, (step base s (.free (b.1 + 8))).isSome := by
  have hok : Ok base s := h.invariant (I := Ok base) (.inl ⟨rfl, rfl, rfl, hbase, hbrk⟩)
    fun _ _ _ hs he hstep => hs.step he (fun _ _ _ => sbrk_serves _) hstep
  refine ⟨hok.sound, fun nbytes answers hlt => ?_, fun b hb => ?_⟩
  · obtain ⟨u, _, heq, _⟩ := hok.malloc answers (sbrk_serves _) hlt
    rw [step, heq, isSome_some]
  · obtain ⟨u, heq, _⟩ : ∃ u, stepOn sbrk base s (.free (b.1 + 8)) = some u ∧ Ok base u :=
      hok.free hb
    rw [step, heq, isSome_some]

/-- Two blocks from one region, the first freed. -/
theorem heap_sound_two : ∃ s, s.live = [(0xBFE0, 4)] ∧ Sound 0x1000 s := by
  obtain ⟨s, hs, hlive⟩ := exists_reach
    (show (follow (step 0x1000) Fits (initial (fun _ => 0) (fun _ => 0) 0x4000)
      [.malloc 20 [some 0], .malloc 10 [], .free 0xBFD0]).map State.live = some [(0xBFE0, 4)] by
        decide +kernel)
  exact ⟨s, hlive, (heap_sound (by decide) (by decide) hs).1⟩

/-- A block of 4097 units, a request of 2²⁹ units, and a second block of 4097 units: the last two
  calls return the same pointer. -/
theorem heap_overlaps : ∃ s, Reach (step 0x1000) (fun _ _ => True)
    (initial (fun _ => 0) (fun _ => 0) 0x4000) s ∧
      s.live = [(0xC008, 4097), (0xC008, 2 ^ 29), (0x4000, 4097)] ∧ ¬ Sound 0x1000 s := by
  obtain ⟨s, hs, hlive⟩ := exists_reach
    (show (follow (step 0x1000) (fun _ _ => True) (initial (fun _ => 0) (fun _ => 0) 0x4000)
      [.malloc 32768 [some 0], .malloc (2 ^ 32 - 8) [some 0], .malloc 32768 [some 0]]).map
        State.live = some [(0xC008, 4097), (0xC008, 2 ^ 29), (0x4000, 4097)] by decide +kernel)
  refine ⟨s, hs, hlive, fun hsound => ?_⟩
  rw [Sound] at hsound
  split at hsound
  · rw [hlive] at hsound
    exact absurd hsound.1 (by simp)
  · obtain ⟨_, _, _, _, _, _, _, hpair, _⟩ := hsound
    rw [hlive] at hpair
    have hapart := (pairwise_cons.mp hpair).1 (0xC008, 2 ^ 29) (by simp)
    exact hapart.ne (by decide) (by decide) rfl

end Xv6.Umalloc

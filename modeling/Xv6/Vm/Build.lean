import Xv6.Vm.Uvm

/-! @src vm.c | part:making and freeing a whole address space | scheme:prog, exclusive

  All pages of a page table under construction come from the free list, and nothing but free pages
  has been touched: `Built`. Whatever has been done to it, `freevm` gives back all that was taken.

      before --setupkvm--> Built --allocuvm, copy, load--> Built --freevm--> before -/

namespace Xv6.Vm
open Schemes Prog
open List (mem_cons mem_cons_self finRange)
open Option (some bind_eq_some_iff)

variable {ι δ : Type} {L : Layout} {items : ι → Option ℕ} {roots : δ → Option ℕ} {d : δ}
  {σ σ0 σ1 σ' : Kmem} {r p : ℕ} {i j : Fin 1024} {P : ℕ → Prop} {tmp : Option ℕ}

/-! ### freevm -/

theorem freeTables_run : ∀ (is : List (Fin 1024)) (σ : Kmem),
    (∀ i t, tableOf σ r i = some t → L.Managed t ∧ t ≠ r) →
      ∃ σ', freeTables L r is σ = (.ok (), σ') ∧ σ'.mem r = σ.mem r ∧
        (∀ q, q ∈ σ'.freelist ↔ q ∈ σ.freelist ∨ ∃ i ∈ is, tableOf σ r i = some q) ∧
        ∀ q, q ∉ σ'.freelist → σ'.mem q = σ.mem q
  | [], σ, _ => ⟨σ, rfl, rfl, fun q => by simp, fun _ _ => rfl⟩
  | i :: is, σ, h => by
    rw [freeTables, bind_of_ok (get_apply σ)]
    cases hp : present (σ.mem r i) with
    | false =>
      have hnone : tableOf σ r i = none := by simp [tableOf, hp]
      obtain ⟨σ', hrun, hdir, hfree, hmem⟩ := freeTables_run is σ h
      refine ⟨σ', by simpa [hp] using hrun, hdir, fun q => ?_, hmem⟩
      rw [hfree]
      simp [hnone]
    | true =>
      have hsome : tableOf σ r i = some (pteAddr (σ.mem r i)) := by simp [tableOf, hp]
      obtain ⟨hm, hne⟩ := h i _ hsome
      set t := pteAddr (σ.mem r i) with ht
      set σ1 : Kmem := { σ.fill t (fun _ => 0x01010101) with freelist := t :: σ.freelist } with hσ1
      have hdir1 : σ1.mem r = σ.mem r := by simp [hσ1, Kmem.fill, hne.symm]
      have htab : ∀ i, tableOf σ1 r i = tableOf σ r i := fun i => tableOf_congr hdir1
      obtain ⟨σ', hrun, hdir, hfree, hmem⟩ := freeTables_run is σ1 fun i t' ht' =>
        h i t' ((htab i).symm.trans ht')
      have hsub : ∀ q, q ∉ σ'.freelist → q ∉ σ1.freelist := fun q hq hf => hq ((hfree q).mpr (.inl hf))
      refine ⟨σ', ?_, hdir.trans hdir1, fun q => ?_, fun q hq => ?_⟩
      · simp only [if_true]
        rw [bind_of_ok (kfree_run hm σ)]
        exact hrun
      · rw [hfree]
        simp only [htab, mem_cons]
        show q ∈ t :: σ.freelist ∨ _ ↔ _
        rw [mem_cons]
        constructor
        · rintro ((rfl | hq) | ⟨i', hi', hq⟩)
          · exact .inr ⟨i, .inl rfl, hsome⟩
          · exact .inl hq
          · exact .inr ⟨i', .inr hi', hq⟩
        · rintro (hq | ⟨i', rfl | hi', hq⟩)
          · exact .inl (.inr hq)
          · exact .inl (.inl (some.inj (hq.symm.trans hsome)))
          · exact .inr ⟨i', hi', hq⟩
      · have hqt : q ≠ t := by
          rintro rfl
          exact hsub _ hq (mem_cons_self ..)
        rw [hmem q hq]
        simp [hσ1, Kmem.fill, hqt]

/-- The pages of an address space: its directory, its page tables and its user pages. -/
def Belongs (σ : Kmem) (r q : ℕ) : Prop :=
  q = r ∨ (∃ i, tableOf σ r i = some q) ∨
    ∃ i j w, i.val < 512 ∧ entryOf σ r i j = some w ∧ pteAddr w = q

theorem Belongs.holder (items : ι → Option ℕ) (hd : roots d = some r) {q : ℕ} (hq : Belongs σ r q) :
    ∃ x, holds σ items roots x = some q ∧
      (x = .dir d ∨ (∃ i, x = .table d i) ∨ ∃ i j, x = .user d i j) := by
  rcases hq with rfl | ⟨i, hi⟩ | ⟨i, j, w, hi, hw, ha⟩
  · exact ⟨.dir d, hd, .inl rfl⟩
  · exact ⟨.table d i, bind_eq_some_iff.mpr ⟨r, hd, hi⟩, .inr (.inl ⟨i, rfl⟩)⟩
  · exact ⟨.user d i j, bind_eq_some_iff.mpr ⟨r, hd, userOf_iff.mpr ⟨hi, w, hw, ha⟩⟩,
      .inr (.inr ⟨i, j, rfl⟩)⟩

theorem Own.not_belongs_two (h : Own L σ items roots) {d' : δ} {r' q : ℕ} (hne : d' ≠ d)
    (hd : roots d = some r) (hd' : roots d' = some r') (hq : Belongs σ r q) : ¬ Belongs σ r' q := by
  intro hq'
  obtain ⟨x, hx, hxd⟩ := hq.holder items hd
  obtain ⟨y, hy, hyd⟩ := hq'.holder items hd'
  obtain rfl := h.excl x y q hx hy
  rcases hxd with rfl | ⟨i, rfl⟩ | ⟨i, j, rfl⟩ <;>
    rcases hyd with hy | ⟨i', hy⟩ | ⟨i', j', hy⟩ <;> cases hy <;> exact hne rfl

theorem Own.not_free (h : Own L σ items roots) (hd : roots d = some r) {q : ℕ}
    (hq : Belongs σ r q) : q ∉ σ.freelist := by
  intro hf
  obtain ⟨x, hx, hxd⟩ := hq.holder items hd
  obtain rfl := h.excl x (.free q) q hx (by simp [holds, hf])
  rcases hxd with hx | ⟨i, hx⟩ | ⟨i, j, hx⟩ <;> cases hx

theorem Own.item_not_belongs (h : Own L σ items roots) (hd : roots d = some r) {x : ι} {q : ℕ}
    (hx : items x = some q) : ¬ Belongs σ r q := by
  intro hq
  obtain ⟨y, hy, hyd⟩ := hq.holder items hd
  obtain rfl := h.excl (.item x) y q hx hy
  rcases hyd with hx | ⟨i, hx⟩ | ⟨i, j, hx⟩ <;> cases hx

theorem freevm_some (r : ℕ) : freevm L (some r) = (do
    let _ ← deallocuvm L r KERNBASE 0
    freeTables L r (finRange 1024)
    kfree L r) := rfl

theorem freevm_run (h : Own L σ items roots) (hd : roots d = some r) :
    ∃ σ', freevm L (some r) σ = (.ok (), σ') ∧
      (∀ q, q ∈ σ'.freelist ↔ q ∈ σ.freelist ∨ Belongs σ r q) ∧
      ∀ q, q ∉ σ'.freelist → σ'.mem q = σ.mem q := by
  obtain ⟨σ1, hrun1, hcl⟩ := deallocuvm_run h hd (show 0 < KERNBASE by decide) le_rfl
  have hrange : ∀ i j, Range (pgRoundUp 0) KERNBASE (vaOf i j) ↔ i.val < 512 := fun i j => by
    rw [← vaOf_lt_kernbase (j := j)]
    exact ⟨fun hx => hx.2, fun hx => ⟨Nat.zero_le _, hx⟩⟩
  obtain ⟨σ2, hrun2, hdir2, hfree2, hmem2⟩ := freeTables_run (L := L) (r := r) (finRange 1024) σ1
    fun i t ht => by
      have ht' := (hcl.table i).symm.trans ht
      exact ⟨h.managed (.table d i) t (bind_eq_some_iff.mpr ⟨r, hd, ht'⟩),
        (h.table_ne_dir hd ht' hd).symm⟩
  have hm : L.Managed r := h.managed (.dir d) r hd
  set σ' : Kmem := { σ2.fill r (fun _ => 0x01010101) with freelist := r :: σ2.freelist } with hσ'
  have hfree : ∀ q, q ∈ σ'.freelist ↔ q ∈ σ.freelist ∨ Belongs σ r q := fun q => by
    show q ∈ r :: σ2.freelist ↔ _
    rw [mem_cons, hfree2, hcl.free]
    simp only [hrange, hcl.table, List.mem_finRange, true_and, Belongs]
    constructor
    · rintro (hq | (hq | hq) | hq)
      · exact .inr (.inl hq)
      · exact .inl hq
      · exact .inr (.inr (.inr hq))
      · exact .inr (.inr (.inl hq))
    · rintro (hq | hq | hq | hq)
      · exact .inr (.inl (.inl hq))
      · exact .inl hq
      · exact .inr (.inr hq)
      · exact .inr (.inl (.inr hq))
  refine ⟨σ', ?_, hfree, fun q hq => ?_⟩
  · rw [freevm_some, bind_of_ok hrun1, bind_of_ok hrun2, kfree_run hm]
  · have hq2 : q ∉ σ2.freelist := fun hx => hq (List.mem_cons_of_mem _ hx)
    have hq1 : q ∉ σ1.freelist := fun hx => hq2 ((hfree2 q).mpr (.inl hx))
    have hqr : q ≠ r := fun hx => hq ((hfree q).mpr (.inr (.inl hx)))
    have hqt : ∀ i, tableOf σ r i ≠ some q := fun i hx =>
      hq ((hfree q).mpr (.inr (.inr (.inl ⟨i, hx⟩))))
    rw [← hcl.mem q hq1 hqr hqt, ← hmem2 q hq2]
    simp [hσ', Kmem.fill, hqr]

/-! ### A page table under construction -/

/-- The page table `r` has been built from free pages; `tmp` is one more page taken. -/
structure Built (L : Layout) (items : ι → Option ℕ) (roots : δ → Option ℕ) (σ0 : Kmem)
    (tmp : Option ℕ) (r : ℕ) (σ : Kmem) : Prop where
  own : Own L σ (withTmp items tmp) (withTmp roots (some r))
  free : ∀ q, q ∈ σ0.freelist ↔ q ∈ σ.freelist ∨ tmp = some q ∨ Belongs σ r q
  mem : ∀ q, q ∉ σ0.freelist → σ.mem q = σ0.mem q

/-- Nothing has changed but the order of the free list and the words of free pages. -/
structure Restored (tmp : Option ℕ) (σ σ' : Kmem) : Prop where
  free : ∀ q, q ∈ σ.freelist ↔ q ∈ σ'.freelist ∨ tmp = some q
  lost : ∀ q, tmp = some q → q ∉ σ'.freelist
  mem : ∀ q, q ∉ σ.freelist → σ'.mem q = σ.mem q

theorem Restored.refl (σ : Kmem) : Restored none σ σ :=
  ⟨fun q => by simp, fun q hq => (Option.some_ne_none q hq.symm).elim,
    fun _ _ => rfl⟩

theorem Built.apart {q : ℕ} (h : Built L items roots σ0 tmp r σ) (hq : q ∉ σ0.freelist) :
    Apart σ r q where
  free hf := hq ((h.free q).mpr (.inl hf))
  dir hr := hq ((h.free q).mpr (.inr (.inr (.inl hr))))
  table i hi := hq ((h.free q).mpr (.inr (.inr (.inr (.inl ⟨i, hi⟩)))))

theorem Built.freevm (h : Built L items roots σ0 tmp r σ) :
    ∃ σ', freevm L (some r) σ = (.ok (), σ') ∧ Restored tmp σ0 σ' := by
  obtain ⟨σ', hrun, hfree, hmem⟩ := freevm_run h.own (d := none) rfl
  refine ⟨σ', hrun, fun q => ?_, fun q hq hf => ?_, fun q hq => ?_⟩
  · rw [h.free, hfree]
    constructor
    · rintro (hq | hq | hq)
      · exact .inl (.inl hq)
      · exact .inr hq
      · exact .inl (.inr hq)
    · rintro ((hq | hq) | hq)
      · exact .inl hq
      · exact .inr (.inr hq)
      · exact .inr (.inl hq)
  · subst hq
    rcases (hfree q).mp hf with hf | hb
    · have := h.own.excl (.item none) (.free q) q rfl (by simp [holds, hf])
      cases this
    · exact h.own.item_not_belongs (x := none) (d := none) rfl rfl hb
  · have hap := h.apart hq
    rw [hmem q ?_, h.mem q hq]
    intro hf
    rcases (hfree q).mp hf with hf | hb
    · exact hap.free hf
    · exact hq ((h.free q).mpr (.inr (.inr hb)))

theorem Built.grown {flags : Fin 1024 → Fin 1024 → ℕ} {ct : Fin 1024 → Fin 1024 → Page}
    (h : Built L items roots σ0 none r σ1)
    (hg : Grown L items (withTmp roots (some r)) r flags ct P tmp σ1 σ)
    (hu : ∀ i j, P (vaOf i j) → i.val < 512)
    (hnone : ∀ i j, P (vaOf i j) → entryOf σ1 r i j = none) : Built L items roots σ0 tmp r σ where
  own := hg.own
  free q := by
    rw [h.free, hg.free]
    simp only [Belongs]
    constructor
    · rintro ((hq | hq | ⟨i, hn, hs⟩ | ⟨i, j, w, hp, hw, ha⟩) | hq | hq | ⟨i, hi⟩ | ⟨i, j, w, hi, hw, ha⟩)
      · exact .inl hq
      · exact .inr (.inl hq)
      · exact .inr (.inr (.inr (.inl ⟨i, hs⟩)))
      · exact .inr (.inr (.inr (.inr ⟨i, j, w, hu i j hp, hw, ha⟩)))
      · cases hq
      · exact .inr (.inr (.inl hq))
      · exact .inr (.inr (.inr (.inl ⟨i, hg.table i q hi⟩)))
      · have hp : ¬ P (vaOf i j) := fun hp => by
          rw [hnone i j hp] at hw
          cases hw
        exact .inr (.inr (.inr (.inr ⟨i, j, w, hi, (hg.old i j hp).trans hw, ha⟩)))
    · rintro (hq | hq | hq | ⟨i, hi⟩ | ⟨i, j, w, hi, hw, ha⟩)
      · exact .inl (.inl hq)
      · exact .inl (.inr (.inl hq))
      · exact .inr (.inr (.inl hq))
      · cases ht : tableOf σ1 r i with
        | none => exact .inl (.inr (.inr (.inl ⟨i, ht, hi⟩)))
        | some t =>
          obtain rfl := some.inj (hi.symm.trans (hg.table i t ht))
          exact .inr (.inr (.inr (.inl ⟨i, ht⟩)))
      · rcases em (P (vaOf i j)) with hp | hp
        · exact .inl (.inr (.inr (.inr ⟨i, j, w, hp, hw, ha⟩)))
        · exact .inr (.inr (.inr (.inr ⟨i, j, w, hi, (hg.old i j hp).symm.trans hw, ha⟩)))
  mem q hq := (hg.mem q (h.apart hq)).trans (h.mem q hq)

theorem Built.extends (h : Built L items roots σ0 none r σ1)
    (hown : Own L σ (withTmp items none) (withTmp roots (some r))) (hext : Extends r σ1 σ)
    (hent : ∀ i j, i.val < 512 → entryOf σ r i j = entryOf σ1 r i j) :
    Built L items roots σ0 none r σ where
  own := hown
  free q := by
    rw [h.free, hext.free]
    simp only [Belongs]
    constructor
    · rintro ((hq | ⟨i, hn, hs⟩) | hq | hq | ⟨i, hi⟩ | ⟨i, j, w, hi, hw, ha⟩)
      · exact .inl hq
      · exact .inr (.inr (.inr (.inl ⟨i, hs⟩)))
      · cases hq
      · exact .inr (.inr (.inl hq))
      · exact .inr (.inr (.inr (.inl ⟨i, hext.table i q hi⟩)))
      · exact .inr (.inr (.inr (.inr ⟨i, j, w, hi, (hent i j hi).trans hw, ha⟩)))
    · rintro (hq | hq | hq | ⟨i, hi⟩ | ⟨i, j, w, hi, hw, ha⟩)
      · exact .inl (.inl hq)
      · cases hq
      · exact .inr (.inr (.inl hq))
      · cases ht : tableOf σ1 r i with
        | none => exact .inl (.inr ⟨i, ht, hi⟩)
        | some t =>
          obtain rfl := some.inj (hi.symm.trans (hext.table i t ht))
          exact .inr (.inr (.inr (.inl ⟨i, ht⟩)))
      · exact .inr (.inr (.inr (.inr ⟨i, j, w, hi, (hent i j hi).symm.trans hw, ha⟩)))
  mem q hq := (hext.mem q (h.apart hq)).trans (h.mem q hq)

/-! ### setupkvm -/

def Kmap.Covers (k : Kmap) (va : ℕ) : Prop :=
  k.virt * PGSIZE ≤ va ∧ va < k.virt * PGSIZE + k.size * PGSIZE

def Layout.Separate (L : Layout) : Prop :=
  L.kmap.Pairwise fun k k' => ∀ va, ¬ (k.Covers va ∧ k'.Covers va)

theorem mapKernel_ends (hd : roots d = some r) {F : Stop → Prop} : ∀ (ks : List Kmap) (σ : Kmem),
    Own L σ items roots →
    (∀ k ∈ ks, KERNBASE ≤ k.virt * PGSIZE ∧ 0 < k.size ∧ (k.virt + k.size) * PGSIZE ≤ WORD) →
    (F (.panic "remap") ∨ ks.Pairwise (fun k k' => ∀ va, ¬ (k.Covers va ∧ k'.Covers va)) ∧
      ∀ k ∈ ks, ∀ i j, k.Covers (vaOf i j) → entryOf σ r i j = none) →
    Ends F σ (mapKernel r ks) fun _ σ' => Own L σ' items roots ∧ Extends r σ σ' ∧
      ∀ i j, i.val < 512 → entryOf σ' r i j = entryOf σ r i j
  | [], σ, h, _, _ => Ends.ok rfl ⟨h, .refl r σ, fun _ _ _ => rfl⟩
  | k :: ks, σ, h, hk, hF => by
    obtain ⟨hlo, hpos, hhi⟩ := hk k (mem_cons_self ..)
    have hu : userBit ((if k.w then PTE_W else 0) ||| PTE_P) = false := by
      cases k.w <;> decide
    have hend : k.virt * PGSIZE + k.size * PGSIZE ≤ WORD := by
      rw [← Nat.add_mul]
      exact hhi
    rw [mapKernel_cons, mapEntry, mappages_range hpos hhi]
    refine (mappagesFrom_ends hd hu k.size (k.virt * PGSIZE) k.phys σ h (Nat.mul_mod_left _ _)
      (fun _ => hlo) hend (hF.imp id fun hfree i j h1 h2 =>
        hfree.2 k (mem_cons_self ..) i j ⟨h1, h2⟩)).bind ?_
    rintro ok σ1 ⟨hown, hext, hent⟩
    have huser : ∀ i j, i.val < 512 → entryOf σ1 r i j = entryOf σ r i j := fun i j hi =>
      hent i j fun hx => by
        have := vaOf_lt_kernbase (j := j).mpr hi
        omega
    cases ok with
    | false => exact Ends.ok rfl ⟨hown, hext, huser⟩
    | true =>
      rw [if_pos rfl]
      refine (mapKernel_ends hd ks σ1 hown (fun k' hk' => hk k' (List.mem_cons_of_mem _ hk'))
        (hF.imp id fun h => ?_)).post fun b σ' hb =>
          ⟨hb.1, hext.trans hb.2.1, fun i j hi => (hb.2.2 i j hi).trans (huser i j hi)⟩
      obtain ⟨hpw, hfree⟩ := h
      rw [List.pairwise_cons] at hpw
      refine ⟨hpw.2, fun k' hk' i j hc => ?_⟩
      rw [hent i j fun hx => hpw.1 k' hk' _ ⟨hx, hc⟩]
      exact hfree k' (List.mem_cons_of_mem _ hk') i j hc

theorem Own.newRoot (h : Own L σ (withTmp items (some p)) roots) (hz : ∀ j, σ.mem p j = 0) :
    Own L σ items (withTmp roots (some p)) := by
  classical
  have hnone : Own L σ (withTmp items (some p)) (withTmp roots none) :=
    h.reroot (fun x y => x = some y) (fun x x' y hx hx' => hx.trans hx'.symm) fun x r hx => by
      cases x with
      | none => cases hx
      | some x => exact ⟨x, rfl, hx⟩
  have hup : Function.update (withTmp roots none) none (some p) = withTmp roots (some p) := by
    funext x
    cases x with
    | none | some x => simp [withTmp]
  have := hnone.addRoot (d := none) rfl hz
  rwa [hup] at this

theorem setupkvm_ends (h : Own L σ0 items roots) {F : Stop → Prop}
    (hF : F (.panic "remap") ∨ L.Separate)
    (htop : F (.panic "PHYSTOP too high") ∨ KERNBASE + L.top * PGSIZE ≤ DEVSPACE) :
    Ends F σ0 (setupkvm L) fun o σ =>
      (o = none ∧ Restored none σ0 σ) ∨
      ∃ r, o = some r ∧ Built L items roots σ0 none r σ ∧
        ∀ i j, i.val < 512 → entryOf σ r i j = none := by
  rw [setupkvm]
  rcases kalloc_cases σ0 with hrun | ⟨r, fl, hf, hrun⟩
  · exact Ends.ok_bind hrun (Ends.ok rfl (.inl ⟨rfl, .refl σ0⟩))
  · refine Ends.ok_bind hrun ?_
    rw [setupkvmPage]
    refine Ends.ok_bind (setPage_apply r (fun _ => 0) { σ0 with freelist := fl }) ?_
    set σ1 := Kmem.fill { σ0 with freelist := fl } r fun _ => 0 with hσ1
    have htake := h.kalloc hf
    have hown : Own L σ1 items (withTmp roots (some r)) :=
      (htake.fill htake.tmp_inert fun _ => 0).newRoot fun j => by simp [Kmem.fill]
    have htab : ∀ i, tableOf σ1 r i = none := fun i => by simp [hσ1, tableOf, Kmem.fill, present]
    have hent : ∀ i j, entryOf σ1 r i j = none := fun i j => entryOf_of_none (htab i)
    have hbuilt : Built L items roots σ0 none r σ1 := by
      refine ⟨hown.tmp, fun q => ?_, fun q hq => ?_⟩
      · simp only [Belongs, htab, hent, reduceCtorEq, exists_false, or_false, false_or, false_and,
          and_false]
        show q ∈ σ0.freelist ↔ q ∈ fl ∨ q = r
        rw [hf, mem_cons, or_comm]
      · have hqr : q ≠ r := by
          rintro rfl
          exact hq (by rw [hf]; exact mem_cons_self ..)
        simp [hσ1, Kmem.fill, hqr]
    split_ifs with hphys
    · rw [Ends, stop_apply]
      exact htop.resolve_right (by omega)
    · refine (mapKernel_ends (d := none) rfl
        L.kmap σ1 hown L.kernel (hF.imp id fun hs => ⟨hs, fun k _ i j _ => hent i j⟩)).bind ?_
      rintro ok σ2 ⟨hown2, hext, huser⟩
      have hbuilt2 := hbuilt.extends hown2.tmp hext huser
      cases ok with
      | true =>
        rw [if_pos rfl]
        exact Ends.ok rfl (.inr ⟨r, rfl, hbuilt2, fun i j hi => (huser i j hi).trans (hent i j)⟩)
      | false =>
        rw [if_neg Bool.false_ne_true]
        obtain ⟨σ', hfree, hres⟩ := hbuilt2.freevm
        exact Ends.ok_bind hfree (Ends.ok rfl (.inl ⟨rfl, hres⟩))

end Xv6.Vm

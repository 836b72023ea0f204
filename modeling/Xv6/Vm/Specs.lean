import Xv6.Vm.Own

/-! @src vm.c, kalloc.c | part:what the page functions do to ownership | scheme:prog, exclusive

  `kalloc`, `kfree`, `walkpgdir` and `mappages` keep ownership exclusive, on success, on failure and
  at a panic. Only the address space they work on is named; all other owners are arbitrary. -/

namespace Xv6.Vm
open Schemes Prog

/-! ### Words of a page table -/

theorem present_mkPte (f flags : ℕ) : present (mkPte f (flags ||| PTE_P)) = true := by
  simp [present, mkPte, PTE_P]

theorem pteAddr_mkPte {flags : ℕ} (f : ℕ) (h : flags < 4096) : pteAddr (mkPte f flags) = f := by
  have hz : flags >>> 12 = 0 := by
    rw [Nat.shiftRight_eq_div_pow]
    exact Nat.div_eq_of_lt h
  rw [pteAddr, mkPte, Nat.shiftRight_or_distrib, hz, Nat.or_zero, Nat.shiftLeft_shiftRight]

theorem userBit_mkPte (f flags : ℕ) : userBit (mkPte f flags) = userBit flags := by
  simp [userBit, mkPte, Nat.testBit_or, Nat.testBit_shiftLeft]

theorem or_lt {a b : ℕ} (ha : a < 4096) (hb : b < 4096) : a ||| b < 4096 :=
  Nat.or_lt_two_pow (n := 12) ha hb

variable {ι δ : Type} {L : Layout} {items : ι → Option ℕ} {roots : δ → Option ℕ}

/-! ### The allocator -/

theorem kalloc_cases (σ : Kmem) : (kalloc σ = (.ok none, σ)) ∨
    ∃ p fl, σ.freelist = p :: fl ∧ kalloc σ = (.ok (some p), { σ with freelist := fl }) := by
  cases hf : σ.freelist with
  | nil => exact .inl (by simp [kalloc, bind_apply, hf])
  | cons p fl => exact .inr ⟨p, fl, rfl, by simp [kalloc, bind_apply, hf]⟩

theorem kfree_run {p : ℕ} (hm : L.Managed p) (σ : Kmem) :
    kfree L p σ = (.ok (), { σ.fill p (fun _ => 0x01010101) with freelist := p :: σ.freelist }) := by
  simp [kfree, hm, setPage, bind_apply, Kmem.fill]

theorem Own.tmp_inert {σ : Kmem} {p : ℕ} (h : Own L σ (withTmp items (some p)) roots) :
    Inert σ roots p :=
  h.inert (x := .item none) rfl (by simp) (by simp)

/-! ### Walking and mapping -/

section Space

variable {d : δ} {r : ℕ}

theorem pdx_lt {va : ℕ} (h : va < KERNBASE) : (pdx va).val < 512 := by
  simp only [pdx, KERNBASE] at *
  omega

theorem le_pdx {va : ℕ} (h : KERNBASE ≤ va) (hw : va < WORD) : 512 ≤ (pdx va).val := by
  simp only [pdx, KERNBASE, WORD] at *
  omega

theorem mappages_page {a : ℕ} (ha : a % PGSIZE = 0) (hlt : a < KERNBASE) (frame perm : ℕ) :
    mappages r a PGSIZE frame perm = mappagesFrom r perm 1 a frame := by
  have hcount : (pgRoundDown ((a + PGSIZE + WORD - 1) % WORD) + WORD - pgRoundDown a) % WORD /
      PGSIZE + 1 = 1 := by
    simp only [pgRoundDown, PGSIZE, WORD, KERNBASE] at *
    omega
  have hdown : pgRoundDown a = a := by
    simp only [pgRoundDown, PGSIZE] at *
    omega
  rw [mappages, hcount, hdown]

theorem mappages_range {v n : ℕ} (hn : 0 < n) (hw : (v + n) * PGSIZE ≤ WORD) (frame perm : ℕ) :
    mappages r (v * PGSIZE) (n * PGSIZE) frame perm = mappagesFrom r perm n (v * PGSIZE) frame := by
  have ha : pgRoundDown (v * PGSIZE) = v * PGSIZE := by
    rw [pgRoundDown, Nat.mul_div_cancel _ (by decide)]
  have hcount : (pgRoundDown ((v * PGSIZE + n * PGSIZE + WORD - 1) % WORD) + WORD -
      v * PGSIZE) % WORD / PGSIZE + 1 = n := by
    simp only [pgRoundDown, PGSIZE, WORD] at *
    omega
  rw [mappages, ha, hcount]

theorem mapKernel_cons (r : ℕ) (k : Kmap) (ks : List Kmap) : mapKernel r (k :: ks) =
    (mapEntry r k >>= fun ok => if ok then mapKernel r ks else pure false) := by
  rw [mapKernel, List.foldr_cons, mapKernel]

/-! ### Freeing -/

theorem Own.unmapFree {σ : Kmem} {t : ℕ} {i j : Fin 1024} (h : Own L σ items roots)
    (hd : roots d = some r) (ht : tableOf σ r i = some t) (hi : i.val < 512)
    (hp : present (σ.mem t j) = true) (c : Page) :
    Own L (Kmem.write { σ.fill (pteAddr (σ.mem t j)) c with
      freelist := pteAddr (σ.mem t j) :: σ.freelist } t j 0) items roots := by
  have hfree := (h.unmap hd ht hi hp).kfree c
  set p := pteAddr (σ.mem t j) with hpdef
  have hpt : p ≠ t := by
    have hin := (h.unmap hd ht hi hp).tmp_inert
    intro hx
    refine hin.table d r i hd ?_
    rw [h.tableOf_write hd ht hd, ht, ← hpdef, hx]
  have hcomm : Kmem.write { σ.fill p c with freelist := p :: σ.freelist } t j 0 =
      { (σ.write t j 0).fill p c with freelist := p :: σ.freelist } := by
    simp only [Kmem.write, Kmem.fill, Kmem.mk.injEq, and_true]
    rw [Function.update_of_ne hpt.symm, Function.update_comm hpt]
  rw [hcomm]
  exact hfree

end Space

end Xv6.Vm

import Xv6.Vm.Space

/-! @src vm.c, mmu.h | part:page tables as flat maps | scheme:prog

  `entryOf` is a map from the pages of the address space to entries: `walkpgdir` finds its places,
  and `mappages` changes it from the first page of its range on, up to where `kalloc` fails. -/

namespace Xv6.Vm
open Schemes Prog

variable {σ : Kmem} {r : ℕ}

theorem PageTable.walk (h : PageTable σ r) (va : ℕ) :
    (walkpgdir r va true σ = (.ok none, σ) ∧ σ.freelist = []) ∨
    ∃ σ' t, walkpgdir r va true σ = (.ok (some (t, ptx va)), σ') ∧ PageTable σ' r ∧
      tableOf σ' r (pdx va) = some t ∧ (∀ i j, entryOf σ' r i j = entryOf σ r i j) ∧
      (σ' = σ ∨ σ.freelist = t :: σ'.freelist ∧ ∀ j, σ'.mem t j = 0) := by
  cases hp : present (σ.mem r (pdx va)) with
  | true =>
    exact .inr ⟨σ, pteAddr (σ.mem r (pdx va)), by simp [walkpgdir, bind_apply, hp], h,
      by simp [tableOf, hp], fun i j => rfl, .inl rfl⟩
  | false =>
    have hnone : tableOf σ r (pdx va) = none := by simp [tableOf, hp]
    cases hf : σ.freelist with
    | nil => exact .inl ⟨by simp [walkpgdir, kalloc, bind_apply, hp, hf], rfl⟩
    | cons p fl =>
      obtain ⟨hnew, hself, hzero, hent⟩ := h.addTable
        (w := mkPte p (PTE_P ||| PTE_W ||| PTE_U)) hf hnone (present_mkPte p (PTE_W ||| PTE_U))
        (pteAddr_mkPte p (by decide))
      refine .inr ⟨_, p, ?_, hnew, hself, hent, .inr ⟨rfl, hzero⟩⟩
      simp [walkpgdir, kalloc, bind_apply, hp, hf, setPage, setWord, Kmem.write, Kmem.fill]

/-- The map with the first `m` pages from `a` on mapped to the frames from `frame` on. -/
def mapped (σ : Kmem) (r perm m a frame : ℕ) (i j : Fin 1024) : Option ℕ :=
  if a ≤ vaOf i j ∧ vaOf i j < a + m * PGSIZE then
    some (mkPte ((frame + (vaOf i j - a) / PGSIZE) % 2 ^ 20) (perm ||| PTE_P))
  else entryOf σ r i j

theorem mappagesFrom_flat (perm : ℕ) : ∀ (n a frame : ℕ) (σ : Kmem), PageTable σ r →
    a % PGSIZE = 0 → a + n * PGSIZE ≤ WORD → frame < 2 ^ 20 →
    (∀ i j, a ≤ vaOf i j → vaOf i j < a + n * PGSIZE → entryOf σ r i j = none) →
    ∃ ok σ' m, mappagesFrom r perm n a frame σ = (.ok ok, σ') ∧ PageTable σ' r ∧ m ≤ n ∧
      (ok = true ↔ m = n) ∧ (ok = false → σ'.freelist = []) ∧
      ∀ i j, entryOf σ' r i j = mapped σ r perm m a frame i j
  | 0, a, frame, σ, h, _, _, _, _ => ⟨true, σ, 0, rfl, h, le_rfl, by simp, by simp, fun i j => by
    rw [mapped, if_neg (by omega)]⟩
  | n + 1, a, frame, σ, h, hal, hw, hfr, hfree => by
    have haw : a < WORD := by simp only [PGSIZE] at hw; omega
    have hpage := fun i j => vaOf_in_page (i := i) (j := j) hal haw
    rw [mappagesFrom]
    rcases h.walk a with ⟨hrun, hfl⟩ | ⟨σ1, t, hrun, h1, ht, hent, -⟩
    · refine ⟨false, σ, 0, bind_of_ok hrun, h, Nat.zero_le _, by simp, fun _ => hfl, fun i j => ?_⟩
      rw [mapped, if_neg (by omega)]
    · obtain ⟨h2, hent2⟩ := h1.write (w := mkPte frame (perm ||| PTE_P)) (j := ptx a) ht
      have habs : present (σ1.mem t (ptx a)) = false := by
        have hin := (hpage _ _).mpr ⟨rfl, rfl⟩
        have hnone := hfree _ _ hin.1 (by simp only [PGSIZE] at *; omega)
        rw [← hent, entryOf_of_table ht] at hnone
        simpa using hnone
      have hone : ∀ i j, entryOf (σ1.write t (ptx a) (mkPte frame (perm ||| PTE_P))) r i j =
          mapped σ r perm 1 a frame i j := by
        intro i j
        rw [hent2, hent, mapped, Nat.one_mul, if_pos (present_mkPte frame perm)]
        by_cases hij : i = pdx a ∧ j = ptx a
        · have hin := (hpage i j).mpr hij
          have hzero : (vaOf i j - a) / PGSIZE = 0 := Nat.div_eq_of_lt (by omega)
          rw [if_pos hij, if_pos hin, hzero, Nat.add_zero, Nat.mod_eq_of_lt hfr]
        · rw [if_neg hij, if_neg fun hx => hij ((hpage i j).mp hx)]
      set σ2 := σ1.write t (ptx a) (mkPte frame (perm ||| PTE_P))
      rw [bind_of_ok hrun]
      -- only the last turn may leave the address space
      rcases Nat.eq_zero_or_pos n with rfl | hn
      · refine ⟨true, σ2, 1, ?_, h2, le_rfl, by simp, by simp, hone⟩
        simp [bind_apply, habs, setWord, mappagesFrom, σ2, Kmem.write, Kmem.fill]
      · have hnext : (a + PGSIZE) % WORD = a + PGSIZE := Nat.mod_eq_of_lt (by
          simp only [PGSIZE, WORD] at *; omega)
        obtain ⟨ok, σ', m, hrest, h', hm, hok, hfail, hent'⟩ := mappagesFrom_flat perm n (a + PGSIZE)
          ((frame + 1) % 2 ^ 20) σ2 h2 (by rw [Nat.add_mod_right, hal])
          (by simp only [PGSIZE] at *; omega) (Nat.mod_lt _ (by decide)) fun i j hlo hhi => by
            rw [hone, mapped, if_neg (by omega)]
            exact hfree i j (by omega) (by simp only [PGSIZE] at *; omega)
        refine ⟨ok, σ', m + 1, ?_, h', by omega, by rw [hok]; omega, hfail, fun i j => ?_⟩
        · rw [hnext, ← hrest]
          simp only [bind_apply, get_apply, habs]
          rfl
        · rw [hent', mapped, hone, mapped, mapped]
          have hm' := vaOf_mod i j
          by_cases hlo : a + PGSIZE ≤ vaOf i j ∧ vaOf i j < a + PGSIZE + m * PGSIZE
          · have hframe : ((frame + 1) % 2 ^ 20 + (vaOf i j - (a + PGSIZE)) / PGSIZE) % 2 ^ 20 =
                (frame + (vaOf i j - a) / PGSIZE) % 2 ^ 20 := by
              simp only [PGSIZE] at *
              omega
            rw [if_pos hlo, if_pos (by simp only [PGSIZE] at *; omega), hframe]
          · rw [if_neg hlo, Nat.one_mul]
            by_cases hin : a ≤ vaOf i j ∧ vaOf i j < a + PGSIZE
            · rw [if_pos hin, if_pos (by simp only [PGSIZE] at *; omega)]
            · rw [if_neg hin, if_neg (by simp only [PGSIZE] at *; omega)]

def pagesOf (va size : ℕ) : ℕ := (va + size - 1) / PGSIZE - va / PGSIZE + 1

/-- A page table is a flat map: `mappages` adds its range, or a part of it when no page is left;
  `walkpgdir` finds or adds a table and changes no mapping; and two addresses with the same entry
  are in the same page. -/
theorem page_table_flat (h : PageTable σ r) :
    (∀ va size frame perm, 0 < size → va + size ≤ WORD → frame < 2 ^ 20 →
      (∀ i j, pgRoundDown va ≤ vaOf i j → vaOf i j ≤ pgRoundDown (va + size - 1) →
        entryOf σ r i j = none) →
      ∃ ok σ' m, mappages r va size frame perm σ = (.ok ok, σ') ∧
        (ok = true ∧ m = pagesOf va size ∨ ok = false ∧ m < pagesOf va size ∧ σ'.freelist = []) ∧
        ∀ i j, entryOf σ' r i j = mapped σ r perm m (pgRoundDown va) frame i j) ∧
    (∀ va, (walkpgdir r va true σ = (.ok none, σ) ∧ σ.freelist = []) ∨
      ∃ σ' t, walkpgdir r va true σ = (.ok (some (t, ptx va)), σ') ∧
        tableOf σ' r (pdx va) = some t ∧ (∀ i j, entryOf σ' r i j = entryOf σ r i j) ∧
        (σ' = σ ∨ σ.freelist = t :: σ'.freelist ∧ ∀ j, σ'.mem t j = 0)) ∧
    ∀ va va' x, va < WORD → va' < WORD → walkpgdir r va false σ = (.ok (some x), σ) →
      walkpgdir r va' false σ = (.ok (some x), σ) → va / PGSIZE = va' / PGSIZE := by
  refine ⟨fun va size frame perm hsize hw hfr hfree => ?_, fun va => ?_, ?_⟩
  · have hcount : (pgRoundDown ((va + size + WORD - 1) % WORD) + WORD - pgRoundDown va) % WORD /
        PGSIZE + 1 = pagesOf va size := by
      simp only [pgRoundDown, pagesOf, PGSIZE, WORD] at *
      omega
    have hlast : pgRoundDown va + pagesOf va size * PGSIZE =
        pgRoundDown (va + size - 1) + PGSIZE := by
      simp only [pgRoundDown, pagesOf, PGSIZE] at *
      omega
    have hend : pgRoundDown va + pagesOf va size * PGSIZE ≤ WORD := by
      rw [hlast]
      simp only [pgRoundDown, PGSIZE, WORD] at *
      omega
    obtain ⟨ok, σ', m, hrun, -, hm, hok, hfail, hent⟩ := mappagesFrom_flat perm
      (pagesOf va size) (pgRoundDown va) frame σ h (Nat.mul_mod_left ..) hend hfr
      fun i j hlo hhi => hfree i j hlo (by
        have hv := vaOf_mod i j
        simp only [pgRoundDown, PGSIZE] at *
        omega)
    refine ⟨ok, σ', m, by rw [mappages, hcount]; exact hrun, ?_, hent⟩
    cases ok with
    | true => exact .inl ⟨rfl, hok.mp rfl⟩
    | false =>
      have hne : m ≠ pagesOf va size := fun hx => by cases hok.mpr hx
      exact .inr ⟨rfl, by omega, hfail rfl⟩
  · rcases h.walk va with hnone | ⟨σ', t, hrun, -, ht, hent, hnew⟩
    · exact .inl hnone
    · exact .inr ⟨σ', t, hrun, ht, hent, hnew⟩
  · intro va va' x hva hva' hx hx'
    rw [walkpgdir_false, Prod.mk.injEq, Except.ok.injEq, Option.map_eq_some_iff] at hx hx'
    obtain ⟨⟨t, ht, rfl⟩, -⟩ := hx
    obtain ⟨⟨t', ht', heq⟩, -⟩ := hx'
    obtain ⟨rfl, hj⟩ := Prod.mk.inj heq
    have hi := congrArg Fin.val (h.inj _ _ _ ht ht')
    have hj := congrArg Fin.val hj
    simp only [pdx, ptx, PGSIZE, WORD] at *
    omega

def emptyTable : Kmem := ⟨fun _ _ => 0, [2]⟩

/-- Two pages on both sides of 4 MB, so in two page tables. -/
theorem page_table_flat_two : ∃ ok σ' m, mappages 1 0x3ff000 8192 5 PTE_W emptyTable = (.ok ok, σ') ∧
    (ok = true ∧ m = 2 ∨ ok = false ∧ m < 2 ∧ σ'.freelist = []) := by
  have hnone : ∀ i, tableOf emptyTable 1 i = none := fun i => by
    simp [tableOf, emptyTable, present]
  have htab : PageTable emptyTable 1 := ⟨by decide, by decide, fun i t ht => by simp [hnone] at ht,
    fun i i' t ht => by simp [hnone] at ht⟩
  obtain ⟨ok, σ', m, hrun, hm, -⟩ := (page_table_flat htab).1 0x3ff000 8192 5 PTE_W (by decide)
    (by decide) (by decide) fun i j _ _ => entryOf_of_none (hnone i)
  exact ⟨ok, σ', m, hrun, hm⟩

end Xv6.Vm

import Xv6.Vm.Space

/-! @src vm.c | part:growing and shrinking an address space | scheme:prog, exclusive

  `deallocuvm` clears a set of pages, `allocuvm` fills one. Both are relations between two states:
  what is mapped, which pages have come from or gone to the free list, and what has not been
  touched. Clearing the pages that a failed `allocuvm` has filled gives back what there was, page
  tables apart.

      before --fill [lo, a)--> out of pages --clear [lo, newsz)--> before, with more page tables -/

namespace Xv6.Vm
open Schemes Prog
open List (mem_cons range')
open Option (some)

variable {ι δ : Type} {L : Layout} {items : ι → Option ℕ} {roots : δ → Option ℕ} {d : δ}
  {σ σ0 σ1 σ' : Kmem} {r p a : ℕ} {i j : Fin 1024} {P Q R : ℕ → Prop}

/-! ### Clearing -/

/-- The pages of `r` at the addresses `P` have been unmapped and freed. -/
structure Cleared (L : Layout) (items : ι → Option ℕ) (roots : δ → Option ℕ) (r : ℕ) (P : ℕ → Prop)
    (σ σ' : Kmem) : Prop where
  own : Own L σ' items roots
  dir : σ'.mem r = σ.mem r
  gone : ∀ i t j, tableOf σ r i = some t → P (vaOf i j) → present (σ.mem t j) = true →
    σ'.mem t j = 0
  kept : ∀ i t j, tableOf σ r i = some t → ¬ (P (vaOf i j) ∧ present (σ.mem t j) = true) →
    σ'.mem t j = σ.mem t j
  free : ∀ q, q ∈ σ'.freelist ↔ q ∈ σ.freelist ∨
    ∃ i j w, P (vaOf i j) ∧ entryOf σ r i j = some w ∧ pteAddr w = q
  mem : ∀ q, q ∉ σ'.freelist → q ≠ r → (∀ i, tableOf σ r i ≠ some q) → σ'.mem q = σ.mem q

theorem Cleared.table (h : Cleared L items roots r P σ σ') (i : Fin 1024) :
    tableOf σ' r i = tableOf σ r i := tableOf_congr h.dir

theorem Cleared.entry_gone (h : Cleared L items roots r P σ σ') (hP : P (vaOf i j)) :
    entryOf σ' r i j = none := by
  cases ht : tableOf σ r i with
  | none => exact entryOf_of_none (by rw [h.table, ht])
  | some t =>
    rw [entryOf_of_table (by rw [h.table, ht])]
    cases hp : present (σ.mem t j) with
    | true => rw [h.gone i t j ht hP hp]; rfl
    | false => rw [h.kept i t j ht (by simp [hp]), hp]; rfl

theorem Cleared.entry_kept (h : Cleared L items roots r P σ σ') (hP : ¬ P (vaOf i j)) :
    entryOf σ' r i j = entryOf σ r i j := by
  cases ht : tableOf σ r i with
  | none => rw [entryOf_of_none ht, entryOf_of_none (by rw [h.table, ht])]
  | some t =>
    rw [entryOf_of_table ht, entryOf_of_table (by rw [h.table, ht]),
      h.kept i t j ht fun hx => hP hx.1]

theorem Own.cleared_nothing (h : Own L σ items roots)
    (hP : ∀ i j, P (vaOf i j) → entryOf σ r i j = none) : Cleared L items roots r P σ σ where
  own := h
  dir := rfl
  gone i t j ht hp hpres := by
    have := hP i j hp
    rw [entryOf_of_table ht, if_pos hpres] at this
    cases this
  kept _ _ _ _ _ := rfl
  free q := by
    refine ⟨.inl, fun hq => hq.elim id fun ⟨i, j, w, hp, hw, _⟩ => ?_⟩
    rw [hP i j hp] at hw
    cases hw
  mem _ _ _ _ := rfl

theorem Cleared.trans (h : Cleared L items roots r P σ σ1) (h' : Cleared L items roots r Q σ1 σ')
    (hR : ∀ i j, R (vaOf i j) ↔ P (vaOf i j) ∨ Q (vaOf i j)) :
    Cleared L items roots r R σ σ' where
  own := h'.own
  dir := h'.dir.trans h.dir
  gone i t j ht hr hp := by
    have ht1 := (h.table i).trans ht
    rcases em (P (vaOf i j)) with hP | hP
    · have hz := h.gone i t j ht hP hp
      rw [h'.kept i t j ht1 (by rw [hz]; simp [present]), hz]
    · have hs := h.kept i t j ht fun hx => hP hx.1
      exact h'.gone i t j ht1 (((hR i j).mp hr).resolve_left hP) (by rw [hs, hp])
  kept i t j ht hn := by
    have hs := h.kept i t j ht fun hx => hn ⟨(hR i j).mpr (.inl hx.1), hx.2⟩
    rw [h'.kept i t j ((h.table i).trans ht), hs]
    rw [hs]
    exact fun hx => hn ⟨(hR i j).mpr (.inr hx.1), hx.2⟩
  free q := by
    rw [h'.free, h.free]
    constructor
    · rintro ((hq | ⟨i, j, w, hp, hw, rfl⟩) | ⟨i, j, w, hq, hw, rfl⟩)
      · exact .inl hq
      · exact .inr ⟨i, j, w, (hR i j).mpr (.inl hp), hw, rfl⟩
      · rcases em (P (vaOf i j)) with hP | hP
        · rw [h.entry_gone hP] at hw
          cases hw
        · exact .inr ⟨i, j, w, (hR i j).mpr (.inr hq), (h.entry_kept hP).symm.trans hw, rfl⟩
    · rintro (hq | ⟨i, j, w, hr, hw, rfl⟩)
      · exact .inl (.inl hq)
      · rcases em (P (vaOf i j)) with hP | hP
        · exact .inl (.inr ⟨i, j, w, hP, hw, rfl⟩)
        · exact .inr ⟨i, j, w, ((hR i j).mp hr).resolve_left hP, (h.entry_kept hP).trans hw, rfl⟩
  mem q hf hr ht := by
    have hf1 : q ∉ σ1.freelist := fun hx => hf ((h'.free q).mpr (.inl hx))
    rw [h'.mem q hf hr fun i => by rw [h.table]; exact ht i, h.mem q hf1 hr ht]

theorem Own.user_apart (h : Own L σ items roots) (hd : roots d = some r) (hi : i.val < 512) {w : ℕ}
    (hw : entryOf σ r i j = some w) : Apart σ r (pteAddr w) := by
  have hx : holds σ items roots (.user d i j) = some (pteAddr w) :=
    Option.bind_eq_some_iff.mpr ⟨r, hd, userOf_iff.mpr ⟨hi, w, hw, rfl⟩⟩
  exact h.apart hd hx (by simp) (by simp) (by simp)

theorem Own.cleared_page (h : Own L σ items roots) (hd : roots d = some r) {t : ℕ}
    (ht : tableOf σ r i = some t) (hi : i.val < 512) (hp : present (σ.mem t j) = true) (c : Page) :
    Cleared L items roots r (· = vaOf i j) σ (Kmem.write { σ.fill (pteAddr (σ.mem t j)) c with
      freelist := pteAddr (σ.mem t j) :: σ.freelist } t j 0) := by
  have hw : entryOf σ r i j = some (σ.mem t j) := by rw [entryOf_of_table ht, if_pos hp]
  have hap := h.user_apart hd hi hw
  have hown := h.unmapFree hd ht hi hp c
  set p := pteAddr (σ.mem t j) with hpdef
  set σ' := Kmem.write { σ.fill p c with freelist := p :: σ.freelist } t j 0 with hσ'
  have htr : t ≠ r := (h.table_ne_dir hd ht hd).symm
  have htp : t ≠ p := fun hx => hap.table i (hx ▸ ht)
  have hmem : ∀ q, q ≠ t → q ≠ p → σ'.mem q = σ.mem q := fun q hqt hqp => by
    simp [hσ', Kmem.write, Kmem.fill, hqt, hqp]
  have hself : σ'.mem t = Function.update (σ.mem t) j 0 := by
    simp [hσ', Kmem.write, Kmem.fill, htp]
  -- which entry an address belongs to
  have hword : ∀ {i' t' j'}, tableOf σ r i' = some t' → ¬ (i' = i ∧ j' = j) →
      σ'.mem t' j' = σ.mem t' j' := fun {i' t' j'} ht' hne => by
    rcases eq_or_ne t' t with rfl | htt
    · obtain ⟨_, rfl⟩ := h.table_inj hd ht hd ht'
      rw [hself, Function.update_of_ne fun hx => hne ⟨rfl, hx⟩]
    · rw [hmem t' htt fun hx => hap.table i' (hx ▸ ht')]
  refine ⟨hown, hmem r htr.symm hap.dir.symm, fun i' t' j' ht' hv _ => ?_,
    fun i' t' j' ht' hn => ?_, fun q => ?_, fun q hq hr hq' => ?_⟩
  · obtain ⟨rfl, rfl⟩ := vaOf_inj hv
    rw [ht, some.injEq] at ht'
    rw [← ht', hself, Function.update_self]
  · refine hword ht' ?_
    rintro ⟨rfl, rfl⟩
    rw [ht, some.injEq] at ht'
    exact hn ⟨rfl, ht' ▸ hp⟩
  · show q ∈ p :: σ.freelist ↔ _
    rw [mem_cons, or_comm]
    refine or_congr_right ⟨fun hx => ⟨i, j, _, rfl, hw, hx.symm⟩, ?_⟩
    rintro ⟨i', j', w, hv, hw', rfl⟩
    obtain ⟨rfl, rfl⟩ := vaOf_inj hv
    rw [hw, some.injEq] at hw'
    rw [← hw']
  · refine hmem q (fun hx => hq' i (hx ▸ ht)) ?_
    rintro rfl
    exact hq (List.mem_cons_self ..)

variable {newsz oldsz : ℕ}

theorem deallocuvmFrom_run (hd : roots d = some r) (ho : oldsz ≤ KERNBASE) :
    ∀ (n a : ℕ) (σ : Kmem), Own L σ items roots → a % PGSIZE = 0 → oldsz ≤ a + n * PGSIZE →
      ∃ σ', deallocuvmFrom L r oldsz n a σ = (.ok (), σ') ∧
        Cleared L items roots r (fun va => a ≤ va ∧ va < oldsz) σ σ'
  | 0, a, σ, h, _, hn =>
    ⟨σ, rfl, h.cleared_nothing fun i j hij => by omega⟩
  | n + 1, a, σ, h, hal, hn => by
    rw [deallocuvmFrom]
    split_ifs with ha
    swap
    · exact ⟨σ, rfl, h.cleared_nothing fun i j hij => by omega⟩
    have haw : a < WORD := by simp only [WORD, KERNBASE] at *; omega
    have hself := vaOf_pdx_ptx hal haw
    have hpage := fun i j => vaOf_in_page (i := i) (j := j) hal haw
    rw [bind_apply, walkpgdir_false]
    cases ht : tableOf σ r (pdx a) with
    | none =>
      -- the whole page table is absent
      have hskip : ∀ i j, a ≤ vaOf i j → vaOf i j < (a / 2 ^ 22 + 1) * 2 ^ 22 → i = pdx a := by
        intro i j hlo hhi
        apply Fin.ext
        simp only [vaOf, pdx, PGSIZE, WORD] at *
        omega
      have hnext : a + PGSIZE ≤ (a / 2 ^ 22 + 1) * 2 ^ 22 ∧
          (a / 2 ^ 22 + 1) * 2 ^ 22 % PGSIZE = 0 := by
        simp only [PGSIZE] at *
        omega
      obtain ⟨σ', hrun, hcl⟩ := deallocuvmFrom_run hd ho n ((a / 2 ^ 22 + 1) * 2 ^ 22) σ h hnext.2
        (by simp only [PGSIZE] at *; omega)
      refine ⟨σ', hrun, (h.cleared_nothing (r := r)
        (P := fun va => (a ≤ va ∧ va < (a / 2 ^ 22 + 1) * 2 ^ 22) ∧ va < oldsz)
        fun i j hij => ?_).trans hcl fun i j => ?_⟩
      · exact entryOf_of_none (by rw [hskip i j hij.1.1 hij.1.2, ht])
      · simp only [PGSIZE] at *
        omega
    | some t =>
      have hsplit : ∀ i j, (a ≤ vaOf i j ∧ vaOf i j < oldsz) ↔ vaOf i j = vaOf (pdx a) (ptx a) ∨
          (a + PGSIZE ≤ vaOf i j ∧ vaOf i j < oldsz) := by
        intro i j
        have hm := vaOf_mod i j
        rw [hself]
        simp only [PGSIZE] at *
        omega
      have hfuel : oldsz ≤ a + PGSIZE + n * PGSIZE := by simp only [PGSIZE] at *; omega
      have hal' : (a + PGSIZE) % PGSIZE = 0 := by rw [Nat.add_mod_right, hal]
      show ∃ σ', (get >>= _) σ = _ ∧ _
      rw [bind_apply, get_apply]
      dsimp only
      cases hp : present (σ.mem t (ptx a)) with
      | false =>
        obtain ⟨σ', hrun, hcl⟩ := deallocuvmFrom_run hd ho n (a + PGSIZE) σ h hal' hfuel
        refine ⟨σ', hrun, (h.cleared_nothing (r := r) (P := (· = vaOf (pdx a) (ptx a)))
          fun i j hij => ?_).trans hcl hsplit⟩
        obtain ⟨rfl, rfl⟩ := (hpage i j).mp ⟨(hij.trans hself).ge, by
          rw [hij.trans hself]; simp [PGSIZE]⟩
        rw [entryOf_of_table ht, hp]
        rfl
      | true =>
        have hi := pdx_lt (lt_of_lt_of_le ha ho)
        have hm : L.Managed (pteAddr (σ.mem t (ptx a))) :=
          h.managed (.user d (pdx a) (ptx a)) _ (Option.bind_eq_some_iff.mpr
            ⟨r, hd, userOf_eq_some.mpr ⟨t, ht, hi, hp, rfl⟩⟩)
        have hcl1 := h.cleared_page hd ht hi hp fun _ => 0x01010101
        obtain ⟨σ', hrun, hcl⟩ := deallocuvmFrom_run hd ho n (a + PGSIZE) _ hcl1.own hal' hfuel
        have hz : pteAddr (σ.mem t (ptx a)) ≠ 0 := by
          have := L.kend_pos
          have := hm.1
          omega
        refine ⟨σ', ?_, hcl1.trans hcl hsplit⟩
        rw [if_pos rfl, if_neg hz, bind_apply, kfree_run hm]
        exact hrun

theorem pgRoundUp_mod (a : ℕ) : pgRoundUp a % PGSIZE = 0 := by
  simp only [pgRoundUp, PGSIZE, WORD]
  omega

theorem pgRoundUp_le (ha : a ≤ KERNBASE) : a ≤ pgRoundUp a ∧ pgRoundUp a < a + PGSIZE ∧
    pgRoundUp a ≤ KERNBASE := by
  simp only [pgRoundUp, PGSIZE, WORD, KERNBASE] at *
  omega

theorem vaOf_lt_pgRoundUp (ha : a ≤ KERNBASE) : vaOf i j < pgRoundUp a ↔ vaOf i j < a := by
  have hm := vaOf_mod i j
  simp only [pgRoundUp, PGSIZE, WORD, KERNBASE] at *
  omega

theorem deallocuvm_run (h : Own L σ items roots) (hd : roots d = some r) (hlt : newsz < oldsz)
    (ho : oldsz ≤ KERNBASE) : ∃ σ', deallocuvm L r oldsz newsz σ = (.ok newsz, σ') ∧
      Cleared L items roots r (fun va => pgRoundUp newsz ≤ va ∧ va < oldsz) σ σ' := by
  have hup := pgRoundUp_le (hlt.le.trans ho)
  obtain ⟨σ', hrun, hcl⟩ := deallocuvmFrom_run hd ho (oldsz / PGSIZE + 1)
    (pgRoundUp newsz) σ h (pgRoundUp_mod newsz) (by simp only [PGSIZE]; omega)
  refine ⟨σ', ?_, hcl⟩
  rw [deallocuvm, if_neg (by omega), bind_apply, hrun]
  rfl

/-! ### Filling -/

/-- At the addresses `P`, where nothing was, `r` maps pages that were free, with the flags and the
  contents given; `tmp` is one more page taken. -/
structure Grown (L : Layout) (items : ι → Option ℕ) (roots : δ → Option ℕ) (r : ℕ)
    (flags : Fin 1024 → Fin 1024 → ℕ) (ct : Fin 1024 → Fin 1024 → Page) (P : ℕ → Prop)
    (tmp : Option ℕ) (σ0 σ : Kmem) : Prop where
  own : Own L σ (withTmp items tmp) roots
  table : ∀ i t, tableOf σ0 r i = some t → tableOf σ r i = some t
  mem : ∀ q, Apart σ0 r q → σ.mem q = σ0.mem q
  old : ∀ i j, ¬ P (vaOf i j) → entryOf σ r i j = entryOf σ0 r i j
  flags_lt : ∀ i j, P (vaOf i j) → flags i j < 4096
  new : ∀ i j, P (vaOf i j) → ∃ p, entryOf σ r i j = some (mkPte p (flags i j ||| PTE_P)) ∧
    p ∈ σ0.freelist ∧ σ.mem p = ct i j
  free : ∀ q, q ∈ σ0.freelist ↔ q ∈ σ.freelist ∨ tmp = some q ∨
    (∃ i, tableOf σ0 r i = none ∧ tableOf σ r i = some q) ∨
    ∃ i j w, P (vaOf i j) ∧ entryOf σ r i j = some w ∧ pteAddr w = q

variable {flags : Fin 1024 → Fin 1024 → ℕ} {ct : Fin 1024 → Fin 1024 → Page} {tmp : Option ℕ}

theorem Own.grown_nothing (h : Own L σ items roots) (hP : ∀ i j, ¬ P (vaOf i j)) :
    Grown L items roots r flags ct P none σ σ where
  own := h.tmp
  table _ _ ht := ht
  mem _ _ := rfl
  old _ _ _ := rfl
  flags_lt i j hp := absurd hp (hP i j)
  new i j hp := absurd hp (hP i j)
  free q := by
    refine ⟨.inl, ?_⟩
    rintro (hq | hq | ⟨i, hn, hs⟩ | ⟨i, j, w, hp, _⟩)
    · exact hq
    · cases hq
    · rw [hn] at hs
      cases hs
    · exact absurd hp (hP i j)

theorem Grown.congr (h : Grown L items roots r flags ct P tmp σ0 σ)
    (hPQ : ∀ i j, P (vaOf i j) ↔ Q (vaOf i j)) : Grown L items roots r flags ct Q tmp σ0 σ where
  own := h.own
  table := h.table
  mem := h.mem
  old i j hq := h.old i j (mt (hPQ i j).mp hq)
  flags_lt i j hq := h.flags_lt i j ((hPQ i j).mpr hq)
  new i j hq := h.new i j ((hPQ i j).mpr hq)
  free q := by
    rw [h.free]
    simp only [hPQ]

theorem Grown.apart {q : ℕ} (h : Grown L items roots r flags ct P tmp σ0 σ) (hq : Apart σ0 r q) :
    Apart σ r q where
  free hf := hq.free ((h.free q).mpr (.inl hf))
  dir := hq.dir
  table i hi := by
    cases ht : tableOf σ0 r i with
    | none => exact hq.free ((h.free q).mpr (.inr (.inr (.inl ⟨i, ht, hi⟩))))
    | some t =>
      rw [h.table i t ht, some.injEq] at hi
      exact hq.table i (hi ▸ ht)

theorem Grown.pteAddr_new (h : Grown L items roots r flags ct P tmp σ0 σ) (hp : P (vaOf i j)) :
    pteAddr (mkPte p (flags i j ||| PTE_P)) = p :=
  pteAddr_mkPte p (or_lt (h.flags_lt i j hp) (by decide))

theorem Grown.take (h : Grown L items roots r flags ct P none σ0 σ) (hd : roots d = some r)
    (hu : ∀ i j, P (vaOf i j) → i.val < 512) {fl : List ℕ} (hf : σ.freelist = p :: fl) (c : Page) :
    Grown L items roots r flags ct P (some p) σ0 (Kmem.fill { σ with freelist := fl } p c) := by
  have hown := h.own.forget.kalloc hf
  have hin := hown.tmp_inert
  have hrp : r ≠ p := by rintro rfl; exact hin.dir d hd
  have hpf : p ∈ σ.freelist := by rw [hf]; exact List.mem_cons_self ..
  set σ1 := Kmem.fill { σ with freelist := fl } p c with hσ1
  have hmem : ∀ q, q ≠ p → σ1.mem q = σ.mem q := fun q hq => by simp [hσ1, Kmem.fill, hq]
  have htab : ∀ i, tableOf σ1 r i = tableOf σ r i := fun i => tableOf_congr (hmem r hrp)
  have hent : ∀ i j, entryOf σ1 r i j = entryOf σ r i j := fun i j =>
    entryOf_congr (hmem r hrp) fun t ht => hmem t (by rintro rfl; exact hin.table d r i hd ht)
  refine ⟨hown.fill hin c, fun i t ht => ?_, fun q hq => ?_, fun i j hp => ?_, h.flags_lt,
    fun i j hp => ?_, fun q => ?_⟩
  · rw [htab]
    exact h.table i t ht
  · rw [hmem q (by rintro rfl; exact (h.apart hq).free hpf)]
    exact h.mem q hq
  · rw [hent]
    exact h.old i j hp
  · obtain ⟨p', hw, hfree, hc⟩ := h.new i j hp
    -- a mapped page is not free
    have hap := h.own.user_apart hd (hu i j hp) hw
    rw [h.pteAddr_new hp] at hap
    refine ⟨p', by rw [hent]; exact hw, hfree, ?_⟩
    rw [hmem p' (by rintro rfl; exact hap.free hpf)]
    exact hc
  · simp only [htab, hent]
    rw [h.free, hf, mem_cons]
    constructor
    · rintro ((rfl | hq) | hq | hq)
      · exact .inr (.inl rfl)
      · exact .inl hq
      · cases hq
      · exact .inr (.inr hq)
    · rintro (hq | hq | hq)
      · exact .inl (.inr hq)
      · cases hq
        exact .inl (.inl rfl)
      · exact .inr (.inr hq)

theorem Grown.map (h : Grown L items roots r flags ct P (some p) σ0 σ) (hd : roots d = some r)
    (hu : ∀ i j, P (vaOf i j) → i.val < 512) (hown : Own L σ' items roots) (hext : Extends r σ σ')
    (hent : ∀ i' j', entryOf σ' r i' j' = if i' = i ∧ j' = j
      then some (mkPte p (flags i j ||| PTE_P)) else entryOf σ r i' j')
    (hnone : entryOf σ r i j = none) (hfl : flags i j < 4096) (hc : σ.mem p = ct i j) :
    Grown L items roots r flags ct (fun va => P va ∨ va = vaOf i j) none σ0 σ' := by
  have hnP : ∀ {i' j'}, P (vaOf i' j') → ¬ (i' = i ∧ j' = j) := by
    rintro i' j' hp ⟨rfl, rfl⟩
    obtain ⟨_, hw, _⟩ := h.new _ _ hp
    rw [hnone] at hw
    cases hw
  have haddr : pteAddr (mkPte p (flags i j ||| PTE_P)) = p := pteAddr_mkPte p (or_lt hfl (by decide))
  refine ⟨hown.tmp, fun i' t ht => hext.table i' t (h.table i' t ht), fun q hq => ?_,
    fun i' j' hp => ?_, fun i' j' hp => ?_, fun i' j' hp => ?_, fun q => ?_⟩
  · rw [hext.mem q (h.apart hq), h.mem q hq]
  · rw [hent, if_neg, h.old i' j' fun hx => hp (.inl hx)]
    rintro ⟨rfl, rfl⟩
    exact hp (.inr rfl)
  · rcases hp with hp | hp
    · exact h.flags_lt i' j' hp
    · obtain ⟨rfl, rfl⟩ := vaOf_inj hp
      exact hfl
  · rcases hp with hp | hp
    · obtain ⟨p', hw, hfree, hc'⟩ := h.new i' j' hp
      have hap := h.own.user_apart hd (hu i' j' hp) hw
      rw [h.pteAddr_new hp] at hap
      exact ⟨p', by rw [hent, if_neg (hnP hp)]; exact hw, hfree, by rw [hext.mem p' hap]; exact hc'⟩
    · obtain ⟨rfl, rfl⟩ := vaOf_inj hp
      have hap : Apart σ r p := h.own.apart hd (x := .item none) rfl (by simp) (by simp) (by simp)
      exact ⟨p, by rw [hent, if_pos ⟨rfl, rfl⟩], (h.free p).mpr (.inr (.inl rfl)),
        by rw [hext.mem p hap]; exact hc⟩
  · rw [h.free, hext.free]
    constructor
    · rintro ((hq | ⟨i', hn, hs⟩) | hq | ⟨i', hn, hs⟩ | ⟨i', j', w, hp, hw, rfl⟩)
      · exact .inl hq
      · refine .inr (.inr (.inl ⟨i', ?_, hs⟩))
        cases ht : tableOf σ0 r i' with
        | none => rfl
        | some t =>
          rw [h.table i' t ht] at hn
          cases hn
      · cases hq
        exact .inr (.inr (.inr ⟨i, j, _, .inr rfl, by rw [hent, if_pos ⟨rfl, rfl⟩], haddr⟩))
      · exact .inr (.inr (.inl ⟨i', hn, hext.table i' q hs⟩))
      · exact .inr (.inr (.inr ⟨i', j', w, .inl hp, by rw [hent, if_neg (hnP hp)]; exact hw,
          rfl⟩))
    · rintro (hq | hq | ⟨i', hn, hs⟩ | ⟨i', j', w, hp, hw, rfl⟩)
      · exact .inl (.inl hq)
      · cases hq
      · cases ht : tableOf σ r i' with
        | none => exact .inl (.inr ⟨i', ht, hs⟩)
        | some t =>
          obtain rfl := some.inj (hs.symm.trans (hext.table i' t ht))
          exact .inr (.inr (.inl ⟨i', hn, ht⟩))
      · rcases hp with hp | hp
        · rw [hent, if_neg (hnP hp)] at hw
          exact .inr (.inr (.inr ⟨i', j', w, hp, hw, rfl⟩))
        · obtain ⟨rfl, rfl⟩ := vaOf_inj hp
          rw [hent, if_pos ⟨rfl, rfl⟩, some.injEq] at hw
          rw [← hw, haddr]
          exact .inr (.inl rfl)

theorem Grown.undo (h : Grown L items roots r flags ct P tmp σ0 σ)
    (hcl : Cleared L (withTmp items tmp) roots r Q σ σ') (hPQ : ∀ i j, P (vaOf i j) → Q (vaOf i j))
    (hQ : ∀ i j, Q (vaOf i j) → entryOf σ0 r i j = none) :
    (∀ i t, tableOf σ0 r i = some t → tableOf σ' r i = some t) ∧
    (∀ i j, entryOf σ' r i j = entryOf σ0 r i j) ∧
    (∀ q, Apart σ0 r q → σ'.mem q = σ0.mem q) ∧
    ∀ q, q ∈ σ0.freelist ↔ q ∈ σ'.freelist ∨ tmp = some q ∨
      ∃ i, tableOf σ0 r i = none ∧ tableOf σ' r i = some q := by
  -- what is mapped in the range has been filled in
  have hfill : ∀ {i j w}, Q (vaOf i j) → entryOf σ r i j = some w → P (vaOf i j) := by
    intro i j w hq hw
    by_contra hp
    rw [h.old i j hp, hQ i j hq] at hw
    cases hw
  refine ⟨fun i t ht => (hcl.table i).trans (h.table i t ht), fun i j => ?_, fun q hq => ?_,
    fun q => ?_⟩
  · rcases em (Q (vaOf i j)) with hq | hq
    · rw [hcl.entry_gone hq, hQ i j hq]
    · rw [hcl.entry_kept hq, h.old i j fun hp => hq (hPQ i j hp)]
  · have hap := h.apart hq
    rw [hcl.mem q ?_ hap.dir hap.table, h.mem q hq]
    intro hf
    rcases (hcl.free q).mp hf with hf | ⟨i, j, w, hq', hw, rfl⟩
    · exact hap.free hf
    · exact hq.free ((h.free _).mpr (.inr (.inr (.inr ⟨i, j, w, hfill hq' hw, hw, rfl⟩))))
  · rw [h.free, hcl.free]
    simp only [hcl.table]
    constructor
    · rintro (hq | hq | hq | ⟨i, j, w, hp, hw, rfl⟩)
      · exact .inl (.inl hq)
      · exact .inr (.inl hq)
      · exact .inr (.inr hq)
      · exact .inl (.inr ⟨i, j, w, hPQ i j hp, hw, rfl⟩)
    · rintro ((hq | ⟨i, j, w, hq, hw, rfl⟩) | hq | hq)
      · exact .inl hq
      · exact .inr (.inr (.inr ⟨i, j, w, hfill hq hw, hw, rfl⟩))
      · exact .inr (.inl hq)
      · exact .inr (.inr (.inl hq))

/-! ### allocuvm -/

/-- `allocuvm` has run out of pages and gone back: the mapping is the old one, and every page it took
  is free again, page tables apart. -/
structure GaveUp (L : Layout) (items : ι → Option ℕ) (roots : δ → Option ℕ) (r : ℕ)
    (σ σ' : Kmem) : Prop where
  own : Own L σ' items roots
  ext : Extends r σ σ'
  entry : ∀ i j, entryOf σ' r i j = entryOf σ r i j

abbrev zeroed : Fin 1024 → Fin 1024 → ℕ := fun _ _ => PTE_W ||| PTE_U
abbrev zeros : Fin 1024 → Fin 1024 → Page := fun _ _ _ => 0

abbrev Range (lo hi : ℕ) : ℕ → Prop := fun va => lo ≤ va ∧ va < hi

theorem Grown.give_up (h : Grown L items roots r flags ct (Range (pgRoundUp oldsz) a)
    none σ0 σ) (hd : roots d = some r) (hlt : oldsz < newsz) (hk : newsz < KERNBASE)
    (ha : a ≤ newsz)
    (hnone : ∀ i j, i.val < 512 → pgRoundUp oldsz ≤ vaOf i j → entryOf σ0 r i j = none) :
    ∃ σ', deallocuvm L r newsz oldsz σ = (.ok oldsz, σ') ∧ GaveUp L items roots r σ0 σ' := by
  obtain ⟨σ', hrun, hcl⟩ := deallocuvm_run h.own hd hlt hk.le
  obtain ⟨htab, hent, hmem, hfree⟩ := h.undo hcl (fun i j hp => ⟨hp.1, hp.2.trans_le ha⟩)
    fun i j hq => hnone i j (vaOf_lt_kernbase.mp (hq.2.trans hk)) hq.1
  refine ⟨σ', hrun, hcl.own.forget, ⟨htab, fun q => ?_, hmem⟩, hent⟩
  rw [hfree]
  simp

theorem Grown.give_up_tmp
    (h : Grown L items roots r flags ct (Range (pgRoundUp oldsz) a) (some p) σ0 σ)
    (hd : roots d = some r) (hlt : oldsz < newsz) (hk : newsz < KERNBASE) (ha : a ≤ newsz)
    (hnone : ∀ i j, i.val < 512 → pgRoundUp oldsz ≤ vaOf i j → entryOf σ0 r i j = none) :
    ∃ σ1 σ', deallocuvm L r newsz oldsz σ = (.ok oldsz, σ1) ∧ kfree L p σ1 = (.ok (), σ') ∧
      GaveUp L items roots r σ0 σ' := by
  obtain ⟨σ1, hrun, hcl⟩ := deallocuvm_run h.own hd hlt hk.le
  obtain ⟨htab, hent, hmem, hfree⟩ := h.undo hcl (fun i j hp => ⟨hp.1, hp.2.trans_le ha⟩)
    fun i j hq => hnone i j (vaOf_lt_kernbase.mp (hq.2.trans hk)) hq.1
  have hm := hcl.own.managed (.item none) p rfl
  have hin := hcl.own.tmp_inert
  have hpf : p ∈ σ0.freelist := (hfree p).mpr (.inr (.inl rfl))
  refine ⟨σ1, _, hrun, kfree_run hm σ1, ?_⟩
  set σ' : Kmem := { σ1.fill p (fun _ => 0x01010101) with freelist := p :: σ1.freelist } with hσ'
  have hmem' : ∀ q, q ≠ p → σ'.mem q = σ1.mem q := fun q hq => by simp [hσ', Kmem.fill, hq]
  have hrp : r ≠ p := by rintro rfl; exact hin.dir d hd
  have htab' : ∀ i, tableOf σ' r i = tableOf σ1 r i := fun i => tableOf_congr (hmem' r hrp)
  refine ⟨hcl.own.kfree _, ⟨fun i t ht => ?_, fun q => ?_, fun q hq => ?_⟩, fun i j => ?_⟩
  · rw [htab']
    exact htab i t ht
  · rw [hfree]
    simp only [htab']
    show _ ↔ q ∈ p :: σ1.freelist ∨ _
    rw [mem_cons, some.injEq]
    constructor
    · rintro (hq | rfl | hq)
      · exact .inl (.inr hq)
      · exact .inl (.inl rfl)
      · exact .inr hq
    · rintro ((rfl | hq) | hq)
      · exact .inr (.inl rfl)
      · exact .inl hq
      · exact .inr (.inr hq)
  · rw [hmem' q (by rintro rfl; exact hq.free hpf), hmem q hq]
  · rw [← hent]
    exact entryOf_congr (hmem' r hrp) fun t ht => hmem' t (by rintro rfl; exact hin.table d r i hd ht)

theorem allocuvmPage_run {next : K ℕ} {ok : Bool}
    (hmap : mappages r a PGSIZE p (PTE_W ||| PTE_U) (σ.fill p fun _ => 0) = (.ok ok, σ1)) :
    allocuvmPage L r oldsz newsz a next (some p) σ = (if ok then next else do
      let _ ← deallocuvm L r newsz oldsz
      kfree L p
      pure 0) σ1 := by
  rw [allocuvmPage, bind_of_ok (setPage_apply p (fun _ => 0) σ), bind_of_ok hmap]

theorem allocuvmFrom_run (hd : roots d = some r) (hk : newsz < KERNBASE)
    (hnone : ∀ i j, i.val < 512 → pgRoundUp oldsz ≤ vaOf i j → entryOf σ0 r i j = none) :
    ∀ (n a : ℕ) (σ : Kmem), a % PGSIZE = 0 → oldsz ≤ a → pgRoundUp oldsz ≤ a →
      newsz ≤ a + n * PGSIZE → (0 < n → a + (n - 1) * PGSIZE < newsz) →
      Grown L items roots r zeroed zeros (Range (pgRoundUp oldsz) a) none σ0 σ →
      (∃ σ', allocuvmFrom L r oldsz newsz n a σ = (.ok newsz, σ') ∧
        Grown L items roots r zeroed zeros (Range (pgRoundUp oldsz) (a + n * PGSIZE)) none σ0 σ') ∨
      ∃ σ', allocuvmFrom L r oldsz newsz n a σ = (.ok 0, σ') ∧ GaveUp L items roots r σ0 σ' ∧
        ∃ a' tmp σk, a' < newsz ∧ σk.freelist = [] ∧
          Grown L items roots r zeroed zeros (Range (pgRoundUp oldsz) a') tmp σ0 σk
  | 0, a, σ, _, _, _, _, _, h => .inl ⟨σ, rfl, by simpa using h⟩
  | n + 1, a, σ, hal, ho, hlo, hn, hlast, h => by
    have ha : a < newsz := by
      have := hlast (Nat.succ_pos n)
      simp only [PGSIZE, Nat.add_sub_cancel] at this
      omega
    have haw : a < WORD := by simp only [WORD, KERNBASE] at *; omega
    have hself := vaOf_pdx_ptx hal haw
    have hu : ∀ i j, Range (pgRoundUp oldsz) a (vaOf i j) → i.val < 512 := fun i j hp =>
      vaOf_lt_kernbase.mp (hp.2.trans (ha.trans hk))
    have hnext : a + (n + 1) * PGSIZE = a + PGSIZE + n * PGSIZE := by ring
    have hlast' : 0 < n → a + PGSIZE + (n - 1) * PGSIZE < newsz := fun hpos => by
      have := hlast (Nat.succ_pos n)
      simp only [PGSIZE, Nat.add_sub_cancel] at this ⊢
      omega
    rcases kalloc_cases σ with hrun | ⟨p, fl, hf, hrun⟩
    · obtain ⟨σ', hde, hgave⟩ := h.give_up hd (ho.trans_lt ha) hk ha.le hnone
      refine .inr ⟨σ', ?_, hgave, a, none, σ, ha, ?_, h⟩
      · rw [allocuvmFrom, bind_of_ok hrun, allocuvmPage, bind_of_ok hde, pure_apply]
      · cases hfl : σ.freelist with
        | nil => rfl
        | cons p fl => simp [kalloc, bind_apply, hfl] at hrun
    · have htake := h.take hd hu hf fun _ => 0
      set σ1 := Kmem.fill { σ with freelist := fl } p fun _ => 0 with hσ1
      have habs : entryOf σ1 r (pdx a) (ptx a) = none := by
        rw [htake.old _ _ (by rw [hself]; omega)]
        exact hnone _ _ (pdx_lt (ha.trans hk)) (by rw [hself]; exact hlo)
      have hflags : PTE_W ||| PTE_U < 4096 := by decide
      rcases mappages_run htake.own hd hal (ha.trans hk) hflags habs with
        ⟨hmap, hfl⟩ | ⟨σ2, hmap, hown, hext, hent⟩
      · obtain ⟨σ3, σ', hde, hkf, hgave⟩ := htake.give_up_tmp hd (ho.trans_lt ha) hk ha.le hnone
        refine .inr ⟨σ', ?_, hgave, a, some p, σ1, ha, hfl, htake⟩
        rw [allocuvmFrom, bind_of_ok hrun, allocuvmPage_run hmap, if_neg Bool.false_ne_true,
          bind_of_ok hde, bind_of_ok hkf, pure_apply]
      · have hgrown := htake.map hd hu hown hext hent habs hflags (by simp [hσ1, Kmem.fill])
        have hgrown := hgrown.congr (Q := Range (pgRoundUp oldsz) (a + PGSIZE)) fun i j => by
          have hm := vaOf_mod i j
          rw [hself]
          simp only [PGSIZE] at hm hal ⊢
          omega
        have hstep : allocuvmFrom L r oldsz newsz (n + 1) a σ =
            allocuvmFrom L r oldsz newsz n (a + PGSIZE) σ2 := by
          rw [allocuvmFrom, bind_of_ok hrun, allocuvmPage_run hmap, if_pos rfl]
        rw [hstep, hnext]
        exact allocuvmFrom_run hd hk hnone n (a + PGSIZE) σ2 (by rw [Nat.add_mod_right, hal])
          (by omega) (by omega) (by rw [← hnext]; exact hn) hlast' hgrown

theorem allocuvm_run (h : Own L σ items roots) (hd : roots d = some r) (hle : oldsz ≤ newsz)
    (hk : newsz < KERNBASE)
    (hnone : ∀ i j, i.val < 512 → pgRoundUp oldsz ≤ vaOf i j → entryOf σ r i j = none) :
    (∃ σ', allocuvm L r oldsz newsz σ = (.ok newsz, σ') ∧
      Grown L items roots r zeroed zeros (Range (pgRoundUp oldsz) newsz) none σ σ') ∨
    ∃ σ', allocuvm L r oldsz newsz σ = (.ok 0, σ') ∧ GaveUp L items roots r σ σ' ∧
      ∃ a tmp σk, a < newsz ∧ σk.freelist = [] ∧
        Grown L items roots r zeroed zeros (Range (pgRoundUp oldsz) a) tmp σ σk := by
  have hup := pgRoundUp_le (hle.trans hk.le)
  have hal := pgRoundUp_mod oldsz
  set n := (newsz - pgRoundUp oldsz + PGSIZE - 1) / PGSIZE with hn
  have hcover : newsz ≤ pgRoundUp oldsz + n * PGSIZE ∧
      (0 < n → pgRoundUp oldsz + (n - 1) * PGSIZE < newsz) := by
    simp only [PGSIZE] at *
    omega
  have hrun : allocuvm L r oldsz newsz = allocuvmFrom L r oldsz newsz n (pgRoundUp oldsz) := by
    rw [allocuvm, if_neg (by omega), if_neg (by omega)]
  rw [hrun]
  rcases allocuvmFrom_run hd hk hnone n (pgRoundUp oldsz) σ hal hup.1 le_rfl hcover.1 hcover.2
    (h.grown_nothing fun i j hp => by omega) with ⟨σ', hrec, hg⟩ | hfail
  · refine .inl ⟨σ', hrec, hg.congr fun i j => ?_⟩
    have hm := vaOf_mod i j
    simp only [PGSIZE] at *
    omega
  · exact .inr hfail

theorem Own.gaveUp_refl (h : Own L σ items roots) : GaveUp L items roots r σ σ :=
  ⟨h, .refl r σ, fun _ _ => rfl⟩

/-- `allocuvm` and `deallocuvm` at page granularity. Growing maps fresh zeroed pages at exactly the
  page addresses asked for, or returns 0 with the old mapping, because the size is too large or
  `kalloc` has failed; shrinking unmaps and frees exactly the pages asked for. -/
theorem uvm_exact (L : Layout) (items : ι → Option ℕ) (roots : δ → Option ℕ) (σ : Kmem)
    (h : Own L σ items roots) (d : δ) (r : ℕ) (hd : roots d = some r) :
    (∀ oldsz newsz, oldsz ≤ newsz →
      (∀ i j, i.val < 512 → pgRoundUp oldsz ≤ vaOf i j → entryOf σ r i j = none) →
      (∃ σ', allocuvm L r oldsz newsz σ = (.ok newsz, σ') ∧ newsz < KERNBASE ∧
        Grown L items roots r zeroed zeros (Range (pgRoundUp oldsz) newsz) none σ σ') ∨
      ∃ σ', allocuvm L r oldsz newsz σ = (.ok 0, σ') ∧ GaveUp L items roots r σ σ' ∧
        (KERNBASE ≤ newsz ∨ ∃ a tmp σk, a < newsz ∧ σk.freelist = [] ∧
          Grown L items roots r zeroed zeros (Range (pgRoundUp oldsz) a) tmp σ σk)) ∧
    ∀ oldsz newsz, newsz < oldsz → oldsz ≤ KERNBASE →
      ∃ σ', deallocuvm L r oldsz newsz σ = (.ok newsz, σ') ∧
        Cleared L items roots r (Range (pgRoundUp newsz) oldsz) σ σ' := by
  refine ⟨fun oldsz newsz hle hnone => ?_, fun oldsz newsz hlt ho => deallocuvm_run h hd hlt ho⟩
  rcases lt_or_ge newsz KERNBASE with hk | hk
  · rcases allocuvm_run h hd hle hk hnone with ⟨σ', hrun, hg⟩ | ⟨σ', hrun, hg, hfail⟩
    · exact .inl ⟨σ', hrun, hk, hg⟩
    · exact .inr ⟨σ', hrun, hg, .inr hfail⟩
  · exact .inr ⟨σ, by rw [allocuvm, if_pos hk]; rfl, h.gaveUp_refl, .inl hk⟩

/-! ### A small machine -/

/-- Sixteen pages after one page of kernel, which is mapped at `KERNBASE`. -/
def tinyLayout : Layout where
  kend := 1
  top := 17
  kmap := [⟨KERNBASE / PGSIZE, 0, 1, true⟩]
  kend_pos := by decide
  kernel := by decide

theorem own_fresh {ι δ : Type} (L : Layout) (mem : ℕ → Page) (fl : List ℕ) (hn : fl.Nodup)
    (hm : ∀ p ∈ fl, L.Managed p) : Own L ⟨mem, fl⟩ (fun _ : ι => none) fun _ : δ => none := by
  have hold : ∀ x p, holds ⟨mem, fl⟩ (fun _ : ι => none) (fun _ : δ => none) x = some p →
      x = .free p ∧ p ∈ fl := by
    intro x p hx
    cases x with
    | free q =>
      simp only [holds, Option.ite_none_right_eq_some, some.injEq] at hx
      exact ⟨by rw [hx.2], hx.2 ▸ hx.1⟩
    | item | dir | table | user => cases hx
  exact ⟨fun x y p hx hy => (hold x p hx).1.trans (hold y p hy).1.symm, hn,
    fun x p hx => hm p (hold x p hx).2, fun d r i t j hd => by cases hd⟩

theorem own_tiny : Own tinyLayout ⟨fun _ _ => 0, range' 2 15⟩ (fun _ : Empty => none)
    fun _ : Unit => some 1 := by
  have h := (own_fresh (ι := Empty) (δ := Unit) tinyLayout (fun _ _ => 0) (range' 1 16)
    (by decide) (by decide)).kalloc (p := 1) (show _ = 1 :: range' 2 15 from rfl)
  have h' := h.addRoot (d := ()) rfl fun _ => rfl
  have hr : Function.update (fun _ : Unit => (none : Option ℕ)) () (some 1) = fun _ => some 1 := by
    funext u
    simp
  rwa [hr] at h'

/-- Two pages are mapped in the empty address space. -/
theorem uvm_exact_tiny : ∃ σ', allocuvm tinyLayout 1 0 5000 ⟨fun _ _ => 0, range' 2 15⟩ =
    (.ok 5000, σ') ∧ ∃ p, entryOf σ' 1 (pdx 4096) (ptx 4096) =
      some (mkPte p (PTE_W ||| PTE_U ||| PTE_P)) ∧ σ'.mem p = fun _ => 0 := by
  have hok : (allocuvm tinyLayout 1 0 5000 ⟨fun _ _ => 0, range' 2 15⟩).1.toOption = some 5000 := by
    decide +kernel
  have hnone : ∀ i j, entryOf (⟨fun _ _ => 0, range' 2 15⟩ : Kmem) 1 i j = none := fun i j =>
    entryOf_of_none (by simp [tableOf, present])
  have hva : vaOf (pdx 4096) (ptx 4096) = 4096 := vaOf_pdx_ptx (by decide) (by decide)
  rcases (uvm_exact tinyLayout _ _ _ own_tiny () 1 rfl).1 0 5000 (by decide) fun i j _ _ =>
    hnone i j with ⟨σ', hrun, _, hg⟩ | ⟨σ', hrun, _⟩
  · refine ⟨σ', hrun, ?_⟩
    obtain ⟨p, hp, _, hc⟩ := hg.new (pdx 4096) (ptx 4096) (by rw [hva]; decide)
    exact ⟨p, hp, hc⟩
  · rw [hrun] at hok
    cases hok

end Xv6.Vm

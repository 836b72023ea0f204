import Mathlib.Algebra.Order.BigOperators.Group.Finset
import Xv6.Vm.Specs

/-! @src vm.c | part:what an address space maps | scheme:prog, exclusive

  The mapping of an address space, read through both levels of its page table, and what walking and
  mapping do to it. Adding page tables to it is one relation, `Extends`: the tables stay, the new
  ones were free, and pages neither free nor part of the table are as they were. -/

namespace Xv6.Vm
open Schemes Prog
open Option (bind_eq_some_iff some)

theorem setPage_apply (p : ℕ) (c : Page) (σ : Kmem) : setPage p c σ = (.ok (), σ.fill p c) := rfl

/-! ### Pages of the virtual address space -/

def vaOf (i j : Fin 1024) : ℕ := (i.val * 1024 + j.val) * PGSIZE

variable {i j : Fin 1024} {a : ℕ}

theorem vaOf_mod (i j : Fin 1024) : vaOf i j % PGSIZE = 0 := Nat.mul_mod_left _ _

theorem vaOf_lt_kernbase : vaOf i j < KERNBASE ↔ i.val < 512 := by
  simp only [vaOf, PGSIZE, KERNBASE]
  omega

theorem vaOf_pdx_ptx (ha : a % PGSIZE = 0) (hw : a < WORD) : vaOf (pdx a) (ptx a) = a := by
  simp only [vaOf, pdx, ptx, PGSIZE, WORD] at *
  omega

theorem eq_of_vaOf (ha : vaOf i j = a) : i = pdx a ∧ j = ptx a := by
  subst ha
  constructor
  · apply Fin.ext
    simp only [vaOf, pdx, PGSIZE]
    omega
  · apply Fin.ext
    simp only [vaOf, ptx, PGSIZE]
    omega

theorem vaOf_inj {i' j' : Fin 1024} (h : vaOf i' j' = vaOf i j) : i' = i ∧ j' = j := by
  obtain ⟨h1, h2⟩ := eq_of_vaOf h
  obtain ⟨h3, h4⟩ := eq_of_vaOf (rfl : vaOf i j = vaOf i j)
  exact ⟨h1.trans h3.symm, h2.trans h4.symm⟩

theorem vaOf_in_page (ha : a % PGSIZE = 0) (hw : a < WORD) :
    (a ≤ vaOf i j ∧ vaOf i j < a + PGSIZE) ↔ i = pdx a ∧ j = ptx a := by
  constructor
  · rintro ⟨hlo, hhi⟩
    have hm := vaOf_mod i j
    refine eq_of_vaOf ?_
    simp only [PGSIZE] at *
    omega
  · rintro ⟨rfl, rfl⟩
    rw [vaOf_pdx_ptx ha hw]
    simp [PGSIZE]

/-! ### The mapping -/

variable {σ σ' σ'' : Kmem} {r t w p : ℕ}

def entryOf (σ : Kmem) (r : ℕ) (i j : Fin 1024) : Option ℕ :=
  (tableOf σ r i).bind fun t => if present (σ.mem t j) then some (σ.mem t j) else none

theorem entryOf_eq_some : entryOf σ r i j = some w ↔
    ∃ t, tableOf σ r i = some t ∧ present (σ.mem t j) = true ∧ σ.mem t j = w := by
  rw [entryOf, bind_eq_some_iff]
  simp only [Option.ite_none_right_eq_some, some.injEq]

theorem entryOf_of_table (ht : tableOf σ r i = some t) :
    entryOf σ r i j = if present (σ.mem t j) then some (σ.mem t j) else none := by
  rw [entryOf, ht]
  rfl

theorem entryOf_of_none (ht : tableOf σ r i = none) : entryOf σ r i j = none := by
  rw [entryOf, ht]
  rfl

theorem present_of_entryOf (h : entryOf σ r i j = some w) : present w = true := by
  obtain ⟨t, _, hp, rfl⟩ := entryOf_eq_some.mp h
  exact hp

theorem userOf_iff : userOf σ r i j = some p ↔
    i.val < 512 ∧ ∃ w, entryOf σ r i j = some w ∧ pteAddr w = p := by
  rw [userOf_eq_some]
  constructor
  · rintro ⟨t, ht, hi, hp, ha⟩
    exact ⟨hi, _, entryOf_eq_some.mpr ⟨t, ht, hp, rfl⟩, ha⟩
  · rintro ⟨hi, w, hw, ha⟩
    obtain ⟨t, ht, hp, rfl⟩ := entryOf_eq_some.mp hw
    exact ⟨t, ht, hi, hp, ha⟩

theorem entryOf_congr (hr : σ'.mem r = σ.mem r)
    (ht : ∀ t, tableOf σ r i = some t → σ'.mem t = σ.mem t) : entryOf σ' r i j = entryOf σ r i j := by
  unfold entryOf
  rw [tableOf_congr hr]
  cases hx : tableOf σ r i with
  | none => rfl
  | some t => simp only [Option.bind_some, ht t hx]

/-! ### The pages of a page table -/

structure PageTable (σ : Kmem) (r : ℕ) : Prop where
  nodup : σ.freelist.Nodup
  dir : r ∉ σ.freelist
  table : ∀ i t, tableOf σ r i = some t → t ≠ r ∧ t ∉ σ.freelist
  inj : ∀ i i' t, tableOf σ r i = some t → tableOf σ r i' = some t → i = i'

theorem PageTable.write (h : PageTable σ r) (ht : tableOf σ r i = some t) :
    PageTable (σ.write t j w) r ∧ ∀ i' j', entryOf (σ.write t j w) r i' j' =
      if i' = i ∧ j' = j then (if present w then some w else none) else entryOf σ r i' j' := by
  have htab : ∀ i', tableOf (σ.write t j w) r i' = tableOf σ r i' := fun i' =>
    tableOf_congr (write_mem_of_ne (h.table i t ht).1.symm)
  refine ⟨⟨h.nodup, h.dir, fun i' t' h' => h.table i' t' (htab i' ▸ h'),
    fun i1 i2 t' h1 h2 => h.inj i1 i2 t' (htab i1 ▸ h1) (htab i2 ▸ h2)⟩, fun i' j' => ?_⟩
  cases ht' : tableOf σ r i' with
  | none =>
    rw [entryOf_of_none ht', entryOf_of_none (by rw [htab, ht']), if_neg]
    rintro ⟨rfl, -⟩
    rw [ht] at ht'
    cases ht'
  | some t' =>
    rw [entryOf_of_table (by rw [htab, ht']), entryOf_of_table ht']
    by_cases hi : i' = i
    · subst hi
      obtain rfl := some.inj (ht.symm.trans ht')
      rw [write_mem_self]
      by_cases hj : j' = j
      · simp [hj]
      · simp [hj]
    · have hne : t' ≠ t := fun htt => hi (h.inj i' i t (htt ▸ ht') ht)
      rw [write_mem_of_ne hne, if_neg (c := i' = i ∧ j' = j) fun hx => hi hx.1]

theorem PageTable.addTable (h : PageTable σ r) {fl : List ℕ} (hf : σ.freelist = t :: fl)
    (hi : tableOf σ r i = none) (hw : present w = true) (ht : pteAddr w = t) :
    let σ' := (Kmem.fill { σ with freelist := fl } t fun _ => 0).write r i w
    PageTable σ' r ∧ tableOf σ' r i = some t ∧ (∀ j, σ'.mem t j = 0) ∧
      ∀ i' j, entryOf σ' r i' j = entryOf σ r i' j := by
  intro σ'
  have hmem : ∀ q ∈ t :: fl, q ∈ σ.freelist := fun q hq => hf ▸ hq
  have hrt : r ≠ t := fun hx => h.dir (hmem r (hx ▸ List.mem_cons_self))
  have hnodup := h.nodup
  rw [hf, List.nodup_cons] at hnodup
  have hself : tableOf σ' r i = some t := by simp [σ', tableOf, write_mem_self, hw, ht]
  have hother : ∀ i', i' ≠ i → tableOf σ' r i' = tableOf σ r i' := fun i' hne => by
    simp [σ', tableOf, write_mem_self, Kmem.fill, hne, hrt]
  have hold : ∀ i' t', tableOf σ r i' = some t' → t' ≠ t := fun i' t' h' hx =>
    (h.table i' t' h').2 (hmem t' (hx ▸ List.mem_cons_self))
  have hzero : ∀ j, σ'.mem t j = 0 := fun j => by
    simp [σ', write_mem_of_ne hrt.symm, Kmem.fill]
  refine ⟨⟨hnodup.2, fun hx => h.dir (hmem r (List.mem_cons_of_mem _ hx)), fun i' t' h' => ?_,
    fun i1 i2 t' h1 h2 => ?_⟩, hself, hzero, fun i' j => ?_⟩
  · by_cases hi' : i' = i
    · subst hi'
      obtain rfl := some.inj (hself.symm.trans h')
      exact ⟨hrt.symm, hnodup.1⟩
    · rw [hother i' hi'] at h'
      exact ⟨(h.table i' t' h').1, fun hx => (h.table i' t' h').2 (hmem t' (List.mem_cons_of_mem _ hx))⟩
  · by_cases hi1 : i1 = i <;> by_cases hi2 : i2 = i
    · rw [hi1, hi2]
    · subst hi1
      rw [hother i2 hi2] at h2
      exact absurd (some.inj (h1.symm.trans hself)) (hold i2 t' h2)
    · subst hi2
      rw [hother i1 hi1] at h1
      exact absurd (some.inj (h2.symm.trans hself)) (hold i1 t' h1)
    · exact h.inj i1 i2 t' (hother i1 hi1 ▸ h1) (hother i2 hi2 ▸ h2)
  · by_cases hi' : i' = i
    · subst hi'
      rw [entryOf_of_none hi, entryOf_of_table hself, hzero]
      rfl
    · cases ht' : tableOf σ r i' with
      | none => rw [entryOf_of_none ht', entryOf_of_none (by rw [hother i' hi', ht'])]
      | some t' =>
        have hkeep : σ'.mem t' = σ.mem t' := by
          simp [σ', write_mem_of_ne (h.table i' t' ht').1, Kmem.fill, hold i' t' ht']
        rw [entryOf_of_table ht', entryOf_of_table (by rw [hother i' hi', ht']), hkeep]

/-! ### Adding page tables -/

structure Apart (σ : Kmem) (r p : ℕ) : Prop where
  free : p ∉ σ.freelist
  dir : p ≠ r
  table : ∀ i, tableOf σ r i ≠ some p

/-- Page tables have been added to `r`, from the free list; entries may have been written. -/
structure Extends (r : ℕ) (σ σ' : Kmem) : Prop where
  table : ∀ i t, tableOf σ r i = some t → tableOf σ' r i = some t
  free : ∀ q, q ∈ σ.freelist ↔
    q ∈ σ'.freelist ∨ ∃ i, tableOf σ r i = none ∧ tableOf σ' r i = some q
  mem : ∀ q, Apart σ r q → σ'.mem q = σ.mem q

theorem Extends.refl (r : ℕ) (σ : Kmem) : Extends r σ σ where
  table _ _ h := h
  free q := ⟨.inl, fun h => h.elim id fun ⟨i, hn, hs⟩ => by rw [hn] at hs; cases hs⟩
  mem _ _ := rfl

theorem Extends.apart (h : Extends r σ σ') (hp : Apart σ r p) : Apart σ' r p where
  free hf := hp.free ((h.free p).mpr (.inl hf))
  dir := hp.dir
  table i hi := by
    cases ht : tableOf σ r i with
    | none => exact hp.free ((h.free p).mpr (.inr ⟨i, ht, hi⟩))
    | some t =>
      rw [h.table i t ht, some.injEq] at hi
      exact hp.table i (hi ▸ ht)

theorem Extends.trans (h : Extends r σ σ') (h' : Extends r σ' σ'') : Extends r σ σ'' where
  table i t ht := h'.table i t (h.table i t ht)
  free q := by
    rw [h.free, h'.free]
    constructor
    · rintro ((hf | ⟨i, hn, hs⟩) | ⟨i, hn, hs⟩)
      · exact .inl hf
      · refine .inr ⟨i, ?_, hs⟩
        cases ht : tableOf σ r i with
        | none => rfl
        | some t =>
          rw [h.table i t ht] at hn
          cases hn
      · exact .inr ⟨i, hn, h'.table i q hs⟩
    · rintro (hf | ⟨i, hn, hs⟩)
      · exact .inl (.inl hf)
      · cases ht : tableOf σ' r i with
        | none => exact .inl (.inr ⟨i, ht, hs⟩)
        | some t =>
          obtain rfl := some.inj (hs.symm.trans (h'.table i t ht))
          exact .inr ⟨i, hn, ht⟩
  mem q hq := (h'.mem q (h.apart hq)).trans (h.mem q hq)

variable {ι δ : Type} {L : Layout} {items : ι → Option ℕ} {roots : δ → Option ℕ} {d : δ}

theorem Own.apart (h : Own L σ items roots) (hd : roots d = some r) {x : Holder ι δ}
    (hx : holds σ items roots x = some p) (hf : ∀ q, x ≠ .free q) (hdir : x ≠ .dir d)
    (ht : ∀ i, x ≠ .table d i) : Apart σ r p where
  free hm := hf p (h.excl x (.free p) p hx (by simp [holds, hm]))
  dir hr := hdir (h.excl x (.dir d) p hx (by rw [hr]; exact hd))
  table i hi := ht i (h.excl x (.table d i) p hx (bind_eq_some_iff.mpr ⟨r, hd, hi⟩))

theorem Own.pageTable (h : Own L σ items roots) (hd : roots d = some r) : PageTable σ r where
  nodup := h.nodup
  dir hm := by
    have := h.excl (.free r) (.dir d) r (by simp [holds, hm]) hd
    cases this
  table i t ht := by
    refine ⟨(h.table_ne_dir hd ht hd).symm, fun hm => ?_⟩
    have := h.excl (.free t) (.table d i) t (by simp [holds, hm])
      (bind_eq_some_iff.mpr ⟨r, hd, ht⟩)
    cases this
  inj i i' t ht ht' := (h.table_inj hd ht hd ht').2.symm

theorem Own.extends_table (h : Own L σ items roots) (hd : roots d = some r) {fl : List ℕ}
    (hf : σ.freelist = p :: fl) (hi : tableOf σ r i = none) (hw : present w = true)
    (hp : pteAddr w = p) :
    let σ' := (Kmem.fill { σ with freelist := fl } p fun _ => 0).write r i w
    Own L σ' items roots ∧ tableOf σ' r i = some p ∧ Extends r σ σ' ∧
      ∀ i' j, entryOf σ' r i' j = entryOf σ r i' j := by
  intro σ'
  have h1 := h.kalloc hf
  have hin := h1.tmp_inert
  have hrp : r ≠ p := by rintro rfl; exact hin.dir d hd
  have hown : Own L σ' items roots := by
    refine (h1.fill hin fun _ => 0).addTable hd ?_ (fun j => by simp [Kmem.fill]) hw hp
    rw [tableOf_fill hrp]
    exact hi
  obtain ⟨-, hself, -, hent⟩ := (h.pageTable hd).addTable hf hi hw hp
  have hother : ∀ i', i' ≠ i → tableOf σ' r i' = tableOf σ r i' := fun i' hne => by
    simp [σ', tableOf, write_mem_self, Kmem.fill, hne, hrp]
  have hmem : ∀ q, q ≠ p → q ≠ r → σ'.mem q = σ.mem q := fun q hqp hqr => by
    simp [σ', write_mem_of_ne hqr, Kmem.fill, hqp]
  refine ⟨hown, hself, ⟨fun i' t ht => ?_, fun q => ?_, fun q hq => ?_⟩, hent⟩
  · rw [hother i' (by rintro rfl; rw [hi] at ht; cases ht)]
    exact ht
  · rw [hf, List.mem_cons]
    constructor
    · rintro (rfl | hq)
      · exact .inr ⟨i, hi, hself⟩
      · exact .inl hq
    · rintro (hq | ⟨i', hn, hs⟩)
      · exact .inr hq
      · rcases eq_or_ne i' i with rfl | hne
        · exact .inl (some.inj (hs.symm.trans hself))
        · rw [hother i' hne, hn] at hs
          cases hs
  · refine hmem q ?_ hq.dir
    rintro rfl
    exact hq.free (by rw [hf]; exact List.mem_cons_self ..)

theorem Own.entryOf_write (h : Own L σ items roots) (hd : roots d = some r)
    (ht : tableOf σ r i = some t) (i' j' : Fin 1024) : entryOf (σ.write t j w) r i' j' =
      if i' = i ∧ j' = j then (if present w then some w else none) else entryOf σ r i' j' :=
  ((h.pageTable hd).write ht).2 i' j'

theorem Own.extends_write (h : Own L σ items roots) (hd : roots d = some r)
    (ht : tableOf σ r i = some t) : Extends r σ (σ.write t j w) where
  table i' t' ht' := (h.tableOf_write hd ht hd i').trans ht'
  free q := by
    refine ⟨.inl, fun hq => hq.elim id fun ⟨i', hn, hs⟩ => ?_⟩
    rw [h.tableOf_write hd ht hd, hn] at hs
    cases hs
  mem q hq := write_mem_of_ne fun hx => hq.table i (hx ▸ ht)

/-! ### Walking and mapping -/

theorem walkpgdir_false (σ : Kmem) (r va : ℕ) : walkpgdir r va false σ =
    (.ok ((tableOf σ r (pdx va)).map fun t => (t, ptx va)), σ) := by
  cases hp : present (σ.mem r (pdx va)) <;> simp [walkpgdir, bind_apply, tableOf, hp]

theorem walkpgdir_true (h : Own L σ items roots) (hd : roots d = some r) (va : ℕ) :
    (walkpgdir r va true σ = (.ok none, σ) ∧ σ.freelist = []) ∨
    ∃ σ' t, walkpgdir r va true σ = (.ok (some (t, ptx va)), σ') ∧ Own L σ' items roots ∧
      tableOf σ' r (pdx va) = some t ∧ Extends r σ σ' ∧
      ∀ i j, entryOf σ' r i j = entryOf σ r i j := by
  cases hp : present (σ.mem r (pdx va)) with
  | true =>
    refine .inr ⟨σ, pteAddr (σ.mem r (pdx va)), by simp [walkpgdir, bind_apply, hp], h,
      by simp [tableOf, hp], .refl r σ, fun i j => rfl⟩
  | false =>
    have hnone : tableOf σ r (pdx va) = none := by simp [tableOf, hp]
    cases hf : σ.freelist with
    | nil => exact .inl ⟨by simp [walkpgdir, kalloc, bind_apply, hp, hf], rfl⟩
    | cons p fl =>
      have hnew := h.extends_table (w := mkPte p (PTE_P ||| PTE_W ||| PTE_U)) hd hf hnone
        (present_mkPte p (PTE_W ||| PTE_U)) (pteAddr_mkPte p (by decide))
      refine .inr ⟨_, p, ?_, hnew.1, hnew.2.1, hnew.2.2.1, hnew.2.2.2⟩
      simp [walkpgdir, kalloc, bind_apply, hp, hf, setPage, setWord, Kmem.write, Kmem.fill]

theorem mappages_run (h : Own L σ (withTmp items (some p)) roots) (hd : roots d = some r)
    {flags : ℕ} (ha : a % PGSIZE = 0) (hlt : a < KERNBASE) (hf : flags < 4096)
    (hnone : entryOf σ r (pdx a) (ptx a) = none) :
    (mappages r a PGSIZE p flags σ = (.ok false, σ) ∧ σ.freelist = []) ∨
    ∃ σ', mappages r a PGSIZE p flags σ = (.ok true, σ') ∧ Own L σ' items roots ∧
      Extends r σ σ' ∧ ∀ i j, entryOf σ' r i j =
        if i = pdx a ∧ j = ptx a then some (mkPte p (flags ||| PTE_P)) else entryOf σ r i j := by
  rw [mappages_page ha hlt]
  rcases walkpgdir_true h hd a with ⟨hrun, hfl⟩ | ⟨σ1, t, hrun, hown, ht, hext, hent⟩
  · exact .inl ⟨by rw [mappagesFrom, bind_apply, hrun]; rfl, hfl⟩
  · have habs : present (σ1.mem t (ptx a)) = false := by
      rw [← hent, entryOf_of_table ht] at hnone
      simpa using hnone
    have hpres := present_mkPte p flags
    refine .inr ⟨σ1.write t (ptx a) (mkPte p (flags ||| PTE_P)), ?_,
      hown.mapUser hd ht (pdx_lt hlt) (pteAddr_mkPte p (or_lt hf (by decide))),
      hext.trans (hown.extends_write hd ht), fun i j => ?_⟩
    · rw [mappagesFrom, bind_apply, hrun]
      simp [bind_apply, habs, setWord, mappagesFrom, Kmem.write, Kmem.fill]
    · rw [hown.entryOf_write hd ht, if_pos hpres, hent]

theorem mappagesFrom_ends (hd : roots d = some r) {perm : ℕ} (hu : userBit (perm ||| PTE_P) = false)
    {F : Stop → Prop} : ∀ (n a frame : ℕ) (σ : Kmem), Own L σ items roots → a % PGSIZE = 0 →
      (0 < n → KERNBASE ≤ a) → a + n * PGSIZE ≤ WORD →
      (F (.panic "remap") ∨
        ∀ i j, a ≤ vaOf i j → vaOf i j < a + n * PGSIZE → entryOf σ r i j = none) →
      Ends F σ (mappagesFrom r perm n a frame) fun _ σ' => Own L σ' items roots ∧ Extends r σ σ' ∧
        ∀ i j, ¬ (a ≤ vaOf i j ∧ vaOf i j < a + n * PGSIZE) →
          entryOf σ' r i j = entryOf σ r i j
  | 0, a, frame, σ, h, _, _, _, _ => Ends.ok rfl ⟨h, .refl r σ, fun _ _ _ => rfl⟩
  | n + 1, a, frame, σ, h, hal, ha, hw, hF => by
    have ha := ha (Nat.succ_pos n)
    have haw : a < WORD := by simp only [PGSIZE] at hw; omega
    have hpage := fun i j => vaOf_in_page (i := i) (j := j) hal haw
    rw [mappagesFrom]
    rcases walkpgdir_true h hd a with ⟨hrun, hfl⟩ | ⟨σ1, t, hrun, hown, ht, hext, hent⟩
    · exact Ends.ok_bind hrun (Ends.ok rfl ⟨h, .refl r σ, fun _ _ _ => rfl⟩)
    · refine Ends.ok_bind hrun (Ends.ok_bind rfl ?_)
      split_ifs with hp
      · -- the page is mapped already
        refine hF.elim (fun hF => ?_) fun hfree => ?_
        · rw [Ends, stop_apply]
          exact hF
        · have hin := (hpage _ _).mpr ⟨rfl, rfl⟩
          have := hfree _ _ hin.1 (by simp only [PGSIZE] at *; omega)
          rw [← hent, entryOf_of_table ht, if_pos hp] at this
          cases this
      · have hi := le_pdx ha haw
        set σ2 := σ1.write t (ptx a) (mkPte frame (perm ||| PTE_P)) with hσ2
        have h2 : Own L σ2 items roots :=
          hown.rewrite hd ht (.inr (by rw [userBit_mkPte]; exact hu)) fun hx => by omega
        have hent2 : ∀ i j, ¬ (a ≤ vaOf i j ∧ vaOf i j < a + PGSIZE) →
            entryOf σ2 r i j = entryOf σ r i j := fun i j hij => by
          rw [hown.entryOf_write hd ht, if_neg (fun hx => hij ((hpage i j).mpr hx)), hent]
        -- only the last turn may leave the address space
        have hnext : (a + PGSIZE) % WORD + n * PGSIZE ≤ WORD ∧
            (0 < n → KERNBASE ≤ (a + PGSIZE) % WORD) ∧ (a + PGSIZE) % WORD % PGSIZE = 0 ∧
            (0 < n → (a + PGSIZE) % WORD = a + PGSIZE) := by
          simp only [PGSIZE, WORD, KERNBASE] at *
          omega
        have hrest : F (.panic "remap") ∨ ∀ i j, (a + PGSIZE) % WORD ≤ vaOf i j →
            vaOf i j < (a + PGSIZE) % WORD + n * PGSIZE → entryOf σ2 r i j = none := by
          refine hF.imp id fun hfree i j hlo hhi => ?_
          have hn : 0 < n := by
            rcases eq_zero_or_pos n with rfl | hn
            · omega
            · exact hn
          rw [hnext.2.2.2 hn] at hlo hhi
          rw [hent2 i j (by omega)]
          exact hfree i j (by simp only [PGSIZE] at *; omega) (by simp only [PGSIZE] at *; omega)
        refine Ends.ok_bind (show _ = (Except.ok (), σ2) from rfl)
          ((mappagesFrom_ends hd hu n _ _ σ2 h2 hnext.2.2.1 hnext.2.1 hnext.1 hrest).post ?_)
        rintro _ σ' ⟨hown', hext', hent'⟩
        refine ⟨hown', (hext.trans (hown.extends_write hd ht)).trans hext', fun i j hij => ?_⟩
        have hout : ¬ (a ≤ vaOf i j ∧ vaOf i j < a + PGSIZE) := by
          simp only [PGSIZE] at *
          omega
        rw [hent' i j, hent2 i j hout]
        rcases eq_zero_or_pos n with rfl | hn
        · omega
        · rw [hnext.2.2.2 hn]
          simp only [PGSIZE] at *
          omega

end Xv6.Vm

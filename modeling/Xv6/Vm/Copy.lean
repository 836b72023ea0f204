import Xv6.Vm.Build

/-! @src vm.c | part:copying an address space | scheme:prog, exclusive

  `copyuvm` fills a new page table with copies of the pages of the parent, with the parent's flags.
  Both page tables are then address spaces of one memory in which every page has one holder, and a
  store through one of them touches only pages that the other does not have. -/

namespace Xv6.Vm
open Nat
open Schemes Prog
open List (range')
open Option (map_some some some_ne_none)

variable {ι δ : Type} {L : Layout} {items : ι → Option ℕ} {roots : δ → Option ℕ} {d : δ}
  {σ σ0 σ1 σ' : Kmem} {r p pr a : ℕ} {i j : Fin 1024} {P : ℕ → Prop} {tmp : Option ℕ}

def flagsOf (σ : Kmem) (r : ℕ) (i j : Fin 1024) : ℕ := pteFlags ((entryOf σ r i j).getD 0)

def pageOf (σ : Kmem) (r : ℕ) (i j : Fin 1024) : Page := σ.mem (pteAddr ((entryOf σ r i j).getD 0))

theorem pteFlags_lt (w : ℕ) : pteFlags w < 4096 := mod_lt _ (by decide)

theorem Built.tableOf_old (hown : Own L σ0 items roots) (hd : roots d = some pr)
    (h : Built L items roots σ0 tmp r σ) (i : Fin 1024) : tableOf σ pr i = tableOf σ0 pr i :=
  tableOf_congr (h.mem pr (hown.not_free hd (.inl rfl)))

theorem Built.page_old (hown : Own L σ0 items roots) (hd : roots d = some pr)
    (h : Built L items roots σ0 tmp r σ) (hi : i.val < 512) {w : ℕ}
    (hw : entryOf σ0 pr i j = some w) : σ.mem (pteAddr w) = σ0.mem (pteAddr w) :=
  h.mem _ (hown.not_free hd (.inr (.inr ⟨i, j, w, hi, hw, rfl⟩)))

/-- How far the loop of `copyuvm` has come: all pages below `a` are copied. -/
abbrev Copied (L : Layout) (items : ι → Option ℕ) (roots : δ → Option ℕ) (σ0 : Kmem) (pr r a : ℕ)
    (tmp : Option ℕ) (σ1 σ : Kmem) : Prop :=
  Grown L items (withTmp roots (some r)) r (flagsOf σ0 pr) (pageOf σ0 pr) (· < a) tmp σ1 σ

def CopyEnd.Holds (L : Layout) (items : ι → Option ℕ) (roots : δ → Option ℕ) (σ0 : Kmem)
    (pr r last : ℕ) (σ1 σ : Kmem) : CopyEnd → Prop
  | .done => Copied L items roots σ0 pr r last none σ1 σ
  | .noPage => ∃ a ≤ last, Copied L items roots σ0 pr r a none σ1 σ
  | .noTable => ∃ a ≤ last, ∃ p, Copied L items roots σ0 pr r a (some p) σ1 σ

theorem Copied.built (hb : Built L items roots σ0 none r σ1)
    (hempty : ∀ i j, i.val < 512 → entryOf σ1 r i j = none) (ha : a ≤ KERNBASE)
    (h : Copied L items roots σ0 pr r a tmp σ1 σ) : Built L items roots σ0 tmp r σ :=
  hb.grown h (fun _ _ hp => vaOf_lt_kernbase.mp (hp.trans_le ha))
    fun i j hp => hempty i j (vaOf_lt_kernbase.mp (hp.trans_le ha))

theorem copyuvmFrom_ends (hown : Own L σ0 items roots) (hd : roots d = some pr)
    (hb : Built L items roots σ0 none r σ1)
    (hempty : ∀ i j, i.val < 512 → entryOf σ1 r i j = none) :
    ∀ (n a : ℕ) (σ : Kmem), a % PGSIZE = 0 → a + n * PGSIZE ≤ KERNBASE →
      Copied L items roots σ0 pr r a none σ1 σ →
      Ends (fun _ => True) σ (copyuvmFrom pr r n a) fun e σ' =>
        e.Holds L items roots σ0 pr r (a + n * PGSIZE) σ1 σ'
  | 0, a, σ, _, _, h => Ends.ok rfl (by simpa [CopyEnd.Holds] using h)
  | n + 1, a, σ, hal, hn, h => by
    have hnext : a + (n + 1) * PGSIZE = a + PGSIZE + n * PGSIZE := by ring
    have ha : a < KERNBASE := by simp only [PGSIZE] at hn; omega
    have hle : a ≤ a + (n + 1) * PGSIZE := Nat.le_add_right ..
    have hu : ∀ i j, vaOf i j < a → i.val < 512 := fun i j hp =>
      vaOf_lt_kernbase.mp (hp.trans ha)
    have hself := vaOf_pdx_ptx hal (by simp only [WORD, KERNBASE] at *; omega)
    have hbuilt := Copied.built hb hempty ha.le h
    rw [copyuvmFrom]
    refine Ends.ok_bind (walkpgdir_false σ pr a) ?_
    rw [hbuilt.tableOf_old hown hd]
    cases ht : tableOf σ0 pr (pdx a) with
    | none => exact trivial
    | some t =>
      have htmem : σ.mem t = σ0.mem t := hbuilt.mem t (hown.not_free hd (.inr (.inl ⟨_, ht⟩)))
      rw [map_some, copyuvmEntry]
      refine Ends.ok_bind (get_apply σ) ?_
      rw [htmem]
      cases hp : present (σ0.mem t (ptx a)) with
      | false =>
        rw [if_neg Bool.false_ne_true]
        exact trivial
      | true =>
        rw [if_pos rfl]
        have hw : entryOf σ0 pr (pdx a) (ptx a) = some (σ0.mem t (ptx a)) := by
          rw [entryOf_of_table ht, hp]
          rfl
        have hflags : flagsOf σ0 pr (pdx a) (ptx a) = pteFlags (σ0.mem t (ptx a)) := by
          rw [flagsOf, hw]
          rfl
        have hpage : pageOf σ0 pr (pdx a) (ptx a) = σ.mem (pteAddr (σ0.mem t (ptx a))) := by
          rw [hbuilt.page_old hown hd (pdx_lt ha) hw, pageOf, hw]
          rfl
        rcases kalloc_cases σ with hrun | ⟨p, fl, hf, hrun⟩
        · refine Ends.ok_bind hrun (Ends.ok rfl ⟨a, hle, h⟩)
        · refine Ends.ok_bind hrun ?_
          have htake := h.take (d := none) rfl hu hf (σ.mem (pteAddr (σ0.mem t (ptx a))))
          rw [copyuvmPage]
          refine Ends.ok_bind (setPage_apply p _ _) ?_
          set σ2 := Kmem.fill { σ with freelist := fl } p (σ.mem (pteAddr (σ0.mem t (ptx a))))
            with hσ2
          have habs : entryOf σ2 r (pdx a) (ptx a) = none := by
            rw [htake.old _ _ (by rw [hself]; omega)]
            exact hempty _ _ (pdx_lt ha)
          rcases mappages_run htake.own (d := none) rfl hal ha (pteFlags_lt _) habs with
            ⟨hmap, _⟩ | ⟨σ3, hmap, hown3, hext, hent⟩
          · refine Ends.ok_bind hmap ?_
            rw [if_neg Bool.false_ne_true]
            exact Ends.ok rfl ⟨a, hle, p, htake⟩
          · refine Ends.ok_bind hmap ?_
            rw [if_pos rfl, hnext]
            have hgrown := htake.map (d := none) rfl hu hown3 hext (by rw [hflags]; exact hent)
              habs (by rw [hflags]; exact pteFlags_lt _) (by simp [hσ2, Kmem.fill, hpage])
            refine copyuvmFrom_ends hown hd hb hempty n (a + PGSIZE) σ3
              (by rw [add_mod_right, hal]) (by rw [← hnext]; exact hn)
              (hgrown.congr fun i j => ?_)
            have hm := vaOf_mod i j
            rw [hself]
            simp only [PGSIZE] at hm hal ⊢
            omega

structure SameSpace (σ0 : Kmem) (pr sz : ℕ) (r : ℕ) (σ : Kmem) : Prop where
  page : ∀ i j, vaOf i j < sz → ∃ p, entryOf σ r i j = some (mkPte p (flagsOf σ0 pr i j ||| PTE_P)) ∧
    σ.mem p = pageOf σ0 pr i j
  none : ∀ i j, i.val < 512 → pgRoundUp sz ≤ vaOf i j → entryOf σ r i j = none

/-- How `copyuvm` returns: with all pages free again; with one page lost, which it had allocated when
  `mappages` found none for the page table; or with the copy. -/
theorem copyuvm_returns (hown : Own L σ0 items roots) (hd : roots d = some pr) {sz : ℕ}
    (hsz : sz ≤ KERNBASE) {o : Option ℕ} (hrun : copyuvm L pr sz σ0 = (.ok o, σ')) :
    (o = none ∧ Restored none σ0 σ') ∨ (o = none ∧ ∃ p, Restored (some p) σ0 σ') ∨
    ∃ r, o = some r ∧ Built L items roots σ0 none r σ' ∧ SameSpace σ0 pr sz r σ' := by
  obtain ⟨o1, σ1, hset, hinto⟩ := ok_of_bind hrun
  have hends := (setupkvm_ends (F := fun _ => True) hown (.inl trivial) (.inl trivial)).of_run hset
  rcases hends with ⟨rfl, hres⟩ | ⟨r, rfl, hb, hempty⟩
  · rw [copyuvmInto, pure_apply] at hinto
    cases hinto
    exact .inl ⟨rfl, hres⟩
  · rw [copyuvmInto] at hinto
    obtain ⟨e, σ2, hloop, hend⟩ := ok_of_bind hinto
    have hlast : 0 + (sz + PGSIZE - 1) / PGSIZE * PGSIZE ≤ KERNBASE := by
      simp only [PGSIZE, KERNBASE] at *
      omega
    have hholds := (copyuvmFrom_ends hown hd hb hempty _ 0 σ1 rfl hlast
      (hb.own.forget.grown_nothing fun i j => Nat.not_lt_zero _)).of_run hloop
    cases e with
    | done =>
      rw [copyuvmEnd, pure_apply] at hend
      cases hend
      refine .inr (.inr ⟨r, rfl, Copied.built hb hempty hlast hholds, fun i j hv => ?_,
        fun i j hi hv => ?_⟩)
      · obtain ⟨p, hw, _, hc⟩ := hholds.new i j (by simp only [PGSIZE]; omega)
        exact ⟨p, hw, hc⟩
      · have hm := vaOf_mod i j
        have := pgRoundUp_le hsz
        have hmod := pgRoundUp_mod sz
        rw [hholds.old i j (by simp only [PGSIZE] at *; omega)]
        exact hempty i j hi
    | noPage =>
      obtain ⟨a, ha, hc⟩ := hholds
      obtain ⟨σ3, hfree, hres⟩ := (Copied.built hb hempty (ha.trans hlast) hc).freevm
      rw [copyuvmEnd, bind_of_ok hfree, pure_apply] at hend
      cases hend
      exact .inl ⟨rfl, hres⟩
    | noTable =>
      obtain ⟨a, ha, p, hc⟩ := hholds
      obtain ⟨σ3, hfree, hres⟩ := (Copied.built hb hempty (ha.trans hlast) hc).freevm
      rw [copyuvmEnd, bind_of_ok hfree, pure_apply] at hend
      cases hend
      exact .inr (.inl ⟨rfl, p, hres⟩)

/-! ### Stores through a page table -/

theorem wordIdx_lt (va : ℕ) : va / 4 % 1024 < 1024 := mod_lt _ (by decide)

def wordIdx (va : ℕ) : Fin 1024 := ⟨va / 4 % 1024, wordIdx_lt va⟩

def load (σ : Kmem) (r va : ℕ) : Option ℕ :=
  (entryOf σ r (pdx va) (ptx va)).map fun w => σ.mem (pteAddr w) (wordIdx va)

def store (r : ℕ) (σ : Kmem) (s : ℕ × ℕ) : Kmem :=
  if s.1 < KERNBASE then
    match entryOf σ r (pdx s.1) (ptx s.1) with
    | none => σ
    | some w => σ.write (pteAddr w) (wordIdx s.1) s.2
  else σ

def stores (r : ℕ) (σ : Kmem) (ss : List (ℕ × ℕ)) : Kmem := ss.foldl (store r) σ

theorem Own.store (h : Own L σ items roots) (hd : roots d = some r) (s : ℕ × ℕ) :
    Own L (store r σ s) items roots ∧ (store r σ s).freelist = σ.freelist ∧
      ∀ q, (∀ i j w, i.val < 512 → entryOf σ r i j = some w → pteAddr w ≠ q) →
        (store r σ s).mem q = σ.mem q := by
  unfold Vm.store
  split_ifs with hs
  · cases hw : entryOf σ r (pdx s.1) (ptx s.1) with
    | none => exact ⟨h, rfl, fun _ _ => rfl⟩
    | some w =>
      have hx : holds σ items roots (.user d (pdx s.1) (ptx s.1)) = some (pteAddr w) :=
        Option.bind_eq_some_iff.mpr ⟨r, hd, userOf_iff.mpr ⟨pdx_lt hs, w, hw, rfl⟩⟩
      exact ⟨h.fill (h.inert hx (by simp) (by simp)) _, rfl, fun q hq =>
        write_mem_of_ne (hq _ _ w (pdx_lt hs) hw).symm⟩
  · exact ⟨h, rfl, fun _ _ => rfl⟩

theorem Own.stores {d' : δ} {r' : ℕ} (hne : d' ≠ d) (hd : roots d = some r)
    (hd' : roots d' = some r') : ∀ (ss : List (ℕ × ℕ)) (σ : Kmem), Own L σ items roots →
      ∀ q, Belongs σ r' q → (stores r σ ss).mem q = σ.mem q
  | [], σ, _, q, _ => rfl
  | s :: ss, σ, h, q, hq => by
    obtain ⟨hown, _, hmem⟩ := h.store hd s
    have hkeep : ∀ q, Belongs σ r' q → (Vm.store r σ s).mem q = σ.mem q := fun q hq =>
      hmem q fun i j w hi hw ha =>
        h.not_belongs_two hne hd hd' (.inr (.inr ⟨i, j, w, hi, hw, ha⟩)) hq
    have hent : ∀ i j, entryOf (Vm.store r σ s) r' i j = entryOf σ r' i j := fun i j =>
      entryOf_congr (hkeep r' (.inl rfl)) fun t ht => hkeep t (.inr (.inl ⟨i, ht⟩))
    have hq' : Belongs (Vm.store r σ s) r' q := by
      simp only [Belongs, hent, tableOf_congr (hkeep r' (.inl rfl))]
      exact hq
    exact (Own.stores hne hd hd' ss _ hown q hq').trans (hkeep q hq)

theorem Own.load_stores {d' : δ} {r' va : ℕ} (h : Own L σ items roots) (hne : d' ≠ d)
    (hd : roots d = some r) (hd' : roots d' = some r') (ss : List (ℕ × ℕ)) (hva : va < KERNBASE) :
    load (Vm.stores r σ ss) r' va = load σ r' va := by
  have hkeep := fun q => Own.stores hne hd hd' ss σ h q
  have hent : entryOf (Vm.stores r σ ss) r' (pdx va) (ptx va) = entryOf σ r' (pdx va) (ptx va) :=
    entryOf_congr (hkeep r' (.inl rfl)) fun t ht => hkeep t (.inr (.inl ⟨_, ht⟩))
  rw [load, load, hent]
  cases hw : entryOf σ r' (pdx va) (ptx va) with
  | none => rfl
  | some w =>
    rw [map_some, map_some,
      hkeep (pteAddr w) (.inr (.inr ⟨_, _, w, pdx_lt hva, hw, rfl⟩))]

/-! ### The copy -/

theorem pteFlags_mkPte {f : ℕ} (p : ℕ) (hf : f < 4096) : pteFlags (mkPte p f) = f := by
  rw [pteFlags, mkPte, ← shiftLeft_add_eq_or_of_lt (by simpa using hf), shiftLeft_eq]
  omega

theorem pteFlags_or_present {w : ℕ} (hw : present w = true) : pteFlags w ||| PTE_P = pteFlags w := by
  have h0 : (pteFlags w).testBit 0 = true := by
    simp only [present, pteFlags, testBit_zero, decide_eq_true_eq] at hw ⊢
    omega
  refine eq_of_testBit_eq fun k => ?_
  rw [testBit_or]
  cases k with
  | zero => simp [h0]
  | succ k => simp [PTE_P, testBit_succ]

/-- When `copyuvm` returns a page directory, the pages of the parent below `sz` are mapped there with
  the same flags and the same contents and nothing else is; no page is shared; nothing of the parent
  has changed; and from then on stores through one of the two page tables are not seen through the
  other. -/
theorem copyuvm_separate (L : Layout) (items : ι → Option ℕ) (roots : δ → Option ℕ) (d : δ)
    (σ σ' : Kmem) (pr sz r : ℕ) (hown : Own L σ items roots) (hd : roots d = some pr)
    (hsz : sz ≤ KERNBASE) (hpres : ∀ i j, vaOf i j < sz → entryOf σ pr i j ≠ none)
    (hrun : copyuvm L pr sz σ = (.ok (some r), σ')) :
    (∀ i j, vaOf i j < sz → ∃ w w', entryOf σ pr i j = some w ∧ entryOf σ' r i j = some w' ∧
      pteFlags w' = pteFlags w ∧ σ'.mem (pteAddr w') = σ.mem (pteAddr w)) ∧
    (∀ i j, i.val < 512 → pgRoundUp sz ≤ vaOf i j → entryOf σ' r i j = none) ∧
    (∀ i j i' j' w w', i.val < 512 → i'.val < 512 → entryOf σ' pr i j = some w →
      entryOf σ' r i' j' = some w' → pteAddr w ≠ pteAddr w') ∧
    (∀ q, Belongs σ pr q → σ'.mem q = σ.mem q) ∧
    ∀ ss va, va < KERNBASE → load (stores r σ' ss) pr va = load σ' pr va ∧
      load (stores pr σ' ss) r va = load σ' r va := by
  rcases copyuvm_returns hown hd hsz hrun with ⟨ho, _⟩ | ⟨ho, _⟩ | ⟨r', ho, hb, hsame⟩
  · cases ho
  · cases ho
  obtain rfl := some.inj ho
  have hpr : withTmp roots (some r) (some d) = some pr := hd
  have hr : withTmp roots (some r) none = some r := rfl
  have hne : (some d : Option δ) ≠ none := some_ne_none d
  refine ⟨fun i j hv => ?_, hsame.none, fun i j i' j' w w' hi hi' hw hw' heq => ?_, fun q hq => ?_,
    fun ss va hva => ⟨?_, ?_⟩⟩
  · obtain ⟨w, hw⟩ := Option.ne_none_iff_exists'.mp (hpres i j hv)
    obtain ⟨p, hp, hc⟩ := hsame.page i j hv
    have hfl : flagsOf σ pr i j ||| PTE_P = pteFlags w := by
      rw [flagsOf, hw]
      exact pteFlags_or_present (present_of_entryOf hw)
    rw [hfl] at hp
    refine ⟨w, _, hw, hp, pteFlags_mkPte p (pteFlags_lt w), ?_⟩
    rw [pteAddr_mkPte p (pteFlags_lt w), hc, pageOf, hw]
    rfl
  · exact hb.own.not_belongs_two hne hr hpr (.inr (.inr ⟨i', j', w', hi', hw', heq.symm⟩))
      (.inr (.inr ⟨i, j, w, hi, hw, rfl⟩))
  · exact hb.mem q (hown.not_free hd hq)
  · exact hb.own.load_stores hne hr hpr ss hva
  · exact hb.own.load_stores hne.symm hpr hr ss hva

/-- One page is mapped at address 0 in a machine that had `n` pages for it. -/
def onePage (n : ℕ) : Kmem := (allocuvm tinyLayout 1 0 4096 ⟨fun _ _ => 0, range' 2 n⟩).2

def oneStack : Option Empty → Option ℕ := withTmp (fun _ => none) (some 16)

theorem own_onePage {n : ℕ} (hn : n ≤ 14)
    (hok : (allocuvm tinyLayout 1 0 4096 ⟨fun _ _ => 0, range' 2 n⟩).1.toOption = some 4096) :
    Own tinyLayout (onePage n) oneStack (fun _ : Unit => some 1) ∧
      ∀ i j, vaOf i j < 4096 → entryOf (onePage n) 1 i j ≠ none := by
  have hall : Own tinyLayout ⟨fun _ _ => 0, range' 2 14⟩ oneStack fun _ : Unit => some 1 := by
    have h := ((own_fresh (ι := Empty) (δ := Unit) tinyLayout (fun _ _ => 0) (16 :: range' 1 15)
      (by decide) (by decide)).kalloc (p := 16) rfl).kalloc (p := 1)
        (show _ = 1 :: range' 2 14 from rfl)
    have hr : Function.update (fun _ : Unit => (none : Option ℕ)) () (some 1) = fun _ => some 1 := by
      funext u
      simp
    have h' := h.addRoot (d := ()) rfl fun _ => rfl
    rwa [hr] at h'
  have hown : Own tinyLayout ⟨fun _ _ => 0, range' 2 n⟩ oneStack fun _ : Unit => some 1 := by
    refine hall.of_le (fun x p hx => ?_) (List.nodup_range' ..) fun d r i t j _ ht => ?_
    · cases x with
      | free q =>
        simp only [holds, List.mem_range'_1, Option.ite_none_right_eq_some] at hx ⊢
        exact ⟨by omega, hx.2⟩
      | item | dir | table | user => exact hx
    · simp [tableOf, present] at ht
  have hnone : ∀ i j, entryOf (⟨fun _ _ => 0, range' 2 n⟩ : Kmem) 1 i j = none := fun i j =>
    entryOf_of_none (by simp [tableOf, present])
  rcases allocuvm_run hown (d := ()) rfl (show 0 ≤ 4096 by decide) (by decide)
    fun i j _ _ => hnone i j with ⟨σ, hrun, hg⟩ | ⟨σ, hrun, _⟩
  · rw [onePage, hrun]
    refine ⟨hg.own.forget, fun i j hv => ?_⟩
    obtain ⟨p, hw, _⟩ := hg.new i j ⟨by simp [pgRoundUp, PGSIZE, WORD], hv⟩
    rw [hw]
    exact some_ne_none _
  · rw [hrun] at hok
    cases hok

/-- The copy of an address space of one page: page 5 has what page 2 has, with the same flags. -/
theorem copyuvm_separate_one : ∃ σ', copyuvm tinyLayout 1 4096 (onePage 14) = (.ok (some 4), σ') ∧
    ∃ w w', entryOf (onePage 14) 1 0 0 = some w ∧ entryOf σ' 4 0 0 = some w' ∧
      pteFlags w' = pteFlags w ∧ σ'.mem (pteAddr w') = (onePage 14).mem (pteAddr w) := by
  obtain ⟨hown, hpres⟩ := own_onePage (n := 14) le_rfl (by decide +kernel)
  have hok : (copyuvm tinyLayout 1 4096 (onePage 14)).1.toOption = some (some 4) := by
    decide +kernel
  rcases hrun : copyuvm tinyLayout 1 4096 (onePage 14) with ⟨e | o, σ'⟩
  · rw [hrun] at hok
    cases hok
  · rw [hrun] at hok
    cases hok
    exact ⟨σ', rfl, (copyuvm_separate tinyLayout _ _ () (onePage 14) σ' 1 4096 4 hown rfl (by decide)
      hpres hrun).1 0 0 (by decide)⟩

/-! ### A child is made, runs and is freed -/

theorem Built.store (h : Built L items roots σ0 none r σ) (s : ℕ × ℕ) :
    Built L items roots σ0 none r (Vm.store r σ s) := by
  obtain ⟨hown, hfree, hmem⟩ := h.own.store (d := none) rfl s
  have hap : ∀ i j w, i.val < 512 → entryOf σ r i j = some w → Apart σ r (pteAddr w) :=
    fun i j w hi hw => h.own.user_apart (d := none) rfl hi hw
  have hr : (Vm.store r σ s).mem r = σ.mem r := hmem r fun i j w hi hw ha =>
    (hap i j w hi hw).dir ha
  have hent : ∀ i j, entryOf (Vm.store r σ s) r i j = entryOf σ r i j := fun i j =>
    entryOf_congr hr fun t ht => hmem t fun i' j' w hi hw ha =>
      (hap i' j' w hi hw).table i (ha ▸ ht)
  refine ⟨hown, fun q => ?_, fun q hq => ?_⟩
  · simp only [h.free q, hfree, Belongs, hent, tableOf_congr hr]
  · rw [hmem q fun i j w hi hw ha => ?_, h.mem q hq]
    exact hq ((h.free q).mpr (.inr (.inr (.inr (.inr ⟨i, j, w, hi, hw, ha⟩)))))

theorem Built.stores (ss : List (ℕ × ℕ)) (h : Built L items roots σ0 none r σ) :
    Built L items roots σ0 none r (Vm.stores r σ ss) := by
  induction ss generalizing σ with
  | nil => exact h
  | cons s ss ih => exact ih (h.store s)

/-- The pages of a child come back when it is freed, whatever it has stored, and no other page has
  changed. -/
theorem child_leaves_no_trace {sz : ℕ} (h : Own L σ items roots) (hd : roots d = some pr)
    (hsz : sz ≤ KERNBASE) (hrun : copyuvm L pr sz σ = (.ok (some r), σ')) (ss : List (ℕ × ℕ)) :
    ∃ σ2, freevm L (some r) (stores r σ' ss) = (.ok (), σ2) ∧
      (∀ q, q ∈ σ2.freelist ↔ q ∈ σ.freelist) ∧ ∀ q, q ∉ σ.freelist → σ2.mem q = σ.mem q := by
  obtain ⟨ho, -⟩ | ⟨ho, -⟩ | ⟨_, ho, hb, -⟩ := copyuvm_returns h hd hsz hrun
  · cases ho
  · cases ho
  · cases ho
    obtain ⟨σ2, hf, hr⟩ := (hb.stores ss).freevm
    exact ⟨σ2, hf, fun q => by simp [hr.free q], hr.mem⟩

theorem child_leaves_no_trace_one : ∃ σ2, freevm tinyLayout (some 4) (stores 4
    (copyuvm tinyLayout 1 4096 (onePage 14)).2 [(8, 7)]) = (.ok (), σ2) ∧
      ∀ q, q ∈ σ2.freelist ↔ q ∈ (onePage 14).freelist := by
  obtain ⟨hown, -⟩ := own_onePage (n := 14) le_rfl (by decide +kernel)
  obtain ⟨σ2, hf, hfree, -⟩ := child_leaves_no_trace hown (d := ()) rfl (by decide)
    (show copyuvm tinyLayout 1 4096 (onePage 14) = (.ok (some 4), _) from
      Prod.ext (by decide +kernel) rfl) [(8, 7)]
  exact ⟨σ2, hf, hfree⟩

end Xv6.Vm

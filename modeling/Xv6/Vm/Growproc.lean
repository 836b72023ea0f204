import Xv6.Vm.Uvm

/-! @src proc.c, sysproc.c | part:sbrk | scheme:prog

  `growproc` changes the size of the current process. The size is unsigned and `n` is signed, and
  the size that `allocuvm` or `deallocuvm` returns is also the sign of an error when it is 0. So a
  process that gives up all its memory is told that nothing happened, one that gives up more that it
  succeeded.

      n > 0: allocuvm        0 < sz + n: exact
      n < 0: deallocuvm      sz + n = 0: unmapped, -1      sz + n < 0: nothing, 0 -/

namespace Xv6.Vm
open Schemes Prog

def newSize (sz : ℕ) (n : ℤ) : ℕ := ((sz + n) % WORD).toNat

/-- The returned size is an error if it is 0, and otherwise the new size of the process. -/
def resize (sz : ℕ) : K (Option ℕ) := pure (if sz = 0 then none else some sz)

/-- Grow the memory of a process of size `sz` by `n` bytes; `none` is -1, and the size is kept. -/
def growproc (L : Layout) (pgdir sz : ℕ) (n : ℤ) : K (Option ℕ) :=
  if n > 0 then allocuvm L pgdir sz (newSize sz n) >>= resize
  else if n < 0 then deallocuvm L pgdir sz (newSize sz n) >>= resize
  else pure (some sz)

/-- The user pages mapped are exactly those below the size, rounded up. -/
def Exactly (σ : Kmem) (r sz : ℕ) : Prop :=
  ∀ i j, i.val < 512 → ((∃ w, entryOf σ r i j = some w) ↔ vaOf i j < pgRoundUp sz)

/-- A page of the user part is mapped as before, with the same contents. -/
def Kept (σ σ' : Kmem) (r : ℕ) (i j : Fin 1024) : Prop :=
  entryOf σ' r i j = entryOf σ r i j ∧
    (i.val < 512 → ∀ w, entryOf σ r i j = some w → σ'.mem (pteAddr w) = σ.mem (pteAddr w))

def Outcome (σ σ' : Kmem) (r sz : ℕ) (n : ℤ) : Option ℕ → Prop
  | some m => (m : ℤ) = sz + n ∧ m < KERNBASE ∧ Exactly σ' r m ∧
      (∀ i j, vaOf i j < pgRoundUp sz ∧ vaOf i j < pgRoundUp m ∨ 512 ≤ i.val → Kept σ σ' r i j) ∧
      ∀ i j, pgRoundUp sz ≤ vaOf i j → vaOf i j < pgRoundUp m →
        ∃ w, entryOf σ' r i j = some w ∧ σ'.mem (pteAddr w) = fun _ => 0
  | none => ∀ i j, Kept σ σ' r i j

variable {ι δ : Type} {L : Layout} {items : ι → Option ℕ} {roots : δ → Option ℕ} {d : δ}
  {σ σ' : Kmem} {r sz m : ℕ} {n : ℤ}

theorem Exactly.none (h : Exactly σ r sz) {i j : Fin 1024} (hi : i.val < 512)
    (hv : pgRoundUp sz ≤ vaOf i j) : entryOf σ r i j = none := by
  by_contra hne
  obtain ⟨w, hw⟩ := Option.ne_none_iff_exists'.mp hne
  have := (h i j hi).mp ⟨w, hw⟩
  omega

theorem GaveUp.kept (hg : GaveUp L items roots r σ σ') (h : Own L σ items roots)
    (hd : roots d = some r) (i j : Fin 1024) : Kept σ σ' r i j :=
  ⟨hg.entry i j, fun hi _ hw => hg.ext.mem _ (h.user_apart hd hi hw)⟩

theorem Grown.outcome (hg : Grown L items roots r zeroed zeros (Range (pgRoundUp sz) m) none σ σ')
    (h : Own L σ items roots) (hd : roots d = some r) (hmap : Exactly σ r sz) (hle : sz ≤ m)
    (hk : m < KERNBASE) (hn : (m : ℤ) = sz + n) : Outcome σ σ' r sz n (some m) := by
  have hup : ∀ {i j}, vaOf i j < pgRoundUp m ↔ vaOf i j < m := vaOf_lt_pgRoundUp hk.le
  have hup' : ∀ {i j}, vaOf i j < pgRoundUp sz ↔ vaOf i j < sz := vaOf_lt_pgRoundUp (hle.trans hk.le)
  refine ⟨hn, hk, fun i j hi => ?_, fun i j hij => ⟨hg.old i j fun hp => ?_, fun hi w hw =>
    hg.mem _ (h.user_apart hd hi hw)⟩, fun i j hlo hhi => ?_⟩
  · rcases lt_or_ge (vaOf i j) (pgRoundUp sz) with hlt | hge
    · rw [hg.old i j fun hp => by omega, hmap i j hi, hup, hup']
      have := hup'.mp hlt
      omega
    · rw [hup]
      constructor
      · rintro ⟨w, hw⟩
        by_contra hno
        rw [hg.old i j fun hp => hno hp.2, hmap.none hi hge] at hw
        cases hw
      · intro hlt
        obtain ⟨p, hp, _⟩ := hg.new i j ⟨hge, hlt⟩
        exact ⟨_, hp⟩
  · rcases hij with ⟨hlt, _⟩ | hi
    · omega
    · exact absurd (vaOf_lt_kernbase.mp (hp.2.trans hk)) (by omega)
  · have hp : Range (pgRoundUp sz) m (vaOf i j) := ⟨hlo, hup.mp hhi⟩
    obtain ⟨p, hw, _, hc⟩ := hg.new i j hp
    exact ⟨_, hw, by rw [hg.pteAddr_new hp, hc]⟩

theorem Cleared.mem_kept {P : ℕ → Prop} (hcl : Cleared L items roots r P σ σ')
    (h : Own L σ items roots) (hd : roots d = some r) {i j : Fin 1024} {w : ℕ} (hi : i.val < 512)
    (hw : entryOf σ r i j = some w) (hP : ¬ P (vaOf i j)) (hu : ∀ i j, P (vaOf i j) → i.val < 512) :
    σ'.mem (pteAddr w) = σ.mem (pteAddr w) := by
  have hap := h.user_apart hd hi hw
  refine hcl.mem _ (fun hf => ?_) hap.dir hap.table
  rcases (hcl.free _).mp hf with hf | ⟨i', j', w', hp, hw', heq⟩
  · exact hap.free hf
  · have hsame := h.excl (.user d i j) (.user d i' j') (pteAddr w)
      (Option.bind_eq_some_iff.mpr ⟨r, hd, userOf_iff.mpr ⟨hi, w, hw, rfl⟩⟩)
      (Option.bind_eq_some_iff.mpr ⟨r, hd, userOf_iff.mpr ⟨hu i' j' hp, w', hw', heq⟩⟩)
    cases hsame
    exact hP hp

theorem Cleared.outcome (hcl : Cleared L items roots r (Range (pgRoundUp m) sz) σ σ')
    (h : Own L σ items roots) (hd : roots d = some r) (hmap : Exactly σ r sz) (hlt : m < sz)
    (hk : sz < KERNBASE) (hn : (m : ℤ) = sz + n) : Outcome σ σ' r sz n (some m) := by
  have hup : ∀ {i j}, vaOf i j < pgRoundUp m ↔ vaOf i j < m :=
    vaOf_lt_pgRoundUp (hlt.le.trans hk.le)
  have hup' : ∀ {i j}, vaOf i j < pgRoundUp sz ↔ vaOf i j < sz := vaOf_lt_pgRoundUp hk.le
  have hu : ∀ i j, Range (pgRoundUp m) sz (vaOf i j) → i.val < 512 := fun i j hp =>
    vaOf_lt_kernbase.mp (hp.2.trans hk)
  refine ⟨hn, hlt.trans hk, fun i j hi => ?_, fun i j hij => ?_, fun i j hlo hhi => ?_⟩
  · rcases lt_or_ge (vaOf i j) (pgRoundUp m) with hlow | hge
    · rw [hcl.entry_kept fun hp => by omega, hmap i j hi, hup, hup']
      have := hup.mp hlow
      omega
    · constructor
      · rintro ⟨w, hw⟩
        rcases lt_or_ge (vaOf i j) sz with hsz | hsz
        · rw [hcl.entry_gone ⟨hge, hsz⟩] at hw
          cases hw
        · rw [hcl.entry_kept fun hp => by omega] at hw
          exact absurd (hup'.mp ((hmap i j hi).mp ⟨w, hw⟩)) (by omega)
      · intro hx
        omega
  · have hP : ¬ Range (pgRoundUp m) sz (vaOf i j) := by
      rintro hp
      rcases hij with ⟨_, hlow⟩ | hi
      · have := hp.1
        omega
      · exact absurd (hu i j hp) (by omega)
    exact ⟨hcl.entry_kept hP, fun hi w hw => hcl.mem_kept h hd hi hw hP hu⟩
  · have h1 := hup.mp hhi
    have h2 := (not_congr hup').mp (not_lt.mpr hlo)
    omega

theorem outcome_same (hmap : Exactly σ r sz) (hk : sz < KERNBASE) :
    Outcome σ σ r sz 0 (some sz) :=
  ⟨by omega, hk, hmap, fun i j _ => ⟨rfl, fun _ _ _ => rfl⟩, fun i j hlo hhi => by omega⟩

theorem newSize_eq (hk : sz < KERNBASE) (hlo : -2 ^ 31 ≤ n) (hhi : n < 2 ^ 31) :
    (0 ≤ sz + n → (newSize sz n : ℤ) = sz + n) ∧ (sz + n < 0 → sz ≤ newSize sz n) := by
  simp only [newSize, WORD, KERNBASE] at *
  omega

/-- `sbrk` is exact or has no effect if and only if the size grows, stays positive or is 0 already. -/
theorem growproc_exact (h : Own L σ items roots) (hd : roots d = some r) (hk : sz < KERNBASE)
    (hmap : Exactly σ r sz) (hlo : -2 ^ 31 ≤ n) (hhi : n < 2 ^ 31) :
    ∃ res σ', growproc L r sz n σ = (.ok res, σ') ∧
      (Outcome σ σ' r sz n res ↔ 0 ≤ n ∨ 0 < sz + n ∨ sz = 0) := by
  obtain ⟨hpos, hneg⟩ := newSize_eq hk hlo hhi
  set m := newSize sz n with hm
  have hresize : ∀ {c : K ℕ} {s : ℕ} {σ' : Kmem}, c σ = (.ok s, σ') →
      (c >>= resize) σ = (.ok (if s = 0 then none else some s), σ') := fun hc => bind_of_ok hc
  rw [growproc, ← hm]
  rcases lt_trichotomy n 0 with hn | rfl | hn
  · rw [if_neg (by omega), if_pos hn]
    rcases lt_or_ge ((sz : ℤ) + n) 0 with hs | hs
    · -- more than there is: `deallocuvm` does nothing and returns the old size
      have hrun : deallocuvm L r sz m σ = (.ok sz, σ) := by
        rw [deallocuvm, if_pos (hneg hs)]
        rfl
      refine ⟨_, σ, hresize hrun, ?_⟩
      rcases eq_zero_or_pos sz with rfl | hsz
      · simp only [if_true]
        exact ⟨fun _ => .inr (.inr trivial), fun _ i j => ⟨rfl, fun _ _ _ => rfl⟩⟩
      · rw [if_neg (by omega)]
        exact ⟨fun ho => absurd ho.1 (by omega), fun hc => by omega⟩
    · have hmz := hpos hs
      obtain ⟨σ', hrun, hcl⟩ := deallocuvm_run h hd (show m < sz by omega) hk.le
      refine ⟨_, σ', hresize hrun, ?_⟩
      rcases eq_zero_or_pos m with hm0 | hm0
      · -- all of it: the first page is gone, and the answer is -1
        rw [if_pos hm0]
        have hva : vaOf 0 0 = 0 := rfl
        have hup := pgRoundUp_le hk.le
        refine ⟨fun ho => ?_, fun hc => by omega⟩
        obtain ⟨w, hw⟩ := (hmap 0 0 (by decide)).mpr (by rw [hva]; omega)
        have hgone := hcl.entry_gone (i := 0) (j := 0) ⟨by rw [hm0, hva]; decide, by rw [hva]; omega⟩
        rw [(ho 0 0).1, hw] at hgone
        cases hgone
      · rw [if_neg (by omega)]
        exact ⟨fun _ => by omega, fun _ => hcl.outcome h hd hmap (by omega) hk hmz⟩
  · exact ⟨some sz, σ, by simp, fun _ => by omega, fun _ => outcome_same hmap hk⟩
  · rw [if_pos hn]
    have hmz := hpos (by omega)
    rcases lt_or_ge m KERNBASE with hmk | hmk
    · rcases allocuvm_run h hd (by omega) hmk fun i j hi hv => hmap.none hi hv with
        ⟨σ', hrun, hg⟩ | ⟨σ', hrun, hg, _⟩
      · refine ⟨_, σ', hresize hrun, ?_⟩
        rw [if_neg (by omega)]
        exact ⟨fun _ => by omega, fun _ => hg.outcome h hd hmap (by omega) hmk hmz⟩
      · refine ⟨_, σ', hresize hrun, ?_⟩
        rw [if_pos rfl]
        exact ⟨fun _ => by omega, fun _ => hg.kept h hd⟩
    · have hrun : allocuvm L r sz m σ = (.ok 0, σ) := by
        rw [allocuvm, if_pos hmk]
        rfl
      refine ⟨_, σ, hresize hrun, ?_⟩
      rw [if_pos rfl]
      exact ⟨fun _ => by omega, fun _ i j => ⟨rfl, fun _ _ _ => rfl⟩⟩

/-! ### A process of one page -/

theorem exists_one_page : ∃ σ, Own tinyLayout σ (fun _ : Empty => none) (fun _ : Unit => some 1) ∧
    Exactly σ 1 4096 := by
  have hnone : ∀ i j, entryOf (⟨fun _ _ => 0, List.range' 2 15⟩ : Kmem) 1 i j = none := fun i j =>
    entryOf_of_none (by simp [tableOf, present])
  have hempty : Exactly ⟨fun _ _ => 0, List.range' 2 15⟩ 1 0 := fun i j _ => by
    simp [hnone, pgRoundUp, PGSIZE, WORD]
  have hok : (allocuvm tinyLayout 1 0 4096 ⟨fun _ _ => 0, List.range' 2 15⟩).1.toOption =
      some 4096 := by decide +kernel
  rcases allocuvm_run own_tiny (d := ()) rfl (show 0 ≤ 4096 by decide) (by decide)
    fun i j _ _ => hnone i j with ⟨σ, _, hg⟩ | ⟨σ, hrun, _⟩
  · exact ⟨σ, hg.own.forget, (hg.outcome own_tiny (d := ()) rfl hempty (n := 4096) (by decide)
      (by decide) (by decide)).2.2.1⟩
  · rw [hrun] at hok
    cases hok

/-- Growing by a page and giving half a page back are exact or have no effect. -/
theorem growproc_exact_one : ∃ σ, Exactly σ 1 4096 ∧
    (∃ res σ', growproc tinyLayout 1 4096 4096 σ = (.ok res, σ') ∧ Outcome σ σ' 1 4096 4096 res) ∧
    ∃ res σ', growproc tinyLayout 1 4096 (-2048) σ = (.ok res, σ') ∧
      Outcome σ σ' 1 4096 (-2048) res := by
  obtain ⟨σ, hown, hmap⟩ := exists_one_page
  obtain ⟨res, σ1, hrun, hiff⟩ := growproc_exact (n := 4096) hown (d := ()) rfl (by decide) hmap
    (by decide) (by decide)
  obtain ⟨res', σ2, hrun', hiff'⟩ := growproc_exact (n := -2048) hown (d := ()) rfl (by decide) hmap
    (by decide) (by decide)
  exact ⟨σ, hmap, ⟨res, σ1, hrun, hiff.mpr (by decide)⟩, res', σ2, hrun', hiff'.mpr (by decide)⟩

/-- `sbrk(-4096)` in a process of 4096 bytes returns -1 and has unmapped the page; `sbrk(-8192)`
  there succeeds and does nothing. -/
theorem growproc_inexact : ∃ σ, Own tinyLayout σ (fun _ : Empty => none) (fun _ : Unit => some 1) ∧
    Exactly σ 1 4096 ∧
    (∃ σ', growproc tinyLayout 1 4096 (-4096) σ = (.ok none, σ') ∧
      (∃ w, entryOf σ 1 0 0 = some w) ∧ entryOf σ' 1 0 0 = none) ∧
    growproc tinyLayout 1 4096 (-8192) σ = (.ok (some 4096), σ) := by
  obtain ⟨σ, hown, hmap⟩ := exists_one_page
  have hsize : newSize 4096 (-4096) = 0 ∧ newSize 4096 (-8192) = 2 ^ 32 - 4096 := by decide
  refine ⟨σ, hown, hmap, ?_, ?_⟩
  · obtain ⟨σ', hrun, hcl⟩ := deallocuvm_run hown (d := ()) rfl (show 0 < 4096 by decide)
      (by decide)
    refine ⟨σ', ?_, (hmap 0 0 (by decide)).mpr (by decide), hcl.entry_gone (by decide)⟩
    rw [growproc, if_neg (by decide), if_pos (by decide), hsize.1, bind_of_ok hrun]
    rfl
  · have hrun : deallocuvm tinyLayout 1 4096 (2 ^ 32 - 4096) σ = (.ok 4096, σ) := by
      rw [deallocuvm, if_pos (by decide)]
      rfl
    rw [growproc, if_neg (by decide), if_pos (by decide), hsize.2, bind_of_ok hrun]
    rfl

end Xv6.Vm

import Mathlib.Data.List.GetD
import Xv6.Vm.Copy

/-! @src vm.c | part:copyout | scheme:prog, exclusive

  `copyout` writes a buffer at a user address, page by page. The pages are seen as bytes here, four
  to a word, least significant first. The addresses of the buffer may wrap at the end of the 32-bit
  space. -/

namespace Xv6.Vm
open List
open Schemes Prog
open Option (bind_eq_some_iff map_some some)
open Nat (mod_lt)

/-! ### Bytes of a page -/

def byteOf (c : Page) (k : ℕ) : ℕ := c ⟨k / 4 % 1024, wordIdx_lt k⟩ / 256 ^ (k % 4) % 256

def packWord (f : ℕ → ℕ) : ℕ := f 0 + 256 * f 1 + 65536 * f 2 + 16777216 * f 3

def packPage (g : ℕ → ℕ) : Page := fun j => packWord fun m => g (4 * j.val + m)

def moved (g : ℕ → ℕ) (o : ℕ) (bs : List ℕ) (k : ℕ) : ℕ :=
  if o ≤ k ∧ k < o + bs.length then bs.getD (k - o) 0 else g k

def memmove (c : Page) (o : ℕ) (bs : List ℕ) : Page := packPage (moved (byteOf c) o bs)

theorem byteOf_lt (c : Page) (k : ℕ) : byteOf c k < 256 := mod_lt _ (by decide)

theorem byteOf_packPage {g : ℕ → ℕ} (hg : ∀ k, g k < 256) {k : ℕ} (hk : k < 4096) :
    byteOf (packPage g) k = g k := by
  have hsplit : 4 * (k / 4) + k % 4 = k := Nat.div_add_mod k 4
  have hj : k / 4 % 1024 = k / 4 := Nat.mod_eq_of_lt (by omega)
  have h0 := hg (4 * (k / 4))
  have h1 := hg (4 * (k / 4) + 1)
  have h2 := hg (4 * (k / 4) + 2)
  have h3 := hg (4 * (k / 4) + 3)
  have hm : k % 4 < 4 := mod_lt _ (by decide)
  conv_rhs => rw [← hsplit]
  simp only [byteOf, packPage, packWord, hj, Nat.add_zero]
  generalize k % 4 = m at hm
  interval_cases m <;> norm_num <;> omega

variable {bs : List ℕ} {w : ℕ}

theorem getD_lt (hb : ∀ b ∈ bs, b < 256) (k : ℕ) : bs.getD k 0 < 256 := by
  rcases lt_or_ge k bs.length with hk | hk
  · rw [getD_eq_getElem _ _ hk]
    exact hb _ (getElem_mem hk)
  · rw [getD_eq_default _ _ hk]
    decide

theorem moved_lt {g : ℕ → ℕ} (hg : ∀ k, g k < 256) (hb : ∀ b ∈ bs, b < 256) (o k : ℕ) :
    moved g o bs k < 256 := by
  unfold moved
  split_ifs
  · exact getD_lt hb _
  · exact hg k

theorem byteOf_memmove (c : Page) (o : ℕ) (hb : ∀ b ∈ bs, b < 256) {k : ℕ} (hk : k < 4096)
    : byteOf (memmove c o bs) k = moved (byteOf c) o bs k :=
  byteOf_packPage (fun k => moved_lt (byteOf_lt c) hb o k) hk

/-! ### The code -/

/-- The entry is read through the pointer that `walkpgdir` gave, null or not. -/
def uva2kaEntry : Option (ℕ × Fin 1024) → K (Option ℕ)
  | none => stop .fault
  | some (pgtab, j) => do
    let s ← get
    if present (s.mem pgtab j) then
      if userBit (s.mem pgtab j) then pure (some (pteAddr (s.mem pgtab j))) else pure none
    else pure none

/-- The frame behind a user address. -/
def uva2ka (pgdir uva : ℕ) : K (Option ℕ) := walkpgdir pgdir uva false >>= uva2kaEntry

/-- One turn of the loop of `copyout` with the page that `uva2ka` found, and what comes after it. -/
def copyoutPage (va : ℕ) (buf : List ℕ) (next : ℕ → List ℕ → K Bool) : Option ℕ → K Bool
  | none => pure false
  | some pa0 => do
    let n := min (PGSIZE - va % PGSIZE) buf.length
    modify fun σ => σ.fill pa0 (memmove (σ.mem pa0) (va % PGSIZE) (buf.take n))
    next ((pgRoundDown va + PGSIZE) % WORD) (buf.drop n)

def copyoutFrom (pgdir : ℕ) : ℕ → ℕ → List ℕ → K Bool
  | 0, _, _ => pure true
  | _ + 1, _, [] => pure true
  | n + 1, va, b :: buf =>
    uva2ka pgdir (pgRoundDown va) >>= copyoutPage va (b :: buf) (copyoutFrom pgdir n)

/-- Copy bytes to a user address. -/
def copyout (pgdir va : ℕ) (buf : List ℕ) : K Bool := copyoutFrom pgdir buf.length va buf

/-! ### What it does -/

variable {ι δ : Type} {L : Layout} {items : ι → Option ℕ} {roots : δ → Option ℕ} {d : δ}
  {σ σ0 σ1 σ' : Kmem} {r a b va len : ℕ} {buf : List ℕ}

def Accessible (σ : Kmem) (r a : ℕ) : Prop :=
  ∃ w, entryOf σ r (pdx a) (ptx a) = some w ∧ userBit w = true

def userByte (σ : Kmem) (r a : ℕ) : Option ℕ :=
  (entryOf σ r (pdx a) (ptx a)).map fun w => byteOf (σ.mem (pteAddr w)) (a % PGSIZE)

/-- As long as the pages before it are accessible, a page of the range has a page table. -/
def Walkable (σ : Kmem) (r va len : ℕ) : Prop :=
  ∀ k < len, (∀ k' < k, Accessible σ r ((va + k') % WORD)) →
    tableOf σ r (pdx ((va + k) % WORD)) ≠ none

theorem same_page (h : a / PGSIZE = b / PGSIZE) : pdx a = pdx b ∧ ptx a = ptx b := by
  have hpdx : a / 2 ^ 22 = b / 2 ^ 22 := by simp only [PGSIZE] at h; omega
  refine ⟨?_, ?_⟩
  · simp only [pdx, hpdx]
  · simp only [ptx, show (2 : ℕ) ^ 12 = PGSIZE from rfl, h]

theorem Accessible.congr (h : a / PGSIZE = b / PGSIZE) : Accessible σ r a ↔ Accessible σ r b := by
  rw [Accessible, Accessible, (same_page h).1, (same_page h).2]

theorem Own.accessible_user (h : Own L σ items roots) (hd : roots d = some r)
    (ha : Accessible σ r a) : (pdx a).val < 512 := by
  obtain ⟨w, hw, hu⟩ := ha
  obtain ⟨t, ht, hp, rfl⟩ := entryOf_eq_some.mp hw
  by_contra hge
  exact Bool.false_ne_true ((h.kern d r _ t _ hd ht (by omega)).symm.trans hu)

/-- What has been written where: only accessible pages of `r` have changed. -/
structure Wrote (L : Layout) (items : ι → Option ℕ) (roots : δ → Option ℕ) (r : ℕ)
    (σ σ' : Kmem) : Prop where
  own : Own L σ' items roots
  freelist : σ'.freelist = σ.freelist
  entry : ∀ i j, entryOf σ' r i j = entryOf σ r i j
  table : ∀ i, tableOf σ' r i = tableOf σ r i
  mem : ∀ q, (∀ i j w, i.val < 512 → entryOf σ r i j = some w → userBit w = true → pteAddr w ≠ q) →
    σ'.mem q = σ.mem q

theorem Own.wrote_refl (h : Own L σ items roots) : Wrote L items roots r σ σ :=
  ⟨h, rfl, fun _ _ => rfl, fun _ => rfl, fun _ _ => rfl⟩

theorem Wrote.trans (h : Wrote L items roots r σ σ1) (h' : Wrote L items roots r σ1 σ') :
    Wrote L items roots r σ σ' where
  own := h'.own
  freelist := h'.freelist.trans h.freelist
  entry i j := (h'.entry i j).trans (h.entry i j)
  table i := (h'.table i).trans (h.table i)
  mem q hq := by
    rw [h'.mem q, h.mem q hq]
    intro i j w hi hw
    rw [h.entry] at hw
    exact hq i j w hi hw

theorem Wrote.accessible (h : Wrote L items roots r σ σ') : Accessible σ' r a ↔ Accessible σ r a := by
  simp only [Accessible, h.entry]

theorem Own.wrote_fill (h : Own L σ items roots) (hd : roots d = some r) {i j : Fin 1024}
    (hi : i.val < 512) (hw : entryOf σ r i j = some w) (hu : userBit w = true) (c : Page) :
    Wrote L items roots r σ (σ.fill (pteAddr w) c) := by
  have hap := h.user_apart hd hi hw
  have hx : holds σ items roots (.user d i j) = some (pteAddr w) :=
    bind_eq_some_iff.mpr ⟨r, hd, userOf_iff.mpr ⟨hi, w, hw, rfl⟩⟩
  have hmem : ∀ q, q ≠ pteAddr w → (σ.fill (pteAddr w) c).mem q = σ.mem q := fun q hq => by
    simp [Kmem.fill, hq]
  have hdir := hmem r (Ne.symm hap.dir)
  exact ⟨h.fill (h.inert hx (by simp) (by simp)) c, rfl,
    fun i' j' => entryOf_congr hdir fun t ht => hmem t (by rintro rfl; exact hap.table i' ht),
    fun i' => tableOf_congr hdir, fun q hq => hmem q (hq i j w hi hw hu).symm⟩

theorem Own.user_inj (h : Own L σ items roots) (hd : roots d = some r) {i j i' j' : Fin 1024}
    {w' : ℕ} (hi : i.val < 512) (hi' : i'.val < 512) (hw : entryOf σ r i j = some w)
    (hw' : entryOf σ r i' j' = some w') (heq : pteAddr w = pteAddr w') : i = i' ∧ j = j' := by
  have hx : holds σ items roots (.user d i j) = some (pteAddr w) :=
    bind_eq_some_iff.mpr ⟨r, hd, userOf_iff.mpr ⟨hi, w, hw, rfl⟩⟩
  have hx' : holds σ items roots (.user d i' j') = some (pteAddr w) :=
    bind_eq_some_iff.mpr ⟨r, hd, userOf_iff.mpr ⟨hi', w', hw', heq.symm⟩⟩
  simpa using h.excl _ _ _ hx hx'

/-- The distance from `va` to `a`, around the end of the address space. -/
def dist (va a : ℕ) : ℕ := (a + WORD - va) % WORD

def Holds (σ : Kmem) (r va : ℕ) (buf : List ℕ) (σ' : Kmem) : Prop :=
  ∀ a < KERNBASE, userByte σ' r a =
    if dist va a < buf.length then some (buf.getD (dist va a) 0) else userByte σ r a

theorem Holds.moved {img : ℕ → ℕ} {hi : ℕ} (h : Holds σ r va buf σ') (hk : hi ≤ KERNBASE)
    (hfit : va + buf.length ≤ KERNBASE) (hbyte : ∀ a < hi, userByte σ r a = some (img a)) :
    ∀ a < hi, userByte σ' r a = some (moved img va buf a) := by
  intro a ha
  have hiff : dist va a < buf.length ↔ va ≤ a ∧ a < va + buf.length := by
    simp only [dist, WORD, KERNBASE] at *
    omega
  rw [h a (by omega), Vm.moved]
  split_ifs with h₁ h₂ h₂
  · have hd : dist va a = a - va := by
      have := hiff.mp h₁
      simp only [dist, WORD, KERNBASE] at *
      omega
    rw [hd]
  · exact absurd (hiff.mp h₁) h₂
  · exact absurd (hiff.mpr h₂) h₁
  · exact hbyte a ha

theorem Own.holds_memmove (h : Own L σ items roots) (hd : roots d = some r) (hva : va < WORD)
    (hi : (pdx va).val < 512) (hw : entryOf σ r (pdx va) (ptx va) = some w)
    (hu : userBit w = true) (hb : ∀ x ∈ buf, x < 256) (hfit : va % PGSIZE + buf.length ≤ PGSIZE) :
    Holds σ r va buf (σ.fill (pteAddr w) (memmove (σ.mem (pteAddr w)) (va % PGSIZE) buf)) := by
  have hwr := h.wrote_fill hd hi hw hu (memmove (σ.mem (pteAddr w)) (va % PGSIZE) buf)
  intro a ha
  have haw : a < WORD := by simp only [WORD, KERNBASE] at *; omega
  rw [userByte, hwr.entry, userByte]
  rcases eq_or_ne (a / PGSIZE) (va / PGSIZE) with hpage | hpage
  · obtain ⟨h₁, h₂⟩ := same_page hpage
    have hlt : a % PGSIZE < 4096 := mod_lt _ (by decide)
    have hiff : dist va a < buf.length ↔
        va % PGSIZE ≤ a % PGSIZE ∧ a % PGSIZE < va % PGSIZE + buf.length := by
      simp only [dist, PGSIZE, WORD] at *
      omega
    have hidx : va % PGSIZE ≤ a % PGSIZE → dist va a = a % PGSIZE - va % PGSIZE := fun hle => by
      simp only [dist, PGSIZE, WORD] at *
      omega
    rw [h₁, h₂, hw, map_some, map_some]
    have hself : (σ.fill (pteAddr w) (memmove (σ.mem (pteAddr w)) (va % PGSIZE) buf)).mem (pteAddr w) =
        memmove (σ.mem (pteAddr w)) (va % PGSIZE) buf := by simp [Kmem.fill]
    rw [hself, byteOf_memmove _ _ hb hlt, moved]
    split_ifs with hc hc' hc'
    · rw [hidx hc.1]
    · exact absurd (hiff.mpr hc) hc'
    · exact absurd (hiff.mp hc') hc
    · rfl
  · rw [if_neg]
    · cases hwa : entryOf σ r (pdx a) (ptx a) with
      | none => rfl
      | some w' =>
        have hne : pteAddr w' ≠ pteAddr w := fun heq => by
          obtain ⟨h₁, h₂⟩ := h.user_inj hd (pdx_lt ha) hi hwa hw heq
          simp only [pdx, ptx, Fin.mk.injEq, PGSIZE, KERNBASE, WORD] at *
          omega
        simp [Kmem.fill, hne]
    · simp only [dist, PGSIZE, WORD] at *
      omega

theorem uva2ka_run (σ : Kmem) (r a : ℕ) (ht : tableOf σ r (pdx a) ≠ none) :
    (∃ w, entryOf σ r (pdx a) (ptx a) = some w ∧ userBit w = true ∧
      uva2ka r a σ = (.ok (some (pteAddr w)), σ)) ∨
    (¬ Accessible σ r a ∧ uva2ka r a σ = (.ok none, σ)) := by
  obtain ⟨t, ht⟩ := Option.ne_none_iff_exists'.mp ht
  have hrun : uva2ka r a σ = uva2kaEntry (some (t, ptx a)) σ := by
    rw [uva2ka, bind_of_ok (walkpgdir_false σ r a), ht]
    rfl
  rw [hrun, uva2kaEntry, bind_of_ok (get_apply σ)]
  have hent := entryOf_of_table (σ := σ) (r := r) (j := ptx a) ht
  cases hp : present (σ.mem t (ptx a)) with
  | false =>
    refine .inr ⟨?_, rfl⟩
    rintro ⟨w, hw, _⟩
    rw [hent, hp] at hw
    cases hw
  | true =>
    rw [hp, if_pos rfl] at hent
    cases hu : userBit (σ.mem t (ptx a)) with
    | false =>
      refine .inr ⟨?_, rfl⟩
      rintro ⟨w, hw, hw'⟩
      rw [hent, some.injEq] at hw
      rw [← hw, hu] at hw'
      cases hw'
    | true => exact .inl ⟨_, hent, hu, rfl⟩

theorem uva2ka_fault (ht : tableOf σ r (pdx a) = none) : uva2ka r a σ = (.error .fault, σ) := by
  rw [uva2ka, bind_of_ok (walkpgdir_false σ r a), ht]
  rfl

/-- How `copyout` ends: at the null pointer exactly where the range is not walkable, and otherwise
  with 0 exactly when all pages are accessible, and the bytes are then in their place. -/
def Ended (σ : Kmem) (r va : ℕ) (buf : List ℕ) (σ' : Kmem) : Except Stop Bool → Prop
  | .error e => e = .fault ∧ ¬ Walkable σ r va buf.length
  | .ok ok => Walkable σ r va buf.length ∧
      (ok = true ↔ ∀ k < buf.length, Accessible σ r ((va + k) % WORD)) ∧
      (ok = true → Holds σ r va buf σ')

theorem ended_nil (σ : Kmem) (r va : ℕ) : Ended σ r va [] σ (.ok true) :=
  ⟨fun _ hk => absurd hk (Nat.not_lt_zero _), by simp, fun _ a _ => by simp⟩

theorem copyoutFrom_run (hd : roots d = some r) : ∀ (n va : ℕ) (buf : List ℕ) (σ : Kmem),
    Own L σ items roots → va < WORD → buf.length ≤ n → buf.length < WORD → (∀ x ∈ buf, x < 256) →
      ∃ res σ', copyoutFrom r n va buf σ = (res, σ') ∧ Wrote L items roots r σ σ' ∧
        Ended σ r va buf σ' res
  | 0, va, buf, σ, h, _, hn, _, _ => by
    obtain rfl := length_eq_zero_iff.mp (Nat.le_zero.mp hn)
    exact ⟨_, σ, rfl, h.wrote_refl, ended_nil σ r va⟩
  | n + 1, va, [], σ, h, _, _, _, _ => ⟨_, σ, rfl, h.wrote_refl, ended_nil σ r va⟩
  | n + 1, va, b :: buf, σ, h, hva, hn, hlen, hb => by
    set all := b :: buf with hall
    have hpos : 0 < all.length := by simp [hall]
    have hround : pgRoundDown va / PGSIZE = va / PGSIZE := by
      simp only [pgRoundDown, PGSIZE]
      omega
    obtain ⟨hpdx, hptx⟩ := same_page hround
    have hva0 : (va + 0) % WORD = va := Nat.mod_eq_of_lt hva
    have hstep : copyoutFrom r (n + 1) va all σ =
        (uva2ka r (pgRoundDown va) >>= copyoutPage va all (copyoutFrom r n)) σ := rfl
    by_cases htab : tableOf σ r (pdx (pgRoundDown va)) = none
    · refine ⟨.error .fault, σ, ?_, h.wrote_refl, rfl, fun hwalk => ?_⟩
      · rw [hstep, bind_apply, uva2ka_fault htab]
      refine hwalk 0 hpos (fun k' hk' => absurd hk' (Nat.not_lt_zero k')) ?_
      rwa [hva0, ← hpdx]
    rcases uva2ka_run σ r _ htab with ⟨w, hw, hu, hrun⟩ | ⟨hacc, hrun⟩
    · rw [hpdx, hptx] at hw
      set m := min (PGSIZE - va % PGSIZE) all.length with hm
      set va' := (pgRoundDown va + PGSIZE) % WORD with hva'
      have hmpos : 0 < m := by simp only [PGSIZE] at hm; omega
      have hmle : m ≤ all.length := min_le_right _ _
      have hmfit : va % PGSIZE + m ≤ PGSIZE := by simp only [PGSIZE] at hm ⊢; omega
      have hacc : ∀ k < m, Accessible σ r ((va + k) % WORD) := fun k hk => by
        refine (Accessible.congr ?_).mpr ⟨w, hw, hu⟩
        simp only [PGSIZE, WORD] at *
        omega
      have hi := h.accessible_user hd ⟨w, hw, hu⟩
      have htake : (all.take m).length = m := by rw [length_take, min_eq_left hmle]
      have hdrop : (all.drop m).length = all.length - m := length_drop
      set σ1 := σ.fill (pteAddr w) (memmove (σ.mem (pteAddr w)) (va % PGSIZE) (all.take m))
      have hwr : Wrote L items roots r σ σ1 := h.wrote_fill hd hi hw hu _
      have hholds : Holds σ r va (all.take m) σ1 := h.holds_memmove hd hva hi hw hu
        (fun x hx => hb x (mem_of_mem_take hx)) (by rw [htake]; exact hmfit)
      -- where something is left to copy, it starts at the next page
      have hnext : ∀ k, m + k < all.length → (va' + k) % WORD = (va + (m + k)) % WORD := fun k hk => by
        simp only [hva', pgRoundDown, PGSIZE, WORD] at *
        omega
      have hrestacc : ∀ k, m ≤ k → k < all.length →
          (Accessible σ1 r ((va' + (k - m)) % WORD) ↔ Accessible σ r ((va + k) % WORD)) :=
        fun k hge hk => by rw [hwr.accessible, hnext _ (by omega), Nat.add_sub_cancel' hge]
      have hwalk : Walkable σ r va all.length ↔ Walkable σ1 r va' (all.drop m).length := by
        rw [hdrop]
        constructor
        · intro hx k hk hall'
          rw [hwr.table, hnext k (by omega)]
          refine hx (m + k) (by omega) fun k' hk' => ?_
          rcases lt_or_ge k' m with hlt | hge
          · exact hacc k' hlt
          · exact (hrestacc k' hge (by omega)).mp (hall' (k' - m) (by omega))
        · intro hx k hk hall'
          rcases lt_or_ge k m with hlt | hge
          · obtain ⟨_, hw', _⟩ := hacc k hlt
            obtain ⟨t, ht, _⟩ := entryOf_eq_some.mp hw'
            exact ht ▸ Option.some_ne_none t
          · have := hx (k - m) (by omega) fun k' hk' => by
              rw [← Nat.add_sub_cancel_left (n := m) (m := k')]
              exact (hrestacc (m + k') (by omega) (by omega)).mpr (hall' _ (by omega))
            rwa [hwr.table, hnext _ (by omega), Nat.add_sub_cancel' hge] at this
      obtain ⟨res, σ', hrest, hwr', hend⟩ := copyoutFrom_run hd n va' (all.drop m) σ1 hwr.own
        (mod_lt _ (by decide)) (by omega) (by omega) fun x hx => hb x (mem_of_mem_drop hx)
      refine ⟨res, σ', ?_, hwr.trans hwr', ?_⟩
      · rw [hstep, bind_of_ok hrun, copyoutPage, bind_of_ok (modify_apply _ _)]
        exact hrest
      cases res with
      | error e => exact ⟨hend.1, fun hx => hend.2 (hwalk.mp hx)⟩
      | ok ok =>
      obtain ⟨hrestwalk, hiff, hcopy⟩ := hend
      refine ⟨hwalk.mpr hrestwalk, ?_, fun hok a ha => ?_⟩
      · rw [hiff, hdrop]
        constructor
        · intro hx k hk
          rcases lt_or_ge k m with hlt | hge
          · exact hacc k hlt
          · exact (hrestacc k hge hk).mp (hx (k - m) (by omega))
        · intro hx k hk
          rw [hwr.accessible, hnext k (by omega)]
          exact hx (m + k) (by omega)
      · rw [hcopy hok a ha, hholds a ha, htake, hdrop]
        have haw : a < WORD := by simp only [WORD, KERNBASE] at *; omega
        rcases lt_or_ge m all.length with hmore | hdone
        · have hvm : va' = (va + m) % WORD := by
            have := hnext 0 (by omega)
            rw [Nat.add_zero, Nat.add_zero] at this
            rwa [Nat.mod_eq_of_lt (mod_lt _ (by decide))] at this
          have hdist : m ≤ dist va a → dist va' a = dist va a - m := fun hle => by
            simp only [hvm, dist, WORD] at *
            omega
          have hdist' : dist va a < m → all.length - m ≤ dist va' a := fun hlt => by
            simp only [hvm, dist, WORD] at *
            omega
          rcases lt_or_ge (dist va a) m with hlt | hge
          · rw [if_neg (by have := hdist' hlt; omega), if_pos hlt, if_pos (by omega)]
            simp [getD_eq_getElem?_getD, hlt]
          · rw [hdist hge, if_neg (Nat.not_lt.mpr hge)]
            by_cases hin : dist va a < all.length
            · rw [if_pos (by omega), if_pos hin]
              simp [getD_eq_getElem?_getD, Nat.add_sub_cancel' hge]
            · rw [if_neg (by omega), if_neg hin]
        · have hml : m = all.length := le_antisymm hmle hdone
          rw [if_neg (by omega), hml, take_length]
    · rw [Accessible.congr hround] at hacc
      refine ⟨.ok false, σ, ?_, h.wrote_refl, fun k hk hall' => ?_, ?_, fun hx => by cases hx⟩
      · rw [hstep, bind_of_ok hrun, copyoutPage, pure_apply]
      · rcases Nat.eq_zero_or_pos k with rfl | hkpos
        · rwa [hva0, ← hpdx]
        · exact absurd (hva0 ▸ hall' 0 hkpos) hacc
      · exact iff_of_false Bool.false_ne_true fun hx => hacc (hva0 ▸ hx 0 hpos)

theorem copyout_run (h : Own L σ items roots) (hd : roots d = some r) (hva : va < WORD)
    (hlen : buf.length < WORD) (hb : ∀ x ∈ buf, x < 256) (hwalk : Walkable σ r va buf.length) :
    ∃ ok σ', copyout r va buf σ = (.ok ok, σ') ∧ Wrote L items roots r σ σ' ∧
      (ok = true ↔ ∀ k < buf.length, Accessible σ r ((va + k) % WORD)) ∧
      (ok = true → Holds σ r va buf σ') := by
  obtain ⟨e | ok, σ', hrun, hwr, hend⟩ := copyoutFrom_run hd buf.length va buf σ h hva le_rfl hlen hb
  · exact absurd hwalk hend.2
  · exact ⟨ok, σ', hrun, hwr, hend.2⟩

/-- `copyout` changes only accessible pages. It returns exactly when the first page of the range that
  is not accessible, if there is one, has a page table, and else it dereferences the null pointer.
  It returns 0 exactly when all pages are accessible, and then it has written exactly those bytes. -/
theorem copyout_confined (L : Layout) (items : ι → Option ℕ) (roots : δ → Option ℕ) (σ : Kmem)
    (hown : Own L σ items roots) (d : δ) (r : ℕ) (hd : roots d = some r) (va : ℕ) (hva : va < 2 ^ 32)
    (buf : List ℕ) (hlen : buf.length < 2 ^ 32) (hb : ∀ x ∈ buf, x < 256) :
    ∃ res σ', copyout r va buf σ = (res, σ') ∧
      (∀ q, (∀ i j w, i.val < 512 → entryOf σ r i j = some w → userBit w = true → pteAddr w ≠ q) →
        σ'.mem q = σ.mem q) ∧
      (∀ i j, entryOf σ' r i j = entryOf σ r i j) ∧ σ'.freelist = σ.freelist ∧
      (res = .error .fault ↔ ¬ Walkable σ r va buf.length) ∧
      (Walkable σ r va buf.length → ∃ ok, res = .ok ok ∧
        (ok = true ↔ ∀ k < buf.length, Accessible σ r ((va + k) % WORD)) ∧
        (ok = true → ∀ a < KERNBASE, userByte σ' r a =
          if dist va a < buf.length then some (buf.getD (dist va a) 0) else userByte σ r a)) := by
  obtain ⟨res, σ', hrun, hwr, hend⟩ := copyoutFrom_run hd buf.length va buf σ hown hva le_rfl hlen hb
  refine ⟨res, σ', hrun, hwr.mem, hwr.entry, hwr.freelist, ?_⟩
  cases res with
  | error e =>
    obtain ⟨rfl, hwalk⟩ := hend
    exact ⟨iff_of_true rfl hwalk, fun hx => absurd hx hwalk⟩
  | ok ok => exact ⟨by simpa using hend.1, fun _ => ⟨ok, rfl, hend.2⟩⟩

/-- Two bytes are copied to the one page there is. -/
theorem copyout_confined_page : ∃ σ', copyout 1 0 [65, 66] (onePage 14) = (.ok true, σ') ∧
    userByte σ' 1 0 = some 65 ∧ userByte σ' 1 1 = some 66 := by
  have hok : (copyout 1 0 [65, 66] (onePage 14)).1.toOption = some true := by decide +kernel
  obtain ⟨hown, -⟩ := own_onePage (n := 14) le_rfl (by decide +kernel)
  obtain ⟨res, σ', hrun, _, _, _, hfault, hret⟩ := copyout_confined tinyLayout _ _ _ hown () 1 rfl 0
    (by decide) [65, 66] (by decide) (by decide)
  rw [hrun] at hok
  cases res with
  | error e => cases hok
  | ok ok =>
    obtain rfl : ok = true := some.inj hok
    have hwalk : Walkable (onePage 14) 1 0 [65, 66].length := by
      by_contra hno
      cases hfault.mpr hno
    obtain ⟨_, heq, _, hcopy⟩ := hret hwalk
    cases heq
    exact ⟨σ', hrun, (hcopy rfl 0 (by decide)).trans (by decide),
      (hcopy rfl 1 (by decide)).trans (by decide)⟩

/-- One byte to an address that has no page table: the null pointer is dereferenced. -/
theorem copyout_faults : (copyout 1 0 [65] ⟨fun _ _ => 0, range' 2 15⟩).1 = .error .fault ∧
    ¬ Accessible ⟨fun _ _ => 0, range' 2 15⟩ 1 0 := by
  refine ⟨rfl, ?_⟩
  rintro ⟨w, hw, _⟩
  rw [entryOf_of_none (by simp [tableOf, present])] at hw
  cases hw

end Xv6.Vm

import Xv6.Vm.Paging
import Xv6.Schemes.Exclusive

/-! @src vm.c, kalloc.c | part:who owns a page | scheme:exclusive

  The owners of pages: the free list, the items a caller keeps (kernel stacks, pipe buffers, local
  variables) and the address spaces, each with its page directory, its page tables and the pages
  mapped in its user part. `items` and `roots` say what the callers hold; the rest is read off the
  memory. Each change of hands is one lemma. -/

namespace Xv6.Vm
open Schemes
open Function
open Option (bind_eq_some_iff some)

def tableOf (σ : Kmem) (r : ℕ) (i : Fin 1024) : Option ℕ :=
  if present (σ.mem r i) then some (pteAddr (σ.mem r i)) else none

def userOf (σ : Kmem) (r : ℕ) (i j : Fin 1024) : Option ℕ :=
  (tableOf σ r i).bind fun t =>
    if i.val < 512 ∧ present (σ.mem t j) then some (pteAddr (σ.mem t j)) else none

inductive Holder (ι δ : Type) where
  | free (p : ℕ)
  | item (x : ι)
  | dir (d : δ)
  | table (d : δ) (i : Fin 1024)
  | user (d : δ) (i j : Fin 1024)

variable {ι δ : Type}

def holds (σ : Kmem) (items : ι → Option ℕ) (roots : δ → Option ℕ) : Holder ι δ → Option ℕ
  | .free p => if p ∈ σ.freelist then some p else none
  | .item x => items x
  | .dir d => roots d
  | .table d i => (roots d).bind fun r => tableOf σ r i
  | .user d i j => (roots d).bind fun r => userOf σ r i j

/-- No page is held twice, the pages held are those of the allocator, and the kernel part of an
  address space is closed to user code. -/
structure Own (L : Layout) (σ : Kmem) (items : ι → Option ℕ) (roots : δ → Option ℕ) : Prop where
  excl : Exclusive (holds σ items roots)
  nodup : σ.freelist.Nodup
  managed : ∀ x p, holds σ items roots x = some p → L.Managed p
  kern : ∀ d r i t j, roots d = some r → tableOf σ r i = some t → 512 ≤ i.val →
    userBit (σ.mem t j) = false

variable {L : Layout} {σ σ' : Kmem} {items items' : ι → Option ℕ} {roots roots' : δ → Option ℕ}

theorem Own.of_move {a b : Holder ι δ} {p : ℕ} (h : Own L σ items roots)
    (ha : holds σ items roots a = some p)
    (hm : ∀ x q, holds σ' items' roots' x = some q →
      (x = b ∧ q = p) ∨ (x ≠ a ∧ holds σ items roots x = some q))
    (hn : σ'.freelist.Nodup)
    (hk : ∀ d r i t j, roots' d = some r → tableOf σ' r i = some t → 512 ≤ i.val →
      userBit (σ'.mem t j) = false) : Own L σ' items' roots' := by
  refine ⟨h.excl.of_move ha hm, hn, fun x q hx => ?_, hk⟩
  rcases hm x q hx with ⟨_, rfl⟩ | ⟨_, hx⟩
  · exact h.managed a _ ha
  · exact h.managed x q hx

theorem Own.of_le (h : Own L σ items roots)
    (hm : ∀ x q, holds σ' items' roots' x = some q → holds σ items roots x = some q)
    (hn : σ'.freelist.Nodup)
    (hk : ∀ d r i t j, roots' d = some r → tableOf σ' r i = some t → 512 ≤ i.val →
      userBit (σ'.mem t j) = false) : Own L σ' items' roots' :=
  ⟨h.excl.of_le hm, hn, fun x q hx => h.managed x q (hm x q hx), hk⟩

/-! ### Pages that are not page tables -/

/-- The words of page `p` do not matter: it is no page directory and no page table. -/
structure Inert (σ : Kmem) (roots : δ → Option ℕ) (p : ℕ) : Prop where
  dir : ∀ d, roots d ≠ some p
  table : ∀ d r i, roots d = some r → tableOf σ r i ≠ some p

theorem Own.inert (h : Own L σ items roots) {x : Holder ι δ} {p : ℕ}
    (hx : holds σ items roots x = some p) (hd : ∀ d, x ≠ .dir d) (ht : ∀ d i, x ≠ .table d i) :
    Inert σ roots p :=
  ⟨fun d hr => hd d (h.excl x (.dir d) p hx hr),
    fun d r i hr hi => ht d i (h.excl x (.table d i) p hx (bind_eq_some_iff.mpr ⟨r, hr, hi⟩))⟩

def Kmem.fill (σ : Kmem) (p : ℕ) (c : Page) : Kmem := { σ with mem := update σ.mem p c }

theorem tableOf_fill {p r : ℕ} (hr : r ≠ p) (c : Page) (i : Fin 1024) :
    tableOf (σ.fill p c) r i = tableOf σ r i := by
  simp [tableOf, Kmem.fill, hr]

theorem userOf_fill {p r : ℕ} {i : Fin 1024} (hr : r ≠ p) (ht : tableOf σ r i ≠ some p) (c : Page)
    (j : Fin 1024) : userOf (σ.fill p c) r i j = userOf σ r i j := by
  unfold userOf
  rw [tableOf_fill hr]
  cases hx : tableOf σ r i with
  | none => rfl
  | some t =>
    have htp : t ≠ p := by rintro rfl; exact ht hx
    simp [Kmem.fill, htp]

theorem holds_fill {p : ℕ} (hp : Inert σ roots p) (c : Page) (x : Holder ι δ) :
    holds (σ.fill p c) items roots x = holds σ items roots x := by
  cases x with
  | free | item | dir => rfl
  | table d i =>
    show (roots d).bind _ = (roots d).bind _
    cases hd : roots d with
    | none => rfl
    | some r => exact tableOf_fill (by rintro rfl; exact hp.dir d hd) c i
  | user d i j =>
    show (roots d).bind _ = (roots d).bind _
    cases hd : roots d with
    | none => rfl
    | some r => exact userOf_fill (by rintro rfl; exact hp.dir d hd) (hp.table d r i hd) c j

theorem Own.fill (h : Own L σ items roots) {p : ℕ} (hp : Inert σ roots p) (c : Page) :
    Own L (σ.fill p c) items roots := by
  refine h.of_le (fun x q hx => ?_) h.nodup fun d r i t j hd ht hi => ?_
  · rwa [holds_fill hp] at hx
  · have hrp : r ≠ p := by rintro rfl; exact hp.dir d hd
    rw [tableOf_fill hrp] at ht
    have htp : t ≠ p := by rintro rfl; exact hp.table d r i hd ht
    simpa [Kmem.fill, htp] using h.kern d r i t j hd ht hi

/-! ### Items -/

def withTmp (items : ι → Option ℕ) (tmp : Option ℕ) : Option ι → Option ℕ
  | none => tmp
  | some x => items x

inductive Holder.Same {κ : Type} (R : κ → ι → Prop) : Holder κ δ → Holder ι δ → Prop
  | free (p : ℕ) : Holder.Same R (.free p) (.free p)
  | item {x : κ} {y : ι} (h : R x y) : Holder.Same R (.item x) (.item y)
  | dir (d : δ) : Holder.Same R (.dir d) (.dir d)
  | table (d : δ) (i : Fin 1024) : Holder.Same R (.table d i) (.table d i)
  | user (d : δ) (i j : Fin 1024) : Holder.Same R (.user d i j) (.user d i j)

theorem Own.rename {κ : Type} {items' : κ → Option ℕ} (h : Own L σ items roots)
    (R : κ → ι → Prop) (hR : ∀ x x' y, R x y → R x' y → x = x')
    (hf : ∀ x p, items' x = some p → ∃ y, R x y ∧ items y = some p) : Own L σ items' roots := by
  have hold : ∀ x p, holds σ items' roots x = some p →
      ∃ y, Holder.Same R x y ∧ holds σ items roots y = some p := fun x p hx => by
    cases x with
    | free q => exact ⟨_, .free q, hx⟩
    | item x =>
      obtain ⟨y, hxy, hy⟩ := hf x p hx
      exact ⟨_, .item hxy, hy⟩
    | dir d => exact ⟨_, .dir d, hx⟩
    | table d i => exact ⟨_, .table d i, hx⟩
    | user d i j => exact ⟨_, .user d i j, hx⟩
  refine ⟨h.excl.of_rel (Holder.Same R) (fun x x' y hxy hx'y => ?_) hold, h.nodup,
    fun x p hx => ?_, h.kern⟩
  · cases hxy with
    | item hxy => cases hx'y with | item hx'y => rw [hR _ _ _ hxy hx'y]
    | free | dir | table | user => cases hx'y; rfl
  · obtain ⟨y, _, hy⟩ := hold x p hx
    exact h.managed y p hy

theorem Own.tmp (h : Own L σ items roots) : Own L σ (withTmp items none) roots := by
  refine h.rename (fun x y => x = some y) (fun x x' y hx hx' => hx.trans hx'.symm) fun x p hx => ?_
  cases x with
  | none => cases hx
  | some x => exact ⟨x, rfl, hx⟩

theorem Own.forget {o : Option ℕ} (h : Own L σ (withTmp items o) roots) : Own L σ items roots :=
  h.rename (fun x y => y = some x) (fun _ _ _ hx hx' => some.inj (hx.symm.trans hx'))
    fun x _ hx => ⟨some x, rfl, hx⟩

/-! ### The allocator -/

theorem Own.kalloc (h : Own L σ items roots) {p : ℕ} {fl : List ℕ} (hf : σ.freelist = p :: fl) :
    Own L { σ with freelist := fl } (withTmp items (some p)) roots := by
  have hnd := h.nodup
  rw [hf, List.nodup_cons] at hnd
  refine h.tmp.of_move (a := .free p) (b := .item none) (p := p) (by simp [holds, hf])
    (fun x q hx => ?_) hnd.2 h.kern
  cases x with
  | free r =>
    simp only [holds, Option.ite_none_right_eq_some, some.injEq] at hx ⊢
    obtain ⟨hr, rfl⟩ := hx
    refine .inr ⟨?_, by rw [hf]; exact List.mem_cons_of_mem _ hr, rfl⟩
    rintro ⟨⟩
    exact hnd.1 hr
  | item x =>
    cases x with
    | none => exact .inl ⟨rfl, (some.inj hx).symm⟩
    | some x => exact .inr ⟨by simp, hx⟩
  | dir | table | user => exact .inr ⟨by simp, hx⟩

theorem Own.kfree {p : ℕ} (h : Own L σ (withTmp items (some p)) roots) (c : Page) :
    Own L { σ.fill p c with freelist := p :: σ.freelist } items roots := by
  have hp : holds σ (withTmp items (some p)) roots (.item none) = some p := rfl
  have hnot : p ∉ σ.freelist := fun hm => by
    have := h.excl (.item none) (.free p) p hp (by simp [holds, hm])
    cases this
  have hfill := h.fill (h.inert hp (by simp) (by simp)) c
  refine Own.forget (o := none) (hfill.of_move (a := .item none) (b := .free p) hp
    (fun x q hx => ?_) (List.nodup_cons.mpr ⟨hnot, h.nodup⟩) hfill.kern)
  cases x with
  | free r =>
    simp only [holds, List.mem_cons, Option.ite_none_right_eq_some, some.injEq] at hx ⊢
    obtain ⟨hr, rfl⟩ := hx
    rcases hr with rfl | hr
    · exact .inl ⟨rfl, rfl⟩
    · exact .inr ⟨by simp, hr, rfl⟩
  | item x =>
    cases x with
    | none => cases hx
    | some x => exact .inr ⟨by simp, hx⟩
  | dir | table | user => exact .inr ⟨by simp, hx⟩

/-! ### Page tables -/

section Tables

variable {d : δ} {r t p w : ℕ} {i j : Fin 1024}

def Kmem.write (σ : Kmem) (t : ℕ) (j : Fin 1024) (w : ℕ) : Kmem :=
  σ.fill t (update (σ.mem t) j w)

theorem write_mem_of_ne {t' : ℕ} (h : t' ≠ t) : (σ.write t j w).mem t' = σ.mem t' := by
  simp [Kmem.write, Kmem.fill, h]

theorem write_mem_self : (σ.write t j w).mem t = update (σ.mem t) j w := by
  simp [Kmem.write, Kmem.fill]

theorem tableOf_congr {r : ℕ} (h : σ'.mem r = σ.mem r) : tableOf σ' r i = tableOf σ r i := by
  unfold tableOf
  rw [h]

theorem userOf_eq_some {q : ℕ} : userOf σ r i j = some q ↔
    ∃ t, tableOf σ r i = some t ∧ i.val < 512 ∧ present (σ.mem t j) = true ∧
      pteAddr (σ.mem t j) = q := by
  unfold userOf
  rw [bind_eq_some_iff]
  simp only [Option.ite_none_right_eq_some, some.injEq, and_assoc]

variable {d' : δ} {r' : ℕ}

theorem Own.dir_inj (h : Own L σ items roots) (hd : roots d = some r) (hd' : roots d' = some r)
    : d' = d := by
  have := h.excl (.dir d') (.dir d) r hd' hd
  simpa using this

theorem Own.table_inj (h : Own L σ items roots) {i' : Fin 1024} (hd : roots d = some r)
    (ht : tableOf σ r i = some t) (hd' : roots d' = some r') (ht' : tableOf σ r' i' = some t)
    : d' = d ∧ i' = i := by
  have := h.excl (.table d' i') (.table d i) t (bind_eq_some_iff.mpr ⟨r', hd', ht'⟩)
    (bind_eq_some_iff.mpr ⟨r, hd, ht⟩)
  simpa using this

theorem Own.table_ne_dir (h : Own L σ items roots) (hd : roots d = some r)
    (ht : tableOf σ r i = some t) (hd' : roots d' = some r') : r' ≠ t := by
  rintro rfl
  have := h.excl (.table d i) (.dir d') r' (bind_eq_some_iff.mpr ⟨r, hd, ht⟩) hd'
  cases this

theorem Own.addTable (h : Own L σ (withTmp items (some p)) roots) (hd : roots d = some r)
    (hi : tableOf σ r i = none) (hz : ∀ j, σ.mem p j = 0) (hw : present w = true)
    (hp : pteAddr w = p) : Own L (σ.write r i w) items roots := by
  have hitem : holds σ (withTmp items (some p)) roots (.item none) = some p := rfl
  have hin := h.inert hitem (by simp) (by simp)
  have hpr : p ≠ r := by rintro rfl; exact hin.dir d hd
  have hself : tableOf (σ.write r i w) r i = some p := by
    simp [tableOf, write_mem_self, hw, hp]
  have hother : ∀ i', i' ≠ i → tableOf (σ.write r i w) r i' = tableOf σ r i' := fun i' hi' => by
    simp [tableOf, write_mem_self, hi']
  -- what a table of the new memory is
  have htab : ∀ {d' r' i' t'}, roots d' = some r' → tableOf (σ.write r i w) r' i' = some t' →
      (d' = d ∧ i' = i ∧ t' = p) ∨ (tableOf σ r' i' = some t' ∧ t' ≠ p ∧ t' ≠ r) := by
    intro d' r' i' t' hd' ht'
    have hold : tableOf σ r' i' = some t' → tableOf σ r' i' = some t' ∧ t' ≠ p ∧ t' ≠ r := fun ht =>
      ⟨ht, by rintro rfl; exact hin.table d' r' i' hd' ht,
        fun hx => h.table_ne_dir hd' ht hd hx.symm⟩
    rcases eq_or_ne r' r with rfl | hr
    · rcases eq_or_ne i' i with rfl | hi'
      · rw [hself, some.injEq] at ht'
        exact .inl ⟨h.dir_inj hd hd', rfl, ht'.symm⟩
      · rw [hother i' hi'] at ht'
        exact .inr (hold ht')
    · rw [tableOf_congr (write_mem_of_ne hr)] at ht'
      exact .inr (hold ht')
  refine Own.forget (o := none) (h.of_move (a := .item none) (b := .table d i) hitem
    (fun x q hx => ?_) h.nodup fun d' r' i' t' j' hd' ht' hi' => ?_)
  · cases x with
    | free | dir => exact .inr ⟨by simp, hx⟩
    | item x =>
      cases x with
      | none => cases hx
      | some x => exact .inr ⟨by simp, hx⟩
    | table d' i' =>
      obtain ⟨r', hd', ht'⟩ := bind_eq_some_iff.mp hx
      rcases htab hd' ht' with ⟨rfl, rfl, rfl⟩ | ⟨ht, _, _⟩
      · exact .inl ⟨rfl, rfl⟩
      · exact .inr ⟨by simp, bind_eq_some_iff.mpr ⟨r', hd', ht⟩⟩
    | user d' i' j' =>
      obtain ⟨r', hd', hu⟩ := bind_eq_some_iff.mp hx
      obtain ⟨t', ht', hlt, hpres, hq⟩ := userOf_eq_some.mp hu
      rcases htab hd' ht' with ⟨rfl, rfl, rfl⟩ | ⟨ht, _, htr⟩
      · -- the new table is empty
        rw [write_mem_of_ne hpr, hz] at hpres
        cases hpres
      · rw [write_mem_of_ne htr] at hpres hq
        exact .inr ⟨by simp, bind_eq_some_iff.mpr
          ⟨r', hd', userOf_eq_some.mpr ⟨t', ht, hlt, hpres, hq⟩⟩⟩
  · rcases htab hd' ht' with ⟨rfl, rfl, rfl⟩ | ⟨ht, _, htr⟩
    · rw [write_mem_of_ne hpr, hz]; rfl
    · rw [write_mem_of_ne htr]
      exact h.kern d' r' i' t' j' hd' ht hi'

theorem Own.tableOf_write (h : Own L σ items roots) (hd : roots d = some r)
    (ht : tableOf σ r i = some t) (hd' : roots d' = some r') (i' : Fin 1024) :
    tableOf (σ.write t j w) r' i' = tableOf σ r' i' :=
  tableOf_congr (write_mem_of_ne (h.table_ne_dir hd ht hd'))

theorem Own.userOf_write (h : Own L σ items roots) (hd : roots d = some r)
    (ht : tableOf σ r i = some t) {q : ℕ} {i' j' : Fin 1024} (hd' : roots d' = some r')
    (hu : userOf (σ.write t j w) r' i' j' = some q) :
    ((d' = d ∧ i' = i ∧ j' = j) ∧ i.val < 512 ∧ present w = true ∧ pteAddr w = q) ∨
      (¬ (d' = d ∧ i' = i ∧ j' = j) ∧ userOf σ r' i' j' = some q) := by
  obtain ⟨t', ht', hlt, hpres, hq⟩ := userOf_eq_some.mp hu
  rw [h.tableOf_write hd ht hd'] at ht'
  rcases eq_or_ne t' t with rfl | htt
  · obtain ⟨rfl, rfl⟩ := h.table_inj hd ht hd' ht'
    rw [write_mem_self] at hpres hq
    rcases eq_or_ne j' j with rfl | hj
    · rw [update_self] at hpres hq
      exact .inl ⟨⟨rfl, rfl, rfl⟩, hlt, hpres, hq⟩
    · rw [update_of_ne hj] at hpres hq
      exact .inr ⟨by simp [hj], userOf_eq_some.mpr ⟨t', ht', hlt, hpres, hq⟩⟩
  · rw [write_mem_of_ne htt] at hpres hq
    refine .inr ⟨?_, userOf_eq_some.mpr ⟨t', ht', hlt, hpres, hq⟩⟩
    rintro ⟨rfl, rfl, rfl⟩
    rw [hd', some.injEq] at hd
    rw [hd, ht, some.injEq] at ht'
    exact htt ht'.symm

theorem Own.kern_write (h : Own L σ items roots) (hd : roots d = some r)
    (ht : tableOf σ r i = some t) (hw : i.val < 512 ∨ userBit w = false) (d' : δ) (r' : ℕ)
    (i' : Fin 1024) (t' : ℕ) (j' : Fin 1024) (hd' : roots d' = some r')
    (ht' : tableOf (σ.write t j w) r' i' = some t') (hi' : 512 ≤ i'.val) :
    userBit ((σ.write t j w).mem t' j') = false := by
  rw [h.tableOf_write hd ht hd'] at ht'
  rcases eq_or_ne t' t with rfl | htt
  · obtain ⟨rfl, rfl⟩ := h.table_inj hd ht hd' ht'
    rw [write_mem_self]
    rcases eq_or_ne j' j with rfl | hj
    · rw [update_self]
      exact hw.resolve_left (by omega)
    · rw [update_of_ne hj]
      exact h.kern d' r' i' t' j' hd' ht' hi'
  · rw [write_mem_of_ne htt]
    exact h.kern d' r' i' t' j' hd' ht' hi'

theorem Own.mapUser (h : Own L σ (withTmp items (some p)) roots) (hd : roots d = some r)
    (ht : tableOf σ r i = some t) (hi : i.val < 512) (hp : pteAddr w = p) :
    Own L (σ.write t j w) items roots := by
  have hitem : holds σ (withTmp items (some p)) roots (.item none) = some p := rfl
  refine Own.forget (o := none) (h.of_move (a := .item none) (b := .user d i j) hitem
    (fun x q hx => ?_) h.nodup (h.kern_write hd ht (.inl hi)))
  cases x with
  | free | dir => exact .inr ⟨by simp, hx⟩
  | item x =>
    cases x with
    | none => cases hx
    | some x => exact .inr ⟨by simp, hx⟩
  | table d' i' =>
    obtain ⟨r', hd', ht'⟩ := bind_eq_some_iff.mp hx
    rw [h.tableOf_write hd ht hd'] at ht'
    exact .inr ⟨by simp, bind_eq_some_iff.mpr ⟨r', hd', ht'⟩⟩
  | user d' i' j' =>
    obtain ⟨r', hd', hu⟩ := bind_eq_some_iff.mp hx
    rcases h.userOf_write hd ht hd' hu with ⟨⟨rfl, rfl, rfl⟩, _, _, hq⟩ | ⟨_, hold⟩
    · exact .inl ⟨rfl, hq.symm.trans hp⟩
    · exact .inr ⟨by simp, bind_eq_some_iff.mpr ⟨r', hd', hold⟩⟩

theorem Own.rewrite (h : Own L σ items roots) (hd : roots d = some r)
    (ht : tableOf σ r i = some t) (hw : i.val < 512 ∨ userBit w = false)
    (hold : i.val < 512 → present w = true → present (σ.mem t j) = true ∧
      pteAddr w = pteAddr (σ.mem t j)) : Own L (σ.write t j w) items roots := by
  refine h.of_le (fun x q hx => ?_) h.nodup (h.kern_write hd ht hw)
  cases x with
  | free | item | dir => exact hx
  | table d' i' =>
    obtain ⟨r', hd', ht'⟩ := bind_eq_some_iff.mp hx
    rw [h.tableOf_write hd ht hd'] at ht'
    exact bind_eq_some_iff.mpr ⟨r', hd', ht'⟩
  | user d' i' j' =>
    obtain ⟨r', hd', hu⟩ := bind_eq_some_iff.mp hx
    refine bind_eq_some_iff.mpr ⟨r', hd', ?_⟩
    rcases h.userOf_write hd ht hd' hu with ⟨⟨rfl, rfl, rfl⟩, hlt, hp, hq⟩ | ⟨_, hold'⟩
    · obtain ⟨hp', ha⟩ := hold hlt hp
      rw [hd, some.injEq] at hd'
      subst hd'
      exact userOf_eq_some.mpr ⟨t, ht, hlt, hp', ha.symm.trans hq⟩
    · exact hold'

theorem Own.unmap (h : Own L σ items roots) (hd : roots d = some r) (ht : tableOf σ r i = some t)
    (hi : i.val < 512) (hp : present (σ.mem t j) = true) :
    Own L (σ.write t j 0) (withTmp items (some (pteAddr (σ.mem t j)))) roots := by
  have huser : holds σ (withTmp items none) roots (.user d i j) = some (pteAddr (σ.mem t j)) :=
    bind_eq_some_iff.mpr ⟨r, hd, userOf_eq_some.mpr ⟨t, ht, hi, hp, rfl⟩⟩
  refine h.tmp.of_move (a := .user d i j) (b := .item none) huser (fun x q hx => ?_) h.nodup
    (h.kern_write hd ht (.inl hi))
  cases x with
  | free | dir => exact .inr ⟨by simp, hx⟩
  | item x =>
    cases x with
    | none => exact .inl ⟨rfl, (some.inj hx).symm⟩
    | some x => exact .inr ⟨by simp, hx⟩
  | table d' i' =>
    obtain ⟨r', hd', ht'⟩ := bind_eq_some_iff.mp hx
    rw [h.tableOf_write hd ht hd'] at ht'
    exact .inr ⟨by simp, bind_eq_some_iff.mpr ⟨r', hd', ht'⟩⟩
  | user d' i' j' =>
    obtain ⟨r', hd', hu⟩ := bind_eq_some_iff.mp hx
    rcases h.userOf_write hd ht hd' hu with ⟨_, _, hp, _⟩ | ⟨hne, hold⟩
    · cases hp
    · exact .inr ⟨by simpa using hne, bind_eq_some_iff.mpr ⟨r', hd', hold⟩⟩

theorem Own.addRoot [DecidableEq δ] (h : Own L σ (withTmp items (some p)) roots)
    (hd : roots d = none) (hz : ∀ j, σ.mem p j = 0) :
    Own L σ items (update roots d (some p)) := by
  have hitem : holds σ (withTmp items (some p)) roots (.item none) = some p := rfl
  have hnone : ∀ i, tableOf σ p i = none := fun i => by simp [tableOf, hz, present]
  -- an address space with tables is an old one
  have hold : ∀ {d' r' i' t'}, update roots d (some p) d' = some r' →
      tableOf σ r' i' = some t' → roots d' = some r' := by
    intro d' r' i' t' hd' ht'
    rcases eq_or_ne d' d with rfl | hne
    · rw [update_self, some.injEq] at hd'
      rw [← hd', hnone] at ht'
      cases ht'
    · rwa [update_of_ne hne] at hd'
  refine Own.forget (o := none) (h.of_move (a := .item none) (b := .dir d) hitem
    (fun x q hx => ?_) h.nodup fun d' r' i' t' j' hd' ht' => h.kern d' r' i' t' j' (hold hd' ht') ht')
  cases x with
  | free => exact .inr ⟨by simp, hx⟩
  | item x =>
    cases x with
    | none => cases hx
    | some x => exact .inr ⟨by simp, hx⟩
  | dir d' =>
    rcases eq_or_ne d' d with rfl | hne
    · have hx : update roots d' (some p) d' = some q := hx
      rw [update_self, some.injEq] at hx
      exact .inl ⟨rfl, hx.symm⟩
    · have hx : update roots d (some p) d' = some q := hx
      rw [update_of_ne hne] at hx
      exact .inr ⟨by simp, hx⟩
  | table d' i' =>
    obtain ⟨r', hd', ht'⟩ := bind_eq_some_iff.mp hx
    exact .inr ⟨by simp, bind_eq_some_iff.mpr ⟨r', hold hd' ht', ht'⟩⟩
  | user d' i' j' =>
    obtain ⟨r', hd', hu⟩ := bind_eq_some_iff.mp hx
    obtain ⟨t', ht', _⟩ := userOf_eq_some.mp hu
    exact .inr ⟨by simp, bind_eq_some_iff.mpr ⟨r', hold hd' ht', hu⟩⟩

inductive Holder.SameRoots {κ : Type} (R : κ → δ → Prop) : Holder ι κ → Holder ι δ → Prop
  | free (p : ℕ) : Holder.SameRoots R (.free p) (.free p)
  | item (x : ι) : Holder.SameRoots R (.item x) (.item x)
  | dir {d : κ} {d' : δ} (h : R d d') : Holder.SameRoots R (.dir d) (.dir d')
  | table {d : κ} {d' : δ} (h : R d d') (i : Fin 1024) :
      Holder.SameRoots R (.table d i) (.table d' i)
  | user {d : κ} {d' : δ} (h : R d d') (i j : Fin 1024) :
      Holder.SameRoots R (.user d i j) (.user d' i j)

theorem Own.reroot {κ : Type} {roots' : κ → Option ℕ} (h : Own L σ items roots)
    (R : κ → δ → Prop) (hR : ∀ x x' y, R x y → R x' y → x = x')
    (hf : ∀ x r, roots' x = some r → ∃ y, R x y ∧ roots y = some r) : Own L σ items roots' := by
  have hold : ∀ x p, holds σ items roots' x = some p →
      ∃ y, Holder.SameRoots R x y ∧ holds σ items roots y = some p := fun x p hx => by
    cases x with
    | free q => exact ⟨_, .free q, hx⟩
    | item x => exact ⟨_, .item x, hx⟩
    | dir d =>
      obtain ⟨e, hde, he⟩ := hf d p hx
      exact ⟨_, .dir hde, he⟩
    | table d i =>
      obtain ⟨r, hd, ht⟩ := bind_eq_some_iff.mp hx
      obtain ⟨e, hde, he⟩ := hf d r hd
      exact ⟨_, .table hde i, bind_eq_some_iff.mpr ⟨r, he, ht⟩⟩
    | user d i j =>
      obtain ⟨r, hd, hu⟩ := bind_eq_some_iff.mp hx
      obtain ⟨e, hde, he⟩ := hf d r hd
      exact ⟨_, .user hde i j, bind_eq_some_iff.mpr ⟨r, he, hu⟩⟩
  refine ⟨h.excl.of_rel (Holder.SameRoots R) (fun x x' y hxy hx'y => ?_) hold, h.nodup,
    fun x p hx => ?_, fun d r i t j hd => ?_⟩
  · cases hxy with
    | free | item => cases hx'y; rfl
    | dir hxy => cases hx'y with | dir hx'y => rw [hR _ _ _ hxy hx'y]
    | table hxy => cases hx'y with | table hx'y => rw [hR _ _ _ hxy hx'y]
    | user hxy => cases hx'y with | user hx'y => rw [hR _ _ _ hxy hx'y]
  · obtain ⟨y, _, hy⟩ := hold x p hx
    exact h.managed y p hy
  · obtain ⟨e, _, he⟩ := hf d r hd
    exact h.kern e r i t j he

end Tables

end Xv6.Vm

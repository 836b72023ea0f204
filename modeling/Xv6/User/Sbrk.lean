import Xv6.Schemes.Bytes
import Xv6.User.Malloc

/-! @src umalloc.c, sysproc.c, proc.c | part:user | name:Blocks are large enough | scheme:circle machine

  The allocator over the `sbrk` of the kernel, whose argument is a signed int: above zero it grows
  the process, below zero it shrinks it, or does nothing where the size would pass zero; it returns
  the old size.

      nbytes      0 ------- 2³¹-16 ----------- 2³²-16 -------- 2³²-8 ------- 2³²-1
      sbrk arg      n > 0          n < 0                 0             n > 0
      block         enough         too small             too small     no byte -/

namespace Xv6.Umalloc

open Schemes

def KERNBASE : ℕ := 0x80000000

def cutAt (sz : ℕ) (r : ℕ × ℕ) : ℕ × ℕ := (r.1, min r.2 ((sz - r.1) / 8))

/-- `sys_sbrk` with `growproc`: the old size, or -1. The next answer says whether there is memory,
  and how far the program itself has moved the break. -/
def sysSbrk (m : Brk) (n : ℤ) : Option ℕ × Brk :=
  if 0 < n then
    match m.answers with
    | [] => (none, m)
    | none :: rest => (none, { m with answers := rest })
    | some gap :: rest =>
      if m.brk + gap + n.toNat < KERNBASE then
        (some (m.brk + gap),
          { brk := m.brk + gap + n.toNat
            regions := m.regions ++ [(m.brk + gap, n.toNat / 8)]
            answers := rest })
      else (none, { m with answers := rest })
  else if n < 0 then
    -- deallocuvm returns oldsz where newsz is not below it
    let sz := min m.brk ((m.brk + n) % 2 ^ 32).toNat
    if sz = 0 then (none, { m with regions := m.regions.map (cutAt 0) })
    else (some m.brk, { m with brk := sz, regions := m.regions.map (cutAt sz) })
  else (some m.brk, m)

def kernelSbrk (m : Brk) (n : ℕ) : Option ℕ × Brk := sysSbrk m (toInt32 n)

/-- The requests for which the argument of `sbrk` is above zero and nothing wraps. -/
def Small (_ : State) : Call → Prop
  | .malloc nbytes _ => nbytes ≤ 2 ^ 31 - 16
  | .free _ => True
  | .store .. => True

instance (s : State) : (e : Call) → Decidable (Small s e)
  | .malloc nbytes _ => inferInstanceAs (Decidable (nbytes ≤ 2 ^ 31 - 16))
  | .free _ => isTrue trivial
  | .store .. => isTrue trivial

def Backed (m : Brk) (ap nbytes : ℕ) : Prop :=
  ∀ x, ap ≤ x → x < ap + nbytes → ∃ g ∈ m.regions, g.1 ≤ x ∧ x < g.1 + 8 * g.2

theorem nunits_small {nbytes : ℕ} (h : nbytes ≤ 2 ^ 31 - 16) :
    nunits nbytes < 2 ^ 28 ∧ nbytes + 8 ≤ 8 * nunits nbytes := by
  rw [nunits]
  omega

theorem Small.fits {s : State} {e : Call} (h : Small s e) : Fits s e := by
  cases e with
  | malloc nbytes answers => exact (nunits_small h).1.trans (by decide)
  | free ap | store x v w => trivial

theorem kernelSbrk_serves {n : ℕ} (hn : n < 2 ^ 28) : Serves kernelSbrk n := by
  intro nu hnu m
  have hlt : 0 < nu ∧ 8 * nu < 2 ^ 31 := by
    rw [hnu]
    split <;> omega
  have hint : toInt32 (8 * nu) = (8 * nu : ℕ) := if_pos hlt.2
  have hpos : (0 : ℤ) < (8 * nu : ℕ) := by omega
  rw [kernelSbrk, hint, sysSbrk, if_pos hpos, Int.toNat_natCast]
  rcases m.answers with _ | ⟨_ | gap, rest⟩
  · exact .inl ⟨m, rfl, rfl, rfl⟩
  · exact .inl ⟨_, rfl, rfl, rfl⟩
  · by_cases hfit : m.brk + gap + 8 * nu < KERNBASE
    · refine .inr ⟨m.brk + gap, _, if_pos hfit, Nat.le_add_right .., rfl, ?_, rfl⟩
      exact hfit.trans (by decide)
    · exact .inl ⟨_, if_neg hfit, rfl, rfl⟩

theorem mem_held {u : ℕ} {bs : List (ℕ × ℕ)} : u ∈ held bs ↔ ∃ b ∈ bs, u ∈ units b := by
  induction bs with
  | nil => simp [held_nil]
  | cons b bs ih => rw [held_cons, Multiset.mem_add, ih, List.exists_mem_cons_iff]

theorem Inv.backed {base : ℕ} {h : Heap} {m : Brk} {live : List (ℕ × ℕ)} {fl : List ℕ}
    (hI : Inv base h m live fl) {ap n nbytes : ℕ} (hb : (ap - 8, n) ∈ live)
    (hn : nbytes + 8 ≤ 8 * n) : Backed m ap nbytes := by
  have hle : units (ap - 8, n) ≤ held m.regions := by
    rw [← hI.cover]
    exact (units_le_held hb).trans (Multiset.le_add_left _ _)
  -- the block lies above `base`, so that there is room for the header
  have hap : 8 ≤ ap := by
    have hlow := (hI.block (List.mem_append_right _ hb)).1
    simp only at hlow
    omega
  intro x hlo hhi
  have hu : ap - 8 + 8 * ((x - (ap - 8)) / 8) ∈ units (ap - 8, n) :=
    mem_units.mpr ⟨(x - (ap - 8)) / 8, by simp only; omega, rfl⟩
  obtain ⟨g, hg, hmem⟩ := mem_held.mp (Multiset.mem_of_le hle hu)
  obtain ⟨j, hj, heq⟩ := mem_units.mp hmem
  exact ⟨g, hg, by omega, by omega⟩

/-- Over every program whose requests are small, `malloc` returns, and what it returns is null or has
  the bytes that were asked for. -/
theorem malloc_enough {base brk : ℕ} {ptr size : ℕ → ℕ} {s : State} (hbase : base < brk)
    (hbrk : brk < KERNBASE) (h : Reach (stepOn kernelSbrk base) Small (initial ptr size brk) s)
    {nbytes : ℕ} (hn : nbytes ≤ 2 ^ 31 - 16) (answers : List (Option ℕ)) :
    ∃ h' m' r, mallocOn kernelSbrk base s.fuel s.heap { s.mem with answers } nbytes =
      some (h', m', r) ∧ ∀ ap, r = some ap → Backed m' ap nbytes := by
  have hok : Ok base s := by
    refine h.invariant (I := Ok base) (.inl ⟨rfl, rfl, rfl, hbase, hbrk.trans (by decide)⟩) ?_
    intro s' e u hs' he hstep
    refine hs'.step he.fits ?_ hstep
    rintro nbytes answers rfl
    exact kernelSbrk_serves (nunits_small he).1
  obtain ⟨hlt, hroom⟩ := nunits_small hn
  obtain ⟨fl, hI⟩ := hok.started answers
  have hfuel : 2 * s.mem.brk + 2 < s.fuel := by
    rw [State.fuel]
    omega
  obtain ⟨h', m', r, fl', heq, hI'⟩ :=
    hI.malloc_spec (kernelSbrk_serves hlt) (hlt.trans (by decide)) hfuel
  refine ⟨h', m', r, heq, ?_⟩
  rintro ap rfl
  exact hI'.backed List.mem_cons_self hroom

/-- The first request of a program, of 20 bytes. -/
theorem malloc_enough_first :
    ∃ h' m' r, mallocOn kernelSbrk 0x1000 (initial (fun _ => 0) (fun _ => 0) 0x4000).fuel
      (initial (fun _ => 0) (fun _ => 0) 0x4000).heap
      { (initial (fun _ => 0) (fun _ => 0) 0x4000).mem with answers := [some 0] } 20 =
      some (h', m', r) ∧ ∀ ap, r = some ap → Backed m' ap 20 :=
  malloc_enough (by decide) (by decide) Relation.ReflTransGen.refl (by decide) [some 0]

def outcome (nbytes : ℕ) : Option (List (ℕ × ℕ) × Option ℕ) :=
  (mallocOn kernelSbrk 0x1000 (initial (fun _ => 0) (fun _ => 0) 0x4000).fuel
    (initial (fun _ => 0) (fun _ => 0) 0x4000).heap
    { (initial (fun _ => 0) (fun _ => 0) 0x4000).mem with answers := [some 0] } nbytes).map
      fun x => (x.2.1.regions, x.2.2)

/-- A first request of 2³² - 1 bytes gets the end of a region. -/
theorem malloc_too_small : outcome (2 ^ 32 - 1) = some ([(0x4000, 4096)], some 0xC000) ∧
    ∀ m : Brk, m.regions = [(0x4000, 4096)] → ¬ Backed m 0xC000 (2 ^ 32 - 1) := by
  refine ⟨by decide +kernel, fun m hm hb => ?_⟩
  obtain ⟨g, hg, -, hlt⟩ := hb 0xC000 le_rfl (by omega)
  rw [hm, List.mem_singleton] at hg
  rw [hg] at hlt
  omega

end Xv6.Umalloc

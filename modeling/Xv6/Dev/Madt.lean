import Mathlib.Tactic

/-! @src mp_uefi.c, mp_uefi.h | part:boot | name:CPU discovery

  `mpinit_uefi` walks through the records of the MADT, each a type, a length and a body. It goes on
  by the length for the types 0, 1, 2 and 4, by 12 for type 5, and not at all for any other. -/

namespace Xv6.Madt
open List
open Function

def NCPU : ℕ := 4

/-- The variables of the loop; `visited` is a log of the records looked at. -/
structure Scan where
  i : ℕ
  ncpu : ℕ
  apicid : ℕ → UInt8
  ioapicid : UInt8
  visited : List ℕ

section

variable (madt : ℕ → UInt8) (len : ℕ)

def Scan.step (x : Scan) : Scan :=
  let x := { x with visited := x.visited ++ [x.i] }
  let next := (x.i + (madt (x.i + 1)).toNat) % 2 ^ 32
  match madt x.i with
  | 0 =>
    if x.ncpu < NCPU then { x with
      i := next
      apicid := update x.apicid x.ncpu (madt (x.i + 3))
      ncpu := x.ncpu + 1 }
    else { x with i := next }
  | 1 => { x with i := next, ioapicid := madt (x.i + 2) }
  | 2 => { x with i := next }
  | 4 => { x with i := next }
  | 5 => { x with i := (x.i + 0xC) % 2 ^ 32 }
  | _ => x

def loop : ℕ → Scan → Option Scan
  | 0, x => if x.i < len then none else some x
  | fuel + 1, x => if x.i < len then loop fuel (x.step madt) else some x

def mpinit_uefi (fuel : ℕ) (apicid : ℕ → UInt8) (ioapicid : UInt8) : Option Scan :=
  loop madt len fuel ⟨44, 0, apicid, ioapicid, []⟩

/-- The records that begin at the given places fill the table from `i` on. -/
def Fills : ℕ → List ℕ → Prop
  | i, [] => i = len
  | i, r :: rs => r = i ∧ 2 ≤ (madt (i + 1)).toNat ∧ Fills (i + (madt (i + 1)).toNat) rs

def lapicIds (rs : List ℕ) : List UInt8 :=
  (rs.filter fun r => madt r = 0).map fun r => madt (r + 3)

/-- The loop goes on from the record at `r` by its length. -/
def Known (r : ℕ) : Prop :=
  madt r = 0 ∨ madt r = 1 ∨ madt r = 2 ∨ madt r = 4 ∨ madt r = 5 ∧ madt (r + 1) = 12

/-- A last record of type 5 may also be shorter: the 12 bytes lead past the end of the table. -/
def Passed (r : ℕ) : Prop :=
  Known madt r ∨ madt r = 5 ∧ r + (madt (r + 1)).toNat = len ∧ len ≤ (r + 12) % 2 ^ 32

end

variable {madt : ℕ → UInt8} {len : ℕ}

variable {rs : List ℕ} {x : Scan}

theorem Fills.le {i : ℕ} (h : Fills madt len i rs) : i ≤ len := by
  induction rs generalizing i with
  | nil => exact le_of_eq h
  | cons r rs ih => exact (Nat.le_add_right ..).trans (ih h.2.2)

theorem Scan.step_known (hk : Known madt x.i) :
    (x.step madt).i = (x.i + (madt (x.i + 1)).toNat) % 2 ^ 32 ∧
      (x.step madt).visited = x.visited ++ [x.i] ∧
      if madt x.i = 0 ∧ x.ncpu < NCPU then (x.step madt).ncpu = x.ncpu + 1 ∧
        (x.step madt).apicid = update x.apicid x.ncpu (madt (x.i + 3))
      else (x.step madt).ncpu = x.ncpu ∧ (x.step madt).apicid = x.apicid := by
  rcases hk with h | h | h | h | ⟨h, hlen⟩
  · by_cases hroom : x.ncpu < NCPU
    · simp [Scan.step, h, hroom]
    · simp [Scan.step, h, hroom]
  · simp [Scan.step, h]
  · simp [Scan.step, h]
  · simp [Scan.step, h]
  · simp [Scan.step, h, hlen]

theorem Scan.step_five (h : madt x.i = 5) : x.step madt =
    { x with i := (x.i + 12) % 2 ^ 32, visited := x.visited ++ [x.i] } := by
  simp [Scan.step, h]

theorem loop_ends (hlen : len < 2 ^ 32) (hx : x.ncpu ≤ NCPU)
    (hfill : Fills madt len x.i rs ∨ rs = [] ∧ len ≤ x.i) (hk : ∀ r ∈ rs, Passed madt len r) :
    ∃ y, loop madt len rs.length x = some y ∧ y.visited = x.visited ++ rs ∧
      y.ncpu = min NCPU (x.ncpu + (lapicIds madt rs).length) ∧
      (∀ k, k < x.ncpu → y.apicid k = x.apicid k) ∧
      ∀ k, x.ncpu + k < y.ncpu → (lapicIds madt rs)[k]? = some (y.apicid (x.ncpu + k)) := by
  induction rs generalizing x with
  | nil =>
    have hi : ¬ x.i < len := Nat.not_lt.mpr (hfill.elim (fun h => le_of_eq h.symm) And.right)
    refine ⟨x, if_neg hi, (append_nil _).symm, (min_eq_right hx).symm, fun k _ => rfl, ?_⟩
    intro k hk
    omega
  | cons r rs ih =>
    obtain ⟨rfl, htwo, hrest⟩ := hfill.resolve_right fun h => nomatch h.1
    have hle := hrest.le
    have hkr : ∀ r ∈ rs, Passed madt len r := fun r hr => hk r (mem_cons_of_mem _ hr)
    rw [length_cons, loop, if_pos (by omega)]
    have hnext := ih (x := x.step madt)
    rcases hk x.i mem_cons_self with hknown | ⟨hfive, hlast, hpast⟩
    · obtain ⟨hi, hlog, hcpu⟩ := Scan.step_known hknown
      rw [Nat.mod_eq_of_lt (by omega)] at hi
      rw [hi, hlog, append_assoc] at hnext
      by_cases hnew : madt x.i = 0 ∧ x.ncpu < NCPU
      · have hids : lapicIds madt (x.i :: rs) = madt (x.i + 3) :: lapicIds madt rs := by
          simp [lapicIds, hnew.1]
        rw [if_pos hnew] at hcpu
        rw [hcpu.1, hcpu.2] at hnext
        obtain ⟨y, hy, hvis, hn, hold, hids'⟩ := hnext hnew.2 (.inl hrest) hkr
        refine ⟨y, hy, hvis, ?_, fun k hk => ?_, fun k hk => ?_⟩
        · rw [hn, hids, length_cons, add_right_comm, add_assoc]
        · rw [hold k (by omega), update_of_ne (by omega)]
        · rw [hids]
          cases k with
          | zero => exact congrArg some ((hold _ (Nat.lt_succ_self _)).trans (update_self ..)).symm
          | succ k =>
            have hidx : x.ncpu + (k + 1) = x.ncpu + 1 + k := by omega
            rw [hidx] at hk ⊢
            exact hids' k hk
      · rw [if_neg hnew] at hcpu
        rw [hcpu.1, hcpu.2] at hnext
        obtain ⟨y, hy, hvis, hn, hold, hids'⟩ := hnext hx (.inl hrest) hkr
        refine ⟨y, hy, hvis, ?_, hold, fun k hk => ?_⟩
        · by_cases h0 : madt x.i = 0
          · have hfull : x.ncpu = NCPU := hx.antisymm (Nat.not_lt.mp fun h => hnew ⟨h0, h⟩)
            rw [hn, hfull, min_eq_left (Nat.le_add_right ..), min_eq_left (Nat.le_add_right ..)]
          · rw [hn]
            simp [lapicIds, h0]
        · have hroom : x.ncpu + k < NCPU := hk.trans_le (hn ▸ min_le_left ..)
          have h0 : madt x.i ≠ 0 := fun h0 => hnew ⟨h0, by omega⟩
          have hids : lapicIds madt (x.i :: rs) = lapicIds madt rs := by
            simp [lapicIds, h0]
          rw [hids]
          exact hids' k hk
    · -- no record is left, since each has two bytes
      have hnil : rs = [] := by
        rcases rs with _ | ⟨r, rs⟩
        · rfl
        · have := hrest.2.2.le
          have := hrest.2.1
          omega
      have hids : lapicIds madt (x.i :: rs) = lapicIds madt rs := by simp [lapicIds, hfive]
      rw [Scan.step_five hfive, append_assoc] at hnext
      rw [Scan.step_five hfive, hids]
      exact hnext hx (.inr ⟨hnil, hpast⟩) hkr

/-- The log of a run goes on with the record at `i`, if the run does. -/
theorem loop_visited {fuel : ℕ} {y : Scan} (h : loop madt len fuel x = some y) :
    (len ≤ x.i ∧ y = x) ∨ x.i < len ∧ ∃ vs, y.visited = x.visited ++ x.i :: vs := by
  induction fuel generalizing x with
  | zero =>
    rw [loop] at h
    split_ifs at h with hi
    exact .inl ⟨Nat.not_lt.mp hi, (Option.some_inj.mp h).symm⟩
  | succ fuel ih =>
    rw [loop] at h
    split_ifs at h with hi
    · have hlog : (x.step madt).visited = x.visited ++ [x.i] := by
        unfold Scan.step
        dsimp only
        split
        · split_ifs <;> rfl
        all_goals rfl
      refine .inr ⟨hi, ?_⟩
      rcases ih h with ⟨-, rfl⟩ | ⟨-, vs, hvs⟩
      · exact ⟨[], hlog⟩
      · exact ⟨_ :: vs, by rw [hvs, hlog, append_assoc]; rfl⟩
    · exact .inl ⟨Nat.not_lt.mp hi, (Option.some_inj.mp h).symm⟩

/-- A record of another type is never left. -/
theorem loop_stuck (fuel : ℕ) (hi : x.i < len) (h5 : madt x.i ≠ 5) (hk : ¬ Known madt x.i) :
    loop madt len fuel x = none := by
  induction fuel generalizing x with
  | zero => exact if_pos hi
  | succ fuel ih =>
    have hstep : (x.step madt).i = x.i := by
      simp only [Known, not_or] at hk
      unfold Scan.step
      dsimp only
      split <;> simp_all
    rw [loop, if_pos hi]
    exact ih (hstep.symm ▸ hi) (hstep.symm ▸ h5) (hstep.symm ▸ hk)

theorem passed_of_loop (hlen : len < 2 ^ 32) {fuel : ℕ} {y : Scan} (hfill : Fills madt len x.i rs)
    (h : loop madt len fuel x = some y) (hv : y.visited = x.visited ++ rs) :
    ∀ r ∈ rs, Passed madt len r := by
  induction rs generalizing x fuel with
  | nil => exact forall_mem_nil _
  | cons r rs ih =>
    obtain ⟨rfl, htwo, hrest⟩ := hfill
    have hle := hrest.le
    have hi : x.i < len := by omega
    cases fuel with
    | zero =>
      rw [loop, if_pos hi] at h
      cases h
    | succ fuel =>
      by_cases hk : Known madt x.i
      · obtain ⟨hnext, hlog, -⟩ := Scan.step_known hk
        rw [Nat.mod_eq_of_lt (by omega)] at hnext
        rw [loop, if_pos hi] at h
        refine forall_mem_cons.mpr ⟨.inl hk, ih (hnext ▸ hrest) h ?_⟩
        rw [hv, hlog, append_assoc]
        rfl
      by_cases h5 : madt x.i = 5
      · rw [loop, if_pos hi, Scan.step_five h5] at h
        rcases loop_visited h with ⟨hpast, rfl⟩ | ⟨-, vs, hvs⟩
        · -- the log ends here, so this was the last record
          obtain rfl : rs = [] := by simpa using hv
          exact forall_mem_singleton.mpr (.inr ⟨h5, hrest, hpast⟩)
        · rw [hv, append_assoc, append_cancel_left_eq, cons_append] at hvs
          obtain rfl : rs = _ :: vs := (List.cons.inj hvs).2
          have h12 : (x.i + 12) % 2 ^ 32 = x.i + (madt (x.i + 1)).toNat := hrest.1
          refine absurd (.inr (.inr (.inr (.inr ⟨h5, UInt8.toNat_inj.mp ?_⟩)))) hk
          show (madt (x.i + 1)).toNat = 12
          omega
      · rw [loop_stuck _ hi h5 hk] at h
        cases h

/-- For records that fill the table: the loop ends, visits every record once and finds the local
  APICs, as many as there is room for, exactly if every record is of a type it knows. -/
theorem mpinit_complete (hlen : len < 2 ^ 32) (hfill : Fills madt len 44 rs)
    (apicid : ℕ → UInt8) (ioapicid : UInt8) :
    (∃ fuel y, mpinit_uefi madt len fuel apicid ioapicid = some y ∧ y.visited = rs ∧
      y.ncpu = min NCPU (lapicIds madt rs).length ∧
      ∀ k, k < y.ncpu → (lapicIds madt rs)[k]? = some (y.apicid k)) ↔
    ∀ r ∈ rs, Passed madt len r := by
  constructor
  · rintro ⟨fuel, y, hy, hvis, -⟩
    exact passed_of_loop hlen hfill hy hvis
  · intro hk
    obtain ⟨y, hy, hvis, hn, -, hids⟩ := loop_ends (x := ⟨44, 0, apicid, ioapicid, []⟩) hlen
      (Nat.zero_le _) (.inl hfill) hk
    refine ⟨_, y, hy, hvis, ?_, fun k hk => ?_⟩
    · rw [hn, Nat.zero_add]
    · have h := hids k (by rw [Nat.zero_add]; exact hk)
      rwa [Nat.zero_add] at h

/-- One record of 8 bytes. -/
def oneRecord (type : UInt8) (i : ℕ) : UInt8 := if i = 44 then type else if i = 45 then 8 else 3

/-- Two records of 8 bytes: a local APIC and one of type 5, the last. -/
def twoRecords (i : ℕ) : UInt8 :=
  if i = 52 then 5 else if i = 45 ∨ i = 53 then 8 else if i = 44 then 0 else 3

theorem mpinit_complete_two : ∃ fuel y, mpinit_uefi twoRecords 60 fuel (fun _ => 0) 0 = some y ∧
    y.visited = [44, 52] ∧ y.ncpu = 1 := by
  have hfill : Fills twoRecords 60 44 [44, 52] := ⟨rfl, by decide, rfl, by decide, rfl⟩
  obtain ⟨fuel, y, hy, hvis, hn, -⟩ := (mpinit_complete (by decide) hfill (fun _ => 0) 0).mpr (by
    simp only [forall_mem_cons, Passed, Known]
    decide)
  exact ⟨fuel, y, hy, hvis, hn⟩

theorem mpinit_stuck : Fills (oneRecord 3) 52 44 [44] ∧
    ∀ fuel, mpinit_uefi (oneRecord 3) 52 fuel (fun _ => 0) 0 = none :=
  ⟨⟨rfl, by decide, rfl⟩, fun fuel => loop_stuck fuel (by decide) (by decide) (by
    rw [Known]
    decide)⟩

end Xv6.Madt

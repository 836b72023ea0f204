import Mathlib.Logic.Function.Basic
import Xv6.Schemes.Bytes

/-! @src string.c, ulib.c | part:library | name:memmove

  The kernel's memmove copies from the end on where the destination begins inside the source; the
  one of the user library always copies from the beginning on. -/

namespace Xv6.Move
open Schemes
open Function
open UInt8 (ofNat)

abbrev Mem := ℕ → UInt8

def forward (mem : Mem) (d s : ℕ) : ℕ → Mem
  | 0 => mem
  | n + 1 => forward (update mem d (mem s)) (d + 1) (s + 1) n

def backward (mem : Mem) (d s : ℕ) : ℕ → Mem
  | 0 => mem
  | n + 1 => backward (update mem (d - 1) (mem (s - 1))) (d - 1) (s - 1) n

def memmove (mem : Mem) (dst src n : ℕ) : Mem :=
  if src < dst ∧ (src + n) % 2 ^ 32 > dst then backward mem (dst + n) (src + n) n
  else forward mem dst src n

def ulibMemmove (mem : Mem) (vdst vsrc : ℕ) (n : ℤ) : Mem := forward mem vdst vsrc n.toNat

def copied (mem : Mem) (dst src n : ℕ) : Mem := fun a =>
  if dst ≤ a ∧ a < dst + n then mem (src + (a - dst)) else mem a

theorem forward_eq {n : ℕ} {mem : Mem} {d s : ℕ} (h : d ≤ s ∨ s + n ≤ d) :
    forward mem d s n = copied mem d s n := by
  induction n generalizing mem d s with
  | zero =>
    funext a
    rw [forward, copied, if_neg (by omega)]
  | succ n ih =>
    rw [forward, ih (by omega)]
    funext a
    by_cases hin : d + 1 ≤ a ∧ a < d + 1 + n
    · have hidx : s + 1 + (a - (d + 1)) = s + (a - d) := by omega
      rw [copied, copied, if_pos hin, if_pos (by omega), hidx, update_of_ne (by omega)]
    · rw [copied, copied, if_neg hin]
      by_cases ha : a = d
      · rw [ha, update_self, if_pos (by omega), Nat.sub_self, Nat.add_zero]
      · rw [update_of_ne ha, if_neg (by omega)]

theorem backward_eq {n : ℕ} {mem : Mem} {d s : ℕ} (h : s ≤ d) :
    backward mem (d + n) (s + n) n = copied mem d s n := by
  induction n generalizing mem with
  | zero =>
    funext a
    rw [backward, copied, if_neg (by omega)]
  | succ n ih =>
    have hd : d + (n + 1) - 1 = d + n := rfl
    have hs : s + (n + 1) - 1 = s + n := rfl
    rw [backward, hd, hs, ih]
    funext a
    by_cases hin : d ≤ a ∧ a < d + n
    · rw [copied, copied, if_pos hin, if_pos (by omega), update_of_ne (by omega)]
    · rw [copied, copied, if_neg hin]
      by_cases ha : a = d + n
      · rw [ha, update_self, if_pos (by omega), Nat.add_sub_cancel_left]
      · rw [update_of_ne ha, if_neg (by omega)]

/-- Copying forwards over the source repeats what lies below the destination. -/
theorem forward_last {n : ℕ} {mem : Mem} {d s : ℕ} (hsd : s < d)
    (h : ∀ a, s ≤ a → a < d → mem a = 0) : forward mem d s (n + 1) (d + n) = 0 := by
  induction n generalizing mem d s with
  | zero =>
    rw [forward, forward, Nat.add_zero, update_self]
    exact h s le_rfl hsd
  | succ n ih =>
    have hidx : d + (n + 1) = d + 1 + n := by omega
    rw [forward, hidx]
    refine ih (Nat.succ_lt_succ hsd) fun a hs hd => ?_
    by_cases ha : a = d
    · rw [ha, update_self]
      exact h s le_rfl hsd
    · rw [update_of_ne ha]
      exact h a (by omega) (by omega)

theorem ulibMemmove_differs {dst src n : ℕ} (hn : n < 2 ^ 32) (hne : dst ≠ src)
    (h : 2 ^ 31 ≤ n ∨ src < dst ∧ dst < src + n) :
    ∃ mem, ulibMemmove mem dst src (toInt32 n) ≠ copied mem dst src n := by
  rcases Nat.lt_or_ge n (2 ^ 31) with hsmall | hbig
  · have hover : src < dst ∧ dst < src + n := h.resolve_left (Nat.not_le.mpr hsmall)
    refine ⟨fun a => if a < dst then 0 else 1, fun heq => ?_⟩
    obtain ⟨k, rfl⟩ : ∃ k, n = k + 1 := ⟨n - 1, by omega⟩
    have hlast := congrFun heq (dst + k)
    rw [ulibMemmove, toInt32, if_pos hsmall, Int.toNat_natCast, forward_last hover.1
      (fun a _ ha => if_pos ha), copied, if_pos (by omega), if_neg (by omega)] at hlast
    exact absurd hlast (by decide)
  · -- a negative count copies nothing
    have hneg : (toInt32 n).toNat = 0 := by
      rw [toInt32, if_neg (Nat.not_lt.mpr hbig)]
      omega
    refine ⟨update (fun _ => 0) dst 1, fun heq => ?_⟩
    have hfirst := congrFun heq dst
    rw [ulibMemmove, hneg, forward, copied, if_pos (by omega), Nat.sub_self, Nat.add_zero,
      update_self, update_of_ne hne.symm] at hfirst
    exact absurd hfirst (by decide)

/-- The kernel's memmove copies as if through a temporary; the one of the library does, whatever is
  in memory, exactly if the count is not negative and the copy does not run over its source. -/
theorem memmove_copied {dst src n : ℕ} (hd : dst + n ≤ 2 ^ 32) (hs : src + n ≤ 2 ^ 32)
    (hn : n < 2 ^ 32) : (∀ mem, memmove mem dst src n = copied mem dst src n) ∧
      ((∀ mem, ulibMemmove mem dst src (toInt32 n) = copied mem dst src n) ↔
        n < 2 ^ 31 ∧ ¬ (src < dst ∧ dst < src + n) ∨ dst = src) := by
  refine ⟨fun mem => ?_, fun hall => ?_, fun h mem => ?_⟩
  · rw [memmove]
    split_ifs with h
    · exact backward_eq (by omega)
    · exact forward_eq (by omega)
  · by_contra hno
    obtain ⟨hne, hor⟩ : dst ≠ src ∧ (2 ^ 31 ≤ n ∨ src < dst ∧ dst < src + n) := by omega
    obtain ⟨mem, hmem⟩ := ulibMemmove_differs hn hne hor
    exact hmem (hall mem)
  · rcases h with ⟨hsmall, hover⟩ | rfl
    · rw [ulibMemmove, toInt32, if_pos hsmall, Int.toNat_natCast]
      exact forward_eq (by omega)
    · have hself : ∀ k, copied mem dst dst k = mem := fun k => funext fun a => by
        rw [copied]
        split_ifs with hin
        · rw [Nat.add_sub_cancel' hin.1]
        · rfl
      rw [ulibMemmove, forward_eq (.inl le_rfl), hself, hself]

theorem memmove_copied_down :
    ulibMemmove ofNat 0 1 (toInt32 5) = copied ofNat 0 1 5 :=
  (memmove_copied (by decide) (by decide) (by decide)).2.mpr (.inl (by decide)) _

theorem memmove_differ : ulibMemmove ofNat 1 0 (toInt32 2) 2 = 0 ∧
    memmove ofNat 1 0 2 2 = 1 ∧ copied ofNat 1 0 2 2 = 1 := by
  decide

end Xv6.Move

import Mathlib.Tactic

/-! scheme:ones | name:The 16-bit one's-complement sum | used by:Tcp

  Bytes are taken in pairs, high byte first, an odd last byte is padded with zero, and a carry out of
  16 bits is added at the low end. Such a sum is 0xFFFF exactly where the plain sum is a positive
  multiple of 0xFFFF. -/

namespace Xv6.Schemes
open List

/-- The 16-bit words of a string of bytes. -/
def words : List UInt8 → List ℕ
  | [] => []
  | [a] => [a.toNat * 256]
  | a :: b :: l => (a.toNat * 256 + b.toNat) :: words l

/-- Addition with an end-around carry. -/
def ocAdd (a b : ℕ) : ℕ := if a + b < 2 ^ 16 then a + b else a + b - 65535

def ocSum (ws : List ℕ) : ℕ := ws.foldl ocAdd 0

/-- The part of the sum that the last byte makes where it has no partner. -/
def oddByte (l : List UInt8) : ℕ := if l.length % 2 = 0 then 0 else (l.getLastD 0).toNat * 256

theorem words_lt (l : List UInt8) : ∀ w ∈ words l, w < 2 ^ 16 := by
  induction l using words.induct with
  | case1 =>
    intro w hw
    cases hw
  | case2 a =>
    intro w hw
    rw [words, mem_singleton] at hw
    have ha := a.toNat_lt
    omega
  | case3 a b l ih =>
    intro w hw
    rw [words, mem_cons] at hw
    rcases hw with rfl | hw
    · have ha := a.toNat_lt
      have hb := b.toNat_lt
      omega
    · exact ih w hw

theorem length_words_le (l : List UInt8) : 2 * (words l).length ≤ l.length + 1 := by
  induction l using words.induct with
  | case1 => exact Nat.zero_le _
  | case2 a => exact le_rfl
  | case3 a b l ih =>
    rw [words, length_cons, length_cons, length_cons]
    omega

/-- A string of whole words is cut off at the front. -/
theorem words_append {l : List UInt8} (h : l.length % 2 = 0) (l' : List UInt8) :
    words (l ++ l') = words l ++ words l' := by
  induction l using words.induct with
  | case1 => rfl
  | case2 a => cases h
  | case3 a b l ih =>
    rw [length_cons, length_cons] at h
    rw [cons_append, cons_append, words, words, ih (by omega), cons_append]

/-- The words without an odd last byte, and that byte. -/
theorem sum_words (l : List UInt8) :
    (words l).sum = (words (l.take (2 * (l.length / 2)))).sum + oddByte l := by
  induction l using words.induct with
  | case1 => rfl
  | case2 a => simp [words, oddByte]
  | case3 a b l ih =>
    have hhalf : 2 * ((a :: b :: l).length / 2) = 2 * (l.length / 2) + 1 + 1 := by
      rw [length_cons, length_cons]
      omega
    have hodd : oddByte (a :: b :: l) = oddByte l := by
      cases l with
      | nil => simp [oddByte]
      | cons c l =>
        rw [oddByte, oddByte, length_cons, length_cons]
        have hpar : ((c :: l).length + 1 + 1) % 2 = (c :: l).length % 2 := by omega
        rw [hpar]
        rfl
    rw [hhalf, take_succ_cons, take_succ_cons, words, words, sum_cons, sum_cons,
      ih, hodd]
    omega

theorem oddByte_append {l : List UInt8} (h : l.length % 2 = 0) (l' : List UInt8) :
    oddByte (l ++ l') = oddByte l' := by
  have hlen : (l ++ l').length % 2 = l'.length % 2 := by
    rw [length_append]
    omega
  rw [oddByte, oddByte, hlen]
  cases l' with
  | nil => simp
  | cons a l' => simp [List.getLastD_eq_getLast?, getLast?_cons]

/-- The end-around sum from `acc` on keeps the residue, the range, and being positive. -/
theorem foldl_ocAdd {ws : List ℕ} (hws : ∀ w ∈ ws, w < 2 ^ 16) {acc : ℕ} (hacc : acc < 2 ^ 16) :
    ws.foldl ocAdd acc < 2 ^ 16 ∧ ws.foldl ocAdd acc % 65535 = (acc + ws.sum) % 65535 ∧
      (ws.foldl ocAdd acc = 0 ↔ acc + ws.sum = 0) := by
  induction ws generalizing acc with
  | nil => exact ⟨hacc, rfl, Iff.rfl⟩
  | cons w ws ih =>
    have hw := hws w mem_cons_self
    have hstep : ocAdd acc w < 2 ^ 16 ∧ ocAdd acc w % 65535 = (acc + w) % 65535 ∧
        (ocAdd acc w = 0 ↔ acc + w = 0) := by
      rw [ocAdd]
      split <;> omega
    obtain ⟨hlt, hmod, hzero⟩ := ih (fun w hw => hws w (mem_cons_of_mem _ hw)) hstep.1
    rw [foldl_cons, sum_cons]
    exact ⟨hlt, by omega, by omega⟩

theorem ocSum_eq_ones {ws : List ℕ} (hws : ∀ w ∈ ws, w < 2 ^ 16) (hpos : 0 < ws.sum) :
    ocSum ws = 0xFFFF ↔ 65535 ∣ ws.sum := by
  obtain ⟨hlt, hmod, hzero⟩ := foldl_ocAdd hws (by decide : 0 < 2 ^ 16)
  rw [ocSum]
  omega

/-- `n` words are below `65536 * n`. -/
theorem sum_le_of_lt {ws : List ℕ} (hws : ∀ w ∈ ws, w < 2 ^ 16) : ws.sum ≤ 65535 * ws.length := by
  induction ws with
  | nil => exact Nat.zero_le _
  | cons w ws ih =>
    have hw := hws w mem_cons_self
    have hrest := ih fun w hw => hws w (mem_cons_of_mem _ hw)
    rw [sum_cons, length_cons]
    omega

end Xv6.Schemes

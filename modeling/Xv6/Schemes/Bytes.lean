import Mathlib.Tactic

/-! scheme:bytes | name:Little-endian fields in a block of bytes | used by:Log, Fs

  C code reads a disk block by casting its bytes to a struct. Here a block is a function from
  offsets to bytes, `store` is a memmove into it, and `le16`, `le32` are the little-endian fields
  the casts read. The lemmas are the frame rules of such fields: a store is read back where it
  was made and nowhere else. -/

namespace Xv6.Schemes
open UInt8 (ofNat)

/-- A block of `n` bytes. -/
abbrev Bytes (n : ℕ) := Fin n → UInt8

variable {n : ℕ}

/-- The byte at offset `o`, `0` past the end. -/
def byteAt (b : Bytes n) (o : ℕ) : UInt8 := if h : o < n then b ⟨o, h⟩ else 0

/-- Copy `bs` into the block from offset `o` on. -/
def store (b : Bytes n) (o : ℕ) (bs : List UInt8) : Bytes n := fun i =>
  if o ≤ i.val ∧ i.val < o + bs.length then bs.getD (i.val - o) 0 else b i

/-- The 32-bit little-endian word at offset `o`. -/
def le32 (b : Bytes n) (o : ℕ) : ℕ :=
  (byteAt b o).toNat + 2 ^ 8 * (byteAt b (o + 1)).toNat + 2 ^ 16 * (byteAt b (o + 2)).toNat +
    2 ^ 24 * (byteAt b (o + 3)).toNat

/-- The four bytes of a 32-bit word, low byte first. -/
def bytes32 (v : ℕ) : List UInt8 :=
  [ofNat v, ofNat (v / 2 ^ 8), ofNat (v / 2 ^ 16), ofNat (v / 2 ^ 24)]

/-- The 16-bit little-endian word at offset `o`. -/
def le16 (b : Bytes n) (o : ℕ) : ℕ := (byteAt b o).toNat + 2 ^ 8 * (byteAt b (o + 1)).toNat

/-- The two bytes of a 16-bit word, low byte first. -/
def bytes16 (v : ℕ) : List UInt8 := [ofNat v, ofNat (v / 2 ^ 8)]

def window (b : Bytes n) (o m : ℕ) : Bytes m := fun k => byteAt b (o + k)

/-- A 16-bit word read as a signed `short`. -/
def toInt16 (w : ℕ) : ℤ := if w < 2 ^ 15 then w else (w : ℤ) - 2 ^ 16

/-- A 32-bit word read as a signed `int`. -/
def toInt32 (w : ℕ) : ℤ := if w < 2 ^ 31 then w else (w : ℤ) - 2 ^ 32

theorem byteAt_store (b : Bytes n) (o : ℕ) (bs : List UInt8) (i : ℕ) :
    byteAt (store b o bs) i =
      if o ≤ i ∧ i < o + bs.length ∧ i < n then bs.getD (i - o) 0 else byteAt b i := by
  unfold byteAt store
  by_cases hi : i < n
  · simp only [hi, dite_true, and_true]
  · simp [hi]

variable {i o : ℕ} {bs : List UInt8}

/-- A byte outside the stored range is unchanged. -/
theorem byteAt_store_of_disjoint (b : Bytes n) (h : i < o ∨ o + bs.length ≤ i)
    : byteAt (store b o bs) i = byteAt b i := by
  rw [byteAt_store, if_neg (by omega)]

theorem le32_store_same (b : Bytes n) (ho : o + 4 ≤ n) (v : ℕ) :
    le32 (store b o (bytes32 v)) o = v % 2 ^ 32 := by
  have h0 : byteAt (store b o (bytes32 v)) o = ofNat v := by
    rw [byteAt_store, if_pos (by simp [bytes32]; omega)]; simp [bytes32]
  have h1 : byteAt (store b o (bytes32 v)) (o + 1) = ofNat (v / 2 ^ 8) := by
    rw [byteAt_store, if_pos (by simp [bytes32]; omega)]; simp [bytes32]
  have h2 : byteAt (store b o (bytes32 v)) (o + 2) = ofNat (v / 2 ^ 16) := by
    rw [byteAt_store, if_pos (by simp [bytes32]; omega)]; simp [bytes32]
  have h3 : byteAt (store b o (bytes32 v)) (o + 3) = ofNat (v / 2 ^ 24) := by
    rw [byteAt_store, if_pos (by simp [bytes32]; omega)]; simp [bytes32]
  rw [le32, h0, h1, h2, h3]
  simp only [UInt8.toNat_ofNat']
  omega

/-- A word away from the stored range is unchanged. -/
theorem le32_store_of_disjoint (b : Bytes n) (h : i + 4 ≤ o ∨ o + bs.length ≤ i)
    : le32 (store b o bs) i = le32 b i := by
  unfold le32
  rw [byteAt_store_of_disjoint b (by omega), byteAt_store_of_disjoint b (by omega),
    byteAt_store_of_disjoint b (by omega), byteAt_store_of_disjoint b (by omega)]

@[simp] theorem bytes32_length (v : ℕ) : (bytes32 v).length = 4 := rfl

@[simp] theorem bytes16_length (v : ℕ) : (bytes16 v).length = 2 := rfl

theorem le16_store_same (b : Bytes n) (ho : o + 2 ≤ n) (v : ℕ) :
    le16 (store b o (bytes16 v)) o = v % 2 ^ 16 := by
  have h0 : byteAt (store b o (bytes16 v)) o = ofNat v := by
    rw [byteAt_store, if_pos (by simp [bytes16]; omega)]; simp [bytes16]
  have h1 : byteAt (store b o (bytes16 v)) (o + 1) = ofNat (v / 2 ^ 8) := by
    rw [byteAt_store, if_pos (by simp [bytes16]; omega)]; simp [bytes16]
  rw [le16, h0, h1]
  simp only [UInt8.toNat_ofNat']
  omega

theorem le16_store_of_disjoint (b : Bytes n) (h : i + 2 ≤ o ∨ o + bs.length ≤ i)
    : le16 (store b o bs) i = le16 b i := by
  unfold le16
  rw [byteAt_store_of_disjoint b (by omega), byteAt_store_of_disjoint b (by omega)]

/-- A window is read back where it was stored. -/
theorem window_store_same (b : Bytes n) {m : ℕ} (ho : o + m ≤ n) (d : Bytes m) :
    window (store b o (List.ofFn d)) o m = d := by
  funext k
  have hk := k.isLt
  rw [window, byteAt_store, if_pos (by rw [List.length_ofFn]; omega), Nat.add_sub_cancel_left]
  simp [List.getD]

theorem window_store_of_disjoint (b : Bytes n) {m : ℕ} (h : i + m ≤ o ∨ o + bs.length ≤ i)
    : window (store b o bs) i m = window b i m := by
  funext k
  have hk := k.isLt
  exact byteAt_store_of_disjoint b (by omega)

/-! ### Nothing but zeros -/

theorem byteAt_zero (o : ℕ) : byteAt (fun _ => 0 : Bytes n) o = 0 := by
  unfold byteAt
  split_ifs <;> rfl

theorem le32_zero (o : ℕ) : le32 (fun _ => 0 : Bytes n) o = 0 := by
  simp [le32, byteAt_zero]

theorem le16_zero (o : ℕ) : le16 (fun _ => 0 : Bytes n) o = 0 := by
  simp [le16, byteAt_zero]

end Xv6.Schemes

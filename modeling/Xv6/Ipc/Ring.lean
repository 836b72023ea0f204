import Xv6.Param

/-! @src pipe.c | part:the ring of a pipe

  A pipe is a ring of `PIPESIZE` bytes between two `uint` counters that only grow, modulo `2 ^ 32`.
  `writeLoop` and `readLoop` are what `pipewrite` and `piperead` do between two sleeps.

      data   … x | b3 b4 b5 b6 | x …        nread ≡ 3,  nwrite ≡ 7
                   ^             ^
                 nread         nwrite -/

namespace Xv6.Pipe
open List (length_append length_singleton)

abbrev Byte := UInt8

theorem pipesize_pos : 0 < PIPESIZE := by decide

/-- A ring of bytes with counters that wrap. -/
structure Pipe where
  data : Fin PIPESIZE → Byte
  nread : ℕ
  nwrite : ℕ
  readopen : Bool
  writeopen : Bool

namespace Pipe

def place (k : ℕ) : Fin PIPESIZE := ⟨k % PIPESIZE, Nat.mod_lt _ pipesize_pos⟩

def full (p : Pipe) : Bool := p.nwrite = (p.nread + PIPESIZE) % 2 ^ 32

def empty (p : Pipe) : Bool := p.nread = p.nwrite

def count (p : Pipe) : ℕ := (p.nwrite + 2 ^ 32 - p.nread) % 2 ^ 32

def put (p : Pipe) (b : Byte) : Pipe :=
  { p with data := Function.update p.data (place p.nwrite) b, nwrite := (p.nwrite + 1) % 2 ^ 32 }

def front (p : Pipe) : Byte := p.data (place p.nread)

def advance (p : Pipe) : Pipe := { p with nread := (p.nread + 1) % 2 ^ 32 }

def contents (p : Pipe) : List Byte := (List.range p.count).map fun j => p.data (place (p.nread + j))

end Pipe

/-- How a run of `pipewrite` ends: all is written, it gives up, or it sleeps with bytes left. -/
inductive WriteEnd where
  | done
  | fail
  | sleep (rest : List Byte)

/-- The loop of `pipewrite` until it sleeps or returns: how it ends, what it stored, the pipe. -/
def writeLoop (killed : Bool) : Pipe → List Byte → WriteEnd × List Byte × Pipe
  | p, [] => (.done, [], p)
  | p, b :: bs =>
    if p.full then
      if !p.readopen || killed then (.fail, [], p) else (.sleep (b :: bs), [], p)
    else
      let r := writeLoop killed (p.put b) bs
      (r.1, b :: r.2.1, r.2.2)

def readLoop : ℕ → Pipe → List Byte × Pipe
  | 0, p => ([], p)
  | n + 1, p =>
    if p.empty then ([], p)
    else
      let r := readLoop n p.advance
      (p.front :: r.1, r.2)

/-- How a run of `piperead` ends: it gives up, it sleeps, or it returns bytes. -/
inductive ReadEnd where
  | fail
  | sleep
  | ret (bs : List Byte)

def readRun (killed : Bool) (n : ℕ) (p : Pipe) : ReadEnd × Pipe :=
  if p.empty && p.writeopen then
    if killed then (.fail, p) else (.sleep, p)
  else
    let r := readLoop n p
    (.ret r.1, r.2)

/-! ### The ring is a queue -/

/-- `read` are the bytes read so far and `written` those stored so far. -/
structure Lossless (p : Pipe) (written read : List Byte) : Prop where
  sub : read <+: written
  nread : p.nread = read.length % 2 ^ 32
  nwrite : p.nwrite = written.length % 2 ^ 32
  le : written.length ≤ read.length + PIPESIZE
  data : ∀ j, read.length ≤ j → ∀ b, written[j]? = some b → p.data (Pipe.place j) = b

section

variable {p : Pipe} {w r : List Byte}

theorem Pipe.place_mod (k : ℕ) : place (k % 2 ^ 32) = place k := by
  simp only [place, PIPESIZE, Fin.mk.injEq]
  omega

theorem Lossless.length_le (h : Lossless p w r) : r.length ≤ w.length := h.sub.length_le

theorem Lossless.full_iff (h : Lossless p w r) :
    p.full = true ↔ w.length = r.length + PIPESIZE := by
  have h1 := h.length_le
  have h2 := h.le
  simp only [Pipe.full, h.nread, h.nwrite, decide_eq_true_eq, PIPESIZE] at *
  omega

theorem Lossless.empty_iff (h : Lossless p w r) : p.empty = true ↔ w.length = r.length := by
  have h1 := h.length_le
  have h2 := h.le
  simp only [Pipe.empty, h.nread, h.nwrite, decide_eq_true_eq, PIPESIZE] at *
  omega

theorem Lossless.count_eq (h : Lossless p w r) : p.count = w.length - r.length := by
  have h1 := h.length_le
  have h2 := h.le
  simp only [Pipe.count, h.nread, h.nwrite, PIPESIZE] at *
  omega

theorem Lossless.put (h : Lossless p w r) (hf : p.full = false) (b : Byte) :
    Lossless (p.put b) (w ++ [b]) r := by
  have h1 := h.length_le
  have hlt : w.length < r.length + PIPESIZE := by
    have := h.le
    have hne : w.length ≠ r.length + PIPESIZE := fun hx => by
      rw [h.full_iff.mpr hx] at hf
      cases hf
    omega
  refine ⟨h.sub.trans (List.prefix_append _ _), h.nread, ?_, ?_, fun j hj c hc => ?_⟩
  · simp only [Pipe.put, h.nwrite, length_append, length_singleton]
    omega
  · simp only [length_append, length_singleton]
    omega
  · rcases lt_or_ge j w.length with hjw | hjw
    · -- an older byte: its place is another one
      rw [List.getElem?_append_left hjw] at hc
      have hne : Pipe.place j ≠ Pipe.place p.nwrite := by
        rw [h.nwrite, Pipe.place_mod]
        simp only [Pipe.place, ne_eq, Fin.mk.injEq, PIPESIZE] at *
        omega
      simp only [Pipe.put, Function.update_of_ne hne]
      exact h.data j hj c hc
    · rw [List.getElem?_append_right hjw] at hc
      have hj' : j = w.length := by
        by_contra hne
        rw [List.getElem?_eq_none (by simp only [length_singleton]; omega)] at hc
        cases hc
      subst hj'
      have hb : b = c := by simpa using hc
      simp only [Pipe.put, h.nwrite, Pipe.place_mod, Function.update_self]
      exact hb

theorem Lossless.advance (h : Lossless p w r) (he : p.empty = false) :
    Lossless p.advance w (r ++ [p.front]) := by
  have h1 := h.length_le
  have hlt : r.length < w.length := by
    have hne : w.length ≠ r.length := fun hx => by
      rw [h.empty_iff.mpr hx] at he
      cases he
    omega
  have hfront : w[r.length]? = some p.front := by
    rw [List.getElem?_eq_getElem hlt, Option.some.injEq]
    have := h.data r.length le_rfl _ (List.getElem?_eq_getElem hlt)
    rw [← this, Pipe.front, h.nread, Pipe.place_mod]
  refine ⟨?_, ?_, h.nwrite, ?_, fun j hj c hc => ?_⟩
  · obtain ⟨t, rfl⟩ := h.sub
    rw [List.getElem?_append_right le_rfl, Nat.sub_self] at hfront
    cases t with
    | nil => cases hfront
    | cons c t =>
      have hc : c = p.front := by simpa using hfront
      exact ⟨t, by simp [hc]⟩
  · simp only [Pipe.advance, h.nread, length_append, length_singleton]
    omega
  · have := h.le
    simp only [length_append, length_singleton]
    omega
  · refine h.data j ?_ c hc
    simp only [length_append, length_singleton] at hj
    omega

theorem Lossless.contents (h : Lossless p w r) : w = r ++ p.contents := by
  obtain ⟨t, rfl⟩ := h.sub
  rw [List.append_cancel_left_eq]
  refine List.ext_getElem ?_ fun j hj _ => ?_
  · simp [Pipe.contents, h.count_eq]
  · simp only [Pipe.contents, List.getElem_map, List.getElem_range, h.nread]
    have hplace : Pipe.place (r.length % 2 ^ 32 + j) = Pipe.place (r.length + j) := by
      simp only [Pipe.place, Fin.mk.injEq, PIPESIZE]
      omega
    rw [hplace]
    refine (h.data (r.length + j) (by omega) _ ?_).symm
    rw [List.getElem?_append_right (by omega), Nat.add_sub_cancel_left, List.getElem?_eq_getElem hj]

end

end Xv6.Pipe

import Mathlib.Algebra.Order.Group.Multiset
import Mathlib.Algebra.BigOperators.Group.List.Basic
import Xv6.Schemes.Circle
import Xv6.Schemes.Machine

/-! @src umalloc.c | part:user | name:Memory allocator | scheme:circle

  `malloc` and `free` over the circular list of free blocks. Addresses are bytes; a header at `a`
  holds `ptr a` and `size a`, and its block is the `size a` units of `sizeof(Header)` = 8 bytes from
  `a` on. Sizes and addresses are 32 bits wide. `sbrk` answers each call by -1 or by a region above
  all earlier ones.

      base --> ###### ------> ## ------> ######## --> base          # free, % live
               [  free ][ %%% ][  ][ %%%% ][    free  ]     brk -/

namespace Xv6.Umalloc
open Function

open Schemes

structure Heap where
  ptr : ℕ → ℕ
  size : ℕ → ℕ
  freep : Option ℕ

/-- The environment of `sbrk`: the end of what it has given, the regions as pairs of address and
  units, and its next answers: -1, or the distance from the end to the next region. -/
structure Brk where
  brk : ℕ
  regions : List (ℕ × ℕ)
  answers : List (Option ℕ)

/-! ### free -/

def hop (p n : ℕ) : ℕ := (p + 8 * n) % 2 ^ 32

/-- The two ways out of the loop of `free`: `bp` lies between `p` and its successor, or `p` is
  where the list wraps and `bp` lies beyond its ends. -/
def here (h : Heap) (bp p : ℕ) : Bool :=
  (p < bp && bp < h.ptr p) || (h.ptr p ≤ p && (p < bp || bp < h.ptr p))

def joinUpper (h : Heap) (p bp : ℕ) : Heap :=
  if hop bp (h.size bp) = h.ptr p then
    { h with
      size := update h.size bp ((h.size bp + h.size (h.ptr p)) % 2 ^ 32)
      ptr := update h.ptr bp (h.ptr (h.ptr p)) }
  else { h with ptr := update h.ptr bp (h.ptr p) }

def joinLower (h : Heap) (p bp : ℕ) : Heap :=
  if hop p (h.size p) = bp then
    { h with
      size := update h.size p ((h.size p + h.size bp) % 2 ^ 32)
      ptr := update h.ptr p (h.ptr bp) }
  else { h with ptr := update h.ptr p bp }

/-- Put a block back on the free list. -/
def free (fuel : ℕ) (h : Heap) (ap : ℕ) : Option Heap :=
  let bp := ap - 8
  h.freep.bind fun f =>
    (seek (here h bp) h.ptr fuel f).map fun p =>
      { joinLower (joinUpper h p bp) p bp with freep := some p }

/-! ### malloc -/

/-- A region of `n` bytes, if the next answer is one and it fits in the address space. -/
def sbrk (m : Brk) (n : ℕ) : Option ℕ × Brk :=
  match m.answers with
  | [] => (none, m)
  | none :: rest => (none, { m with answers := rest })
  | some gap :: rest =>
    if m.brk + gap + n < 2 ^ 32 then
      (some (m.brk + gap),
        { brk := m.brk + gap + n
          regions := m.regions ++ [(m.brk + gap, n / 8)]
          answers := rest })
    else (none, { m with answers := rest })

section

-- the rest of the allocator is the same over every `sbrk`
variable (grow : Brk → ℕ → Option ℕ × Brk)

def morecoreOn (fuel : ℕ) (h : Heap) (m : Brk) (nu : ℕ) : Option (Heap × Brk × Option ℕ) :=
  let nu := if nu < 4096 then 4096 else nu
  match grow m (nu * 8 % 2 ^ 32) with
  | (none, m) => some (h, m, none)
  | (some hp, m) =>
    (free fuel { h with size := update h.size hp nu } (hp + 8)).map fun h =>
      (h, m, h.freep)

def nunits (nbytes : ℕ) : ℕ := (nbytes + 8 - 1) % 2 ^ 32 / 8 + 1

/-- Take `n` units from the free block `p` that `prevp` points to: the whole block, or its end. -/
def take (h : Heap) (prevp p n : ℕ) : Heap × ℕ :=
  if h.size p = n then
    ({ h with ptr := update h.ptr prevp (h.ptr p), freep := some prevp }, p)
  else
    let rest := h.size p - n
    let q := hop p rest
    ({ h with
        size := update (update h.size p rest) q n, freep := some prevp }, q)

/-- The loop of `malloc`; `inner` bounds the loop of the `free` that `morecore` calls. `none`: the
  loop has not ended within its fuel. -/
def searchOn (inner n : ℕ) : ℕ → Heap → Brk → ℕ → ℕ → Option (Heap × Brk × Option ℕ)
  | 0, _, _, _, _ => none
  | fuel + 1, h, m, prevp, p =>
    if n ≤ h.size p then
      some ((take h prevp p n).1, m, some ((take h prevp p n).2 + 8))
    else if h.freep = some p then
      match morecoreOn grow inner h m n with
      | none => none
      | some (h, m, none) => some (h, m, none)
      | some (h, m, some q) => searchOn inner n fuel h m q (h.ptr q)
    else searchOn inner n fuel h m p (h.ptr p)

def start (base : ℕ) (h : Heap) : Heap :=
  match h.freep with
  | none =>
    { ptr := update h.ptr base base, size := update h.size base 0
      freep := some base }
  | some _ => h

/-- The allocator, over any `sbrk`. -/
def mallocOn (base fuel : ℕ) (h : Heap) (m : Brk) (nbytes : ℕ) :
    Option (Heap × Brk × Option ℕ) :=
  let h := start base h
  h.freep.bind fun prevp => searchOn grow fuel (nunits nbytes) fuel h m prevp (h.ptr prevp)

end

def morecore : ℕ → Heap → Brk → ℕ → Option (Heap × Brk × Option ℕ) := morecoreOn sbrk

def search (inner n : ℕ) : ℕ → Heap → Brk → ℕ → ℕ → Option (Heap × Brk × Option ℕ) :=
  searchOn sbrk inner n

def malloc (base fuel : ℕ) (h : Heap) (m : Brk) (nbytes : ℕ) : Option (Heap × Brk × Option ℕ) :=
  mallocOn sbrk base fuel h m nbytes

/-! ### Programs -/

/-- A program that allocates and frees: the heap, what `sbrk` gave, and the blocks in its hands as
  pairs of header and units. -/
structure State where
  heap : Heap
  mem : Brk
  live : List (ℕ × ℕ)

/-- What a program does with its memory: the two calls, and a store that changes what a header at
  `x` would read as. -/
inductive Call
  | malloc (nbytes : ℕ) (answers : List (Option ℕ))
  | free (ap : ℕ)
  | store (x ptr size : ℕ)

def State.fuel (s : State) : ℕ := 2 * s.mem.brk + 8

/-- One call. Only a pointer that `malloc` gave and that was not freed since may be freed, and only
  the inside of a live block, after its header, may be written; every other `none` is a loop that
  does not end. -/
def stepOn (grow : Brk → ℕ → Option ℕ × Brk) (base : ℕ) (s : State) : Call → Option State
  | .malloc nbytes answers =>
    (mallocOn grow base s.fuel s.heap { s.mem with answers } nbytes).map fun (h, m, r) =>
      { heap := h, mem := m
        live := match r with
          | none => s.live
          | some ap => (ap - 8, nunits nbytes) :: s.live }
  | .free ap =>
    match s.live.find? (·.1 + 8 = ap) with
    | none => none
    | some b => (free s.fuel s.heap ap).map fun h => { s with heap := h, live := s.live.erase b }
  | .store x ptr size =>
    if s.live.any fun b => b.1 < x && x < b.1 + 8 * b.2 then
      some { s with heap :=
        { s.heap with
          ptr := update s.heap.ptr x ptr, size := update s.heap.size x size } }
    else none

def step (base : ℕ) (s : State) (e : Call) : Option State := stepOn sbrk base s e

/-- Before the first call: `freep` is null, the rest of memory holds anything. -/
def initial (ptr size : ℕ → ℕ) (brk : ℕ) : State :=
  { heap := { ptr, size, freep := none }, mem := { brk, regions := [], answers := [] }, live := [] }

end Xv6.Umalloc

import Xv6.Schemes.Prog

/-! @src kalloc.c, vm.c, memlayout.h, mmu.h | part:page allocator and page tables | scheme:prog

  Physical memory by page frame. A pointer that `kalloc` returned and the physical address of its
  page are both given by the frame number, so `P2V` and `V2P` disappear; the null pointer is
  `none`. A page is its 1024 words: page directories and page tables are read from them, and
  `memset`, `memmove` and user stores write them. The free list is kept apart from the words of
  the free pages.

      pgdir --PDX(va)--> pde --> page table --PTX(va)--> pte --> page -/

namespace Xv6.Vm
open Schemes Prog
open Function

def PGSIZE : ℕ := 4096
def KERNBASE : ℕ := 0x80000000
def DEVSPACE : ℕ := 0xFE000000
def WORD : ℕ := 2 ^ 32

def PTE_P : ℕ := 1
def PTE_W : ℕ := 2
def PTE_U : ℕ := 4

def present (w : ℕ) : Bool := w.testBit 0

def userBit (w : ℕ) : Bool := w.testBit 2

def pteAddr (w : ℕ) : ℕ := w >>> 12

def pteFlags (w : ℕ) : ℕ := w % 4096

def mkPte (frame flags : ℕ) : ℕ := frame <<< 12 ||| flags

def pdx (va : ℕ) : Fin 1024 := ⟨va / 2 ^ 22 % 1024, Nat.mod_lt _ (by decide)⟩
def ptx (va : ℕ) : Fin 1024 := ⟨va / 2 ^ 12 % 1024, Nat.mod_lt _ (by decide)⟩
def pgRoundUp (a : ℕ) : ℕ := (a + PGSIZE - 1) / PGSIZE * PGSIZE % WORD
def pgRoundDown (a : ℕ) : ℕ := a / PGSIZE * PGSIZE

abbrev Page := Fin 1024 → ℕ

/-- The words of all pages, and the free list. -/
structure Kmem where
  mem : ℕ → Page
  freelist : List ℕ

/-- An entry of `kmap`, in pages: `size` frames from `phys` on, at `virt`, writable or not. -/
structure Kmap where
  virt : ℕ
  phys : ℕ
  size : ℕ
  w : Bool

/-- What the linker and the machine decide: the first and last frame of the allocator, and `kmap`.
  The kernel comes first in memory, and every kernel mapping lies in the kernel part of the
  address space. -/
structure Layout where
  kend : ℕ
  top : ℕ
  kmap : List Kmap
  kend_pos : 0 < kend
  kernel : ∀ k ∈ kmap, KERNBASE ≤ k.virt * PGSIZE ∧ 0 < k.size ∧ (k.virt + k.size) * PGSIZE ≤ WORD

inductive Stop where
  | panic (msg : String)
  /-- The null pointer is dereferenced. -/
  | fault
  deriving DecidableEq

abbrev K := Prog Kmem Stop

def setPage (p : ℕ) (c : Page) : K Unit :=
  modify fun s => { s with mem := update s.mem p c }

def setWord (p : ℕ) (i : Fin 1024) (w : ℕ) : K Unit :=
  modify fun s => { s with mem := update s.mem p (update (s.mem p) i w) }

/-- Take a page from the free list. -/
def kalloc : K (Option ℕ) := do
  let s ← get
  match s.freelist with
  | [] => pure none
  | r :: next =>
    modify fun s => { s with freelist := next }
    pure (some r)

variable (L : Layout)

/-- A page the allocator manages: not below `end`, below `PHYSTOP`. -/
def Layout.Managed (p : ℕ) : Prop := L.kend ≤ p ∧ p < L.top

instance (p : ℕ) : Decidable (L.Managed p) := inferInstanceAs (Decidable (_ ∧ _))

/-- Give a page back. -/
def kfree (p : ℕ) : K Unit := do
  if L.Managed p then
    setPage p fun _ => 0x01010101
    modify fun s => { s with freelist := p :: s.freelist }
  else stop (.panic "kfree")

/-- The page table entry for `va`, as a page and an index; page table pages are created if `alloc`. -/
def walkpgdir (pgdir va : ℕ) (alloc : Bool) : K (Option (ℕ × Fin 1024)) := do
  let s ← get
  let pde := s.mem pgdir (pdx va)
  if present pde then pure (some (pteAddr pde, ptx va))
  else if alloc then
    match ← kalloc with
    | none => pure none
    | some pgtab =>
      setPage pgtab fun _ => 0
      setWord pgdir (pdx va) (mkPte pgtab (PTE_P ||| PTE_W ||| PTE_U))
      pure (some (pgtab, ptx va))
  else pure none

def mappagesFrom (pgdir perm : ℕ) : ℕ → ℕ → ℕ → K Bool
  | 0, _, _ => pure true
  | n + 1, a, frame => do
    match ← walkpgdir pgdir a true with
    | none => pure false
    | some (pgtab, j) =>
      let s ← get
      if present (s.mem pgtab j) then stop (.panic "remap")
      else
        setWord pgtab j (mkPte frame (perm ||| PTE_P))
        mappagesFrom pgdir perm n ((a + PGSIZE) % WORD) ((frame + 1) % 2 ^ 20)

/-- Map `size` bytes at `va`; both ends are rounded down to pages, with 32-bit wrap-around. -/
def mappages (pgdir va size frame perm : ℕ) : K Bool :=
  let a := pgRoundDown va
  let last := pgRoundDown ((va + size + WORD - 1) % WORD)
  mappagesFrom pgdir perm ((last + WORD - a) % WORD / PGSIZE + 1) a frame

def deallocuvmFrom (pgdir oldsz : ℕ) : ℕ → ℕ → K Unit
  | 0, _ => pure ()
  | n + 1, a =>
    if a < oldsz then do
      match ← walkpgdir pgdir a false with
      | none => deallocuvmFrom pgdir oldsz n ((a / 2 ^ 22 + 1) * 2 ^ 22)
      | some (pgtab, j) =>
        let s ← get
        let pte := s.mem pgtab j
        if present pte then
          if pteAddr pte = 0 then stop (.panic "kfree")
          else
            kfree L (pteAddr pte)
            setWord pgtab j 0
            deallocuvmFrom pgdir oldsz n (a + PGSIZE)
        else deallocuvmFrom pgdir oldsz n (a + PGSIZE)
    else pure ()

/-- Deallocate user pages to bring the process size from `oldsz` to `newsz`. -/
def deallocuvm (pgdir oldsz newsz : ℕ) : K ℕ :=
  if newsz ≥ oldsz then pure oldsz
  else do
    deallocuvmFrom L pgdir oldsz (oldsz / PGSIZE + 1) (pgRoundUp newsz)
    pure newsz

def freeTables (pgdir : ℕ) : List (Fin 1024) → K Unit
  | [] => pure ()
  | i :: is => do
    let s ← get
    let pde := s.mem pgdir i
    if present pde then
      kfree L (pteAddr pde)
      freeTables pgdir is
    else freeTables pgdir is

/-- Free a page table and all the physical memory pages in the user part. -/
def freevm (pgdir : Option ℕ) : K Unit :=
  match pgdir with
  | none => stop (.panic "freevm: no pgdir")
  | some pgdir => do
    let _ ← deallocuvm L pgdir KERNBASE 0
    freeTables L pgdir (List.finRange 1024)
    kfree L pgdir

def mapEntry (pgdir : ℕ) (k : Kmap) : K Bool :=
  mappages pgdir (k.virt * PGSIZE) (k.size * PGSIZE) k.phys (if k.w then PTE_W else 0)

def mapKernel (pgdir : ℕ) (ks : List Kmap) : K Bool :=
  ks.foldr (fun k rest => do if ← mapEntry pgdir k then rest else pure false) (pure true)

def setupkvmPage : Option ℕ → K (Option ℕ)
  | none => pure none
  | some pgdir => do
    setPage pgdir fun _ => 0
    if KERNBASE + L.top * PGSIZE > DEVSPACE then stop (.panic "PHYSTOP too high")
    else if ← mapKernel pgdir L.kmap then pure (some pgdir)
    else
      freevm L (some pgdir)
      pure none

/-- A page table with the kernel part. -/
def setupkvm : K (Option ℕ) := kalloc >>= setupkvmPage L

/-- Load the initcode into address 0 of `pgdir`; a null `mem` is a trap in the kernel. -/
def inituvm (pgdir : ℕ) (init : Page) : K Unit := do
  match ← kalloc with
  | none => stop (.panic "trap")
  | some mem =>
    setPage mem fun _ => 0
    let _ ← mappages pgdir 0 PGSIZE mem (PTE_W ||| PTE_U)
    setPage mem init

/-- One turn of the loop of `allocuvm` at `a` with the page `kalloc` gave, and what comes after it. -/
def allocuvmPage (pgdir oldsz newsz a : ℕ) (next : K ℕ) : Option ℕ → K ℕ
  | none => do
    let _ ← deallocuvm L pgdir newsz oldsz
    pure 0
  | some mem => do
    setPage mem fun _ => 0
    if ← mappages pgdir a PGSIZE mem (PTE_W ||| PTE_U) then next
    else
      let _ ← deallocuvm L pgdir newsz oldsz
      kfree L mem
      pure 0

def allocuvmFrom (pgdir oldsz newsz : ℕ) : ℕ → ℕ → K ℕ
  | 0, _ => pure newsz
  | n + 1, a =>
    kalloc >>= allocuvmPage L pgdir oldsz newsz a (allocuvmFrom pgdir oldsz newsz n (a + PGSIZE))

/-- Allocate page tables and physical memory to grow from `oldsz` to `newsz`; 0 on error. -/
def allocuvm (pgdir oldsz newsz : ℕ) : K ℕ :=
  if newsz ≥ KERNBASE then pure 0
  else if newsz < oldsz then pure oldsz
  else
    let a := pgRoundUp oldsz
    allocuvmFrom L pgdir oldsz newsz ((newsz - a + PGSIZE - 1) / PGSIZE) a

/-- Clear the user bit of a page. -/
def clearpteu (pgdir uva : ℕ) : K Unit := do
  match ← walkpgdir pgdir uva false with
  | none => stop (.panic "clearpteu")
  | some (pgtab, j) =>
    let s ← get
    setWord pgtab j (s.mem pgtab j ^^^ (s.mem pgtab j &&& PTE_U))

/-- How the loop of `copyuvm` ends: the copy is complete, or `goto bad` because there is no page for
  the contents or none for a page table. -/
inductive CopyEnd where
  | done
  | noPage
  | noTable
  deriving DecidableEq

def copyuvmPage (d a pte : ℕ) (c : Page) (next : K CopyEnd) : Option ℕ → K CopyEnd
  | none => pure .noPage
  | some mem => do
    setPage mem c
    if ← mappages d a PGSIZE mem (pteFlags pte) then next else pure .noTable

/-- One turn of the loop of `copyuvm` at `a` with the entry that `walkpgdir` found, and what comes
  after it. -/
def copyuvmEntry (d a : ℕ) (next : K CopyEnd) : Option (ℕ × Fin 1024) → K CopyEnd
  | none => stop (.panic "copyuvm: pte should exist")
  | some (pgtab, j) => do
    let s ← get
    if present (s.mem pgtab j) then
      kalloc >>= copyuvmPage d a (s.mem pgtab j) (s.mem (pteAddr (s.mem pgtab j))) next
    else stop (.panic "copyuvm: page not present")

def copyuvmFrom (pgdir d : ℕ) : ℕ → ℕ → K CopyEnd
  | 0, _ => pure .done
  | n + 1, a =>
    walkpgdir pgdir a false >>= copyuvmEntry d a (copyuvmFrom pgdir d n (a + PGSIZE))

def copyuvmEnd (d : ℕ) : CopyEnd → K (Option ℕ)
  | .done => pure (some d)
  | .noPage | .noTable => do
    freevm L (some d)
    pure none

def copyuvmInto (pgdir sz : ℕ) : Option ℕ → K (Option ℕ)
  | none => pure none
  | some d => copyuvmFrom pgdir d ((sz + PGSIZE - 1) / PGSIZE) 0 >>= copyuvmEnd L d

/-- A copy of an address space for a child. -/
def copyuvm (pgdir sz : ℕ) : K (Option ℕ) := setupkvm L >>= copyuvmInto L pgdir sz

end Xv6.Vm

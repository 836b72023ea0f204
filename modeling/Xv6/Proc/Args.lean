import Xv6.Param
import Xv6.Vm.Paging

/-! @src syscall.c, sysfile.c | part:arguments of system calls | scheme:none

  A system call finds its arguments through the user's `%esp`, which may hold anything. Addresses
  and words are 32 bits wide and all sums wrap around; `sz` is the size of the process and memory
  is read only through the checks below.

      esp -> [ return pc ][ arg 0 ][ arg 1 ] ...        0 ≤ byte < sz ≤ KERNBASE -/

namespace Xv6.Args
open Xv6.Vm
open Option (some map_eq_some_iff bind_eq_some_iff)

/-- What the checks read of the current process: its size, the user's `%esp` and its memory. -/
structure Uproc where
  sz : ℕ
  esp : ℕ
  mem : ℕ → UInt8
  sz_le : sz ≤ KERNBASE

def Uproc.word (p : Uproc) (addr : ℕ) : ℕ :=
  (p.mem addr).toNat + 2 ^ 8 * (p.mem (addr + 1)).toNat + 2 ^ 16 * (p.mem (addr + 2)).toNat +
    2 ^ 24 * (p.mem (addr + 3)).toNat

def fetchint (p : Uproc) (addr : ℕ) : Option ℕ :=
  if addr ≥ p.sz ∨ (addr + 4) % WORD > p.sz then none else some (p.word addr)

/-- The loop of `fetchstr`, `n` bytes before `ep`: the length of the string from `s` on. -/
def strscan (mem : ℕ → UInt8) : ℕ → ℕ → Option ℕ
  | 0, _ => none
  | n + 1, s => if mem s = 0 then some 0 else (strscan mem n (s + 1)).map (· + 1)

/-- Fetch the nul-terminated string at `addr`: its address and its length. -/
def fetchstr (p : Uproc) (addr : ℕ) : Option (ℕ × ℕ) :=
  if addr ≥ p.sz then none else (strscan p.mem (p.sz - addr) addr).map fun n => (addr, n)

def argAddr (p : Uproc) (n : ℤ) : ℕ := ((p.esp + 4 + 4 * n) % WORD).toNat

def argint (p : Uproc) (n : ℤ) : Option ℕ := fetchint p (argAddr p n)

def argptr (p : Uproc) (n size : ℤ) : Option ℕ :=
  (argint p n).bind fun i =>
    if size < 0 ∨ i ≥ p.sz ∨ (i + size) % WORD > p.sz then none else some i

def argstr (p : Uproc) (n : ℤ) : Option (ℕ × ℕ) := (argint p n).bind (fetchstr p)

/-- The loop of `sys_exec` over the user's `argv` from entry `i` on; the kernel's array has room for
  `room` more. -/
def scanArgv (p : Uproc) (uargv : ℕ) : ℕ → ℕ → Option (List (ℕ × ℕ))
  | 0, _ => none
  | room + 1, i =>
    match fetchint p ((uargv + 4 * i) % WORD) with
    | none => none
    | some uarg =>
      if uarg = 0 then some []
      else
        match fetchstr p uarg with
        | none => none
        | some s => (scanArgv p uargv room (i + 1)).map (s :: ·)

def sysExec (p : Uproc) : Option ((ℕ × ℕ) × List (ℕ × ℕ)) :=
  (argstr p 0).bind fun path =>
    (argint p 1).bind fun uargv => (scanArgv p uargv MAXARG 0).map fun argv => (path, argv)

/-! ### What is accepted lies in the process -/

variable {p : Uproc}

def Uproc.Inside (p : Uproc) (a n : ℕ) : Prop := ∀ k < n, a + k < p.sz

/-- The string at `a` of length `len`, its nul included, belongs to the process. -/
def Uproc.Str (p : Uproc) (s : ℕ × ℕ) : Prop :=
  p.Inside s.1 (s.2 + 1) ∧ (∀ k < s.2, p.mem (s.1 + k) ≠ 0) ∧ p.mem (s.1 + s.2) = 0

theorem inside_of_le {a n : ℕ} (h : a + n ≤ p.sz) : p.Inside a n := fun k hk => by omega

theorem fetchint_eq_some {addr v : ℕ} :
    fetchint p addr = some v ↔ addr + 4 ≤ p.sz ∧ v = p.word addr := by
  have hsz := p.sz_le
  have hiff : addr ≥ p.sz ∨ (addr + 4) % WORD > p.sz ↔ ¬ addr + 4 ≤ p.sz := by
    simp only [WORD, KERNBASE] at *
    omega
  rw [fetchint]
  simp only [hiff]
  constructor
  · intro h
    split_ifs at h with hc
    exact ⟨hc, (some.inj h).symm⟩
  · rintro ⟨h, rfl⟩
    rw [if_neg (not_not.mpr h)]

theorem strscan_spec {mem : ℕ → UInt8} : ∀ {n s len : ℕ}, strscan mem n s = some len →
    len < n ∧ (∀ k < len, mem (s + k) ≠ 0) ∧ mem (s + len) = 0
  | n + 1, s, len, h => by
    rw [strscan] at h
    split_ifs at h with h0
    · cases h
      exact ⟨Nat.succ_pos n, fun k hk => absurd hk (Nat.not_lt_zero k), h0⟩
    · obtain ⟨m, hm, rfl⟩ := map_eq_some_iff.mp h
      obtain ⟨hlt, hne, hz⟩ := strscan_spec hm
      refine ⟨Nat.succ_lt_succ hlt, fun k hk => ?_, by rw [← hz]; congr 1; omega⟩
      cases k with
      | zero => exact h0
      | succ k =>
        have := hne k (by omega)
        rwa [show s + 1 + k = s + (k + 1) by omega] at this

theorem fetchstr_spec {addr : ℕ} {s : ℕ × ℕ} (h : fetchstr p addr = some s) :
    s.1 = addr ∧ p.Str s := by
  rw [fetchstr] at h
  split_ifs at h with hc
  obtain ⟨len, hlen, rfl⟩ := map_eq_some_iff.mp h
  obtain ⟨hlt, hne, hz⟩ := strscan_spec hlen
  exact ⟨rfl, inside_of_le (by dsimp only; omega), hne, hz⟩

theorem argptr_eq_some {n size : ℤ} (hlo : -2 ^ 31 ≤ size) (hhi : size < 2 ^ 31) {a : ℕ} :
    argptr p n size = some a ↔
      argint p n = some a ∧ 0 ≤ size ∧ a < p.sz ∧ a + size.toNat ≤ p.sz := by
  have hsz := p.sz_le
  rw [argptr, bind_eq_some_iff]
  constructor
  · rintro ⟨i, hi, h⟩
    split_ifs at h with hc
    cases h
    refine ⟨hi, ?_⟩
    simp only [WORD, KERNBASE] at *
    omega
  · rintro ⟨hi, h0, hlt, hle⟩
    refine ⟨a, hi, if_neg ?_⟩
    simp only [WORD, KERNBASE] at *
    omega

theorem scanArgv_spec {uargv : ℕ} : ∀ {room i : ℕ} {argv : List (ℕ × ℕ)},
    scanArgv p uargv room i = some argv → argv.length < room ∧
      (∀ k ≤ argv.length, p.Inside ((uargv + 4 * (i + k)) % WORD) 4) ∧ ∀ s ∈ argv, p.Str s
  | room + 1, i, argv, h => by
    rw [scanArgv] at h
    cases hw : fetchint p ((uargv + 4 * i) % WORD) with
    | none =>
      rw [hw] at h
      cases h
    | some uarg =>
      rw [hw] at h
      dsimp only at h
      have hin : p.Inside ((uargv + 4 * i) % WORD) 4 :=
        inside_of_le (fetchint_eq_some.mp hw).1
      split_ifs at h with h0
      · cases h
        refine ⟨Nat.succ_pos room, fun k hk => ?_, fun s hs => absurd hs List.not_mem_nil⟩
        obtain rfl : k = 0 := by simpa using hk
        exact hin
      · cases hs : fetchstr p uarg with
        | none =>
          rw [hs] at h
          cases h
        | some s =>
          rw [hs] at h
          obtain ⟨rest, hrest, rfl⟩ := map_eq_some_iff.mp h
          obtain ⟨hlen, hwords, hstrs⟩ := scanArgv_spec hrest
          refine ⟨Nat.succ_lt_succ hlen, fun k hk => ?_, fun s' hs' => ?_⟩
          · cases k with
            | zero => exact hin
            | succ k =>
              have := hwords k (Nat.le_of_succ_le_succ hk)
              rwa [show i + 1 + k = i + (k + 1) by omega] at this
          · rcases List.mem_cons.mp hs' with rfl | hs'
            · exact (fetchstr_spec hs).2
            · exact hstrs s' hs'

/-- Whatever the user's `%esp` and memory hold: an argument that is accepted lies in the process, to
  its last byte, and an int or a block of positive size that lies in the process is accepted. -/
theorem arguments_confined (p : Uproc) :
    (∀ n v, argint p n = some v → p.Inside (argAddr p n) 4 ∧ v = p.word (argAddr p n)) ∧
    (∀ n size a, -2 ^ 31 ≤ size → size < 2 ^ 31 → argptr p n size = some a →
      argint p n = some a ∧ 0 ≤ size ∧ p.Inside a size.toNat) ∧
    (∀ n s, argstr p n = some s → argint p n = some s.1 ∧ p.Str s) ∧
    (∀ path argv, sysExec p = some (path, argv) → p.Str path ∧ argv.length < MAXARG ∧
      (∃ uargv, argint p 1 = some uargv ∧
        ∀ k ≤ argv.length, p.Inside ((uargv + 4 * k) % WORD) 4) ∧ ∀ s ∈ argv, p.Str s) ∧
    (∀ n, p.Inside (argAddr p n) 4 → ∃ v, argint p n = some v) ∧
    (∀ n size a, 0 < size → size < 2 ^ 31 → argint p n = some a → p.Inside a size.toNat →
      argptr p n size = some a) := by
  refine ⟨fun n v h => ?_, fun n size a hlo hhi h => ?_, fun n s h => ?_, fun path argv h => ?_,
    fun n h => ?_, fun n size a hpos hhi ha h => ?_⟩
  · obtain ⟨hle, hv⟩ := fetchint_eq_some.mp h
    exact ⟨inside_of_le hle, hv⟩
  · obtain ⟨hi, h0, _, hle⟩ := (argptr_eq_some hlo hhi).mp h
    exact ⟨hi, h0, inside_of_le hle⟩
  · obtain ⟨addr, haddr, hs⟩ := bind_eq_some_iff.mp h
    obtain ⟨rfl, hstr⟩ := fetchstr_spec hs
    exact ⟨haddr, hstr⟩
  · obtain ⟨path', hpath, h⟩ := bind_eq_some_iff.mp h
    obtain ⟨uargv, huargv, h⟩ := bind_eq_some_iff.mp h
    obtain ⟨argv', hargv, heq⟩ := map_eq_some_iff.mp h
    cases heq
    obtain ⟨_, _, hs⟩ := bind_eq_some_iff.mp hpath
    obtain ⟨hlen, hwords, hstrs⟩ := scanArgv_spec hargv
    refine ⟨(fetchstr_spec hs).2, hlen, ⟨uargv, huargv, fun k hk => ?_⟩, hstrs⟩
    simpa using hwords k hk
  · exact ⟨_, fetchint_eq_some.mpr ⟨by have := h 3 (by decide); omega, rfl⟩⟩
  · -- a positive size has a last byte, and it is below `sz`
    have hlast := h (size.toNat - 1) (by omega)
    exact (argptr_eq_some (by omega) hhi).mpr ⟨ha, hpos.le, by omega, by omega⟩

def sixteen : Uproc where
  sz := 16
  esp := 0
  mem := fun a => if a = 4 then 8 else 0
  sz_le := by decide

/-- The last eight bytes are a block, and the empty string at 8 ends inside. -/
theorem arguments_confined_sixteen : argptr sixteen 0 8 = some 8 ∧ sixteen.Inside 8 8 ∧
    argstr sixteen 0 = some (8, 0) ∧ sixteen.Str (8, 0) := by
  obtain ⟨_, hptr, hstr, _, _, hblock⟩ := arguments_confined sixteen
  have hint : argint sixteen 0 = some 8 := by decide
  have hacc := hblock 0 8 8 (by decide) (by decide) hint (inside_of_le (by decide))
  exact ⟨hacc, (hptr 0 8 8 (by decide) (by decide) hacc).2.2, by decide, (hstr 0 _ (by decide)).2⟩

end Xv6.Args

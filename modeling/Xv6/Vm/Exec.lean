import Xv6.Param
import Xv6.Vm.Load

/-! @src exec.c | part:exec | scheme:prog, exclusive

  The whole of `exec` for a file that has been found: loading, the arguments on the user stack, and
  the commit. What is pushed on the stack fits in its page or is stopped by the guard page below it,
  or by the kernel where the stack pointer wraps. -/

namespace Xv6.Vm
open Schemes Prog
open List (replicate)
open Option (some)

structure ExecProc where
  pgdir : ℕ
  sz : ℕ
  eip : ℕ
  esp : ℕ
  name : List Char

structure Exec where
  mem : Kmem
  proc : ExecProc

abbrev E := Prog Exec Stop

def onExec {α : Type} (m : K α) : E α := fun s => ((m s.mem).1, { s with mem := (m s.mem).2 })

def pushed (sp n : ℕ) : ℕ := (sp + WORD - n % WORD) % WORD / 4 * 4

/-- The loop over `argv`; `us` are the addresses pushed so far. `none` is `goto bad`. -/
def pushArgs (pgdir : ℕ) : List (List ℕ) → ℕ → ℕ → List ℕ → K (Option (ℕ × List ℕ))
  | [], _, sp, us => pure (some (sp, us))
  | s :: ss, argc, sp, us =>
    if argc ≥ MAXARG then pure none
    else copyout pgdir (pushed sp (s.length + 1)) (s ++ [0]) >>= fun ok =>
      if ok then
        pushArgs pgdir ss (argc + 1) (pushed sp (s.length + 1)) (us ++ [pushed sp (s.length + 1)])
      else pure none

def bytesOf (ws : List ℕ) : List ℕ :=
  ws.flatMap fun w => [w % 256, w / 256 % 256, w / 65536 % 256, w / 16777216 % 256]

/-- `ustack`: fake return PC, `argc`, the pointer to the vector, the vector. -/
def ustack (argc sp : ℕ) (us : List ℕ) : List ℕ :=
  [0xffffffff, argc, (sp + WORD - (argc + 1) * 4) % WORD] ++ us ++ [0]

def pushStack (pgdir argc : ℕ) : Option (ℕ × List ℕ) → K (Option ℕ)
  | none => pure none
  | some (sp, us) =>
    copyout pgdir ((sp + WORD - (3 + argc + 1) * 4) % WORD) (bytesOf (ustack argc sp us)) >>= fun ok =>
      pure (if ok then some ((sp + WORD - (3 + argc + 1) * 4) % WORD) else none)

def execArgs (pgdir sz : ℕ) (argv : List (List ℕ)) : K (Option ℕ) :=
  pushArgs pgdir argv 0 sz [] >>= pushStack pgdir argv.length

variable (L : Layout)

def lastName : List Char → List Char → List Char
  | last, [] => last
  | last, c :: s => lastName (if c = '/' then s else last) s

def execCommit (path : List Char) (entry pgdir sz : ℕ) : Option ℕ → E Bool
  | none => do
    onExec (freevm L (some pgdir))
    pure false
  | some sp => do
    let s ← get
    modify fun s =>
      { s with proc := ⟨pgdir, sz, entry, sp, (lastName path path).take 15⟩ }
    onExec (freevm L (some s.proc.pgdir))
    pure true

def execLoaded (path : List Char) (argv : List (List ℕ)) (entry : ℕ) : Option (ℕ × ℕ) → E Bool
  | none => pure false
  | some (pgdir, sz) => onExec (execArgs pgdir sz argv) >>= execCommit L path entry pgdir sz

def loading (file : List ℕ) : E (Option (ℕ × ℕ)) := onExec (execLoad L file)

/-- Replace the program of a process. -/
def exec (path : List Char) (file : List ℕ) (argv : List (List ℕ)) : E Bool :=
  loading L file >>= execLoaded L path argv ((readElf file).elim 0 Elfhdr.entry)

/-! ### Loading -/

variable {L : Layout} {ι δ : Type} {items : ι → Option ℕ} {roots : δ → Option ℕ} {d : δ}
  {σ σ0 σ1 σ' : Kmem} {s s' : Exec} {r sz sp a va : ℕ} {img : ℕ → ℕ} {buf : List ℕ}

theorem onExec_of_ok {α : Type} {m : K α} {x : α} (h : m s.mem = (.ok x, σ)) :
    onExec m s = (.ok x, { s with mem := σ }) := by
  rw [onExec, h]

/-- Whatever the file holds, the loading part of `exec` returns. It writes only to pages that were
  free. Either it fails and all pages are free again, or every page below `sz` is mapped, all but
  the one below the stack page for the user, with the bytes of the segments over zeros. -/
theorem exec_loading (L : Layout) (items : ι → Option ℕ) (roots : δ → Option ℕ) (s : Exec)
    (hown : Own L s.mem items roots) (hsep : L.Separate)
    (htop : KERNBASE + L.top * PGSIZE ≤ DEVSPACE) (file : List ℕ) (hfile : ∀ x ∈ file, x < 256)
    (hlen : file.length < 2 ^ 32) :
    ∃ o s', loading L file s = (.ok o, s') ∧ s'.proc = s.proc ∧
      (∀ q, q ∉ s.mem.freelist → s'.mem.mem q = s.mem.mem q) ∧
      ((o = none ∧ ∀ q, q ∈ s'.mem.freelist ↔ q ∈ s.mem.freelist) ∨
      ∃ elf r sz, o = some (r, sz) ∧ readElf file = some elf ∧ sz % PGSIZE = 0 ∧
        2 * PGSIZE ≤ sz ∧ sz < KERNBASE ∧ r ∈ s.mem.freelist ∧
        (∀ i j, vaOf i j < sz → ∃ w, entryOf s'.mem r i j = some w ∧
          pteAddr w ∈ s.mem.freelist ∧ (userBit w = true ↔ vaOf i j ≠ sz - 2 * PGSIZE)) ∧
        (∀ i j, i.val < 512 → sz ≤ vaOf i j → entryOf s'.mem r i j = none) ∧
        ∀ a < sz, userByte s'.mem r a = some (image file elf.phnum elf.phoff (fun _ => 0) a)) := by
  obtain ⟨o, σ', hrun, hcase⟩ := execLoad_run hown hsep htop hfile hlen
  refine ⟨o, _, onExec_of_ok hrun, rfl, ?_⟩
  rcases hcase with ⟨rfl, hres⟩ | ⟨elf, r, sz, rfl, helf, h⟩
  · exact ⟨hres.mem, .inl ⟨rfl, fun q => by have := hres.free q; simpa using this.symm⟩⟩
  · refine ⟨h.built.mem, .inr ⟨elf, r, sz, rfl, helf, h.aligned, h.two, h.lt,
      (h.built.free r).mpr (.inr (.inr (.inl rfl))), fun i j hv => ?_, h.above, h.byte⟩⟩
    obtain ⟨w, hw, hu⟩ := h.page i j hv
    exact ⟨w, hw, (h.built.free _).mpr (.inr (.inr (.inr (.inr
      ⟨i, j, w, vaOf_lt_kernbase.mp (hv.trans h.lt), hw, rfl⟩)))), hu⟩

theorem separate_tiny : tinyLayout.Separate := by simp [Layout.Separate, tinyLayout]

/-- A header, one program header and the two bytes of its segment. -/
def twoBytes : List ℕ :=
  [0x7f, 0x45, 0x4c, 0x46] ++ replicate 24 0 ++ [52] ++ replicate 15 0 ++ [1] ++
    replicate 7 0 ++ [1, 0, 0, 0, 84] ++ replicate 11 0 ++ [2, 0, 0, 0, 2] ++
    replicate 11 0 ++ [65, 66]

def bareExec : Exec := ⟨⟨fun _ _ => 0, List.range' 2 15⟩, ⟨1, 0, 0, 0, []⟩⟩

/-- That program is loaded, and its two bytes are read back at address 0, with zeros after them. -/
theorem exec_loading_segment : ∃ s', loading tinyLayout twoBytes bareExec =
      (.ok (some (2, 12288)), s') ∧ s'.proc = bareExec.proc ∧
      userByte s'.mem 2 0 = some 65 ∧ userByte s'.mem 2 1 = some 66 ∧
      userByte s'.mem 2 2 = some 0 := by
  have hok : (loading tinyLayout twoBytes bareExec).1.toOption = some (some (2, 12288)) := by
    decide +kernel
  obtain ⟨o, s', hrun, hproc, _, hcase⟩ := exec_loading tinyLayout (fun _ : Empty => none)
    (fun _ : Unit => some 1) bareExec own_tiny separate_tiny (by decide) twoBytes (by decide)
    (by decide)
  rw [hrun] at hok
  obtain rfl : o = some (2, 12288) := some.inj hok
  obtain ⟨hnone, _⟩ | ⟨elf, r, sz, ho, helf, _, _, _, _, _, _, hbyte⟩ := hcase
  · cases hnone
  · cases ho
    obtain rfl : elf = ⟨0, 52, 1⟩ := some.inj (helf.symm.trans rfl)
    exact ⟨s', hrun, hproc, (hbyte 0 (by decide)).trans (by decide),
      (hbyte 1 (by decide)).trans (by decide), (hbyte 2 (by decide)).trans (by decide)⟩

/-! ### Pushing -/

theorem Ready.write (h : Ready L items roots σ0 r sz img σ)
    (hw : Wrote L (withTmp items none) (withTmp roots (some r)) r σ σ')
    (hh : Holds σ r va buf σ') (hfit : va + buf.length ≤ sz) :
    Ready L items roots σ0 r sz (moved img va buf) σ' where
  built := h.built.wrote hw
  lt := h.lt
  aligned := h.aligned
  two := h.two
  page i j hv := by rw [hw.entry]; exact h.page i j hv
  above i j hi hv := by rw [hw.entry]; exact h.above i j hi hv
  byte := hh.moved h.lt.le (hfit.trans h.lt.le) h.byte

theorem Ready.accessible (h : Ready L items roots σ0 r sz img σ) (ha : a < sz) :
    (Accessible σ r a ↔ ¬ (sz - 2 * PGSIZE ≤ a ∧ a < sz - PGSIZE)) ∧
      tableOf σ r (pdx a) ≠ none := by
  have hlt := h.lt
  have htwo := h.two
  have hal := h.aligned
  have hva := vaOf_round (a := a) (by simp only [WORD, KERNBASE] at *; omega)
  obtain ⟨w, hw, hu⟩ := h.page (pdx a) (ptx a) (by
    rw [hva]
    simp only [pgRoundDown, PGSIZE]
    omega)
  obtain ⟨t, ht, _⟩ := entryOf_eq_some.mp hw
  have hiff : vaOf (pdx a) (ptx a) = sz - 2 * PGSIZE ↔ sz - 2 * PGSIZE ≤ a ∧ a < sz - PGSIZE := by
    rw [hva]
    simp only [pgRoundDown, PGSIZE] at *
    omega
  refine ⟨⟨?_, fun hx => ⟨w, hw, hu.mpr (mt hiff.mp hx)⟩⟩, by rw [ht]; simp⟩
  rintro ⟨w', hw', hu'⟩
  obtain rfl := some.inj (hw'.symm.trans hw)
  exact mt hiff.mpr (hu.mp hu')

theorem copyout_kernel (h : Own L σ items roots) (hd : roots d = some r) (hlo : KERNBASE ≤ va)
    (hva : va < WORD) (hpos : 0 < buf.length) (σ' : Kmem) : copyout r va buf σ ≠ (.ok true, σ') := by
  obtain ⟨b, bs, rfl⟩ := List.exists_cons_of_length_pos hpos
  have hround : KERNBASE ≤ pgRoundDown va := by
    simp only [pgRoundDown, PGSIZE, KERNBASE] at *
    omega
  have hle : pgRoundDown va ≤ va := by
    simp only [pgRoundDown, PGSIZE]
    omega
  intro hrun
  rw [copyout, List.length_cons, copyoutFrom] at hrun
  obtain ⟨o, σ1, hka, hpage⟩ := ok_of_bind hrun
  cases ht : tableOf σ r (pdx (pgRoundDown va)) with
  | none =>
    rw [uva2ka, bind_of_ok (walkpgdir_false σ r _), ht, Option.map_none, uva2kaEntry, stop_apply] at hka
    cases hka
  | some t =>
    rcases uva2ka_run σ r _ (by rw [ht]; exact Option.some_ne_none t) with ⟨w, hw, hu, _⟩ | ⟨_, hno⟩
    · have := h.accessible_user hd ⟨w, hw, hu⟩
      have := le_pdx hround (hle.trans_lt hva)
      omega
    · rw [hno] at hka
      cases hka
      rw [copyoutPage, pure_apply] at hpage
      cases hpage

def room (n : ℕ) : ℕ := (n + 3) / 4 * 4

theorem Ready.push (h : Ready L items roots σ0 r sz img σ) (buf : List ℕ) (hsp : sp % 4 = 0)
    (hlo : sz - PGSIZE ≤ sp) (hhi : sp ≤ sz) (hpos : 0 < buf.length) (hlen : buf.length ≤ KERNBASE)
    (hb : ∀ x ∈ buf, x < 256) :
    (sz - PGSIZE + room buf.length ≤ sp → pushed sp buf.length = sp - room buf.length ∧
      ∃ σ', copyout r (pushed sp buf.length) buf σ = (.ok true, σ') ∧
        Ready L items roots σ0 r sz (moved img (sp - room buf.length) buf) σ') ∧
    (sp < sz - PGSIZE + room buf.length →
      (room buf.length ≤ sp → ∃ σ', copyout r (pushed sp buf.length) buf σ = (.ok false, σ') ∧
        Built L items roots σ0 none r σ') ∧
      ∀ σ', copyout r (pushed sp buf.length) buf σ ≠ (.ok true, σ')) := by
  have hlt := h.lt
  have htwo := h.two
  have hal := h.aligned
  have hroom : buf.length ≤ room buf.length ∧ room buf.length < buf.length + 4 ∧
      room buf.length % 4 = 0 := by
    simp only [room]
    omega
  have hpush : room buf.length ≤ sp → pushed sp buf.length = sp - room buf.length := fun hle => by
    simp only [pushed, room, WORD, KERNBASE] at *
    omega
  -- no copy that stays below the size can fault
  have hwalk : room buf.length ≤ sp → Walkable σ r (sp - room buf.length) buf.length :=
    fun hle k hk _ => by
      have hin : sp - room buf.length + k < sz := by omega
      rw [Nat.mod_eq_of_lt (by simp only [WORD, KERNBASE] at *; omega)]
      exact (h.accessible hin).2
  have hcopy := fun hle => copyout_run h.built.own (d := none) rfl
    (show sp - room buf.length < WORD by simp only [WORD, KERNBASE] at *; omega)
    (show buf.length < WORD by simp only [WORD, KERNBASE] at *; omega) hb (hwalk hle)
  have hacc : room buf.length ≤ sp →
      ((∀ k < buf.length, Accessible σ r ((sp - room buf.length + k) % WORD)) ↔
        sz - PGSIZE + room buf.length ≤ sp) := fun hle => by
    have hk : ∀ k < buf.length, Accessible σ r ((sp - room buf.length + k) % WORD) ↔
        ¬ (sz - 2 * PGSIZE ≤ sp - room buf.length + k ∧ sp - room buf.length + k < sz - PGSIZE) :=
      fun k hk => by
        rw [Nat.mod_eq_of_lt (by simp only [WORD, KERNBASE] at *; omega)]
        exact (h.accessible (by omega)).1
    constructor
    · intro hall
      by_contra hno
      -- the copy starts below the stack page and ends above or at its start: a byte of the guard page
      rcases le_or_gt (sz - 2 * PGSIZE) (sp - room buf.length) with hg | hg
      · refine (hk 0 hpos).mp (hall 0 hpos) ?_
        simp only [PGSIZE] at *
        omega
      · have hk' : sz - 2 * PGSIZE - (sp - room buf.length) < buf.length := by
          simp only [PGSIZE] at *
          omega
        refine (hk _ hk').mp (hall _ hk') ?_
        simp only [PGSIZE] at *
        omega
    · intro hfit k hk'
      refine (hk k hk').mpr ?_
      omega
  refine ⟨fun hfit => ?_, fun hno => ⟨fun hle => ?_, ?_⟩⟩
  · have hle : room buf.length ≤ sp := by omega
    obtain ⟨ok, σ', hrun, hwr, hiff, hholds⟩ := hcopy hle
    have hok := hiff.mpr ((hacc hle).mpr hfit)
    subst hok
    refine ⟨hpush hle, σ', by rw [hpush hle]; exact hrun, h.write hwr (hholds rfl) (by omega)⟩
  · obtain ⟨ok, σ', hrun, hwr, hiff, _⟩ := hcopy hle
    cases ok with
    | false => exact ⟨σ', by rw [hpush hle]; exact hrun, h.built.wrote hwr⟩
    | true =>
      have := (hacc hle).mp (hiff.mp rfl)
      omega
  · intro σ' hrun
    rcases le_or_gt (room buf.length) sp with hle | hgt
    · obtain ⟨ok, σ1, hrun1, _, hiff, _⟩ := hcopy hle
      rw [hpush hle, hrun1] at hrun
      cases hrun
      have := (hacc hle).mp (hiff.mp rfl)
      omega
    · refine copyout_kernel h.built.own (d := none) rfl ?_ ?_ hpos σ' hrun
      · simp only [pushed, room, WORD, KERNBASE, PGSIZE] at *
        omega
      · simp only [pushed, WORD]
        omega

end Xv6.Vm

import Xv6.Vm.Copyout

/-! @src exec.c, vm.c, elf.h, fs.c | part:loading a program | scheme:prog, exclusive

  The loading part of `exec`. The file is a list of bytes and all of it is the user's, so every
  field of a header is any 32-bit value. Whatever it says, the new page table is `Built` from free
  pages, and all pages below the size reached are mapped, with the bytes of the segments loaded so
  far.

      header --> setupkvm --> [ allocuvm --> loaduvm ]* --> guard and stack --> Ready -/

namespace Xv6.Vm
open List
open Schemes Prog
open Option (map_some some map_eq_some_iff)

/-! ### The file -/

def readi (file : List ℕ) (off n : ℕ) : Option (List ℕ) :=
  if off > file.length ∨ (off + n) % WORD < off then none else some ((file.drop off).take n)

def readExact (file : List ℕ) (off n : ℕ) : Option (List ℕ) :=
  (readi file off n).bind fun bs => if bs.length = n then some bs else none

def le16 (bs : List ℕ) (o : ℕ) : ℕ := bs.getD o 0 + 256 * bs.getD (o + 1) 0

def le32 (bs : List ℕ) (o : ℕ) : ℕ := packWord fun m => bs.getD (o + m) 0

def ELF_MAGIC : ℕ := 0x464C457F
def ELF_PROG_LOAD : ℕ := 1

/-- The fields of the ELF header that `exec` reads. -/
structure Elfhdr where
  entry : ℕ
  phoff : ℕ
  phnum : ℕ

/-- A program header. -/
structure Proghdr where
  type : ℕ
  off : ℕ
  vaddr : ℕ
  filesz : ℕ
  memsz : ℕ

def readElf (file : List ℕ) : Option Elfhdr :=
  (readExact file 0 52).bind fun bs =>
    if le32 bs 0 = ELF_MAGIC then some ⟨le32 bs 24, le32 bs 28, le16 bs 44⟩ else none

def readPh (file : List ℕ) (off : ℕ) : Option Proghdr :=
  (readExact file off 32).map fun bs =>
    ⟨le32 bs 0, le32 bs 4, le32 bs 8, le32 bs 16, le32 bs 20⟩

/-! ### The code -/

variable (L : Layout) (file : List ℕ)

/-- One page of `loaduvm`: what `readi` has read is in the page even if it is not enough. -/
def loaduvmPage (n : ℕ) (pa : ℕ) (next : K Bool) : Option (List ℕ) → K Bool
  | none => pure false
  | some bs => do
    modify fun σ => σ.fill pa (memmove (σ.mem pa) 0 bs)
    if bs.length = n then next else pure false

def loaduvmEntry (offset n : ℕ) (next : K Bool) : Option (ℕ × Fin 1024) → K Bool
  | none => stop (.panic "loaduvm: address should exist")
  | some (pgtab, j) => do
    let s ← get
    loaduvmPage n (pteAddr (s.mem pgtab j)) next (readi file offset n)

/-- The loop of `loaduvm` for the next `k` pages, from byte `i` of the segment on. -/
def loaduvmFrom (pgdir addr offset sz : ℕ) : ℕ → ℕ → K Bool
  | 0, _ => pure true
  | k + 1, i =>
    walkpgdir pgdir ((addr + i) % WORD) false >>=
      loaduvmEntry file ((offset + i) % WORD) (min (sz - i) PGSIZE)
        (loaduvmFrom pgdir addr offset sz k (i + PGSIZE))

/-- Load a segment into mapped pages. -/
def loaduvm (pgdir addr offset sz : ℕ) : K Bool :=
  if addr % PGSIZE ≠ 0 then stop (.panic "loaduvm: addr must be page aligned")
  else loaduvmFrom file pgdir addr offset sz ((sz + PGSIZE - 1) / PGSIZE) 0

/-- A segment has its memory, up to the size `sz`; 0 is the error of `allocuvm`. -/
def loadSegAt (pgdir : ℕ) (ph : Proghdr) (next : ℕ → K (Option ℕ)) (sz : ℕ) : K (Option ℕ) :=
  if sz = 0 then pure none
  else if ph.vaddr % PGSIZE ≠ 0 then pure none
  else loaduvm file pgdir ph.vaddr ph.off ph.filesz >>= fun ok => if ok then next sz else pure none

/-- One turn of the loop of `exec` with the header it read; `none` is `goto bad`. -/
def loadSeg (pgdir sz : ℕ) (next : ℕ → K (Option ℕ)) : Option Proghdr → K (Option ℕ)
  | none => pure none
  | some ph =>
    if ph.type ≠ ELF_PROG_LOAD then next sz
    else if ph.memsz < ph.filesz then pure none
    else if (ph.vaddr + ph.memsz) % WORD < ph.vaddr then pure none
    else allocuvm L pgdir sz ((ph.vaddr + ph.memsz) % WORD) >>= loadSegAt file pgdir ph next

/-- The loop of `exec` over the next `n` program headers; the size reached. -/
def loadSegs (pgdir : ℕ) : ℕ → ℕ → ℕ → K (Option ℕ)
  | 0, _, sz => pure (some sz)
  | n + 1, off, sz =>
    loadSeg L file pgdir sz (loadSegs pgdir n ((off + 32) % WORD)) (readPh file off)

def execBad (pgdir : ℕ) : K (Option (ℕ × ℕ)) := do
  freevm L (some pgdir)
  pure none

def execGuard (pgdir sz : ℕ) : K (Option (ℕ × ℕ)) :=
  if sz = 0 then execBad L pgdir
  else do
    clearpteu pgdir (sz - 2 * PGSIZE)
    pure (some (pgdir, sz))

def execStack (pgdir : ℕ) : Option ℕ → K (Option (ℕ × ℕ))
  | none => execBad L pgdir
  | some sz =>
    allocuvm L pgdir (pgRoundUp sz) ((pgRoundUp sz + 2 * PGSIZE) % WORD) >>= execGuard L pgdir

def execTable (elf : Elfhdr) : Option ℕ → K (Option (ℕ × ℕ))
  | none => pure none
  | some pgdir => loadSegs L file pgdir elf.phnum elf.phoff 0 >>= execStack L pgdir

def execHeader : Option Elfhdr → K (Option (ℕ × ℕ))
  | none => pure none
  | some elf => setupkvm L >>= execTable L file elf

/-- `exec` up to the creation of the user stack: the new page table and its size. -/
def execLoad : K (Option (ℕ × ℕ)) := execHeader L file (readElf file)

def overlay (img : ℕ → ℕ) : Option Proghdr → ℕ → ℕ
  | none => img
  | some ph =>
    if ph.type = ELF_PROG_LOAD then moved img ph.vaddr ((file.drop ph.off).take ph.filesz) else img

/-- What the memory of the program should be: the segments one after the other. -/
def image : ℕ → ℕ → (ℕ → ℕ) → ℕ → ℕ
  | 0, _, img => img
  | n + 1, off, img => image n ((off + 32) % WORD) (overlay file img (readPh file off))

/-! ### Loading -/

variable {L : Layout} {file : List ℕ} {ι δ : Type} {items : ι → Option ℕ} {roots : δ → Option ℕ}
  {σ σ0 σ1 σ' : Kmem} {r a sz newsz va : ℕ} {img : ℕ → ℕ} {buf : List ℕ} {i j : Fin 1024}

theorem moved_append (g : ℕ → ℕ) (o : ℕ) (bs bs' : List ℕ) :
    moved (moved g o bs) (o + bs.length) bs' = moved g o (bs ++ bs') := by
  funext k
  simp only [moved, length_append]
  by_cases h₁ : o + bs.length ≤ k ∧ k < o + bs.length + bs'.length
  · rw [if_pos h₁, if_pos (by omega), getD_append_right _ _ _ _ (by omega)]
    congr 1
    omega
  · rw [if_neg h₁]
    by_cases h₂ : o ≤ k ∧ k < o + bs.length
    · rw [if_pos h₂, if_pos (by omega), getD_append _ _ _ _ (by omega)]
    · rw [if_neg h₂, if_neg (by omega)]

theorem Built.wrote (h : Built L items roots σ0 none r σ)
    (hw : Wrote L (withTmp items none) (withTmp roots (some r)) r σ σ') :
    Built L items roots σ0 none r σ' where
  own := hw.own
  free q := by
    rw [h.free, hw.freelist]
    simp only [Belongs, hw.entry, hw.table]
  mem q hq := by
    rw [hw.mem q fun i j w hi hent _ ha => hq ((h.free q).mpr
      (.inr (.inr (.inr (.inr ⟨i, j, w, hi, hent, ha⟩))))), h.mem q hq]

/-- All pages below `sz` are mapped in the new page table `r`, with the bytes `img`. -/
structure Loaded (L : Layout) (items : ι → Option ℕ) (roots : δ → Option ℕ) (σ0 : Kmem) (r sz : ℕ)
    (img : ℕ → ℕ) (σ : Kmem) : Prop where
  built : Built L items roots σ0 none r σ
  lt : sz < KERNBASE
  page : ∀ i j, vaOf i j < sz → ∃ p, entryOf σ r i j = some (mkPte p (PTE_W ||| PTE_U ||| PTE_P))
  above : ∀ i j, i.val < 512 → pgRoundUp sz ≤ vaOf i j → entryOf σ r i j = none
  byte : ∀ a < pgRoundUp sz, userByte σ r a = some (img a)
  zero : ∀ a ≥ sz, img a = 0

theorem vaOf_round (ha : a < WORD) : vaOf (pdx a) (ptx a) = pgRoundDown a := by
  simp only [vaOf, pdx, ptx, PGSIZE, WORD, pgRoundDown] at *
  omega

theorem pgRoundDown_lt (ha : a < pgRoundUp sz) (hsz : sz < KERNBASE) : pgRoundDown a < sz := by
  simp only [pgRoundDown, pgRoundUp, PGSIZE, WORD, KERNBASE] at *
  omega

theorem zeroed_entry (p : ℕ) : pteAddr (mkPte p (PTE_W ||| PTE_U ||| PTE_P)) = p ∧
    userBit (mkPte p (PTE_W ||| PTE_U ||| PTE_P)) = true := by
  refine ⟨pteAddr_mkPte p (by decide), ?_⟩
  rw [userBit, mkPte, Nat.testBit_or]
  have : (PTE_W ||| PTE_U ||| PTE_P).testBit 2 = true := by decide
  rw [this, Bool.or_true]

theorem Loaded.accessible (h : Loaded L items roots σ0 r sz img σ) (ha : a < pgRoundUp sz) :
    Accessible σ r a := by
  have hround := pgRoundDown_lt ha h.lt
  have hup := pgRoundUp_le h.lt.le
  obtain ⟨p, hp⟩ := h.page (pdx a) (ptx a) (by
    rw [vaOf_round (by simp only [WORD, KERNBASE] at *; omega)]
    exact hround)
  exact ⟨_, hp, (zeroed_entry p).2⟩

theorem Loaded.allocuvm (h : Loaded L items roots σ0 r sz img σ) (newsz : ℕ) :
    ∃ n σ', allocuvm L r sz newsz σ = (.ok n, σ') ∧ Built L items roots σ0 none r σ' ∧
      (n ≠ 0 → newsz ≤ n ∧ (n = newsz ∨ n = sz) ∧ Loaded L items roots σ0 r n img σ') := by
  rcases le_or_gt KERNBASE newsz with hk | hk
  · exact ⟨0, σ, by rw [Vm.allocuvm, if_pos hk, pure_apply], h.built, fun hx => absurd rfl hx⟩
  rcases lt_or_ge newsz sz with hlt | hle
  · exact ⟨sz, σ, by rw [Vm.allocuvm, if_neg (by omega), if_pos hlt, pure_apply], h.built,
      fun _ => ⟨hlt.le, .inr rfl, h⟩⟩
  have hup := pgRoundUp_le h.lt.le
  rcases allocuvm_run h.built.own.forget (d := none) rfl hle hk h.above with
    ⟨σ', hrun, hg⟩ | ⟨σ', hrun, hg, _⟩
  · have hrange : ∀ i j, Range (pgRoundUp sz) newsz (vaOf i j) → i.val < 512 := fun i j hp =>
      vaOf_lt_kernbase.mp (hp.2.trans hk)
    have hbuilt := h.built.grown hg hrange fun i j hp => h.above i j (hrange i j hp) hp.1
    refine ⟨newsz, σ', hrun, hbuilt, fun _ => ⟨le_rfl, .inl rfl, hbuilt, hk, fun i j hv => ?_,
      fun i j hi hv => ?_, fun a ha => ?_, fun a ha => h.zero a (by omega)⟩⟩
    · by_cases hin : Range (pgRoundUp sz) newsz (vaOf i j)
      · obtain ⟨p, hw, _⟩ := hg.new i j hin
        exact ⟨p, hw⟩
      · rw [hg.old i j hin]
        exact h.page i j ((vaOf_lt_pgRoundUp h.lt.le).mp (by omega))
    · have := pgRoundUp_le hk.le
      have hnew := (vaOf_lt_pgRoundUp (i := i) (j := j) hk.le).not
      rw [hg.old i j (by omega)]
      refine h.above i j hi ?_
      rw [← not_lt, vaOf_lt_pgRoundUp h.lt.le]
      omega
    · have hupn := pgRoundUp_le hk.le
      have haw : a < WORD := by simp only [WORD, KERNBASE] at *; omega
      have hva := vaOf_round haw
      have hlow := pgRoundDown_lt ha hk
      have hda : pgRoundDown a ≤ a := by simp only [pgRoundDown, PGSIZE]; omega
      rw [userByte]
      by_cases hin : Range (pgRoundUp sz) newsz (vaOf (pdx a) (ptx a))
      · obtain ⟨p, hw, _, hc⟩ := hg.new _ _ hin
        rw [hw, map_some, (zeroed_entry p).1, hc, h.zero a (by rw [hva] at hin; omega)]
        simp [byteOf]
      · have hold : vaOf (pdx a) (ptx a) < pgRoundUp sz := by omega
        have haup : a < pgRoundUp sz := by
          have := pgRoundUp_mod sz
          simp only [hva, pgRoundDown, PGSIZE] at *
          omega
        have hbyte := h.byte a haup
        obtain ⟨p, hw⟩ := h.page _ _ ((vaOf_lt_pgRoundUp h.lt.le).mp hold)
        have hap := h.built.own.user_apart (d := none) rfl
          (vaOf_lt_kernbase.mp (hold.trans_le hup.2.2)) hw
        rw [hg.old _ _ hin, hw, map_some, hg.mem _ hap]
        rw [userByte, hw, map_some] at hbyte
        exact hbyte
  · exact ⟨0, σ', hrun, h.built.extends hg.own.tmp hg.ext fun i j _ => hg.entry i j,
      fun hx => absurd rfl hx⟩

theorem Loaded.write (h : Loaded L items roots σ0 r sz img σ)
    (hw : Wrote L (withTmp items none) (withTmp roots (some r)) r σ σ')
    (hh : Holds σ r va buf σ') (hfit : va + buf.length ≤ sz) :
    Loaded L items roots σ0 r sz (moved img va buf) σ' where
  built := h.built.wrote hw
  lt := h.lt
  page i j hv := by rw [hw.entry]; exact h.page i j hv
  above i j hi hv := by rw [hw.entry]; exact h.above i j hi hv
  byte := hh.moved (pgRoundUp_le h.lt.le).2.2 (hfit.trans h.lt.le) h.byte
  zero a ha := by
    rw [moved, if_neg (by omega)]
    exact h.zero a ha

theorem loaduvmFrom_run (hfile : ∀ x ∈ file, x < 256) (hlen : file.length < WORD) {addr offset n : ℕ}
    (hal : addr % PGSIZE = 0) (hsz : addr + n ≤ sz) (hoff : offset < WORD) :
    ∀ (k i : ℕ) (σ : Kmem), i % PGSIZE = 0 → n ≤ i + k * PGSIZE →
      (0 < k → i + (k - 1) * PGSIZE < n) → (0 < i → offset + min i n ≤ file.length) →
      Loaded L items roots σ0 r sz (moved img addr ((file.drop offset).take (min i n))) σ →
      ∃ ok σ', loaduvmFrom file r addr offset n k i σ = (.ok ok, σ') ∧
        Built L items roots σ0 none r σ' ∧
        (ok = true →
          Loaded L items roots σ0 r sz (moved img addr ((file.drop offset).take n)) σ')
  | 0, i, σ, _, hn, _, _, h => ⟨true, σ, rfl, h.built, fun _ => by
    rwa [min_eq_right (by omega)] at h⟩
  | k + 1, i, σ, hi, hn, hlast, hread, h => by
    have hin : i < n := by
      have := hlast (Nat.succ_pos k)
      simp only [Nat.add_sub_cancel] at this
      omega
    have hlt := h.lt
    have hup := pgRoundUp_le h.lt.le
    have hva : (addr + i) % WORD = addr + i := Nat.mod_eq_of_lt (by
      simp only [WORD, KERNBASE] at *; omega)
    have hal' : (addr + i) % PGSIZE = 0 := by simp only [PGSIZE] at *; omega
    obtain ⟨w, hw, hu⟩ := h.accessible (a := addr + i) (by omega)
    obtain ⟨t, ht, hp, hwt⟩ := entryOf_eq_some.mp hw
    have hown := h.built.own
    have hpdx := hown.accessible_user (d := none) rfl ⟨w, hw, hu⟩
    set m := min (n - i) PGSIZE with hm
    have hmpos : 0 < m := by simp only [PGSIZE] at hm; omega
    have hstep : loaduvmFrom file r addr offset n (k + 1) i σ = loaduvmPage m (pteAddr w)
        (loaduvmFrom file r addr offset n k (i + PGSIZE)) (readi file ((offset + i) % WORD) m) σ := by
      rw [loaduvmFrom, bind_of_ok (walkpgdir_false σ r _), hva, ht, map_some, loaduvmEntry,
        bind_of_ok (get_apply σ), hwt]
    rw [hstep]
    cases hr : readi file ((offset + i) % WORD) m with
    | none => exact ⟨false, σ, by rw [loaduvmPage, pure_apply], h.built, fun hx => by cases hx⟩
    | some bs =>
      rw [readi] at hr
      split_ifs at hr with hc
      rw [some.injEq] at hr
      have hoffi : (offset + i) % WORD = offset + i ∨ file.length < offset + i := by
        rcases eq_zero_or_pos i with rfl | hipos
        · left
          rw [add_zero, Nat.mod_eq_of_lt hoff]
        · left
          have := hread hipos
          rw [min_eq_left hin.le] at this
          exact Nat.mod_eq_of_lt (by omega)
      have hbs : ∀ x ∈ bs, x < 256 := fun x hx => by
        rw [← hr] at hx
        exact hfile x (mem_of_mem_drop (mem_of_mem_take hx))
      have hbl : bs.length ≤ m := by
        rw [← hr]
        exact length_take_le _ _
      have hfit : (addr + i) % PGSIZE + bs.length ≤ PGSIZE := by
        rw [hal']
        simp only [PGSIZE] at hm ⊢
        omega
      have hwr := hown.wrote_fill (d := none) rfl hpdx hw hu (memmove (σ.mem (pteAddr w)) 0 bs)
      have hholds := hown.holds_memmove (d := none) rfl
        (show addr + i < WORD by simp only [WORD, KERNBASE] at *; omega) hpdx hw hu hbs hfit
      rw [hal'] at hholds
      have hnew := h.write hwr hholds (by omega)
      rw [loaduvmPage, bind_of_ok (modify_apply _ _)]
      split_ifs with hfull
      · -- a full page, so the file reaches that far
        have hoffi' : (offset + i) % WORD = offset + i := hoffi.resolve_right (by
          intro hx
          rcases eq_zero_or_pos i with rfl | hipos
          · rw [add_zero, Nat.mod_eq_of_lt hoff] at hc
            omega
          · have := hread hipos
            omega)
        rw [hoffi'] at hr hc
        have hend : offset + i + m ≤ file.length := by
          rw [← hr, length_take, length_drop] at hfull
          omega
        have hmin : min i n = i := min_eq_left hin.le
        have hpre : ((file.drop offset).take i).length = i := by
          rw [length_take, length_drop]
          omega
        have himg : moved (moved img addr ((file.drop offset).take (min i n))) (addr + i) bs =
            moved img addr ((file.drop offset).take (min (i + PGSIZE) n)) := by
          have hmin' : min (i + PGSIZE) n = i + m := by omega
          have happ := moved_append img addr ((file.drop offset).take i) bs
          rw [hpre] at happ
          rw [hmin, hmin', happ, take_add, drop_drop, ← hr]
        rw [himg] at hnew
        refine loaduvmFrom_run hfile hlen hal hsz hoff k (i + PGSIZE) _ ?_ ?_ (fun hk => ?_)
          (fun _ => ?_) hnew
        · rw [Nat.add_mod_right, hi]
        · have : i + (k + 1) * PGSIZE = i + PGSIZE + k * PGSIZE := by ring
          omega
        · have := hlast (Nat.succ_pos k)
          simp only [Nat.add_sub_cancel, PGSIZE] at this ⊢
          omega
        · omega
      · exact ⟨false, _, rfl, hnew.built, fun hx => by cases hx⟩

theorem moved_nil (g : ℕ → ℕ) (o : ℕ) : moved g o [] = g := by
  funext k
  rw [moved, if_neg]
  simp

theorem Loaded.loaduvm (h : Loaded L items roots σ0 r sz img σ) (hfile : ∀ x ∈ file, x < 256)
    (hlen : file.length < WORD) {addr offset n : ℕ} (hal : addr % PGSIZE = 0) (hsz : addr + n ≤ sz)
    (hoff : offset < WORD) :
    ∃ ok σ', loaduvm file r addr offset n σ = (.ok ok, σ') ∧ Built L items roots σ0 none r σ' ∧
      (ok = true → Loaded L items roots σ0 r sz (moved img addr ((file.drop offset).take n)) σ') := by
  rw [Vm.loaduvm, if_neg (not_not_intro hal)]
  refine loaduvmFrom_run hfile hlen hal hsz hoff _ 0 σ rfl ?_ (fun hk => ?_) (fun hx => by omega) ?_
  · simp only [PGSIZE]
    omega
  · simp only [PGSIZE] at hk ⊢
    omega
  · rw [Nat.zero_min, take_zero, moved_nil]
    exact h

theorem packWord_lt {f : ℕ → ℕ} (hf : ∀ m, f m < 256) : packWord f < WORD := by
  have h0 := hf 0
  have h1 := hf 1
  have h2 := hf 2
  have h3 := hf 3
  simp only [packWord, WORD]
  omega

theorem readPh_lt (hfile : ∀ x ∈ file, x < 256) {off : ℕ} {ph : Proghdr}
    (h : readPh file off = some ph) : ph.off < WORD ∧ ph.vaddr < WORD ∧ ph.memsz < WORD := by
  simp only [readPh, readExact, readi, map_eq_some_iff, Option.bind_eq_some_iff,
    Option.ite_none_left_eq_some, Option.ite_none_right_eq_some, some.injEq] at h
  obtain ⟨bs, ⟨bs', ⟨_, rfl⟩, _, rfl⟩, rfl⟩ := h
  have hb : ∀ x ∈ (file.drop off).take 32, x < 256 := fun x hx =>
    hfile x (mem_of_mem_drop (mem_of_mem_take hx))
  exact ⟨packWord_lt fun m => getD_lt hb _, packWord_lt fun m => getD_lt hb _,
    packWord_lt fun m => getD_lt hb _⟩

theorem loadSegs_run (hfile : ∀ x ∈ file, x < 256) (hlen : file.length < WORD) :
    ∀ (n off sz : ℕ) (img : ℕ → ℕ) (σ : Kmem), Loaded L items roots σ0 r sz img σ →
      ∃ o σ', loadSegs L file r n off sz σ = (.ok o, σ') ∧ Built L items roots σ0 none r σ' ∧
        ∀ sz', o = some sz' → Loaded L items roots σ0 r sz' (image file n off img) σ'
  | 0, off, sz, img, σ, h => ⟨some sz, σ, rfl, h.built, fun sz' hs => by cases hs; exact h⟩
  | n + 1, off, sz, img, σ, h => by
    -- every way to `bad`
    have hbad : ∀ {σ' : Kmem} {m : K (Option ℕ)}, m σ = (.ok none, σ') →
        Built L items roots σ0 none r σ' → ∃ o σ', m σ = (.ok o, σ') ∧
          Built L items roots σ0 none r σ' ∧ ∀ sz', o = some sz' →
            Loaded L items roots σ0 r sz' (image file (n + 1) off img) σ' := fun hrun hb =>
      ⟨none, _, hrun, hb, fun _ hs => by cases hs⟩
    rw [loadSegs]
    cases hph : readPh file off with
    | none => exact hbad (by rw [loadSeg, pure_apply]) h.built
    | some ph =>
      obtain ⟨hoff, hvaddr, hmemsz⟩ := readPh_lt hfile hph
      rw [loadSeg]
      split_ifs with htype hsize hwrap
      · have := loadSegs_run hfile hlen n ((off + 32) % WORD) sz img σ h
        rwa [image, hph, overlay, if_neg htype]
      · exact hbad rfl h.built
      · exact hbad rfl h.built
      · have hnew : (ph.vaddr + ph.memsz) % WORD = ph.vaddr + ph.memsz := by
          simp only [WORD] at *
          omega
        obtain ⟨sz', σ1, hrun, hb, hl⟩ := h.allocuvm ((ph.vaddr + ph.memsz) % WORD)
        rw [bind_of_ok hrun, loadSegAt]
        split_ifs with hz hal
        · exact ⟨none, σ1, rfl, hb, fun _ hs => by cases hs⟩
        · exact ⟨none, σ1, rfl, hb, fun _ hs => by cases hs⟩
        · obtain ⟨hge, _, hl⟩ := hl hz
          obtain ⟨ok, σ2, hrun2, hb2, hl2⟩ := hl.loaduvm hfile hlen (not_not.mp hal)
            (show ph.vaddr + ph.filesz ≤ sz' by omega) hoff
          rw [bind_of_ok hrun2]
          cases ok with
          | false => exact ⟨none, σ2, rfl, hb2, fun _ hs => by cases hs⟩
          | true =>
            have := loadSegs_run hfile hlen n ((off + 32) % WORD) sz' _ σ2 (hl2 rfl)
            rw [if_pos rfl]
            rwa [image, hph, overlay, if_pos (not_not.mp htype)]

/-! ### The guard page -/

def clearU (w : ℕ) : ℕ := w ^^^ (w &&& PTE_U)

theorem clearU_spec (w : ℕ) : present (clearU w) = present w ∧ userBit (clearU w) = false ∧
    pteAddr (clearU w) = pteAddr w := by
  have h0 : PTE_U.testBit 0 = false := by decide
  have h2 : PTE_U.testBit 2 = true := by decide
  have h12 : PTE_U >>> 12 = 0 := by decide
  refine ⟨?_, ?_, ?_⟩
  · rw [present, present, clearU, Nat.testBit_xor, Nat.testBit_and, h0, Bool.and_false,
      Bool.xor_false]
  · rw [userBit, clearU, Nat.testBit_xor, Nat.testBit_and, h2, Bool.and_true, Bool.xor_self]
  · rw [pteAddr, pteAddr, clearU, Nat.shiftRight_xor_distrib, Nat.shiftRight_and_distrib, h12,
      Nat.and_zero, Nat.xor_zero]

theorem clearpteu_run {d : δ} (h : Own L σ items roots) (hd : roots d = some r)
    (hi : (pdx a).val < 512) {w : ℕ} (hw : entryOf σ r (pdx a) (ptx a) = some w) :
    ∃ σ', clearpteu r a σ = (.ok (), σ') ∧ Own L σ' items roots ∧ Extends r σ σ' ∧
      σ'.freelist = σ.freelist ∧ (∀ i, tableOf σ' r i = tableOf σ r i) ∧ ∀ i j, entryOf σ' r i j =
        if i = pdx a ∧ j = ptx a then some (clearU w) else entryOf σ r i j := by
  obtain ⟨t, ht, hp, rfl⟩ := entryOf_eq_some.mp hw
  obtain ⟨hp', _, ha⟩ := clearU_spec (σ.mem t (ptx a))
  have htwice : (σ.write t (ptx a) 0).write t (ptx a) (clearU (σ.mem t (ptx a))) =
      σ.write t (ptx a) (clearU (σ.mem t (ptx a))) := by
    simp [Kmem.write, Kmem.fill]
  refine ⟨σ.write t (ptx a) (clearU (σ.mem t (ptx a))), ?_, ?_, h.extends_write hd ht, rfl,
    fun i => h.tableOf_write hd ht hd i, fun i j => ?_⟩
  · rw [clearpteu, bind_of_ok (walkpgdir_false σ r a), ht]
    rfl
  · rw [← htwice]
    exact (h.unmap hd ht hi hp).mapUser hd ((h.tableOf_write hd ht hd _).trans ht) hi ha
  · rw [h.entryOf_write hd ht, hp', hp]
    rfl

/-- The program is loaded: every page below `sz` is mapped, the one below the stack page without
  PTE_U, and the bytes are `img`. -/
structure Ready (L : Layout) (items : ι → Option ℕ) (roots : δ → Option ℕ) (σ0 : Kmem) (r sz : ℕ)
    (img : ℕ → ℕ) (σ : Kmem) : Prop where
  built : Built L items roots σ0 none r σ
  lt : sz < KERNBASE
  aligned : sz % PGSIZE = 0
  two : 2 * PGSIZE ≤ sz
  page : ∀ i j, vaOf i j < sz → ∃ w, entryOf σ r i j = some w ∧
    (userBit w = true ↔ vaOf i j ≠ sz - 2 * PGSIZE)
  above : ∀ i j, i.val < 512 → sz ≤ vaOf i j → entryOf σ r i j = none
  byte : ∀ a < sz, userByte σ r a = some (img a)

theorem belongs_congr (htab : ∀ i, tableOf σ' r i = tableOf σ r i)
    (hent : ∀ i j, (entryOf σ' r i j).map pteAddr = (entryOf σ r i j).map pteAddr) (q : ℕ) :
    Belongs σ' r q ↔ Belongs σ r q := by
  have huser : ∀ σ : Kmem, (∃ i j w, i.val < 512 ∧ entryOf σ r i j = some w ∧ pteAddr w = q) ↔
      ∃ i j, i.val < 512 ∧ (entryOf σ r i j).map pteAddr = some q := fun σ => by
    simp only [map_eq_some_iff]
    constructor
    · rintro ⟨i, j, w, hi, hw⟩
      exact ⟨i, j, hi, w, hw⟩
    · rintro ⟨i, j, hi, w, hw⟩
      exact ⟨i, j, w, hi, hw⟩
  rw [Belongs, Belongs, huser, huser]
  simp only [htab, hent]

theorem pgRoundUp_of_aligned (ha : a % PGSIZE = 0) (hk : a ≤ KERNBASE) : pgRoundUp a = a := by
  simp only [pgRoundUp, PGSIZE, WORD, KERNBASE] at *
  omega

theorem Loaded.round (h : Loaded L items roots σ0 r sz img σ) (hk : pgRoundUp sz < KERNBASE) :
    Loaded L items roots σ0 r (pgRoundUp sz) img σ := by
  have hup := pgRoundUp_le h.lt.le
  have hal := pgRoundUp_of_aligned (pgRoundUp_mod sz) hk.le
  refine ⟨h.built, hk, fun i j hv => h.page i j ((vaOf_lt_pgRoundUp h.lt.le).mp hv), ?_, ?_,
    fun a ha => h.zero a (by omega)⟩
  · rw [hal]
    exact h.above
  · rw [hal]
    exact h.byte

theorem Built.execBad (h : Built L items roots σ0 none r σ) :
    ∃ σ', execBad L r σ = (.ok none, σ') ∧ Restored none σ0 σ' := by
  obtain ⟨σ', hrun, hres⟩ := h.freevm
  exact ⟨σ', by rw [Vm.execBad, bind_of_ok hrun, pure_apply], hres⟩

theorem Loaded.stack (h : Loaded L items roots σ0 r sz img σ) :
    ∃ o σ', execStack L r (some sz) σ = (.ok o, σ') ∧
      ((o = none ∧ Restored none σ0 σ') ∨
        ∃ sz', o = some (r, sz') ∧ Ready L items roots σ0 r sz' img σ') := by
  have hup := pgRoundUp_le h.lt.le
  have hmod := pgRoundUp_mod sz
  rw [execStack]
  have hadd : (pgRoundUp sz + 2 * PGSIZE) % WORD = pgRoundUp sz + 2 * PGSIZE := Nat.mod_eq_of_lt (by
    simp only [PGSIZE, WORD, KERNBASE] at *; omega)
  rw [hadd]
  rcases le_or_gt KERNBASE (pgRoundUp sz + 2 * PGSIZE) with hk | hk
  · obtain ⟨σ', hrun, hres⟩ := h.built.execBad
    refine ⟨none, σ', ?_, .inl ⟨rfl, hres⟩⟩
    rw [Vm.allocuvm, if_pos hk, bind_of_ok (pure_apply _ _), execGuard, if_pos rfl, hrun]
  have hround := h.round (by omega)
  obtain ⟨n, σ1, hrun, hb, hl⟩ := hround.allocuvm (pgRoundUp sz + 2 * PGSIZE)
  rw [bind_of_ok hrun, execGuard]
  split_ifs with hz
  · obtain ⟨σ', hrun, hres⟩ := hb.execBad
    exact ⟨none, σ', hrun, .inl ⟨rfl, hres⟩⟩
  obtain ⟨hge, hor, hl⟩ := hl hz
  obtain rfl : n = pgRoundUp sz + 2 * PGSIZE := by
    simp only [PGSIZE] at *
    omega
  set g := pgRoundUp sz with hg
  have hgk : g + 2 * PGSIZE - 2 * PGSIZE = g := Nat.add_sub_cancel ..
  have hgw : g < WORD := by simp only [WORD, KERNBASE] at *; omega
  have hself := vaOf_pdx_ptx hmod hgw
  have hal : (g + 2 * PGSIZE) % PGSIZE = 0 := by simp only [PGSIZE] at *; omega
  have hupn := pgRoundUp_of_aligned hal hk.le
  have hpos : g < g + 2 * PGSIZE := by simp [PGSIZE]
  obtain ⟨p, hp⟩ := hl.page (pdx g) (ptx g) (by rw [hself]; exact hpos)
  obtain ⟨σ', hrun', hown, hext, hfl, htab, hent⟩ := clearpteu_run hl.built.own (d := none) rfl
    (pdx_lt (hpos.trans hk)) hp
  obtain ⟨hpres, hclear, haddr⟩ := clearU_spec (mkPte p (PTE_W ||| PTE_U ||| PTE_P))
  have hpage : ∀ {i j}, (i = pdx g ∧ j = ptx g) ↔ vaOf i j = g :=
    ⟨fun h => by rw [h.1, h.2, hself], eq_of_vaOf⟩
  -- the addresses of the pages are what they were
  have haddrs : ∀ i j, (entryOf σ' r i j).map pteAddr = (entryOf σ1 r i j).map pteAddr := fun i j => by
    rw [hent]
    split_ifs with hij
    · rw [hij.1, hij.2, hp, map_some, map_some, haddr]
    · rfl
  have huser : ∀ {i j w}, i.val < 512 → entryOf σ1 r i j = some w →
      σ'.mem (pteAddr w) = σ1.mem (pteAddr w) := fun hi hw =>
    hext.mem _ (hl.built.own.user_apart (d := none) rfl hi hw)
  refine ⟨some (r, g + 2 * PGSIZE), σ', ?_, .inr ⟨_, rfl, ?_⟩⟩
  · rw [hgk, bind_of_ok hrun', pure_apply]
  · refine ⟨⟨hown, fun q => ?_, fun q hq => ?_⟩, hk, hal, Nat.le_add_left _ _, fun i j hv => ?_,
      fun i j hi hv => ?_, fun a ha => ?_⟩
    · rw [hl.built.free, hfl, belongs_congr htab haddrs]
    · rw [hext.mem q (hl.built.apart hq), hl.built.mem q hq]
    · rw [hgk, hent]
      split_ifs with hij
      · exact ⟨_, rfl, iff_of_false (by rw [hclear]; exact Bool.false_ne_true)
          (not_not_intro (hpage.mp hij))⟩
      · obtain ⟨p', hw⟩ := hl.page i j hv
        exact ⟨_, hw, iff_of_true (zeroed_entry p').2 (mt hpage.mpr hij)⟩
    · rw [hent, if_neg fun hij => by rw [hpage] at hij; omega]
      exact hl.above i j hi (by rw [hupn]; exact hv)
    · have hbyte := hl.byte a (by rw [hupn]; exact ha)
      rw [userByte] at hbyte ⊢
      have hm := haddrs (pdx a) (ptx a)
      cases hw : entryOf σ1 r (pdx a) (ptx a) with
      | none => rw [hw] at hbyte; cases hbyte
      | some w =>
        rw [hw] at hm hbyte
        obtain ⟨w', hw', hww⟩ := map_eq_some_iff.mp hm
        rw [hw', map_some, hww, huser (pdx_lt (ha.trans hk)) hw]
        exact hbyte

theorem execLoad_run (h : Own L σ0 items roots) (hsep : L.Separate)
    (htop : KERNBASE + L.top * PGSIZE ≤ DEVSPACE) (hfile : ∀ x ∈ file, x < 256)
    (hlen : file.length < WORD) :
    ∃ o σ', execLoad L file σ0 = (.ok o, σ') ∧ ((o = none ∧ Restored none σ0 σ') ∨
      ∃ elf r sz, o = some (r, sz) ∧ readElf file = some elf ∧
        Ready L items roots σ0 r sz (image file elf.phnum elf.phoff fun _ => 0) σ') := by
  rw [execLoad]
  cases helf : readElf file with
  | none => exact ⟨none, σ0, rfl, .inl ⟨rfl, .refl σ0⟩⟩
  | some elf =>
    rw [execHeader]
    have hends := setupkvm_ends (F := fun _ => False) h (.inr hsep) (.inr htop)
    rcases hset : setupkvm L σ0 with ⟨err | o, σ1⟩
    · rw [Ends, hset] at hends
      exact hends.elim
    rw [bind_of_ok hset]
    rcases hends.of_run hset with ⟨rfl, hres⟩ | ⟨r, rfl, hb, hempty⟩
    · exact ⟨none, σ1, rfl, .inl ⟨rfl, hres⟩⟩
    have hup : pgRoundUp 0 = 0 := rfl
    have hl : Loaded L items roots σ0 r 0 (fun _ => 0) σ1 :=
      ⟨hb, by decide, fun i j hv => absurd hv (Nat.not_lt_zero _), fun i j hi _ => hempty i j hi,
        fun a ha => absurd ha (by rw [hup]; exact Nat.not_lt_zero _), fun _ _ => rfl⟩
    rw [execTable]
    obtain ⟨o, σ2, hsegs, hb2, hl2⟩ := loadSegs_run hfile hlen elf.phnum elf.phoff 0 _ σ1 hl
    rw [bind_of_ok hsegs]
    cases o with
    | none =>
      obtain ⟨σ', hrun, hres⟩ := hb2.execBad
      exact ⟨none, σ', by rw [execStack, hrun], .inl ⟨rfl, hres⟩⟩
    | some sz =>
      obtain ⟨o, σ', hrun, hcase⟩ := (hl2 sz rfl).stack
      refine ⟨o, σ', hrun, hcase.imp id ?_⟩
      rintro ⟨sz', ho, hready⟩
      exact ⟨elf, r, sz', ho, rfl, hready⟩

end Xv6.Vm

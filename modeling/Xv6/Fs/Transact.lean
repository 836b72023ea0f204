import Mathlib.Data.Finset.Card
import Mathlib.Data.Finset.Insert
import Mathlib.Logic.Function.Basic
import Xv6.Param

/-! @src fs.c, file.c | part:blocks of one transaction

  The `writei` of one turn of `filewrite`, with the blocks that it passes to `log_write`. `balloc`
  may find any free block; the list of its choices is given. The bound counts data blocks, bitmap
  blocks, the indirect block and the inode's block:

      unaligned   .#|##|##|#.     4 data blocks, of which the first is there already
      new         3 data + 1 indirect: 4 bitmap blocks, and 1 indirect, 1 inode block = 10 -/

namespace Xv6.Fs.Transact
open Option
open Finset (card_union_le card_singleton)
open Finset
open Function

def BPB : ℕ := BSIZE * 8
def IPB : ℕ := 8

structure Geometry where
  bmapstart : ℕ
  inodestart : ℕ

def Geometry.bblock (g : Geometry) (b : ℕ) : ℕ := b / BPB + g.bmapstart

def Geometry.iblock (g : Geometry) (i : ℕ) : ℕ := i / IPB + g.inodestart

/-- A locked inode with the entries of its indirect block, the blocks passed to `log_write`, and the
  free blocks that the next calls of `balloc` find. -/
structure State where
  addrs : ℕ → ℕ
  ind : ℕ → ℕ
  size : ℕ
  log : List ℕ
  choices : List ℕ

variable (g : Geometry)

/-- `log_write` of the bitmap block, then of the zeroed block; `none` is the panic. -/
def balloc (s : State) : Option (ℕ × State) :=
  match s.choices with
  | [] => none
  | b :: rest => some (b, { s with choices := rest, log := b :: g.bblock b :: s.log })

/-- The block of `addrs[k]`, allocated if necessary. A new indirect block has no entries. -/
def addrAlloc (k : ℕ) (s : State) : Option (ℕ × State) :=
  if s.addrs k = 0 then
    (balloc g s).map fun (b, s) =>
      (b, { s with
        addrs := update s.addrs k b
        ind := if k = NDIRECT then fun _ => 0 else s.ind })
  else some (s.addrs k, s)

/-- The block of entry `j` of the indirect block, allocated if necessary. -/
def entryAlloc (j : ℕ) (s : State) : Option (ℕ × State) :=
  if s.ind j = 0 then
    (balloc g s).map fun (b, s) =>
      (b, { s with ind := update s.ind j b, log := s.addrs NDIRECT :: s.log })
  else some (s.ind j, s)

def bmap (bn : ℕ) (s : State) : Option (ℕ × State) :=
  if bn < NDIRECT then addrAlloc g bn s
  else if bn - NDIRECT < NINDIRECT then
    (addrAlloc g NDIRECT s).bind fun p => entryAlloc g (bn - NDIRECT) p.2
  else none

/-- The loop of `writei` for the `n` bytes from `off` on; a turn writes at least one. -/
def writeLoop : ℕ → ℕ → ℕ → State → Option State
  | 0, _, _, s => some s
  | turns + 1, off, n, s =>
    if n = 0 then some s
    else (bmap g (off / BSIZE) s).bind fun p =>
      let m := min n (BSIZE - off % BSIZE)
      writeLoop turns (off + m) (n - m) { p.2 with log := p.1 :: p.2.log }

/-- `writei` to a file that is no device: its result (`none` is -1) and the state. -/
def writei (inum off n : ℕ) (s : State) : Option (Option ℕ × State) :=
  if off > s.size ∨ (off + n) % 2 ^ 32 < off then some (none, s)
  else if (off + n) % 2 ^ 32 > MAXFILE * BSIZE then some (none, s)
  else (writeLoop g n off n s).map fun s =>
    if 0 < n ∧ off + n > s.size then
      (some n, { s with size := off + n, log := g.iblock inum :: s.log })
    else (some n, s)

/-! ### Counting -/

variable {g} {s s' : State} {bn b k j off n : ℕ}

def Allocated (s : State) (bn : ℕ) : Prop :=
  (bn < NDIRECT → s.addrs bn ≠ 0) ∧
    (NDIRECT ≤ bn → s.addrs NDIRECT ≠ 0 ∧ s.ind (bn - NDIRECT) ≠ 0)

def IsIndirect (s : State) (x : ℕ) : Prop := s.addrs NDIRECT ≠ 0 ∧ x = s.addrs NDIRECT

def missing (s : State) : ℕ := if s.addrs NDIRECT = 0 then 1 else 0

/-- What has been logged between two states: data blocks `D`, bitmap blocks `B` and the indirect
  block. -/
structure Logged (D B : Finset ℕ) (s s' : State) : Prop where
  log : ∀ x ∈ s'.log, x ∈ s.log ∨ x ∈ D ∨ x ∈ B ∨ IsIndirect s' x
  indirect : ∀ x, IsIndirect s x → IsIndirect s' x
  size : s'.size = s.size
  choices : (∀ c ∈ s.choices, c ≠ 0) → ∀ c ∈ s'.choices, c ≠ 0

theorem Logged.refl (D B : Finset ℕ) (s : State) : Logged D B s s :=
  ⟨fun _ hx => .inl hx, fun _ hx => hx, rfl, fun h => h⟩

theorem Logged.data {B : Finset ℕ} (h : Logged {b} B s s') :
    Logged {b} B s { s' with log := b :: s'.log } := by
  refine ⟨fun x hx => ?_, h.indirect, h.size, h.choices⟩
  rcases List.mem_cons.mp hx with rfl | hx
  · exact .inr (.inl (mem_singleton_self _))
  · exact h.log x hx

theorem Logged.trans {D B D' B' : Finset ℕ} {s1 : State} (h : Logged D B s s1)
    (h' : Logged D' B' s1 s') : Logged (D ∪ D') (B ∪ B') s s' where
  log x hx := by
    simp only [mem_union]
    rcases h'.log x hx with hx | hx | hx | hx
    · rcases h.log x hx with hx | hx | hx | hx
      · exact .inl hx
      · exact .inr (.inl (.inl hx))
      · exact .inr (.inr (.inl (.inl hx)))
      · exact .inr (.inr (.inr (h'.indirect x hx)))
    · exact .inr (.inl (.inr hx))
    · exact .inr (.inr (.inl (.inr hx)))
    · exact .inr (.inr (.inr hx))
  indirect x hx := h'.indirect x (h.indirect x hx)
  size := h'.size.trans h.size
  choices hc := h'.choices (h.choices hc)

theorem balloc_logged (h : balloc g s = some (b, s')) : Logged {b} {g.bblock b} s s' ∧
    s'.addrs = s.addrs ∧ s'.ind = s.ind ∧ ((∀ c ∈ s.choices, c ≠ 0) → b ≠ 0) := by
  unfold balloc at h
  cases hc : s.choices with
  | nil =>
    rw [hc] at h
    cases h
  | cons c rest =>
    rw [hc] at h
    simp only [some.injEq, Prod.mk.injEq] at h
    obtain ⟨rfl, rfl⟩ := h
    refine ⟨⟨fun x hx => ?_, fun _ hx => hx, rfl, fun hall x hx => ?_⟩, rfl, rfl, fun hall => ?_⟩
    · simp only [List.mem_cons] at hx
      rcases hx with rfl | rfl | hx
      · exact .inr (.inl (mem_singleton_self _))
      · exact .inr (.inr (.inl (mem_singleton_self _)))
      · exact .inl hx
    · rw [hc] at hall
      exact hall x (List.mem_cons_of_mem _ hx)
    · exact hall c (List.mem_cons_self ..)

theorem addrAlloc_logged (h : addrAlloc g k s = some (b, s')) (hc : ∀ c ∈ s.choices, c ≠ 0) :
    (s.addrs k ≠ 0 ∧ b = s.addrs k ∧ s' = s) ∨
    (s.addrs k = 0 ∧ b ≠ 0 ∧ Logged {b} {g.bblock b} s s' ∧
      s'.addrs = update s.addrs k b) := by
  rw [addrAlloc] at h
  by_cases hz : s.addrs k = 0
  · rw [if_pos hz] at h
    obtain ⟨⟨b', s1⟩, hb, heq⟩ := map_eq_some_iff.mp h
    simp only [Prod.mk.injEq] at heq
    obtain ⟨rfl, rfl⟩ := heq
    obtain ⟨hl, haddr, _, hne⟩ := balloc_logged hb
    refine .inr ⟨hz, hne hc, ⟨fun x hx => ?_, fun x hx => ?_, hl.size, hl.choices⟩, by rw [haddr]⟩
    · rcases hl.log x hx with hx | hx | hx | hind
      · exact .inl hx
      · exact .inr (.inl hx)
      · exact .inr (.inr (.inl hx))
      · -- the indirect block was there before, so this is another address
        refine .inr (.inr (.inr ?_))
        have hk : NDIRECT ≠ k := by
          rintro rfl
          exact hind.1 (by rw [haddr]; exact hz)
        exact ⟨by simpa [hk] using hind.1, by simpa [hk] using hind.2⟩
    · have hk : NDIRECT ≠ k := by
        rintro rfl
        exact hx.1 hz
      exact ⟨by simpa [hk, haddr] using hx.1, by simpa [hk, haddr] using hx.2⟩
  · rw [if_neg hz] at h
    cases h
    exact .inl ⟨hz, rfl, rfl⟩

theorem entryAlloc_logged (h : entryAlloc g j s = some (b, s')) (hi : s.addrs NDIRECT ≠ 0) :
    (s.ind j ≠ 0 ∧ s' = s) ∨
    (Logged {b} {g.bblock b} s s' ∧ s'.addrs = s.addrs) := by
  unfold entryAlloc at h
  split_ifs at h with hz
  · obtain ⟨⟨b', s1⟩, hb, heq⟩ := map_eq_some_iff.mp h
    simp only [Prod.mk.injEq] at heq
    obtain ⟨rfl, rfl⟩ := heq
    obtain ⟨hl, haddr, _, _⟩ := balloc_logged hb
    refine .inr ⟨⟨fun x hx => ?_, hl.indirect, hl.size, hl.choices⟩, haddr⟩
    simp only [List.mem_cons] at hx
    rcases hx with rfl | hx
    · exact .inr (.inr (.inr ⟨by rw [haddr]; exact hi, rfl⟩))
    · exact hl.log x hx
  · cases h
    exact .inl ⟨hz, rfl⟩

theorem bmap_logged (h : bmap g bn s = some (b, s')) (hc : ∀ c ∈ s.choices, c ≠ 0) :
    ∃ B, Logged {b} B s s' ∧ B.card + missing s' ≤ 1 + missing s := by
  unfold bmap at h
  split_ifs at h with hd hi
  · rcases addrAlloc_logged h hc with ⟨_, _, rfl⟩ | ⟨_, _, hl, haddr⟩
    · exact ⟨∅, .refl _ _ _, by simp⟩
    · refine ⟨_, hl, ?_⟩
      have hne : NDIRECT ≠ bn := by omega
      simp [missing, haddr, hne]
  · obtain ⟨⟨root, s1⟩, hroot, hent⟩ := bind_eq_some_iff.mp h
    rcases addrAlloc_logged hroot hc with ⟨hne, _, rfl⟩ | ⟨hz, hne, hl, haddr⟩
    · rcases entryAlloc_logged hent hne with ⟨_, rfl⟩ | ⟨hl, haddr⟩
      · exact ⟨∅, .refl _ _ _, by simp⟩
      · exact ⟨_, hl, by simp [missing, haddr]⟩
    · have hself : s1.addrs NDIRECT = root := by rw [haddr]; simp
      have hroot' : s1.addrs NDIRECT ≠ 0 := by rw [hself]; exact hne
      -- the new indirect block counts as such, not as data
      have hl1 : Logged ∅ {g.bblock root} s s1 := by
        refine ⟨fun x hx => ?_, hl.indirect, hl.size, hl.choices⟩
        rcases hl.log x hx with hx | hx | hx | hx
        · exact .inl hx
        · rw [mem_singleton] at hx
          exact .inr (.inr (.inr ⟨hroot', hx.trans hself.symm⟩))
        · exact .inr (.inr (.inl hx))
        · exact .inr (.inr (.inr hx))
      have hmiss : missing s = 1 := by simp [missing, hz]
      rcases entryAlloc_logged hent hroot' with ⟨_, rfl⟩ | ⟨hl2, haddr2⟩
      · refine ⟨_, hl1.trans (.refl {b} ∅ s'), ?_⟩
        simp [missing, hz, hroot']
      · refine ⟨_, hl1.trans hl2, ?_⟩
        have hcard := card_union_le {g.bblock root} {g.bblock b}
        simp only [card_singleton] at hcard
        have hmiss' : missing s' = 0 := by simp [missing, haddr2, hroot']
        omega

theorem bmap_allocated (ha : Allocated s bn) (h : bmap g bn s = some (b, s')) : s' = s := by
  unfold bmap at h
  split_ifs at h with hd hi
  · rw [addrAlloc, if_neg (ha.1 hd)] at h
    cases h
    rfl
  · obtain ⟨hroot, hent⟩ := ha.2 (by omega)
    rw [addrAlloc, if_neg hroot, bind_some, entryAlloc, if_neg hent] at h
    cases h
    rfl

theorem writeLoop_logged : ∀ (turns T off n : ℕ) (s s' : State), off % BSIZE = 0 ∨ n = 0 →
    n ≤ BSIZE * T → (∀ c ∈ s.choices, c ≠ 0) → writeLoop g turns off n s = some s' →
    ∃ D B, Logged D B s s' ∧ D.card ≤ T ∧ B.card + missing s' ≤ T + missing s
  | 0, T, off, n, s, s', _, _, _, h => by
    cases h
    exact ⟨∅, ∅, .refl ∅ ∅ s, by simp, by simp⟩
  | turns + 1, T, off, n, s, s', hal, hn, hc, h => by
    rw [writeLoop] at h
    split_ifs at h with hz
    · cases h
      exact ⟨∅, ∅, .refl ∅ ∅ s, by simp, by simp⟩
    · have hal' := hal.resolve_right hz
      obtain ⟨T, rfl⟩ : ∃ t, T = t + 1 := ⟨T - 1, by
        rcases T with _ | T
        · omega
        · rfl⟩
      obtain ⟨⟨b, s1⟩, hb, hrest⟩ := bind_eq_some_iff.mp h
      obtain ⟨B, hl, hcard⟩ := bmap_logged hb hc
      have hl1 := hl.data
      obtain ⟨D', B', hl', hD, hB⟩ := writeLoop_logged turns T _ _ _ s'
        (by simp only [BSIZE] at *; omega) (by simp only [BSIZE] at *; omega) (hl1.choices hc) hrest
      refine ⟨_, _, hl1.trans hl', ?_, ?_⟩
      · have := card_union_le {b} D'
        rw [card_singleton] at this
        omega
      · have := card_union_le B B'
        have hm : missing { s1 with log := b :: s1.log } = missing s1 := rfl
        omega

theorem writeLoop_few (hfree : ∀ c ∈ s.choices, c ≠ 0)
    (hfull : ∀ bn, bn * BSIZE < s.size → Allocated s bn) (hoff : off ≤ s.size) (hn : n ≤ BSIZE * 3)
    (h : writeLoop g n off n s = some s') :
    ∃ D B, Logged D B s s' ∧ D.card ≤ 4 ∧ B.card ≤ 4 := by
  have hmiss : missing s ≤ 1 := by
    unfold missing
    split_ifs <;> decide
  by_cases hal : off % BSIZE = 0 ∨ n = 0
  · obtain ⟨D, B, hl, hD, hB⟩ := writeLoop_logged n 3 off n s s' hal hn hfree h
    exact ⟨D, B, hl, by omega, by omega⟩
  · obtain ⟨hna, hnz⟩ := not_or.mp hal
    obtain ⟨t, rfl⟩ : ∃ t, n = t + 1 := ⟨n - 1, by omega⟩
    rw [writeLoop, if_neg hnz] at h
    obtain ⟨⟨b, s1⟩, hb, hrest⟩ := bind_eq_some_iff.mp h
    obtain rfl := bmap_allocated (hfull _ (by simp only [BSIZE] at *; omega)) hb
    have hl1 := (Logged.refl {b} ∅ s1).data
    obtain ⟨D, B, hl, hD, hB⟩ := writeLoop_logged t 3
      (off + min (t + 1) (BSIZE - off % BSIZE)) (t + 1 - min (t + 1) (BSIZE - off % BSIZE))
      { s1 with log := b :: s1.log } s' (by simp only [BSIZE] at *; omega)
      (by simp only [BSIZE] at *; omega) hfree hrest
    refine ⟨_, _, hl1.trans hl, ?_, ?_⟩
    · have := card_union_le {b} D
      rw [card_singleton] at this
      omega
    · have hm : missing { s1 with log := b :: s1.log } = missing s1 := rfl
      rw [empty_union]
      omega

/-- Every `writei` of `filewrite` fits one transaction: on a file without holes, at any offset up to
  its size and for any chunk of `filewrite`, whatever blocks `balloc` finds, at most `MAXOPBLOCKS`
  different blocks are logged. -/
theorem writei_fits (g : Geometry) (inum off n : ℕ) (s s' : State) (r : Option ℕ)
    (hstart : s.log = []) (hfree : ∀ c ∈ s.choices, c ≠ 0)
    (hfull : ∀ bn, bn * BSIZE < s.size → Allocated s bn) (hoff : off ≤ s.size)
    (hn : n ≤ (MAXOPBLOCKS - 1 - 1 - 2) / 2 * 512) (h : writei g inum off n s = some (r, s')) :
    s'.log.toFinset.card ≤ MAXOPBLOCKS := by
  unfold writei at h
  split_ifs at h with h1 h2
  · cases h
    simp [hstart]
  · cases h
    simp [hstart]
  · obtain ⟨s1, hloop, heq⟩ := map_eq_some_iff.mp h
    obtain ⟨D, B, hl, hD, hB⟩ := writeLoop_few hfree hfull hoff (by simpa [MAXOPBLOCKS, BSIZE] using hn)
      hloop
    have hsub : s'.log.toFinset ⊆ insert (g.iblock inum) (insert (s1.addrs NDIRECT) (D ∪ B)) := by
      intro x hx
      rw [List.mem_toFinset] at hx
      have hx' : x = g.iblock inum ∨ x ∈ s1.log := by
        split_ifs at heq with hgrow
        · cases heq
          exact List.mem_cons.mp hx
        · cases heq
          exact .inr hx
      simp only [mem_insert, mem_union]
      rcases hx' with hx | hx
      · exact .inl hx
      · rcases hl.log x hx with hx | hx | hx | hx
        · rw [hstart] at hx
          cases hx
        · exact .inr (.inr (.inl hx))
        · exact .inr (.inr (.inr hx))
        · exact .inr (.inl hx.2)
    have hcard := card_le_card hsub
    have h3 := card_insert_le (g.iblock inum) (insert (s1.addrs NDIRECT) (D ∪ B))
    have h4 := card_insert_le (s1.addrs NDIRECT) (D ∪ B)
    have h5 := card_union_le D B
    simp only [MAXOPBLOCKS]
    omega

/-- A file that ends within its last direct block, and free blocks of four bitmap blocks. -/
def lastDirect : State where
  addrs k := if k < NDIRECT then 100 + k else 0
  ind _ := 0
  size := 5732
  log := []
  choices := [10000, 20000, 30000, 40000]

/-- The largest chunk appended there takes the indirect block and three data blocks. -/
theorem writei_fits_last : ∃ r s', writei ⟨58, 32⟩ 1 5732 1536 lastDirect = some (r, s') ∧
    s'.log.toFinset.card ≤ MAXOPBLOCKS := by
  have hsome : (writei ⟨58, 32⟩ 1 5732 1536 lastDirect).isSome = true := by decide +kernel
  obtain ⟨⟨r, s'⟩, hrun⟩ := isSome_iff_exists.mp hsome
  refine ⟨r, s', hrun, writei_fits _ _ _ _ lastDirect s' r rfl (by decide) (fun bn hbn => ?_) (by decide)
    (by decide) hrun⟩
  have hlt : bn < NDIRECT := by
    simp only [lastDirect, BSIZE, NDIRECT] at *
    omega
  exact ⟨fun _ => by simp [lastDirect, hlt], fun hge => by omega⟩

end Xv6.Fs.Transact

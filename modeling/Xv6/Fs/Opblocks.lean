import Mathlib.Algebra.Order.BigOperators.Group.Finset
import Xv6.Fs.Calls
import Xv6.Fs.Dir
import Xv6.Fs.Transact

/-! @src fs.c, sysfile.c, file.c, proc.c, log.c | part:blocks of a name-space call

  What the calls of `Calls` pass to `log_write` between `begin_op` and `end_op`, on a disk whose
  free map is one block. The most is for `mkdir`, with `I` the block of an inode:

      ialloc   dp->nlink++   "."    ".."   dirlink(dp)   iput(dp)
      I(ip)       I(dp)       2      2         2            -

  A directory write logs a data block, maybe the indirect block, and else the bitmap and the
  inode: 9 blocks with the bitmap. A file that is freed costs the bitmap and its inode's block,
  whatever its size. -/

namespace Xv6.Fs.Calls.Opblocks
open Xv6.Fs.Transact (Geometry BPB)
open Function
open List (range)
open List hiding range
open Option (some map_eq_some_iff)
open Finset (card_le_two card_union_le card_le_three empty_subset subset_union_left union_assoc)
open Prod (mk)

/-- The blocks of an inode: `addrs`, and the entries of its indirect block. -/
structure Map where
  addrs : ℕ → ℕ
  ind : ℕ → ℕ
  size : ℕ

def Map.Inside (nblocks : ℕ) (m : Map) : Prop :=
  (∀ k, m.addrs k < nblocks) ∧ ∀ j, m.ind j < nblocks

/-- The disk during a call, whether a transaction is open, and what it has logged. -/
structure Tx where
  disk : Disk
  opened : Bool
  log : List ℕ

/-- `itrunc` and `iput` of an inode that is freed: `bfree` of each block, and two `iupdate`s. -/
def Map.truncLog (g : Geometry) (i : ℕ) (m : Map) : List ℕ :=
  let indirect := if m.addrs NDIRECT = 0 then []
    else (range NINDIRECT).map m.ind ++ [m.addrs NDIRECT]
  (((range NDIRECT).map m.addrs ++ indirect).filter (· ≠ 0)).map g.bblock ++
    [g.iblock i, g.iblock i]

def Tx.update (g : Geometry) (i : ℕ) (d : Disk) (t : Tx) : Tx :=
  { t with disk := d, log := g.iblock i :: t.log }

/-- `Q` holds of what is logged at every `end_op`, in every run of a call. A directory entry may be
  anywhere, an inode may have any blocks, `balloc` and `ialloc` may find anything free, the file
  table may answer anything, any `iput` may free an inode without links. -/
def Always (g : Geometry) (nblocks : ℕ) (Q : List ℕ → Prop) : Code → Tx → Prop
  | .ret _, _ => True
  | .panic _, _ => True
  | .beginOp k, t =>
    Always g nblocks Q k { t with opened := true, log := if t.opened then t.log else [] }
  | .endOp k, t => Q t.log ∧ Always g nblocks Q k { t with opened := false }
  | .lock _ k, t => Always g nblocks Q k t
  | .check _ k, t => Always g nblocks Q k t
  | .unlock _ k, t => Always g nblocks Q k t
  | .get _ k, t => Always g nblocks Q k t
  | .put i k, t =>
    Always g nblocks Q k t ∧ (t.disk.nlink i = 0 → ∀ m : Map, m.Inside nblocks →
      Always g nblocks Q k { t with disk := t.disk.free i, log := m.truncLog g i ++ t.log })
  | .deref _ k, t => Always g nblocks Q k t
  | .type i k, t => Always g nblocks Q (k (t.disk.type i)) t
  | .links i k, t => Always g nblocks Q (k (t.disk.nlink i)) t
  | .look d nm k, t => Always g nblocks Q (k (t.disk.find d nm)) t
  | .write d nm r k, t => ∀ (m : Map) off choices s, m.Inside nblocks → DESIZE ∣ off →
      (∀ b ∈ choices, b ≠ 0 ∧ b < nblocks) →
      Transact.writei g d off DESIZE ⟨m.addrs, m.ind, m.size, t.log, choices⟩ =
        some (some DESIZE, s) →
      Always g nblocks Q k { t with disk := t.disk.setEntry d nm r, log := s.log }
  | .empty _ k, t => ∀ e, Always g nblocks Q (k e) t
  | .setLinks i f k, t => Always g nblocks Q k
      (t.update g i { t.disk with nlink := update t.disk.nlink i (f (t.disk.nlink i)) })
  | .alloc ty k, t => ∀ n, t.disk.type n = 0 → 0 < n →
      Always g nblocks Q (k n) (t.update g n (t.disk.make n ty))
  | .init i major minor k, t => Always g nblocks Q k
      (t.update g i { t.disk with
        major := update t.disk.major i major
        minor := update t.disk.minor i minor
        nlink := update t.disk.nlink i 1 })
  -- the pieces of `filewrite` are counted in `Transact`
  | .writei _ _ _, _ => True
  | .filealloc k, t => ∀ f, Always g nblocks Q (k f) t
  | .fdalloc _ k, t => ∀ fd, Always g nblocks Q (k fd) t
  | .fileclose _ k, t => ∀ r, Always g nblocks Q (k r) t
  | .closefd _ k, t => ∀ r, Always g nblocks Q (k r) t
  | .argfd _ k, t => ∀ r, Always g nblocks Q (k r) t
  | .dup _ k, t => ∀ r, Always g nblocks Q (k r) t
  | .setFile _ _ k, t => Always g nblocks Q k t
  | .setCwd _ k, t => Always g nblocks Q k t
  | .coin k, t => ∀ b, Always g nblocks Q (k b) t

variable {g : Geometry} {n : ℕ} {t u : Tx} {A D : Finset ℕ} {i dp d : ℕ} {nm : Locks.Name}

/-! ### The entry of a directory -/

section Entry
variable {s s' : Transact.State} {b bn k j off : ℕ}

theorem bblock_low (h : b < BPB) : g.bblock b = g.bmapstart := by
  rw [Geometry.bblock, Nat.div_eq_of_lt h, zero_add]

theorem balloc_log (hs : ∀ c ∈ s.choices, c < BPB) (h : Transact.balloc g s = some (b, s')) :
    (∀ c ∈ s'.choices, c < BPB) ∧ s'.addrs = s.addrs ∧ s'.log = b :: g.bmapstart :: s.log := by
  unfold Transact.balloc at h
  cases hc : s.choices with
  | nil =>
    rw [hc] at h
    cases h
  | cons c rest =>
    rw [hc] at h hs
    simp only [some.injEq, mk.injEq] at h
    obtain ⟨rfl, rfl⟩ := h
    exact ⟨fun x hx => hs x (mem_cons_of_mem _ hx), rfl,
      by rw [bblock_low (hs c (mem_cons_self ..))]⟩

theorem addrAlloc_log (hs : ∀ c ∈ s.choices, c < BPB)
    (h : Transact.addrAlloc g k s = some (b, s')) : (∀ c ∈ s'.choices, c < BPB) ∧
    s'.addrs k = b ∧ ∀ x ∈ s'.log, x ∈ s.log ∨ x = g.bmapstart ∨ x = b := by
  rw [Transact.addrAlloc] at h
  by_cases hz : s.addrs k = 0
  · rw [if_pos hz] at h
    obtain ⟨⟨b', s1⟩, hb, heq⟩ := map_eq_some_iff.mp h
    simp only [mk.injEq] at heq
    obtain ⟨rfl, rfl⟩ := heq
    obtain ⟨hc, -, hlog⟩ := balloc_log hs hb
    refine ⟨hc, update_self .., fun x hx => ?_⟩
    rw [hlog, mem_cons, mem_cons] at hx
    tauto
  · rw [if_neg hz] at h
    simp only [some.injEq, mk.injEq] at h
    obtain ⟨rfl, rfl⟩ := h
    exact ⟨hs, rfl, fun x hx => .inl hx⟩

theorem entryAlloc_log (hs : ∀ c ∈ s.choices, c < BPB)
    (h : Transact.entryAlloc g j s = some (b, s')) :
    ∀ x ∈ s'.log, x ∈ s.log ∨ x = g.bmapstart ∨ x = b ∨ x = s.addrs NDIRECT := by
  rw [Transact.entryAlloc] at h
  split_ifs at h with hz
  · obtain ⟨⟨b', s1⟩, hb, heq⟩ := map_eq_some_iff.mp h
    simp only [mk.injEq] at heq
    obtain ⟨rfl, rfl⟩ := heq
    obtain ⟨-, haddrs, hlog⟩ := balloc_log hs hb
    intro x hx
    rw [hlog, haddrs, mem_cons, mem_cons, mem_cons] at hx
    tauto
  · simp only [some.injEq, mk.injEq] at h
    obtain ⟨rfl, rfl⟩ := h
    exact fun x hx => .inl hx

theorem bmap_log (hs : ∀ c ∈ s.choices, c < BPB) (h : Transact.bmap g bn s = some (b, s')) :
    ∃ a, ∀ x ∈ s'.log, x ∈ s.log ∨ x = g.bmapstart ∨ x = b ∨ x = a := by
  rw [Transact.bmap] at h
  split_ifs at h with hd hi
  · obtain ⟨-, -, hlog⟩ := addrAlloc_log hs h
    exact ⟨b, fun x hx => (hlog x hx).imp_right (Or.imp_right .inl)⟩
  · obtain ⟨⟨a, s1⟩, ha, he⟩ := Option.bind_eq_some_iff.mp h
    obtain ⟨hc, haddr, hlog⟩ := addrAlloc_log hs ha
    have hlog' := entryAlloc_log hc he
    rw [haddr] at hlog'
    refine ⟨a, fun x hx => ?_⟩
    have := hlog x
    have := hlog' x hx
    tauto

theorem writeLoop_entry (hoff : DESIZE ∣ off)
    (h : Transact.writeLoop g DESIZE off DESIZE s = some s') :
    ∃ b s1, Transact.bmap g (off / BSIZE) s = some (b, s1) ∧
      s' = { s1 with log := b :: s1.log } := by
  have hm : min DESIZE (BSIZE - off % BSIZE) = DESIZE := by
    obtain ⟨q, rfl⟩ := hoff
    simp only [DESIZE, BSIZE]
    omega
  obtain ⟨⟨b, s1⟩, hb, hrest⟩ := Option.bind_eq_some_iff.mp h
  refine ⟨b, s1, hb, ?_⟩
  simp only [hm] at hrest
  exact (some.inj hrest).symm

theorem writei_entry (hoff : DESIZE ∣ off) (hs : ∀ c ∈ s.choices, c < BPB)
    (h : Transact.writei g d off DESIZE s = some (some DESIZE, s')) : ∃ D : Finset ℕ, D.card ≤ 2 ∧
      ∀ x ∈ s'.log, x ∈ s.log ∨ x = g.bmapstart ∨ x = g.iblock d ∨ x ∈ D := by
  rw [Transact.writei] at h
  split_ifs at h
  all_goals try (simp only [some.injEq, mk.injEq, reduceCtorEq, false_and] at h)
  obtain ⟨s2, hw, heq⟩ := map_eq_some_iff.mp h
  obtain ⟨b, s1, hb, rfl⟩ := writeLoop_entry hoff hw
  obtain ⟨a, hlog⟩ := bmap_log hs hb
  have hcase : ∀ x ∈ s'.log, x = g.iblock d ∨ x = b ∨ x ∈ s1.log := by
    intro x hx
    split_ifs at heq
    · obtain ⟨-, rfl⟩ := mk.inj heq
      simpa [mem_cons] using hx
    · obtain ⟨-, rfl⟩ := mk.inj heq
      exact .inr (by simpa [mem_cons] using hx)
  refine ⟨{b, a}, card_le_two, fun x hx => ?_⟩
  rw [Finset.mem_insert, Finset.mem_singleton]
  have := hlog x
  have := hcase x hx
  tauto

end Entry

/-! ### Staying within a set of blocks -/

def Within (A : Finset ℕ) (t : Tx) : Prop := ∀ b ∈ t.log, b ∈ A

abbrev Fit (g : Geometry) (n : ℕ) : Code → Tx → Prop :=
  Always g n fun l => l.toFinset.card ≤ MAXOPBLOCKS

def Tail (g : Geometry) (n : ℕ) (A : Finset ℕ) (k : Code) : Prop :=
  ∀ t, Within A t → Fit g n k t

theorem Within.mono (h : Within A t) (hAD : A ⊆ D) : Within D t := fun b hb => hAD (h b hb)

theorem Within.fits (h : Within A t) (hA : A.card ≤ MAXOPBLOCKS) :
    t.log.toFinset.card ≤ MAXOPBLOCKS :=
  (Finset.card_le_card fun b hb => h b (mem_toFinset.mp hb)).trans hA

theorem Within.update (h : Within A t) (hi : g.iblock i ∈ A) (d : Disk) :
    Within A (t.update g i d) := by
  intro b hb
  rcases mem_cons.mp hb with rfl | hb
  · exact hi
  · exact h b hb

theorem within_begin {e : Disk} {o : Bool} : Within A ⟨e, o, []⟩ :=
  fun _ hb => absurd hb not_mem_nil

theorem mem_truncLog (hn : n ≤ BPB) {m : Map} {b : ℕ} (hm : m.Inside n)
    (hb : b ∈ m.truncLog g i) : b = g.bmapstart ∨ b = g.iblock i := by
  rw [Map.truncLog, mem_append] at hb
  rcases hb with hb | hb
  · obtain ⟨a, ha, rfl⟩ := mem_map.mp hb
    refine .inl (bblock_low (lt_of_lt_of_le ?_ hn))
    rcases mem_append.mp (mem_filter.mp ha).1 with ha | ha
    · obtain ⟨k, -, rfl⟩ := mem_map.mp ha
      exact hm.1 k
    · split_ifs at ha
      · cases ha
      · rcases mem_append.mp ha with ha | ha
        · obtain ⟨j, -, rfl⟩ := mem_map.mp ha
          exact hm.2 j
        · rw [mem_singleton.mp ha]
          exact hm.1 NDIRECT
  · simp only [mem_cons, not_mem_nil, or_false, or_self] at hb
    exact .inr hb

section Tails
variable {k : Code} (hn : n ≤ BPB)

theorem Tail.endOp (hA : A.card ≤ MAXOPBLOCKS) (hk : Tail g n A k) :
    Tail g n A (.endOp k) :=
  fun _ ht => ⟨ht.fits hA, hk _ ht⟩

theorem Tail.beginOp (hk : Tail g n A k) : Tail g n A (.beginOp k) := by
  intro t ht
  refine hk _ fun b hb => ?_
  dsimp only at hb
  split_ifs at hb
  · exact ht b hb
  · cases hb

theorem tail_done (hA : A.card ≤ MAXOPBLOCKS) (r : ℤ) : Tail g n A (.endOp (.ret r)) :=
  Tail.endOp hA fun _ _ => trivial

include hn

theorem Tail.iput (hb : g.bmapstart ∈ A) (hi : g.iblock i ∈ A) (hk : Tail g n A k) :
    Tail g n A (iput i k) := by
  refine fun t ht => ⟨hk t ht, fun _ m hm => hk _ fun b hmem => ?_⟩
  rcases mem_append.mp hmem with hmem | hmem
  · rcases mem_truncLog hn hm hmem with rfl | rfl
    · exact hb
    · exact hi
  · exact ht b hmem

theorem Tail.iunlockput (hb : g.bmapstart ∈ A) (hi : g.iblock i ∈ A) (hk : Tail g n A k) :
    Tail g n A (iunlockput i k) :=
  Tail.iput hn hb hi hk

omit hn in
theorem Tail.setLinks (hi : g.iblock i ∈ A) (f : ℤ → ℤ) (hk : Tail g n A k) :
    Tail g n A (.setLinks i f k) :=
  fun _ ht => hk _ (ht.update hi _)

theorem tail_linkBad (hb : g.bmapstart ∈ A) (hi : g.iblock i ∈ A) (hA : A.card ≤ MAXOPBLOCKS) :
    Tail g n A (linkBad i) := fun t ht =>
  Tail.setLinks hi (· - 1) (Tail.iunlockput hn hb hi (tail_done hA _)) t ht

theorem tail_openEnd (hb : g.bmapstart ∈ A) (hi : g.iblock i ∈ A) (hA : A.card < MAXOPBLOCKS) :
    Tail g n A (openEnd i) := by
  intro t ht f
  have hfail : Tail g n A (iunlockput i fail) := Tail.iunlockput hn hb hi (tail_done hA.le _)
  cases f with
  | none => exact hfail t ht
  | some f =>
    intro fd
    cases fd with
    | some fd => exact ⟨ht.fits hA.le, trivial⟩
    | none =>
      intro r
      cases r with
      | none => exact hfail t ht
      | some j =>
        have hsub : A ⊆ insert (g.iblock j) A := Finset.subset_insert ..
        have hcard : (insert (g.iblock j) A).card ≤ MAXOPBLOCKS :=
          (Finset.card_insert_le ..).trans hA
        refine Tail.beginOp (Tail.iput hn (hsub hb) (Finset.mem_insert_self ..) ?_) t (ht.mono hsub)
        exact Tail.endOp hcard (Tail.iunlockput hn (hsub hb) (hsub hi) (tail_done hcard _))

theorem tail_unlinkEnd {ty : ℕ} (hb : g.bmapstart ∈ A) (hd : g.iblock dp ∈ A)
    (hi : g.iblock i ∈ A) (hA : A.card ≤ MAXOPBLOCKS) : Tail g n A (unlinkEnd dp i ty) := by
  have hrest := Tail.iunlockput hn hb hd
    (Tail.setLinks hi (· - 1) (Tail.iunlockput hn hb hi (tail_done (n := n) hA 0)))
  rw [unlinkEnd]
  split_ifs
  · exact Tail.setLinks hd _ hrest
  · exact hrest

theorem always_write (hb : g.bmapstart ∈ A) (hd : g.iblock d ∈ A)
    (ht : Within A t) {r : Option ℕ} (hk : ∀ D : Finset ℕ, D.card ≤ 2 → ∀ u : Tx,
      u.disk = t.disk.setEntry d nm r → Within (A ∪ D) u → Fit g n k u) :
    Fit g n (.write d nm r k) t := by
  intro m off choices s _ hoff hc hw
  obtain ⟨D, hD, hlog⟩ := writei_entry hoff (fun c hm => (hc c hm).2.trans_le hn) hw
  refine hk D hD _ rfl fun b hm => ?_
  rw [Finset.mem_union]
  rcases hlog b hm with hm | rfl | rfl | hm
  · exact .inl (ht b hm)
  · exact .inl hb
  · exact .inl hd
  · exact .inr hm

end Tails

/-! ### Names and links -/

def Live (d : Disk) (i : ℕ) : Prop := d.type i ≠ 0 ∧ 0 < d.nlink i

/-- The entries of directories name inodes that are in use and have links. -/
def Linked (d : Disk) : Prop := ∀ p, ∀ e ∈ d.entries p, Live d e.2

theorem Linked.of {d e : Disk} (h : Linked d) (hlive : ∀ i, Live d i → Live e i)
    (hent : ∀ p, ∀ x ∈ e.entries p, x ∈ d.entries p ∨ Live e x.2) : Linked e := by
  intro p x hx
  rcases hent p x hx with hx | hx
  · exact hlive _ (h p x hx)
  · exact hx

theorem Linked.find {d : Disk} (h : Linked d) {p : ℕ} (hf : d.find p nm = some i) : Live d i := by
  obtain ⟨l1, l2, heq, -⟩ := lookup_eq_some_iff.mp hf
  exact h p (nm, i) (by rw [heq]; exact mem_append_right _ (mem_cons_self ..))

theorem Linked.setEntry {d : Disk} (h : Linked d) (hi : Live d i) :
    Linked (d.setEntry dp nm (some i)) := by
  refine h.of (fun _ hj => hj) fun p x hx => ?_
  rcases eq_or_ne p dp with rfl | hp
  · simp only [Disk.setEntry, update_self, mem_cons] at hx
    rcases hx with rfl | hx
    · exact .inr hi
    · exact .inl (mem_filter.mp hx).1
  · simp only [Disk.setEntry, update_of_ne hp] at hx
    exact .inl hx

theorem live_addLink {d : Disk} {j : ℕ} (hj : Live d j) :
    Live { d with nlink := update d.nlink i (d.nlink i + 1) } j := by
  refine ⟨hj.1, ?_⟩
  rcases eq_or_ne j i with rfl | hji
  · simp only [update_self]
    have := hj.2
    omega
  · simpa only [update_of_ne hji] using hj.2

theorem always_iput {k : Code} (hi : 0 < t.disk.nlink i) (hk : Fit g n k t) :
    Fit g n (iput i k) t :=
  ⟨hk, fun h => absurd h hi.ne'⟩

theorem always_look {k : Option ℕ → Code} (hk : Fit g n (k (t.disk.find d nm)) t) :
    Fit g n (.look d nm k) t := hk

theorem always_ilock {k : Code} (hk : Fit g n k t) : Fit g n (ilock i k) t := hk

theorem always_setLinks {k : Code} {f : ℤ → ℤ} (hk : Fit g n k (t.update g i
      { t.disk with nlink := update t.disk.nlink i (f (t.disk.nlink i)) })) :
    Fit g n (.setLinks i f k) t := hk

theorem always_namexLoop {parent : Bool} {k : Option (ℕ × Locks.Name) → Code} (hl : Linked t.disk)
    (hnone : Fit g n (k none) t)
    (hsome : ∀ i nm, Live t.disk i → Fit g n (k (some (i, nm))) t) :
    ∀ (path : List Locks.Name) (i : ℕ), Live t.disk i →
      Fit g n (namexLoop parent k path i) t := by
  intro path
  induction path with
  | nil =>
    intro i hi
    rw [namexLoop]
    split_ifs
    · exact always_iput hi.2 hnone
    · exact hsome i "" hi
  | cons nm rest ih =>
    intro i hi
    show Fit g n (if t.disk.type i ≠ T_DIR then _ else _) t
    split_ifs with hty hlast
    · exact always_iput hi.2 hnone
    · exact hsome i nm hi
    · refine always_look ?_
      cases hf : t.disk.find i nm with
      | none => exact always_iput hi.2 hnone
      | some next => exact always_iput hi.2 (ih next (hl.find hf))

theorem always_namex {cwd : ℕ} {path : Locks.Path} {parent : Bool}
    {k : Option (ℕ × Locks.Name) → Code}
    (hl : Linked t.disk) (hroot : Live t.disk ROOTINO) (hcwd : Live t.disk cwd)
    (hnone : Fit g n (k none) t)
    (hsome : ∀ i nm, Live t.disk i → Fit g n (k (some (i, nm))) t) :
    Fit g n (namex cwd path parent k) t := by
  refine always_namexLoop hl hnone hsome path.elems _ ?_
  split_ifs
  · exact hroot
  · exact hcwd

theorem always_dirlink {k : Bool → Code} (hn : n ≤ BPB) (hl : Linked t.disk)
    (hb : g.bmapstart ∈ A) (hd : g.iblock d ∈ A) (ht : Within A t)
    (hfalse : Fit g n (k false) t)
    (htrue : ∀ D : Finset ℕ, D.card ≤ 2 → ∀ u : Tx, u.disk = t.disk.setEntry d nm (some i) →
      Within (A ∪ D) u → Fit g n (k true) u) :
    Fit g n (dirlink d nm i k) t := by
  refine always_look ?_
  cases hf : t.disk.find d nm with
  | some ip => exact always_iput (hl.find hf).2 hfalse
  | none => exact always_write hn hb hd ht htrue

/-! ### The calls -/

theorem card_union_three {D : Finset ℕ} {a b c n : ℕ} (hD : D.card ≤ n) :
    (({a, b, c} : Finset ℕ) ∪ D).card ≤ 3 + n :=
  (card_union_le ..).trans (Nat.add_le_add card_le_three hD)

theorem always_createNew {ty : ℕ} {major minor : ℤ} {k : ℕ → Code} (hn : n ≤ BPB)
    (hl : Linked t.disk) (hdp : Live t.disk dp) (hty : ty ≠ 0) (hempty : Within ∅ t)
    (hk : ∀ i A, g.bmapstart ∈ A → g.iblock i ∈ A → A.card < MAXOPBLOCKS →
      Tail g n A (k i)) :
    Fit g n (createNew dp nm ty major minor k) t := by
  intro ip hfree hpos
  set B : Finset ℕ := {g.bmapstart, g.iblock dp, g.iblock ip} with hB
  have hb : g.bmapstart ∈ B := by simp [hB]
  have hd : g.iblock dp ∈ B := by simp [hB]
  have hi : g.iblock ip ∈ B := by simp [hB]
  -- the new inode, with its first link
  have hne : ∀ j, Live t.disk j → j ≠ ip := by
    rintro j hj rfl
    exact hj.1 hfree
  set u := (t.update g ip (t.disk.make ip ty)).update g ip
    { t.disk.make ip ty with
      major := update (t.disk.make ip ty).major ip major
      minor := update (t.disk.make ip ty).minor ip minor
      nlink := update (t.disk.make ip ty).nlink ip 1 } with hu
  have hkeep : ∀ j, Live t.disk j → Live u.disk j := by
    intro j hj
    simpa only [hu, Tx.update, Live, Disk.make, update_of_ne (hne j hj)] using hj
  have hnew : Live u.disk ip := by
    simpa only [hu, Tx.update, Live, Disk.make, update_self] using ⟨hty, by decide⟩
  have hlu : Linked u.disk := by
    refine hl.of hkeep fun p x hx => .inl ?_
    rcases eq_or_ne p ip with rfl | hp
    · simp only [hu, Tx.update, Disk.make, update_self, not_mem_nil] at hx
    · simpa only [hu, Tx.update, Disk.make, update_of_ne hp] using hx
  have hwu : Within B u := ((hempty.mono (empty_subset B)).update hi _).update hi _
  have hlast : ∀ v D, D.card ≤ 4 → Linked v.disk → Within (B ∪ D) v →
      Fit g n (dirlink dp nm ip fun ok =>
        if ok then iunlockput dp (k ip) else .panic "create: dirlink") v := by
    intro v D hD hlv hv
    have hsub : B ⊆ B ∪ D := subset_union_left
    refine always_dirlink hn hlv (hsub hb) (hsub hd) hv (by trivial) fun D' hD' w _ hw => ?_
    have hsub' : B ⊆ B ∪ D ∪ D' := hsub.trans subset_union_left
    refine Tail.iunlockput hn (hsub' hb) (hsub' hd) (hk ip _ (hsub' hb) (hsub' hi) ?_) w hw
    rw [union_assoc]
    have hcard : (D ∪ D').card ≤ 6 := (card_union_le ..).trans (Nat.add_le_add hD hD')
    exact lt_of_le_of_lt (card_union_three hcard) (by decide)
  show Fit g n (if ty = T_DIR then _ else _) u
  split_ifs with hdir
  · -- the entries of a new directory
    set v := u.update g dp
      { u.disk with nlink := update u.disk.nlink dp (u.disk.nlink dp + 1) } with hv
    have hlv : Linked v.disk := hlu.of (fun _ hj => live_addLink hj) fun p x hx => .inl hx
    have hnv : Live v.disk ip := live_addLink hnew
    have hdv : Live v.disk dp := live_addLink (hkeep dp hdp)
    refine always_setLinks ?_
    refine always_dirlink (t := v) hn hlv hb hi (hwu.update hd _) (by trivial) ?_
    intro D1 hD1 w1 hw1 h1
    have hsub : B ⊆ B ∪ D1 := subset_union_left
    have hl1 : Linked w1.disk := hw1 ▸ hlv.setEntry hnv
    have hd1 : Live w1.disk dp := hw1 ▸ hdv
    rw [if_pos rfl]
    refine always_dirlink hn hl1 (hsub hb) (hsub hi) h1 (by trivial) fun D2 hD2 w2 hw2 h2 => ?_
    refine hlast w2 (D1 ∪ D2) ((card_union_le ..).trans (Nat.add_le_add hD1 hD2))
      (hw2 ▸ hl1.setEntry hd1) ?_
    rwa [← union_assoc]
  · exact hlast u ∅ (by decide) hlu (by rwa [Finset.union_empty])

theorem always_create {cwd ty : ℕ} {path : Locks.Path} {major minor : ℤ} {k : Option ℕ → Code}
    (hn : n ≤ BPB) (hl : Linked t.disk) (hroot : Live t.disk ROOTINO)
    (hcwd : Live t.disk cwd) (hty : ty ≠ 0) (hempty : Within ∅ t)
    (hnone : Fit g n (k none) t)
    (hk : ∀ i A, g.bmapstart ∈ A → g.iblock i ∈ A → A.card < MAXOPBLOCKS →
      Tail g n A (k (some i))) :
    Fit g n (create cwd path ty major minor k) t := by
  refine always_namex hl hroot hcwd hnone fun dp nm hdp => ?_
  refine always_ilock (always_look ?_)
  cases hf : t.disk.find dp nm with
  | none => exact always_createNew hn hl hdp hty hempty hk
  | some i =>
    refine always_iput hdp.2 ?_
    show Fit g n (if ty = T_FILE ∧ t.disk.type i = T_FILE then _ else _) t
    split_ifs
    · refine hk i {g.bmapstart, g.iblock i} (by simp) (by simp) ?_ t
        (hempty.mono (empty_subset _))
      exact lt_of_le_of_lt card_le_two (by decide)
    · exact always_iput (hl.find hf).2 hnone

theorem always_beginOp {k : Code} (hclosed : t.opened = false)
    (hk : Fit g n k ⟨t.disk, true, []⟩) :
    Fit g n (.beginOp k) t := by
  show Fit g n k { t with opened := true, log := if t.opened then t.log else [] }
  rwa [hclosed]

/-- A file system whose free map is one block, with no unlinked directory in use, and a process in
  no transaction. -/
structure Sound (n cwd : ℕ) (t : Tx) : Prop where
  bitmap : n ≤ BPB
  linked : Linked t.disk
  root : Live t.disk ROOTINO
  cwd : Live t.disk cwd
  closed : t.opened = false

section Calls
variable {cwd : ℕ}

theorem fail_fits (d : Disk) (o : Bool) : Fit g n fail ⟨d, o, []⟩ :=
  tail_done (A := ∅) (by decide) (-1) _ within_begin

theorem open_fits (h : Sound n cwd t) (path : Locks.Path) (creat rdonly : Bool) :
    Fit g n (sysOpen cwd path creat rdonly) t := by
  refine always_beginOp h.closed ?_
  split_ifs
  · exact always_create h.bitmap h.linked h.root h.cwd (by decide) within_begin
      (fail_fits _ _) fun i A hb hi hA => tail_openEnd h.bitmap hb hi hA
  · refine always_namex h.linked h.root h.cwd (fail_fits _ _) fun i nm hi => ?_
    have hA : ({g.bmapstart, g.iblock i} : Finset ℕ).card < MAXOPBLOCKS :=
      lt_of_le_of_lt card_le_two (by decide)
    show Fit g n (if t.disk.type i = T_DIR && !rdonly then _ else _) _
    split_ifs
    · exact Tail.iunlockput h.bitmap (by simp) (by simp) (tail_done hA.le _) _ within_begin
    · exact tail_openEnd h.bitmap (by simp) (by simp) hA _ within_begin

theorem make_fits (h : Sound n cwd t) (path : Option Locks.Path) {ty : ℕ} (hty : ty ≠ 0)
    (major minor : ℤ) : Fit g n (sysMake cwd path ty major minor) t := by
  refine always_beginOp h.closed ?_
  cases path with
  | none => exact fail_fits _ _
  | some path =>
    exact always_create h.bitmap h.linked h.root h.cwd hty within_begin
      (fail_fits _ _) fun i A hb hi hA => Tail.iunlockput h.bitmap hb hi (tail_done hA.le _)

theorem chdir_fits (h : Sound n cwd t) (path : Option Locks.Path) :
    Fit g n (sysChdir cwd path) t := by
  refine always_beginOp h.closed ?_
  cases path with
  | none => exact fail_fits _ _
  | some path =>
    refine always_namex h.linked h.root h.cwd (fail_fits _ _) fun i nm hi => ?_
    have hA : ({g.bmapstart, g.iblock i, g.iblock cwd} : Finset ℕ).card ≤ MAXOPBLOCKS :=
      card_le_three.trans (by decide)
    show Fit g n (if t.disk.type i ≠ T_DIR then _ else _) _
    split_ifs
    · exact Tail.iunlockput h.bitmap (by simp) (by simp) (tail_done hA _) _ within_begin
    · exact Tail.iput h.bitmap (by simp) (by simp) (Tail.endOp hA fun _ _ => by trivial) _
        within_begin

theorem link_fits (h : Sound n cwd t) (old new : Locks.Path) :
    Fit g n (sysLink cwd old new) t := by
  refine always_beginOp h.closed ?_
  refine always_namex h.linked h.root h.cwd (fail_fits _ _) fun i _ hi => ?_
  have htwo : ({g.bmapstart, g.iblock i} : Finset ℕ).card ≤ MAXOPBLOCKS :=
    card_le_two.trans (by decide)
  show Fit g n (if t.disk.type i = T_DIR then _ else _) _
  split_ifs
  · exact Tail.iunlockput h.bitmap (by simp) (by simp) (tail_done htwo _) _ within_begin
  · -- the other paths still lead to inodes with links
    have hlink : Linked { t.disk with nlink := update t.disk.nlink i (t.disk.nlink i + 1) } :=
      h.linked.of (fun _ hj => live_addLink hj) fun p x hx => .inl hx
    refine always_namex hlink (live_addLink h.root) (live_addLink h.cwd) ?_ fun dp nm _ => ?_
    · exact tail_linkBad h.bitmap (by simp) (by simp) htwo _
        (within_begin.update (by simp) _)
    set B : Finset ℕ := {g.bmapstart, g.iblock dp, g.iblock i} with hB
    have hb : g.bmapstart ∈ B := by simp [hB]
    have hd : g.iblock dp ∈ B := by simp [hB]
    have hm : g.iblock i ∈ B := by simp [hB]
    have hu : Within B (Tx.update g i
        { t.disk with nlink := update t.disk.nlink i (t.disk.nlink i + 1) }
        ⟨t.disk, true, []⟩) := within_begin.update hm _
    refine always_ilock <| always_dirlink h.bitmap hlink hb hd hu ?_ fun D hD v _ hv => ?_
    · exact Tail.iunlockput h.bitmap hb hd
        (tail_linkBad h.bitmap hb hm (card_le_three.trans (by decide))) _ hu
    · have hsub : B ⊆ B ∪ D := subset_union_left
      refine Tail.iunlockput h.bitmap (hsub hb) (hsub hd)
        (Tail.iput h.bitmap (hsub hb) (hsub hm) (tail_done ?_ _)) v hv
      exact (card_union_three hD).trans (by decide)

theorem unlink_fits (h : Sound n cwd t) (path : Locks.Path) :
    Fit g n (sysUnlink cwd path) t := by
  refine always_beginOp h.closed ?_
  refine always_namex h.linked h.root h.cwd (fail_fits _ _) fun dp nm _ => ?_
  have htwo : ({g.bmapstart, g.iblock dp} : Finset ℕ).card ≤ MAXOPBLOCKS :=
    card_le_two.trans (by decide)
  have hout : Fit g n (iunlockput dp fail) ⟨t.disk, true, []⟩ :=
    Tail.iunlockput h.bitmap (by simp) (by simp) (tail_done htwo _) _ within_begin
  show Fit g n (if nm = "." ∨ nm = ".." then _ else _) _
  split_ifs
  · exact hout
  refine always_look ?_
  cases hf : t.disk.find dp nm with
  | none => exact hout
  | some i =>
    show Fit g n (if t.disk.nlink i < 1 then _ else _) _
    split_ifs
    · trivial
    intro e
    set B : Finset ℕ := {g.bmapstart, g.iblock dp, g.iblock i} with hB
    have hb : g.bmapstart ∈ B := by simp [hB]
    have hd : g.iblock dp ∈ B := by simp [hB]
    have hm : g.iblock i ∈ B := by simp [hB]
    have hthree : B.card ≤ MAXOPBLOCKS := card_le_three.trans (by decide)
    show Fit g n (if t.disk.type i = T_DIR && !e then _ else _) _
    split_ifs
    · exact Tail.iunlockput h.bitmap hb hm
        (Tail.iunlockput h.bitmap hb hd (tail_done hthree _)) _ within_begin
    · refine always_write h.bitmap hb hd within_begin fun D hD v _ hv => ?_
      have hsub : B ⊆ B ∪ D := subset_union_left
      exact tail_unlinkEnd h.bitmap (hsub hb) (hsub hd) (hsub hm)
        ((card_union_three hD).trans (by decide)) v hv

theorem iput_transaction {k : Code} (hn : n ≤ BPB) (hclosed : t.opened = false) (i : ℕ)
    (hk : ∀ u : Tx, u.opened = false → Fit g n k u) :
    Fit g n (.beginOp (iput i (.endOp k))) t := by
  refine always_beginOp hclosed ?_
  refine Tail.iput (A := {g.bmapstart, g.iblock i}) hn (by simp) (by simp) ?_ _ within_begin
  exact fun u hu => ⟨hu.fits (card_le_two.trans (by decide)), hk _ rfl⟩

theorem closeEnd_fits {k : Code} (hn : n ≤ BPB) (hclosed : t.opened = false) (r : Option ℕ)
    (hk : ∀ u : Tx, u.opened = false → Fit g n k u) : Fit g n (closeEnd r k) t := by
  cases r with
  | none => exact hk t hclosed
  | some i => exact iput_transaction hn hclosed i hk

theorem exitLoop_fits (hn : n ≤ BPB) (fds : List Ftable.Fd) :
    ∀ t : Tx, t.opened = false → Fit g n (exitLoop cwd fds) t := by
  induction fds with
  | nil =>
    intro t hclosed
    exact iput_transaction hn hclosed cwd fun _ _ => trivial
  | cons fd fds ih =>
    intro t hclosed r
    cases r with
    | none => exact ih t hclosed
    | some r => exact closeEnd_fits hn hclosed r ih

end Calls

def isName : Call → Bool
  | .open .. | .mkdir .. | .mknod .. | .link .. | .unlink .. | .chdir .. | .close .. | .exit => true
  | _ => false

/-- Every transaction of a name-space call logs at most `MAXOPBLOCKS` different blocks, for
  directories and files of every size. -/
theorem name_calls_fit (g : Geometry) {nblocks cwd : ℕ} {t : Tx} (h : Sound nblocks cwd t)
    {c : Call} (hc : isName c = true) :
    Always g nblocks (fun l => l.toFinset.card ≤ MAXOPBLOCKS) (c.code cwd) t := by
  cases c with
  | «open» path creat rdonly =>
    cases path with
    | none => trivial
    | some path => exact open_fits h path creat rdonly
  | link old new =>
    cases old with
    | none => trivial
    | some old =>
      cases new with
      | none => trivial
      | some new => exact link_fits h old new
  | unlink path =>
    cases path with
    | none => trivial
    | some path => exact unlink_fits h path
  | mkdir path => exact make_fits h path (by decide) 0 0
  | mknod path major minor => exact make_fits h path (by decide) major minor
  | chdir path => exact chdir_fits h path
  | close fd =>
    cases fd with
    | none => trivial
    | some fd =>
      intro r
      cases r with
      | none => trivial
      | some r => exact closeEnd_fits h.bitmap h.closed r fun _ _ => trivial
  | exit => exact exitLoop_fits h.bitmap _ t h.closed
  | read | write | fstat | exec | dup => cases hc

def oneDirectory : Tx where
  disk :=
    { type := fun i => if i = ROOTINO then T_DIR else 0
      major := fun _ => 0
      minor := fun _ => 0
      nlink := fun i => if i = ROOTINO then 1 else 0
      data := fun _ => []
      entries := fun i =>
        if i = ROOTINO then [(".", ROOTINO), ("..", ROOTINO)] else [] }
  opened := false
  log := []

theorem name_calls_fit_mkdir :
    Always ⟨58, 32⟩ 1000 (fun l => l.toFinset.card ≤ MAXOPBLOCKS)
      ((Call.mkdir (some ⟨true, ["a"]⟩)).code ROOTINO) oneDirectory := by
  have hroot : Live oneDirectory.disk ROOTINO := ⟨by decide, by decide⟩
  have hlinked : Linked oneDirectory.disk := by
    intro p e he
    dsimp only [oneDirectory] at he
    split_ifs at he
    · simp only [mem_cons, not_mem_nil, or_false] at he
      rcases he with rfl | rfl
      · exact hroot
      · exact hroot
    · cases he
  exact name_calls_fit ⟨58, 32⟩ ⟨by decide, hlinked, hroot, hroot, rfl⟩ rfl

end Xv6.Fs.Calls.Opblocks

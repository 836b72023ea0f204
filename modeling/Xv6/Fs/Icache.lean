import Xv6.Fs.Inode
import Xv6.Schemes.Machine

/-! @src fs.c, sysfile.c | part:inode cache | scheme:machine

  The inode cache and the disk inodes behind it, with `iput` cut where it gives up a lock. A process
  holds references (`held`), takes the sleep lock of an entry, changes the inode and writes it back
  with `iupdate` before it unlocks. `iput` decides under the sleep lock whether to free the inode,
  but lowers the reference count only after releasing it:

      iput --acquiresleep--> valid, nlink = 0, ref = 1? --no--> releasesleep --> drop --> ref--
                                  +--yes--> itrunc --> type = 0 --> valid = 0 --> drop --> ref-- -/

namespace Xv6.Fs.Icache
open List
open Finset
open Schemes
open Function
open Option (some)

def NINODE : ℕ := 50

abbrev Ent := Fin NINODE

/-- `struct inode`; `lock` is the holder of the sleep lock, `ip` the copy of the disk inode. -/
structure Entry (P : Type) where
  dev : ℕ
  inum : ℕ
  ref : ℕ
  valid : Bool
  lock : Option P
  ip : Dinode

/-- Where a process is: outside, between `ialloc` and the `ilock` that follows it in `create`, or in
  `iput`. -/
inductive Pc where
  | idle
  | made (e : Ent)
  | iput (e : Ent)
  | free (e : Ent)
  | clear (e : Ent)
  | done (e : Ent)
  | drop (e : Ent)
  deriving DecidableEq

structure St (P : Type) where
  entry : Ent → Entry P
  disk : ℕ → ℕ → Dinode
  held : P → Ent → ℕ
  pc : P → Pc

/-- What the system calls change in a locked inode before they call `iupdate`. -/
inductive Change where
  | link
  | unlink
  | init (major minor : ℤ)
  | write (size : ℕ) (addrs : ℕ → ℕ)

def Change.apply (d : Dinode) : Change → Dinode
  | .link => { d with nlink := d.nlink + 1 }
  | .unlink => { d with nlink := d.nlink - 1 }
  | .init major minor => { d with major := major, minor := minor, nlink := 1 }
  | .write size addrs => { d with size := size, addrs := addrs }

def Change.allowed (d : Dinode) : Change → Bool
  | .unlink => 1 ≤ d.nlink
  | _ => true

/-- The steps. `iget` is that of `dirlookup`, `ialloc` includes its own; `give` passes a reference on,
  as `fork` does with the files it shares. -/
inductive Ev (P : Type) where
  | iget (p : P) (dev inum : ℕ)
  | ialloc (p : P) (dev inum type : ℕ)
  | idup (p : P) (e : Ent)
  | give (p q : P) (e : Ent)
  | ilock (p : P) (e : Ent)
  | iunlock (p : P) (e : Ent)
  | change (p : P) (e : Ent) (c : Change)
  | iput (p : P) (e : Ent)
  | check (p : P)
  | itrunc (p : P)
  | clear (p : P)
  | release (p : P)
  | drop (p : P)

variable {P : Type} [DecidableEq P]

namespace St

def setEntry (x : St P) (e : Ent) (v : Entry P) : St P :=
  { x with entry := update x.entry e v }

def setPc (x : St P) (p : P) (c : Pc) : St P := { x with pc := update x.pc p c }

def setHeld (x : St P) (p : P) (e : Ent) (n : ℕ) : St P :=
  { x with held := update x.held p (update (x.held p) e n) }

def setDisk (x : St P) (dev inum : ℕ) (d : Dinode) : St P :=
  { x with disk := update x.disk dev (update (x.disk dev) inum d) }

/-- The loop of `iget`: the entry of the inode, or the first free one; `none` is a panic. -/
def find (x : St P) (dev inum : ℕ) : Option Ent :=
  ((finRange NINODE).find? fun e =>
    0 < (x.entry e).ref ∧ (x.entry e).dev = dev ∧ (x.entry e).inum = inum).or
  ((finRange NINODE).find? fun e => (x.entry e).ref = 0)

/-- `iget`: the entry of an inode, or a free one. -/
def get (x : St P) (p : P) (dev inum : ℕ) (e : Ent) : St P :=
  (x.setHeld p e (x.held p e + 1)).setEntry e
    (if 0 < (x.entry e).ref then { x.entry e with ref := (x.entry e).ref + 1 }
    else { x.entry e with dev := dev, inum := inum, ref := 1, valid := false })

def dinode (x : St P) (e : Ent) : Dinode := x.disk (x.entry e).dev (x.entry e).inum

def update (x : St P) (e : Ent) (d : Dinode) : St P :=
  (x.setEntry e { x.entry e with ip := d }).setDisk (x.entry e).dev (x.entry e).inum d

def emptied (d : Dinode) : Dinode := { d with size := 0, addrs := fun _ => 0 }

def step (x : St P) : Ev P → Option (St P)
  | .iget p dev inum =>
    -- nothing is asked of the inode: the entry `..` of a removed directory may name a removed one
    if x.pc p = .idle then (x.find dev inum).map fun e => x.get p dev inum e else none
  | .ialloc p dev inum type =>
    if x.pc p = .idle ∧ (x.disk dev inum).type = 0 ∧ type ≠ 0 then
      (x.find dev inum).map fun e =>
        ((x.setDisk dev inum ⟨type, 0, 0, 0, 0, fun _ => 0⟩).get p dev inum e).setPc p (.made e)
    else none
  | .idup p e =>
    if x.pc p = .idle ∧ 0 < x.held p e then
      some ((x.setHeld p e (x.held p e + 1)).setEntry e
        { x.entry e with ref := (x.entry e).ref + 1 })
    else none
  | .give p q e =>
    if x.pc p = .idle ∧ 0 < x.held p e ∧ (x.entry e).lock ≠ some p ∧ p ≠ q then
      some ((x.setHeld p e (x.held p e - 1)).setHeld q e (x.held q e + 1))
    else none
  | .ilock p e =>
    if (x.pc p = .idle ∨ x.pc p = .made e) ∧ 0 < x.held p e ∧ (x.entry e).lock = none then
      if (x.entry e).valid then some ((x.setEntry e { x.entry e with lock := some p }).setPc p .idle)
      else if (x.dinode e).type = 0 then none
      else some ((x.setEntry e { x.entry e with lock := some p, ip := x.dinode e, valid := true }).setPc
        p .idle)
    else none
  | .iunlock p e =>
    if x.pc p = .idle ∧ (x.entry e).lock = some p then
      some (x.setEntry e { x.entry e with lock := none })
    else none
  | .change p e c =>
    if x.pc p = .idle ∧ (x.entry e).lock = some p ∧ c.allowed (x.entry e).ip then
      some (x.update e (c.apply (x.entry e).ip))
    else none
  | .iput p e =>
    if x.pc p = .idle ∧ 0 < x.held p e ∧ (x.entry e).lock = none then
      some ((x.setEntry e { x.entry e with lock := some p }).setPc p (.iput e))
    else none
  | .check p =>
    match x.pc p with
    | .iput e =>
      if (x.entry e).valid ∧ (x.entry e).ip.nlink = 0 ∧ (x.entry e).ref = 1 then
        some (x.setPc p (.free e))
      else some ((x.setEntry e { x.entry e with lock := none }).setPc p (.drop e))
    | _ => none
  | .itrunc p =>
    match x.pc p with
    | .free e => some ((x.update e (emptied (x.entry e).ip)).setPc p (.clear e))
    | _ => none
  | .clear p =>
    match x.pc p with
    | .clear e => some ((x.update e { (x.entry e).ip with type := 0 }).setPc p (.done e))
    | _ => none
  | .release p =>
    match x.pc p with
    | .done e => some ((x.setEntry e { x.entry e with valid := false, lock := none }).setPc p (.drop e))
    | _ => none
  | .drop p =>
    match x.pc p with
    | .drop e => some (((x.setHeld p e (x.held p e - 1)).setEntry e
        { x.entry e with ref := (x.entry e).ref - 1 }).setPc p .idle)
    | _ => none

end St

def boot (disk : ℕ → ℕ → Dinode) : St P where
  entry := fun _ => ⟨0, 0, 0, false, none, ⟨0, 0, 0, 0, 0, fun _ => 0⟩⟩
  disk := disk
  held := fun _ _ => 0
  pc := fun _ => .idle

/-! ### What the cache is for -/

/-- At most one entry per inode; an unlocked valid entry in use shows what is on the disk; only an
  inode without links is freed, by the one process that still has a reference; and an allocated
  inode without links is in use. -/
structure Coherent (x : St P) : Prop where
  unique : ∀ e e', 0 < (x.entry e).ref → 0 < (x.entry e').ref →
    (x.entry e).dev = (x.entry e').dev → (x.entry e).inum = (x.entry e').inum → e = e'
  synced : ∀ e, 0 < (x.entry e).ref → (x.entry e).valid = true → (x.entry e).lock = none →
    (x.entry e).ip = x.dinode e
  freed : ∀ p e, x.pc p = .free e ∨ x.pc p = .clear e → (x.entry e).ref = 1 ∧ x.held p e = 1 ∧
    (x.dinode e).nlink = 0
  kept : ∀ dev inum, (x.disk dev inum).type ≠ 0 → (x.disk dev inum).nlink = 0 →
    ∃ e, (x.entry e).dev = dev ∧ (x.entry e).inum = inum ∧ 0 < (x.entry e).ref

/-- No process looks at `ref` in `iput`, for an inode without links, while another one is about to
  lower it, and none takes a reference to an inode while another one frees it. -/
def Alone (x : St P) : Ev P → Prop
  | .iget _ dev inum => ∀ e, (x.entry e).dev = dev → (x.entry e).inum = inum →
      ∀ q, x.pc q ≠ .free e ∧ x.pc q ≠ .clear e
  | .check p => ∀ e, x.pc p = .iput e → (x.entry e).valid = true → (x.entry e).ip.nlink = 0 →
      ∀ q, q ≠ p → x.pc q ≠ .drop e
  | _ => True

/-! ### The invariant -/

def St.Keeps (x : St P) (p : P) (e : Ent) : Prop :=
  (if x.pc p = .done e ∨ x.pc p = .drop e then 1 else 0) < x.held p e

def Pc.Inside (c : Pc) (e : Ent) : Prop := c = .iput e ∨ c = .free e ∨ c = .clear e ∨ c = .done e

variable [Fintype P]

structure Inv (x : St P) : Prop where
  sum : ∀ e, (x.entry e).ref = ∑ p, x.held p e
  unique : ∀ e e', 0 < (x.entry e).ref → 0 < (x.entry e').ref →
    (x.entry e).dev = (x.entry e').dev → (x.entry e).inum = (x.entry e').inum → e = e'
  inside : ∀ p e, (x.pc p).Inside e → (x.entry e).lock = some p
  owns : ∀ p e, (x.pc p).Inside e ∨ x.pc p = .made e ∨ x.pc p = .drop e → 0 < x.held p e
  locked : ∀ e p, (x.entry e).lock = some p →
    0 < x.held p e ∧ ((x.pc p).Inside e ∨ (x.entry e).valid = true)
  left : ∀ p e, x.pc p = .drop e → (x.entry e).lock ≠ some p
  gone : ∀ p e, x.pc p = .done e → (x.dinode e).type = 0 ∨ ∃ q, x.pc q = .made e
  synced : ∀ e, 0 < (x.entry e).ref → (x.entry e).valid = true →
    (∃ p, x.pc p = .done e) ∨ (x.entry e).ip = x.dinode e ∧ (x.entry e).ip.type ≠ 0
  freed : ∀ p e, x.pc p = .free e ∨ x.pc p = .clear e →
    (x.entry e).ref = 1 ∧ (x.entry e).valid = true ∧ (x.entry e).ip.nlink = 0
  fresh : ∀ e, 0 < (x.entry e).ref → (x.entry e).valid = false →
    (x.dinode e).type = 0 ∨ (x.dinode e).nlink ≠ 0 ∨ ∃ q, x.pc q = .made e
  kept : ∀ dev inum, (x.disk dev inum).type ≠ 0 → (x.disk dev inum).nlink = 0 →
    ∃ e, (x.entry e).dev = dev ∧ (x.entry e).inum = inum ∧ ∃ p, x.Keeps p e

variable {x y : St P} {p q : P} {e e' : Ent}

section
omit [DecidableEq P]

theorem Inv.held_le (h : Inv x) (p : P) (e : Ent) : x.held p e ≤ (x.entry e).ref := by
  rw [h.sum e]
  exact single_le_sum (f := fun p => x.held p e) (fun _ _ => Nat.zero_le _) (mem_univ p)

/-- Two references, one of them held by `p`: `p` has both or somebody else has one. -/
theorem Inv.other_holder (h : Inv x) (hr : 2 ≤ (x.entry e).ref) (p : P) :
    2 ≤ x.held p e ∨ ∃ q, q ≠ p ∧ 0 < x.held q e := by
  classical
  by_contra hno
  rw [not_or, not_le, not_exists] at hno
  have hsum : ∑ q, x.held q e = x.held p e := by
    refine sum_eq_single p (fun q _ hq => ?_) fun hp => absurd (mem_univ p) hp
    have hz := hno.2 q
    rw [not_and, not_lt] at hz
    exact Nat.le_zero.mp (hz hq)
  have := h.sum e
  omega

end

/-! ### Steps -/

variable {dev inum : ℕ}

omit [DecidableEq P] [Fintype P] in
/-- What `iget` finds. -/
theorem find_some (h : x.find dev inum = some e) :
    (0 < (x.entry e).ref ∧ (x.entry e).dev = dev ∧ (x.entry e).inum = inum) ∨
    (x.entry e).ref = 0 ∧ ∀ e', 0 < (x.entry e').ref → (x.entry e').dev = dev →
      (x.entry e').inum ≠ inum := by
  unfold St.find at h
  cases hf : (finRange NINODE).find? (fun e =>
    0 < (x.entry e).ref ∧ (x.entry e).dev = dev ∧ (x.entry e).inum = inum) with
  | some e' =>
    rw [hf, Option.some_or, some.injEq] at h
    subst h
    have htest := List.find?_some hf
    exact .inl (by simpa using htest)
  | none =>
    rw [hf, Option.none_or] at h
    have htest := List.find?_some h
    refine .inr ⟨by simpa using htest, fun e' hr hd hi => ?_⟩
    have hno := List.find?_eq_none.mp hf e' (mem_finRange e')
    simp [hr, hd, hi] at hno

theorem sum_setHeld (x : St P) (p : P) (e : Ent) (n : ℕ) (e' : Ent) :
    ∑ q, (x.setHeld p e n).held q e' + (if e' = e then x.held p e else 0) =
      ∑ q, x.held q e' + if e' = e then n else 0 := by
  have hfun : ∀ q, (x.setHeld p e n).held q e' =
      update (fun q => x.held q e') p (if e' = e then n else x.held p e') q := by
    intro q
    rcases eq_or_ne q p with rfl | hq
    · simp [St.setHeld, update_apply]
    · simp [St.setHeld, hq]
  have hsum := sum_update (fun q => x.held q e') p (if e' = e then n else x.held p e')
  rw [sum_congr rfl fun q _ => hfun q]
  split_ifs at hsum ⊢ with he
  · subst he
    exact hsum
  · omega

section
omit [DecidableEq P]

/-- The last reference has one holder. -/
theorem Inv.last_holder (h : Inv x) (hr : (x.entry e).ref = 1) (hp : 0 < x.held p e)
    (hq : 0 < x.held q e) : q = p := by
  classical
  by_contra hne
  have hpair : ∑ r ∈ {p, q}, x.held r e ≤ ∑ r, x.held r e :=
    sum_le_sum_of_subset (subset_univ _)
  rw [sum_pair (Ne.symm hne), ← h.sum e] at hpair
  omega

/-- Steps that take and drop no reference. -/
theorem Inv.sum_same (h : Inv x) (hheld : y.held = x.held)
    (href : ∀ e, (y.entry e).ref = (x.entry e).ref) (e : Ent) :
    (y.entry e).ref = ∑ p, y.held p e := by
  rw [href e, hheld]
  exact h.sum e

theorem Inv.sum_set {v : Entry P} (h : Inv x) (hheld : y.held = x.held)
    (hy : y.entry = update x.entry e v) (hv : v.ref = (x.entry e).ref) (e' : Ent) :
    (y.entry e').ref = ∑ p, y.held p e' := by
  refine h.sum_same hheld (fun e' => ?_) e'
  rw [hy]
  rcases eq_or_ne e' e with rfl | he
  · rw [update_self, hv]
  · rw [update_of_ne he]

/-- Steps that leave the inode of an entry alone and put no free entry into use. -/
theorem Inv.unique_set {v : Entry P} (h : Inv x) (hy : y.entry = update x.entry e v)
    (hdev : v.dev = (x.entry e).dev) (hinum : v.inum = (x.entry e).inum)
    (hpos : 0 < v.ref → 0 < (x.entry e).ref) (e1 e2 : Ent) (h1 : 0 < (y.entry e1).ref)
    (h2 : 0 < (y.entry e2).ref) (hd : (y.entry e1).dev = (y.entry e2).dev)
    (hi : (y.entry e1).inum = (y.entry e2).inum) : e1 = e2 := by
  have hsame : ∀ e', (y.entry e').dev = (x.entry e').dev ∧ (y.entry e').inum = (x.entry e').inum ∧
      (0 < (y.entry e').ref → 0 < (x.entry e').ref) := by
    intro e'
    rw [hy]
    rcases eq_or_ne e' e with rfl | he
    · rw [update_self]
      exact ⟨hdev, hinum, hpos⟩
    · rw [update_of_ne he]
      exact ⟨rfl, rfl, id⟩
  obtain ⟨hd1, hi1, hr1⟩ := hsame e1
  obtain ⟨hd2, hi2, hr2⟩ := hsame e2
  exact h.unique e1 e2 (hr1 h1) (hr2 h2) (by rw [← hd1, ← hd2, hd]) (by rw [← hi1, ← hi2, hi])

end

/-- Only locks change, and nobody gets to or leaves the two places where an entry and its inode on the
  disk may differ. -/
structure Relocks (x y : St P) : Prop where
  held : y.held = x.held
  disk : y.disk = x.disk
  entry : ∀ e, ∃ l, y.entry e = { x.entry e with lock := l }
  done : ∀ q e, y.pc q = .done e ↔ x.pc q = .done e
  made : ∀ q e, y.pc q = .made e ↔ x.pc q = .made e

omit [Fintype P] in
/-- A process moves between two other places. -/
theorem setPc_eq_iff {c d : Pc} (hx : x.pc p ≠ d) (hc : c ≠ d) :
    (x.setPc p c).pc q = d ↔ x.pc q = d := by
  rcases eq_or_ne q p with rfl | hq
  · simp [St.setPc, hx, hc]
  · simp [St.setPc, hq]

omit [DecidableEq P] [Fintype P] in
theorem lock_update {l : Option P} (e' : Ent) : ∃ l',
    update x.entry e { x.entry e with lock := l } e' = { x.entry e' with lock := l' } := by
  rcases eq_or_ne e' e with rfl | he
  · exact ⟨l, update_self ..⟩
  · exact ⟨(x.entry e').lock, update_of_ne he ..⟩

omit [DecidableEq P] in
/-- What is left to show of a step that only changes locks. -/
theorem Inv.relocks (h : Inv x) (hr : Relocks x y)
    (inside : ∀ p e, (y.pc p).Inside e → (y.entry e).lock = some p)
    (owns : ∀ p e, (y.pc p).Inside e ∨ y.pc p = .made e ∨ y.pc p = .drop e → 0 < y.held p e)
    (locked : ∀ e p, (y.entry e).lock = some p →
      0 < y.held p e ∧ ((y.pc p).Inside e ∨ (y.entry e).valid = true))
    (left : ∀ p e, y.pc p = .drop e → (y.entry e).lock ≠ some p)
    (freed : ∀ p e, y.pc p = .free e ∨ y.pc p = .clear e →
      (x.entry e).ref = 1 ∧ (x.entry e).valid = true ∧ (x.entry e).ip.nlink = 0)
    (kept : ∀ dev inum, (x.disk dev inum).type ≠ 0 → (x.disk dev inum).nlink = 0 →
      ∃ e, (x.entry e).dev = dev ∧ (x.entry e).inum = inum ∧ ∃ p, y.Keeps p e) : Inv y := by
  have hent : ∀ e, (y.entry e).dev = (x.entry e).dev ∧ (y.entry e).inum = (x.entry e).inum ∧
      (y.entry e).ref = (x.entry e).ref ∧ (y.entry e).valid = (x.entry e).valid ∧
      (y.entry e).ip = (x.entry e).ip := by
    intro e
    obtain ⟨l, hl⟩ := hr.entry e
    rw [hl]
    exact ⟨rfl, rfl, rfl, rfl, rfl⟩
  have hdinode : ∀ e, y.dinode e = x.dinode e := by
    intro e
    rw [St.dinode, hr.disk, (hent e).1, (hent e).2.1, St.dinode]
  refine ⟨h.sum_same hr.held fun e => (hent e).2.2.1, ?_, inside, owns, locked, left, ?_, ?_, ?_, ?_,
    ?_⟩
  · intro e e' h1 h2 hd hi
    rw [(hent e).2.2.1] at h1
    rw [(hent e').2.2.1] at h2
    rw [(hent e).1, (hent e').1] at hd
    rw [(hent e).2.1, (hent e').2.1] at hi
    exact h.unique e e' h1 h2 hd hi
  · intro p e hp
    rw [hdinode]
    simp only [hr.made]
    exact h.gone p e ((hr.done p e).mp hp)
  · intro e hpos hv
    rw [(hent e).2.2.1] at hpos
    rw [(hent e).2.2.2.1] at hv
    simp only [hr.done, (hent e).2.2.2.2, hdinode]
    exact h.synced e hpos hv
  · intro p e hp
    rw [(hent e).2.2.1, (hent e).2.2.2.1, (hent e).2.2.2.2]
    exact freed p e hp
  · intro e hpos hv
    rw [(hent e).2.2.1] at hpos
    rw [(hent e).2.2.2.1] at hv
    simp only [hr.made, hdinode]
    exact h.fresh e hpos hv
  · intro dev inum ht hn
    rw [hr.disk] at ht hn
    obtain ⟨e, hd, hi, hk⟩ := kept dev inum ht hn
    exact ⟨e, (hent e).1.trans hd, (hent e).2.1.trans hi, hk⟩

theorem Inv.idup (h : Inv x) (hp : x.pc p = .idle) (hh : 0 < x.held p e) :
    Inv ((x.setHeld p e (x.held p e + 1)).setEntry e { x.entry e with ref := (x.entry e).ref + 1 }) := by
  have hsum := sum_setHeld x p e (x.held p e + 1)
  have hpos := h.held_le p e
  have hone : (x.entry e).ref = 1 → ∀ q, 0 < x.held q e → q = p := fun hr q hq =>
    h.last_holder hr hh hq
  have hx := h
  obtain ⟨sum, unique, inside, owns, locked, left, gone, synced, freed, fresh, kept⟩ := h
  constructor
  case sum =>
    intro e'
    have h1 := hsum e'
    have h2 := sum e'
    simp only [St.setEntry, update_apply]
    split_ifs at h1 ⊢ with he
    · subst he
      show (x.entry e').ref + 1 = ∑ q, (x.setHeld p e' (x.held p e' + 1)).held q e'
      omega
    · show (x.entry e').ref = ∑ q, (x.setHeld p e (x.held p e + 1)).held q e'
      omega
  case unique => exact hx.unique_set rfl rfl rfl fun _ => hh.trans_le hpos
  all_goals
    clear sum hsum hx
    simp only [St.setEntry, St.setHeld, St.dinode, St.Keeps, Pc.Inside, update_apply] at *
  case inside | owns | locked | left | gone | synced | freed | fresh | kept => grind

theorem Inv.give (h : Inv x) (hp : x.pc p = .idle) (hh : 0 < x.held p e)
    (hl : (x.entry e).lock ≠ some p) (hpq : p ≠ q) :
    Inv ((x.setHeld p e (x.held p e - 1)).setHeld q e (x.held q e + 1)) := by
  have hsum1 := sum_setHeld x p e (x.held p e - 1)
  have hsum2 := sum_setHeld (x.setHeld p e (x.held p e - 1)) q e (x.held q e + 1)
  have hq : (x.setHeld p e (x.held p e - 1)).held q e = x.held q e := by
    simp [St.setHeld, hpq.symm]
  have hone : (x.entry e).ref = 1 → ∀ r, 0 < x.held r e → r = p := fun hr r hrh =>
    h.last_holder hr hh hrh
  obtain ⟨sum, unique, inside, owns, locked, left, gone, synced, freed, fresh, kept⟩ := h
  constructor
  case sum =>
    intro e'
    have h1 := hsum1 e'
    have h2 := hsum2 e'
    have h3 := sum e'
    rw [hq] at h2
    show (x.entry e').ref = _
    split_ifs at h1 h2 with he
    · subst he
      omega
    · omega
  all_goals
    clear sum hsum1 hsum2 hq
    simp only [St.setHeld, St.dinode, St.Keeps, Pc.Inside, update_apply] at *
  case unique => exact unique
  case inside => exact inside
  case owns | locked | left | gone => grind
  case synced => exact synced
  case freed => exact freed
  case fresh => exact fresh
  case kept =>
    intro dev inum ht hn
    obtain ⟨e0, hd, hi, r, hr⟩ := kept dev inum ht hn
    rcases eq_or_ne e0 e with rfl | he
    · refine ⟨e0, hd, hi, q, ?_⟩
      have := owns q e0
      grind
    · exact ⟨e0, hd, hi, r, by grind⟩

theorem Inv.ilock (h : Inv x) (hp : x.pc p = .idle ∨ x.pc p = .made e) (hh : 0 < x.held p e)
    (hl : (x.entry e).lock = none) {d : Dinode}
    (hd : (x.entry e).valid = true ∧ d = (x.entry e).ip ∨
      (x.entry e).valid = false ∧ d = x.dinode e ∧ d.type ≠ 0) :
    Inv ((x.setEntry e { x.entry e with lock := some p, ip := d, valid := true }).setPc p .idle) := by
  have hx := h
  obtain ⟨sum, unique, inside, owns, locked, left, gone, synced, freed, fresh, kept⟩ := h
  constructor
  case sum => exact hx.sum_set rfl rfl rfl
  case unique => exact hx.unique_set rfl rfl rfl id
  all_goals
    clear sum hx
    simp only [St.setEntry, St.setPc, St.dinode, St.Keeps, Pc.Inside, update_apply] at *
  case inside | owns | locked | left => grind
  case gone =>
    -- the process that frees an entry has its lock, so nobody stops waiting for it here
    intro r e' hr
    have hlock := inside r e'
    rcases gone r e' (by grind) with ht | ⟨q, hq⟩
    · exact .inl (by grind)
    · exact .inr ⟨q, by grind⟩
  case synced | freed => grind
  case fresh =>
    intro e' hr hv
    rcases fresh e' (by grind) (by grind) with ht | hn | ⟨q, hq⟩
    · exact .inl (by grind)
    · exact .inr (.inl (by grind))
    · exact .inr (.inr ⟨q, by grind⟩)
  case kept =>
    intro dev inum ht hn
    obtain ⟨e0, hd, hi, r, hr⟩ := kept dev inum ht hn
    exact ⟨e0, by grind, by grind, r, by grind⟩

omit [DecidableEq P] in
theorem Inv.iunlock (h : Inv x) (hp : x.pc p = .idle) (hl : (x.entry e).lock = some p) :
    Inv (x.setEntry e { x.entry e with lock := none }) := by
  refine h.relocks ⟨rfl, rfl, lock_update, fun _ _ => Iff.rfl, fun _ _ => Iff.rfl⟩
    (fun q e' hq => ?_) h.owns (fun e' q hq => ?_) (fun q e' hq => ?_) h.freed h.kept
  all_goals simp only [St.setEntry] at hq ⊢
  · have hlock := h.inside q e' hq
    rcases eq_or_ne e' e with rfl | he
    · rw [hl, some.injEq] at hlock
      rw [← hlock, hp] at hq
      simp [Pc.Inside] at hq
    · rw [update_of_ne he]
      exact hlock
  · rcases eq_or_ne e' e with rfl | he
    · rw [update_self] at hq
      cases hq
    · rw [update_of_ne he] at hq ⊢
      exact h.locked e' q hq
  · rcases eq_or_ne e' e with rfl | he
    · rw [update_self]
      exact nofun
    · rw [update_of_ne he]
      exact h.left q e' hq

theorem Inv.iput (h : Inv x) (hp : x.pc p = .idle) (hh : 0 < x.held p e)
    (hl : (x.entry e).lock = none) :
    Inv ((x.setEntry e { x.entry e with lock := some p }).setPc p (.iput e)) := by
  have hidle : ∀ {c : Pc}, c ≠ .idle → x.pc p ≠ c := fun hc heq => hc (heq.symm.trans hp)
  refine h.relocks ⟨rfl, rfl, lock_update, fun q e' => setPc_eq_iff (hidle nofun) nofun,
    fun q e' => setPc_eq_iff (hidle nofun) nofun⟩ ?inside ?owns ?locked ?left ?freed ?kept
  all_goals
    obtain ⟨-, -, inside, owns, locked, left, -, -, freed, -, kept⟩ := h
    simp only [St.setEntry, St.setPc, St.Keeps, Pc.Inside, update_apply] at *
  case inside | owns | locked | left | freed | kept => grind

theorem Inv.update (h : Inv x) (hl : (x.entry e).lock = some p) (hr : 0 < (x.entry e).ref)
    {d : Dinode} {c : Pc} (hv : (x.entry e).valid = true)
    (hc : x.pc p = .idle ∧ c = .idle ∧ d.type ≠ 0 ∨
      x.pc p = .free e ∧ c = .clear e ∧ d.type ≠ 0 ∧ d.nlink = (x.entry e).ip.nlink ∨
      x.pc p = .clear e ∧ c = .done e ∧ d.type = 0) : Inv ((x.update e d).setPc p c) := by
  have hx := h
  obtain ⟨sum, unique, inside, owns, locked, left, gone, synced, freed, fresh, kept⟩ := h
  constructor
  case sum => exact hx.sum_set rfl rfl rfl
  case unique => exact hx.unique_set rfl rfl rfl id
  all_goals
    clear sum hx
    simp only [St.update, St.setEntry, St.setPc, St.setDisk, St.dinode, St.Keeps, Pc.Inside,
      update_apply] at *
  case inside | owns | locked | left | gone => grind
  case synced =>
    intro e' hr' hv'
    rcases eq_or_ne e' e with rfl | he
    · rcases hc with ⟨_, rfl, ht⟩ | ⟨_, rfl, ht, _⟩ | ⟨_, rfl, _⟩
      · exact .inr (by grind)
      · exact .inr (by grind)
      · exact .inl ⟨p, by grind⟩
    · -- another entry in use is that of another inode
      have hkey := unique e' e (by grind) hr
      rcases synced e' (by grind) (by grind) with ⟨q, hq⟩ | hs
      · exact .inl ⟨q, by grind⟩
      · exact .inr (by grind)
  case freed | fresh => grind
  case kept =>
    intro dev inum ht hn
    have hown := locked e p hl
    by_cases hkey : dev = (x.entry e).dev ∧ inum = (x.entry e).inum
    · exact ⟨e, by grind, by grind, p, by grind⟩
    · obtain ⟨e0, hd, hi, r, hr'⟩ := kept dev inum (by grind) (by grind)
      exact ⟨e0, by grind, by grind, r, by grind⟩

theorem Inv.check_free (h : Inv x) (hp : x.pc p = .iput e)
    (hc : (x.entry e).valid = true ∧ (x.entry e).ip.nlink = 0 ∧ (x.entry e).ref = 1) :
    Inv (x.setPc p (.free e)) := by
  have hiput : ∀ {c : Pc}, c ≠ .iput e → x.pc p ≠ c := fun hc heq => hc (heq.symm.trans hp)
  refine h.relocks ⟨rfl, rfl, fun e' => ⟨_, rfl⟩, fun q e' => setPc_eq_iff (hiput nofun) nofun,
    fun q e' => setPc_eq_iff (hiput nofun) nofun⟩ ?inside ?owns ?locked ?left ?freed ?kept
  all_goals
    obtain ⟨-, -, inside, owns, locked, left, -, -, freed, -, kept⟩ := h
    simp only [St.setPc, St.Keeps, Pc.Inside, update_apply] at *
  case inside | owns | locked | left | freed | kept => grind

theorem Inv.check_keep (h : Inv x) (hp : x.pc p = .iput e)
    (hc : ¬ ((x.entry e).valid = true ∧ (x.entry e).ip.nlink = 0 ∧ (x.entry e).ref = 1))
    (hG : (x.entry e).valid = true → (x.entry e).ip.nlink = 0 → ∀ q, q ≠ p → x.pc q ≠ .drop e) :
    Inv ((x.setEntry e { x.entry e with lock := none }).setPc p (.drop e)) := by
  have hiput : ∀ {c : Pc}, c ≠ .iput e → x.pc p ≠ c := fun hc heq => hc (heq.symm.trans hp)
  have hown := h.owns p e (.inl (.inl hp))
  have hpos : 0 < (x.entry e).ref := hown.trans_le (h.held_le p e)
  have hother : 2 ≤ (x.entry e).ref → 2 ≤ x.held p e ∨ ∃ q, q ≠ p ∧ 0 < x.held q e := fun hr =>
    h.other_holder hr p
  refine h.relocks ⟨rfl, rfl, lock_update, fun q e' => setPc_eq_iff (hiput nofun) nofun,
    fun q e' => setPc_eq_iff (hiput nofun) nofun⟩ ?inside ?owns ?locked ?left ?freed ?kept
  all_goals
    obtain ⟨-, -, inside, owns, locked, left, -, synced, freed, fresh, kept⟩ := h
    simp only [St.setEntry, St.setPc, St.dinode, St.Keeps, Pc.Inside, update_apply] at *
  case inside | owns | locked | left | freed => grind
  case kept =>
    intro dev inum ht hn
    obtain ⟨e0, hd, hi, r, hr⟩ := kept dev inum ht hn
    rcases eq_or_ne e0 e with rfl | he
    · -- the inode without links is that of this entry: who keeps it now?
      rcases hv : (x.entry e0).valid with _ | _
      · obtain ⟨q, hq⟩ : ∃ q, x.pc q = .made e0 := by
          have := fresh e0 hpos hv
          grind
        exact ⟨e0, by grind, by grind, q, by grind⟩
      · have hnlink : (x.entry e0).ip.nlink = 0 := by
          have := synced e0 hpos hv
          grind
        have hmore : 2 ≤ (x.entry e0).ref := by grind
        have halone := hG hv hnlink
        rcases hother hmore with htwo | ⟨q, hqp, hq⟩
        · exact ⟨e0, by grind, by grind, p, by grind⟩
        · exact ⟨e0, by grind, by grind, q, by grind⟩
    · exact ⟨e0, by grind, by grind, r, by grind⟩

theorem Inv.release (h : Inv x) (hp : x.pc p = .done e) :
    Inv ((x.setEntry e { x.entry e with valid := false, lock := none }).setPc p (.drop e)) := by
  have hx := h
  obtain ⟨sum, unique, inside, owns, locked, left, gone, synced, freed, fresh, kept⟩ := h
  constructor
  case sum => exact hx.sum_set rfl rfl rfl
  case unique => exact hx.unique_set rfl rfl rfl id
  all_goals
    clear sum hx
    simp only [St.setEntry, St.setPc, St.dinode, St.Keeps, Pc.Inside, update_apply] at *
  case inside | owns | locked | left | gone => grind
  case synced =>
    intro e' hr hv
    rcases synced e' (by grind) (by grind) with ⟨q, hq⟩ | hs
    · exact .inl ⟨q, by grind⟩
    · exact .inr (by grind)
  case freed =>
    intro r e' hr
    have h1 := inside p e
    have h2 := inside r e'
    grind
  case fresh =>
    intro e' hr hv
    rcases eq_or_ne e' e with rfl | he
    · rcases gone p e' hp with ht | ⟨q, hq⟩
      · exact .inl (by grind)
      · exact .inr (.inr ⟨q, by grind⟩)
    · rcases fresh e' (by grind) (by grind) with ht | hn | ⟨q, hq⟩
      · exact .inl (by grind)
      · exact .inr (.inl (by grind))
      · exact .inr (.inr ⟨q, by grind⟩)
  case kept => grind

theorem Inv.drop (h : Inv x) (hp : x.pc p = .drop e) :
    Inv (((x.setHeld p e (x.held p e - 1)).setEntry e
      { x.entry e with ref := (x.entry e).ref - 1 }).setPc p .idle) := by
  have hsum := sum_setHeld x p e (x.held p e - 1)
  have hown := h.owns p e (.inr (.inr hp))
  have hle := h.held_le p e
  have hone : (x.entry e).ref = 1 → ∀ q, 0 < x.held q e → q = p := fun hr q hq =>
    h.last_holder hr hown hq
  have hx := h
  obtain ⟨sum, unique, inside, owns, locked, left, gone, synced, freed, fresh, kept⟩ := h
  constructor
  case sum =>
    intro e'
    have h1 := hsum e'
    have h2 := sum e'
    simp only [St.setEntry, St.setPc, update_apply]
    split_ifs at h1 ⊢ with he
    · subst he
      show (x.entry e').ref - 1 = ∑ q, (x.setHeld p e' (x.held p e' - 1)).held q e'
      omega
    · show (x.entry e').ref = ∑ q, (x.setHeld p e (x.held p e - 1)).held q e'
      omega
  case unique => exact hx.unique_set rfl rfl rfl fun _ => hown.trans_le hle
  all_goals
    clear sum hsum hx
    simp only [St.setEntry, St.setHeld, St.setPc, St.dinode, St.Keeps, Pc.Inside,
      update_apply] at *
  case inside | owns | locked | left | gone | synced | freed | fresh | kept => grind

/-- Entry `e` is in use for the inode, or it is free and no entry is in use for the inode. -/
def St.Finds (x : St P) (dev inum : ℕ) (e : Ent) : Prop :=
  (0 < (x.entry e).ref ∧ (x.entry e).dev = dev ∧ (x.entry e).inum = inum) ∨
    (x.entry e).ref = 0 ∧ ∀ e', 0 < (x.entry e').ref → (x.entry e').dev = dev →
      (x.entry e').inum ≠ inum

omit [DecidableEq P] in
theorem Inv.finds_other (h : Inv x) (hf : x.Finds dev inum e) :
    ∀ e1, e1 ≠ e → 0 < (x.entry e1).ref → (x.entry e1).dev = dev → (x.entry e1).inum ≠ inum := by
  intro e1 hne hr hdev hinum
  rcases hf with ⟨hr', hdev', hinum'⟩ | ⟨_, hno⟩
  · exact hne (h.unique e1 e hr hr' (hdev.trans hdev'.symm) (hinum.trans hinum'.symm))
  · exact hno e1 hr hdev hinum

theorem Inv.get_sum (h : Inv x) (p : P) (dev inum : ℕ) (e e' : Ent) :
    ((x.get p dev inum e).entry e').ref = ∑ q, (x.get p dev inum e).held q e' := by
  have h1 := sum_setHeld x p e (x.held p e + 1) e'
  have h2 := h.sum e'
  have hheld : ∑ q, (x.get p dev inum e).held q e' =
      ∑ q, (x.setHeld p e (x.held p e + 1)).held q e' := rfl
  rw [hheld]
  rcases eq_or_ne e' e with rfl | he
  · have hent : ((x.get p dev inum e').entry e').ref = (x.entry e').ref + 1 := by
      rcases eq_zero_or_pos (x.entry e').ref with hz | hz
      · simp [St.get, St.setEntry, St.setHeld, hz]
      · simp [St.get, St.setEntry, St.setHeld, hz]
    rw [if_pos rfl, if_pos rfl] at h1
    omega
  · have hent : ((x.get p dev inum e).entry e').ref = (x.entry e').ref := by
      simp only [St.get, St.setEntry, St.setHeld, update_of_ne he]
    rw [if_neg he, if_neg he] at h1
    omega

theorem Inv.get (h : Inv x) (hf : x.Finds dev inum e)
    (hG : ∀ e, (x.entry e).dev = dev → (x.entry e).inum = inum →
      ∀ q, x.pc q ≠ .free e ∧ x.pc q ≠ .clear e) : Inv (x.get p dev inum e) := by
  have hle := h.held_le
  have hother := h.finds_other hf
  have hfree : ∀ r, x.pc r = .free e ∨ x.pc r = .clear e → (x.entry e).ref = 0 := by
    intro r hr
    rcases hf with ⟨-, hdev, hinum⟩ | ⟨hz, -⟩
    · obtain ⟨h1, h2⟩ := hG e hdev hinum r
      exact absurd hr (not_or.mpr ⟨h1, h2⟩)
    · exact hz
  -- an inode without links that is not free is in use
  have hlinked : (x.entry e).ref = 0 → (x.disk dev inum).type ≠ 0 → (x.disk dev inum).nlink ≠ 0 := by
    intro hz ht hn
    obtain ⟨e0, hdev, hinum, r, hr⟩ := h.kept dev inum ht hn
    have hpos : 0 < (x.entry e0).ref := (lt_of_le_of_lt (Nat.zero_le _) hr).trans_le (hle r e0)
    refine hother e0 ?_ hpos hdev hinum
    rintro rfl
    omega
  have hsum := h.get_sum p dev inum e
  obtain ⟨sum, unique, inside, owns, locked, left, gone, synced, freed, fresh, kept⟩ := h
  constructor
  case sum => exact hsum
  all_goals
    clear sum hsum
    simp only [St.get, St.setEntry, St.setHeld, St.dinode, St.Keeps, St.Finds, Pc.Inside,
      update_apply] at *
  case unique | inside | owns | locked | left => grind
  case gone =>
    intro r e1 hr
    have hpos : 0 < (x.entry e1).ref := by
      have h1 := hle r e1
      have h2 := owns r e1
      grind
    rcases gone r e1 hr with hz | ⟨q, hq⟩
    · exact .inl (by grind)
    · exact .inr ⟨q, hq⟩
  case synced =>
    intro e1 hr hv
    have hpos : 0 < (x.entry e1).ref := by grind
    rcases synced e1 hpos (by grind) with ⟨q, hq⟩ | hs
    · exact .inl ⟨q, hq⟩
    · exact .inr (by grind)
  case freed | fresh => grind
  case kept =>
    intro dev' inum' ht' hn'
    obtain ⟨e0, h1, h2, r, hr⟩ := kept dev' inum' ht' hn'
    have hpos : 0 < (x.entry e0).ref := by
      have := hle r e0
      grind
    exact ⟨e0, by grind, by grind, r, by grind⟩

theorem Inv.made {d : Dinode} (h : Inv x) (hp : x.pc p = .idle) (hf : x.Finds dev inum e)
    (hz : (x.disk dev inum).type = 0) (_ht : d.type ≠ 0) (_hn : d.nlink = 0) :
    Inv (((x.setDisk dev inum d).get p dev inum e).setPc p (.made e)) := by
  have hle := h.held_le
  have hother := h.finds_other hf
  -- whoever frees an entry has an inode that is not free yet
  have hfree : ∀ r, x.pc r = .free e ∨ x.pc r = .clear e → (x.entry e).ref = 0 := by
    intro r hr
    obtain ⟨h1, hv, -⟩ := h.freed r e hr
    have hlock := h.inside r e
    have hs := h.synced e (by omega) hv
    have hdone := fun q => h.inside q e
    simp only [Pc.Inside, St.dinode, St.Finds] at hlock hs hdone hf
    grind
  have hsum := h.get_sum p dev inum e
  obtain ⟨sum, unique, inside, owns, locked, left, gone, synced, freed, fresh, kept⟩ := h
  constructor
  case sum => exact hsum
  all_goals
    clear sum hsum
    simp only [St.get, St.setEntry, St.setHeld, St.setPc, St.setDisk, St.dinode, St.Keeps, St.Finds,
      Pc.Inside, update_apply] at *
  case unique | inside | owns | locked | left => grind
  case gone =>
    intro r e1 hr
    have hdone : x.pc r = .done e1 := by grind
    have hpos : 0 < (x.entry e1).ref := by
      have h1 := hle r e1
      have h2 := owns r e1
      grind
    rcases gone r e1 hdone with ht | ⟨q, hq⟩
    · rcases eq_or_ne e1 e with rfl | he
      · exact .inr ⟨p, by grind⟩
      · exact .inl (by grind)
    · exact .inr ⟨q, by grind⟩
  case synced =>
    intro e1 hr hv
    rcases eq_or_ne e1 e with rfl | he
    · have hpos : 0 < (x.entry e1).ref := by grind
      rcases synced e1 hpos (by grind) with ⟨q, hq⟩ | ⟨hs, ht⟩
      · exact .inl ⟨q, by grind⟩
      · exact .inr (by grind)
    · rcases synced e1 (by grind) (by grind) with ⟨q, hq⟩ | ⟨hs, ht⟩
      · exact .inl ⟨q, by grind⟩
      · exact .inr (by grind)
  case freed | fresh => grind
  case kept =>
    intro dev' inum' ht hn
    by_cases hkey : dev' = dev ∧ inum' = inum
    · exact ⟨e, by grind, by grind, p, by grind⟩
    · obtain ⟨e0, h1, h2, r, hr⟩ := kept dev' inum' (by grind) (by grind)
      have hpos : 0 < (x.entry e0).ref := by
        have := hle r e0
        grind
      exact ⟨e0, by grind, by grind, r, by grind⟩

omit [DecidableEq P] in
theorem Inv.freeing (h : Inv x) (hp : x.pc p = .free e ∨ x.pc p = .clear e) :
    0 < (x.entry e).ref ∧ (x.entry e).valid = true ∧ (x.entry e).lock = some p ∧
      (x.entry e).ip.type ≠ 0 := by
  obtain ⟨hr, hv, -⟩ := h.freed p e hp
  have hl : (x.entry e).lock = some p := by
    refine h.inside p e ?_
    rcases hp with hp | hp
    · exact .inr (.inl hp)
    · exact .inr (.inr (.inl hp))
  refine ⟨by omega, hv, hl, ?_⟩
  rcases h.synced e (by omega) hv with ⟨q, hq⟩ | ⟨_, ht⟩
  · -- the lock has one holder
    have hq' := h.inside q e (.inr (.inr (.inr hq)))
    rw [hl, some.injEq] at hq'
    subst hq'
    rcases hp with hp | hp <;> rw [hq] at hp <;> cases hp
  · exact ht

theorem Inv.step (h : Inv x) {a : Ev P} (hG : Alone x a) (hs : x.step a = some y) : Inv y := by
  cases a with
  | iget p dev inum =>
    simp only [St.step] at hs
    split_ifs at hs with hc
    obtain ⟨e, hf, rfl⟩ := Option.map_eq_some_iff.mp hs
    exact h.get (find_some hf) hG
  | ialloc p dev inum type =>
    simp only [St.step] at hs
    split_ifs at hs with hc
    obtain ⟨e, hf, rfl⟩ := Option.map_eq_some_iff.mp hs
    exact h.made hc.1 (find_some hf) hc.2.1 hc.2.2 rfl
  | idup p e =>
    simp only [St.step] at hs
    split_ifs at hs with hc
    cases hs
    exact h.idup hc.1 hc.2
  | give p q e =>
    simp only [St.step] at hs
    split_ifs at hs with hc
    cases hs
    exact h.give hc.1 hc.2.1 hc.2.2.1 hc.2.2.2
  | ilock p e =>
    simp only [St.step] at hs
    split_ifs at hs with hc hv ht
    · cases hs
      have hlock := h.ilock hc.1 hc.2.1 hc.2.2 (.inl ⟨hv, rfl⟩)
      rwa [← hv] at hlock
    · cases hs
      exact h.ilock hc.1 hc.2.1 hc.2.2 (.inr ⟨by simpa using hv, rfl, ht⟩)
  | iunlock p e =>
    simp only [St.step] at hs
    split_ifs at hs with hc
    cases hs
    exact h.iunlock hc.1 hc.2
  | change p e c =>
    simp only [St.step] at hs
    split_ifs at hs with hc
    cases hs
    obtain ⟨hpc, hl, -⟩ := hc
    obtain ⟨hheld, hin⟩ := h.locked e p hl
    have hr : 0 < (x.entry e).ref := hheld.trans_le (h.held_le p e)
    have hv : (x.entry e).valid = true := by
      rcases hin with hin | hv
      · simp [Pc.Inside, hpc] at hin
      · exact hv
    have htype : (x.entry e).ip.type ≠ 0 := by
      rcases h.synced e hr hv with ⟨q, hq⟩ | ⟨_, ht⟩
      · have hq' := h.inside q e (.inr (.inr (.inr hq)))
        rw [hl, some.injEq] at hq'
        rw [← hq', hpc] at hq
        cases hq
      · exact ht
    have hupd := h.update (d := c.apply (x.entry e).ip) hl hr hv (.inl ⟨hpc, rfl, by
      cases c <;> exact htype⟩)
    have hsame : (x.update e (c.apply (x.entry e).ip)).setPc p .idle =
        x.update e (c.apply (x.entry e).ip) := by
      have : (x.update e (c.apply (x.entry e).ip)).pc p = .idle := hpc
      rw [St.setPc, ← this, update_eq_self]
    rwa [hsame] at hupd
  | iput p e =>
    simp only [St.step] at hs
    split_ifs at hs with hc
    cases hs
    exact h.iput hc.1 hc.2.1 hc.2.2
  | check p =>
    simp only [St.step] at hs
    split at hs
    next e hp =>
      split_ifs at hs with hc
      · cases hs
        exact h.check_free hp hc
      · cases hs
        exact h.check_keep hp hc (hG e hp)
    next => cases hs
  | itrunc p =>
    simp only [St.step] at hs
    split at hs
    next e hp =>
      cases hs
      obtain ⟨hr, hv, hl, ht⟩ := h.freeing (.inl hp)
      exact h.update hl hr hv (.inr (.inl ⟨hp, rfl, ht, rfl⟩))
    next => cases hs
  | clear p =>
    simp only [St.step] at hs
    split at hs
    next e hp =>
      cases hs
      obtain ⟨hr, hv, hl, -⟩ := h.freeing (.inr hp)
      exact h.update hl hr hv (.inr (.inr ⟨hp, rfl, rfl⟩))
    next => cases hs
  | release p =>
    simp only [St.step] at hs
    split at hs
    next e hp =>
      cases hs
      exact h.release hp
    next => cases hs
  | drop p =>
    simp only [St.step] at hs
    split at hs
    next e hp =>
      cases hs
      exact h.drop hp
    next => cases hs

/-! ### Whole runs -/

omit [DecidableEq P] in
/-- Every allocated inode of the disk has links at boot. -/
theorem inv_boot {disk : ℕ → ℕ → Dinode}
    (hd : ∀ dev inum, (disk dev inum).type ≠ 0 → (disk dev inum).nlink ≠ 0) :
    Inv (boot disk : St P) := by
  constructor
  case sum => simp [boot]
  case kept => exact fun dev inum ht hn => absurd hn (hd dev inum ht)
  all_goals simp [boot, Pc.Inside]

instance (x : St P) : (a : Ev P) → Decidable (Alone x a)
  | .check _ => inferInstanceAs (Decidable (∀ _, _ → _ → _ → ∀ _, _ → _))
  | .iget .. => inferInstanceAs (Decidable (∀ _, _ → _ → ∀ _, _))
  | .ialloc .. | .idup .. | .give .. | .ilock .. | .iunlock .. | .change .. | .iput ..
  | .itrunc .. | .clear .. | .release .. | .drop .. => isTrue trivial

end Xv6.Fs.Icache

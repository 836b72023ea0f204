import Xv6.Disk.Log
import Xv6.Schemes.Dlist
import Xv6.Schemes.Machine

/-! @src bio.c, log.c, memide.c, sleeplock.c | part:buffer cache, shared | scheme:machine, dlist

  The buffer cache under any number of processes, at the granularity of `bcache.lock` and the sleep
  locks, with the `prev`/`next` links as pointers. What a process does to a buffer whose sleep lock
  it holds is the code of `Bio`.

      idle --bget--> waiting --acquire--> loading --load--> idle, holding the buffer
        ^                                                     | modify, logWrite, bwrite
        +--unref-- releasing <----------unlock----------------+

  `lru` is the list the links run through; `last`, what was last stored in the buffer of a block
  before a `log_write` or `bwrite`, and `pending`, the buffers modified since, are history. -/

namespace Xv6.Disk.Cache
open List
open Schemes Prog
open Function
open Option (some toList_some toList_none)

abbrev Node := Option (Fin NBUF)

structure Links where
  next : Node → Node
  prev : Node → Node

def Links.insert (k : Links) (i : Fin NBUF) : Links :=
  let next := update k.next (some i) (k.next none)
  let prev := update k.prev (some i) none
  let prev := update prev (next none) (some i)
  let next := update next none (some i)
  ⟨next, prev⟩

def Links.remove (k : Links) (i : Fin NBUF) : Links :=
  let prev := update k.prev (k.next (some i)) (k.prev (some i))
  let next := update k.next (prev (some i)) (k.next (some i))
  ⟨next, prev⟩

/-- Create the linked list of buffers; `head` points to itself at first. -/
def binit : Links := (finRange NBUF).foldl Links.insert ⟨fun _ => none, fun _ => none⟩

/-- Where a process is: in `bget`, waiting for the lock of the buffer it has chosen for a block; in
  `bread` with the lock; in `brelse` without it; or elsewhere. -/
inductive Pc where
  | idle
  | waiting (i : Fin NBUF) (a : ℕ)
  | loading (i : Fin NBUF) (a : ℕ)
  | releasing (i : Fin NBUF)
  deriving DecidableEq

structure St (P : Type) where
  links : Links
  sys : Sys
  holder : Fin NBUF → Option P
  pc : P → Pc
  last : ℕ → Block
  pending : Fin NBUF → Bool
  panicked : Option String

/-- The sections the code runs. The other calls of the log change `log` alone, here to anything. -/
inductive Ev (P : Type) where
  | bget (p : P) (a : ℕ)
  | acquire (p : P)
  | load (p : P)
  | modify (p : P) (i : Fin NBUF) (d : Block)
  | logWrite (p : P) (i : Fin NBUF)
  | bwrite (p : P) (i : Fin NBUF)
  | unlock (p : P) (i : Fin NBUF)
  | unref (p : P)
  | log (l : Log)

variable (g : Geom) {P : Type} [DecidableEq P]

namespace St

def goto (x : St P) (p : P) (c : Pc) : St P := { x with pc := update x.pc p c }

def setBuf (x : St P) (i : Fin NBUF) (b : Buf) : St P :=
  { x with sys := { x.sys with buf := update x.sys.buf i b } }

def panic (x : St P) (msg : String) : St P := { x with panicked := some msg }

def store (x : St P) (i : Fin NBUF) : St P :=
  { x with
    last := update x.last (x.sys.buf i).blockno (x.sys.buf i).data
    pending := update x.pending i false }

def call (x : St P) (c : K Unit) (f : Sys → St P) : Option (St P) :=
  match c x.sys with
  | (.ok (), s) => some (f s)
  | (.error (.panic msg), _) => some (x.panic msg)
  | (.error _, _) => none

/-- The two searches of `bget`, forwards for the block, backwards for an unused clean buffer. It has
  no step where a search does not end. -/
def bget (x : St P) (p : P) (a : ℕ) : Option (St P) :=
  match walk x.links.next (fun i => decide (At x.sys i a)) NBUF (x.links.next none) with
  | none => none
  | some (some i) =>
    let b := x.sys.buf i
    some ((x.setBuf i { b with refcnt := b.refcnt + 1 }).goto p (.waiting i a))
  | some none =>
    match walk x.links.prev (fun i => (x.sys.buf i).refcnt == 0 && !(x.sys.buf i).dirty) NBUF
        (x.links.prev none) with
    | none => none
    | some (some i) =>
      some ((x.setBuf i { x.sys.buf i with
        dev := ROOTDEV, blockno := a, valid := false, dirty := false, refcnt := 1 }).goto p
          (.waiting i a))
    | some none => some (x.panic "bget: no buffers")

/-- The end of `brelse`: move to the head of the list if no one is waiting for the buffer. -/
def unref (x : St P) (p : P) (i : Fin NBUF) : St P :=
  let y := (x.setBuf i { x.sys.buf i with refcnt := (x.sys.buf i).refcnt - 1 }).goto p .idle
  if (x.sys.buf i).refcnt - 1 = 0 then
    { y with
      links := (x.links.remove i).insert i
      sys := { y.sys with lru := i :: x.sys.lru.erase i } }
  else y

def act (x : St P) : Ev P → Option (St P)
  | .bget p a => if x.pc p = .idle then x.bget p a else none
  | .acquire p =>
    match x.pc p with
    | .waiting i a => x.call (acquiresleep i) fun s =>
      { x.goto p (.loading i a) with sys := s, holder := update x.holder i (some p) }
    | _ => none
  | .load p =>
    match x.pc p with
    | .loading i _ =>
      if (x.sys.buf i).valid then some (x.goto p .idle)
      else x.call (iderw g i) fun s => { x.goto p .idle with sys := s }
    | _ => none
  | .modify p i d =>
    if x.pc p = .idle then x.call (memmove i d) fun s =>
      { x with sys := s, pending := update x.pending i true }
    else none
  | .logWrite p i =>
    if x.pc p = .idle then x.call (logWrite g i) fun s => { x.store i with sys := s } else none
  | .bwrite p i =>
    if x.pc p = .idle then x.call (bwrite g i) fun s => { x.store i with sys := s } else none
  | .unlock p i =>
    if x.pc p = .idle then
      if !(x.sys.buf i).locked then some (x.panic "brelse")
      else some { (x.setBuf i { x.sys.buf i with locked := false }).goto p (.releasing i) with
        holder := update x.holder i none }
    else none
  | .unref p =>
    match x.pc p with
    | .releasing i => some (x.unref p i)
    | _ => none
  | .log l => some { x with sys := { x.sys with log := l } }

def step (x : St P) (e : Ev P) : Option (St P) := if x.panicked.isSome then none else x.act g e

end St

/-- The cache after `binit`, over a disk; no buffer holds a block of the root device. -/
def init (d : Image Block) (l : Log) : St P where
  links := binit
  sys := ⟨d, [], fun _ => ⟨false, false, 0, 0, false, 0, fun _ => 0⟩, (finRange NBUF).reverse, l⟩
  holder := fun _ => none
  pc := fun _ => .idle
  last := d
  pending := fun _ => false
  panicked := none

/-- The protocol: blocks are on the disk, a buffer is used by the process that holds its lock, and a
  modified buffer is given to `log_write` or `bwrite` before it is released. -/
def Proper (x : St P) : Ev P → Prop
  | .bget _ a => a < g.disksize
  | .modify p i _ | .logWrite p i | .bwrite p i => x.holder i = some p
  | .unlock p i => x.holder i = some p ∧ x.pending i = false
  | .acquire _ | .load _ | .unref _ | .log _ => True

instance (x : St P) : ∀ e, Decidable (Proper g x e)
  | .bget _ a => inferInstanceAs (Decidable (a < g.disksize))
  | .modify p i _ | .logWrite p i | .bwrite p i =>
    inferInstanceAs (Decidable (x.holder i = some p))
  | .unlock p i => inferInstanceAs (Decidable (x.holder i = some p ∧ x.pending i = false))
  | .acquire _ | .load _ | .unref _ | .log _ => isTrue trivial

/-! ### The list -/

theorem linked_insert {k : Links} {l : List (Fin NBUF)} {i : Fin NBUF} (h : Linked k.next k.prev l)
    (hi : i ∉ l) : Linked (k.insert i).next (k.insert i).prev (i :: l) := by
  have hnext : update k.next (some i) (k.next none) none = k.next none :=
    update_of_ne (by simp) _ _
  rw [Links.insert, hnext]
  exact h.push hi

theorem linked_remove {k : Links} {l : List (Fin NBUF)} {i : Fin NBUF} (h : Linked k.next k.prev l)
    (hi : i ∈ l) : Linked (k.remove i).next (k.remove i).prev (l.erase i) := by
  have hprev : update k.prev (k.next (some i)) (k.prev (some i)) (some i) =
      k.prev (some i) := by
    rw [update_apply]
    split_ifs <;> rfl
  obtain ⟨l1, l2, rfl⟩ := append_of_mem hi
  have hnot : i ∉ l1 := fun hx => (nodup_middle.mp h.nodup).notMem (mem_append_left _ hx)
  rw [erase_append_right _ hnot, erase_cons_head, Links.remove, hprev]
  exact h.unlink

theorem linked_foldl_insert : ∀ (is l : List (Fin NBUF)) (k : Links), Linked k.next k.prev l →
    (∀ i ∈ is, i ∉ l) → is.Nodup →
    Linked (is.foldl Links.insert k).next (is.foldl Links.insert k).prev (is.reverse ++ l)
  | [], _, _, h, _, _ => h
  | i :: is, l, k, h, hdisj, hnd => by
    rw [foldl_cons, reverse_cons, append_assoc]
    refine linked_foldl_insert is (i :: l) _ (linked_insert h (hdisj i mem_cons_self)) ?_
      hnd.of_cons
    intro j hj hmem
    rcases mem_cons.mp hmem with rfl | hmem
    · exact hnd.notMem hj
    · exact hdisj j (mem_cons_of_mem _ hj) hmem

theorem linked_binit : Linked binit.next binit.prev (finRange NBUF).reverse := by
  have := linked_foldl_insert (finRange NBUF) [] ⟨fun _ => none, fun _ => none⟩
    (linked_nil rfl rfl) (fun _ _ => not_mem_nil) (nodup_finRange NBUF)
  rwa [append_nil] at this

/-! ### The invariant -/

/-- The pointers link all buffers, and no two of them stand for the same block. -/
structure Placed (x : St P) : Prop where
  linked : Linked x.links.next x.links.prev x.sys.lru
  mem : ∀ i, i ∈ x.sys.lru
  uniq : ∀ i j a, At x.sys i a → At x.sys j a → i = j
  range : ∀ i a, At x.sys i a → a < g.disksize

/-- Whether a process counts in `refcnt` of buffer `i` without holding its lock. -/
def Pc.refers (i : Fin NBUF) : Pc → ℕ
  | .waiting j _ | .releasing j => if j = i then 1 else 0
  | .idle | .loading _ _ => 0

/-- `refcnt` counts the holder and those who wait or release; who waits or holds has a buffer of the
  root device, read from disk once `bread` has returned. -/
structure Guarded [Fintype P] (x : St P) : Prop where
  lock : ∀ i, (x.sys.buf i).locked = (x.holder i).isSome
  refs : ∀ i, (x.sys.buf i).refcnt = (x.holder i).toList.length + ∑ p, (x.pc p).refers i
  waiting : ∀ p i a, x.pc p = .waiting i a → At x.sys i a
  loading : ∀ p i a, x.pc p = .loading i a → At x.sys i a ∧ x.holder i = some p
  held : ∀ i p, x.holder i = some p → (x.sys.buf i).dev = ROOTDEV ∧
    ((x.sys.buf i).valid = true ∨ ∃ a, x.pc p = .loading i a)
  pending : ∀ i, x.pending i = true → ∃ p, x.holder i = some p ∧ ∀ a, x.pc p ≠ .loading i a

/-- A buffer that has been read shows what was last stored, unless it is being modified; the disk
  does for the blocks without a dirty buffer. -/
structure Truthful (x : St P) : Prop where
  unread : ∀ i, (x.sys.buf i).valid = false → (x.sys.buf i).dirty = false
  shows : ∀ i a, At x.sys i a → (x.sys.buf i).valid = true → x.pending i = false →
    (x.sys.buf i).data = x.last a
  disk : ∀ a, (∀ i, At x.sys i a → (x.sys.buf i).dirty = false) → x.sys.disk a = x.last a

/-! ### What a step can do -/

inductive Effect (x : St P) : Ev P → St P → Prop
  | panic {e} (msg : String) : Effect x e (x.panic msg)
  | hit {p i a} (hp : x.pc p = .idle) (hi : At x.sys i a) : Effect x (.bget p a)
      ((x.setBuf i { x.sys.buf i with refcnt := (x.sys.buf i).refcnt + 1 }).goto p (.waiting i a))
  | recycle {p i a} (hp : x.pc p = .idle) (hno : ∀ j, ¬ At x.sys j a)
      (href : (x.sys.buf i).refcnt = 0) (hclean : (x.sys.buf i).dirty = false)
      (ha : a < g.disksize) : Effect x (.bget p a)
      ((x.setBuf i { x.sys.buf i with dev := ROOTDEV, blockno := a, valid := false, dirty := false,
                                      refcnt := 1 }).goto p (.waiting i a))
  | acquire {p i a} (hp : x.pc p = .waiting i a) (hfree : x.holder i = none) : Effect x (.acquire p)
      { (x.setBuf i { x.sys.buf i with locked := true }).goto p (.loading i a) with
        holder := update x.holder i (some p) }
  | keep {p i a} (hp : x.pc p = .loading i a) (hv : (x.sys.buf i).valid = true) :
      Effect x (.load p) (x.goto p .idle)
  | read {p i a} (hp : x.pc p = .loading i a) (hv : (x.sys.buf i).valid = false) :
      Effect x (.load p)
      ((x.setBuf i { x.sys.buf i with data := x.sys.disk a, valid := true }).goto p .idle)
  | modify {p i d} (hp : x.pc p = .idle) (hh : x.holder i = some p) : Effect x (.modify p i d)
      { x.setBuf i { x.sys.buf i with data := d } with pending := update x.pending i true }
  | logWrite {p i} (l : Log) (hp : x.pc p = .idle) (hh : x.holder i = some p) :
      Effect x (.logWrite p i)
      { x.store i with
        sys := { x.sys with
          log := l
          buf := update x.sys.buf i { x.sys.buf i with dirty := true } } }
  | bwrite {p i} (w : List (ℕ × Block)) (hp : x.pc p = .idle) (hh : x.holder i = some p) :
      Effect x (.bwrite p i)
      { x.store i with
        sys := { x.sys with
          disk := update x.sys.disk (x.sys.buf i).blockno (x.sys.buf i).data
          writes := w
          buf := update x.sys.buf i { x.sys.buf i with dirty := false, valid := true } } }
  | unlock {p i} (hp : x.pc p = .idle) (hh : x.holder i = some p) (hdone : x.pending i = false) :
      Effect x (.unlock p i)
      { (x.setBuf i { x.sys.buf i with locked := false }).goto p (.releasing i) with
        holder := update x.holder i none }
  | unref {p i} (hp : x.pc p = .releasing i) : Effect x (.unref p) (x.unref p i)
  | log (l : Log) : Effect x (.log l) { x with sys := { x.sys with log := l } }

section

variable {g} [Fintype P] {x y : St P} {e : Ev P}

omit [Fintype P] in
theorem step_eq (h : x.panicked = none) : x.step g e = x.act g e :=
  if_neg (by rw [h]; exact Bool.false_ne_true)

variable {p : P} {a : ℕ} {c : Pc}

omit [Fintype P] in
theorem Placed.bget_cases (h : Placed g x) (hp : x.pc p = .idle) (ha : a < g.disksize)
    : ∃ y, x.bget p a = some y ∧ Effect g x (.bget p a) y := by
  have hlen : x.sys.lru.length ≤ NBUF := by
    have := h.linked.nodup.length_le_card
    rwa [Fintype.card_fin] at this
  rw [St.bget, h.linked.walk _ hlen]
  cases hf : x.sys.lru.find? (fun i => decide (At x.sys i a)) with
  | some i =>
    have hi : At x.sys i a := by simpa using List.find?_some hf
    exact ⟨_, rfl, .hit hp hi⟩
  | none =>
    have hno : ∀ j, ¬ At x.sys j a := fun j =>
      by simpa using List.find?_eq_none.mp hf j (h.mem j)
    have hback := h.linked.reverse.walk
      (fun i => (x.sys.buf i).refcnt == 0 && !(x.sys.buf i).dirty)
      (hlen.trans' (length_reverse).le)
    simp only [hback]
    cases hr : x.sys.lru.reverse.find?
        (fun i => (x.sys.buf i).refcnt == 0 && !(x.sys.buf i).dirty) with
    | some i =>
      have hi : (x.sys.buf i).refcnt = 0 ∧ (x.sys.buf i).dirty = false := by
        simpa using List.find?_some hr
      exact ⟨_, rfl, .recycle hp hno hi.1 hi.2 ha⟩
    | none => exact ⟨_, rfl, .panic _⟩

omit [DecidableEq P] in
/-- A held buffer is that of a block on the disk. -/
theorem Guarded.at_of_held (h : Guarded x) {i : Fin NBUF} (hh : x.holder i = some p) :
    At x.sys i (x.sys.buf i).blockno := ⟨(h.held i p hh).1, rfl⟩

omit [DecidableEq P] in
theorem Guarded.locked_of_held (h : Guarded x) {i : Fin NBUF} (hh : x.holder i = some p) :
    (x.sys.buf i).locked = true := by rw [h.lock, hh]; rfl

theorem iderw_read {s : Sys} {i : Fin NBUF} (hl : (s.buf i).locked = true)
    (hv : (s.buf i).valid = false) (hd : (s.buf i).dirty = false) (hdev : (s.buf i).dev = 1)
    (hr : ¬ g.disksize ≤ (s.buf i).blockno) :
    iderw g i s = (.ok (), { s with
      buf := update s.buf i
        { s.buf i with data := s.disk (s.buf i).blockno, valid := true } }) := by
  simp [iderw, setBuf, bind_apply, hl, hv, hd, hdev, hr]

theorem bwrite_run {s : Sys} {i : Fin NBUF} (hl : (s.buf i).locked = true)
    (hdev : (s.buf i).dev = 1) (hr : ¬ g.disksize ≤ (s.buf i).blockno) :
    bwrite g i s = (.ok (), { s with
      disk := update s.disk (s.buf i).blockno (s.buf i).data
      writes := s.writes ++ [((s.buf i).blockno, (s.buf i).data)]
      buf := update s.buf i { s.buf i with dirty := false, valid := true } }) := by
  simp [bwrite, iderw, setBuf, bind_apply, hl, hdev, hr]

theorem load_step (hpl : Placed g x) (hgd : Guarded x) (htr : Truthful x) {i : Fin NBUF}
    (hnone : x.panicked = none) (hp : x.pc p = .loading i a) :
    ∃ y, x.step g (.load p) = some y ∧ Effect g x (.load p) y ∧ y.panicked = none := by
  obtain ⟨hat, hh⟩ := hgd.loading p i a hp
  rw [step_eq hnone]
  simp only [St.act, hp]
  cases hv : (x.sys.buf i).valid with
  | true => exact ⟨_, rfl, .keep hp hv, hnone⟩
  | false =>
    have hl := hgd.locked_of_held hh
    have hd := htr.unread i hv
    have hr : ¬ g.disksize ≤ (x.sys.buf i).blockno := by
      rw [hat.2]; exact Nat.not_le.mpr (hpl.range i a hat)
    have hdev : (x.sys.buf i).dev = 1 := hat.1
    have hrun := iderw_read hl hv hd hdev hr
    rw [hat.2] at hrun
    refine ⟨_, ?_, .read hp hv, hnone⟩
    rw [if_neg Bool.false_ne_true, St.call, hrun]
    rfl

theorem effect_of_step (hpl : Placed g x) (hgd : Guarded x) (htr : Truthful x)
    (hG : Proper g x e) (hs : x.step g e = some y) : Effect g x e y := by
  have hnone : x.panicked = none := by
    cases hp : x.panicked with
    | none => rfl
    | some msg => simp [St.step, hp] at hs
  rw [step_eq hnone] at hs
  cases e with
  | load p =>
    cases hp : x.pc p with
    | loading i a =>
      obtain ⟨y', hy', he, _⟩ := load_step hpl hgd htr hnone hp
      rw [step_eq hnone, hs] at hy'
      cases hy'
      exact he
    | idle | waiting i a | releasing i => simp [St.act, hp] at hs
  | bget p a =>
    simp only [St.act] at hs
    split_ifs at hs with hp
    obtain ⟨y', hy', he⟩ := hpl.bget_cases hp hG
    rw [hy'] at hs
    cases hs
    exact he
  | acquire p =>
    simp only [St.act] at hs
    cases hp : x.pc p with
    | waiting i a =>
      rw [hp] at hs
      cases hl : (x.sys.buf i).locked with
      | true => simp [St.call, acquiresleep, bind_apply, hl] at hs
      | false =>
        have hfree : x.holder i = none := by
          have := hgd.lock i
          rw [hl] at this
          simpa using this.symm
        simp [St.call, acquiresleep, setBuf, bind_apply, hl] at hs
        subst hs
        exact .acquire hp hfree
    | idle | loading i a | releasing i => rw [hp] at hs; cases hs
  | modify p i d =>
    simp only [St.act] at hs
    split_ifs at hs with hp
    simp only [St.call, memmove, setBuf, modify_apply, some.injEq] at hs
    subst hs
    exact .modify hp hG
  | logWrite p i =>
    simp only [St.act] at hs
    split_ifs at hs with hp
    simp only [St.call, logWrite, bind_apply, get_apply] at hs
    by_cases hfull : x.sys.log.full g.nlog = true
    · simp only [hfull, if_true, stop_apply, some.injEq] at hs
      subst hs
      exact .panic _
    · by_cases hout : x.sys.log.outstanding < 1
      · simp only [hfull, hout, if_true, Bool.false_eq_true, if_false, stop_apply,
          some.injEq] at hs
        subst hs
        exact .panic _
      · simp only [hfull, hout, Bool.false_eq_true, if_false, bind_apply, setLh, setBuf,
          modify_apply, some.injEq] at hs
        subst hs
        exact .logWrite _ hp hG
  | bwrite p i =>
    simp only [St.act] at hs
    split_ifs at hs with hp
    have hh : x.holder i = some p := hG
    have hl := hgd.locked_of_held hh
    have hdev : (x.sys.buf i).dev = 1 := (hgd.held i p hh).1
    have hr : ¬ g.disksize ≤ (x.sys.buf i).blockno :=
      Nat.not_le.mpr (hpl.range i _ (hgd.at_of_held hh))
    rw [St.call, bwrite_run hl hdev hr] at hs
    cases hs
    exact .bwrite _ hp hh
  | unlock p i =>
    simp only [St.act, hgd.locked_of_held hG.1, Bool.not_true, Bool.false_eq_true, if_false] at hs
    split_ifs at hs with hp
    cases hs
    exact .unlock hp hG.1 hG.2
  | unref p =>
    simp only [St.act] at hs
    cases hp : x.pc p with
    | releasing i => rw [hp] at hs; cases hs; exact .unref hp
    | idle | loading i a | waiting i a => rw [hp] at hs; cases hs
  | log l =>
    simp only [St.act] at hs
    cases hs
    exact .log l

/-! ### Where the buffers are -/

section Field

variable {i : Fin NBUF} {b : Buf}

section
omit [DecidableEq P] [Fintype P]

theorem buf_self (hb : y.sys.buf = update x.sys.buf i b) : y.sys.buf i = b := by
  rw [hb, update_self]

theorem buf_other (hb : y.sys.buf = update x.sys.buf i b) {j : Fin NBUF} (hj : j ≠ i) :
    y.sys.buf j = x.sys.buf j := by
  rw [hb, update_of_ne hj]

/-- A field that the new buffer has in common with the old one. -/
theorem field_same {β : Type*} (f : Buf → β) (hb : y.sys.buf = update x.sys.buf i b)
    (hf : f b = f (x.sys.buf i)) (j : Fin NBUF) : f (y.sys.buf j) = f (x.sys.buf j) := by
  rcases eq_or_ne j i with rfl | hj
  · rw [buf_self hb, hf]
  · rw [buf_other hb hj]

/-- A step that moves no buffer to another block. -/
theorem block_same (hb : y.sys.buf = update x.sys.buf i b)
    (hdev : b.dev = (x.sys.buf i).dev) (hno : b.blockno = (x.sys.buf i).blockno) (j : Fin NBUF) :
    (y.sys.buf j).dev = (x.sys.buf j).dev ∧ (y.sys.buf j).blockno = (x.sys.buf j).blockno :=
  ⟨field_same Buf.dev hb hdev j, field_same Buf.blockno hb hno j⟩

theorem at_same (hb : y.sys.buf = update x.sys.buf i b)
    (hdev : b.dev = (x.sys.buf i).dev) (hno : b.blockno = (x.sys.buf i).blockno) (j : Fin NBUF)
    (a : ℕ) : At y.sys j a ↔ At x.sys j a := by
  obtain ⟨hdev', hno'⟩ := block_same hb hdev hno j
  rw [At, At, hdev', hno']

end

end Field

omit [Fintype P] in
/-- The end of `brelse` changes the list and one `refcnt`. -/
theorem unref_fields (x : St P) (p : P) (i : Fin NBUF) :
    (x.unref p i).sys.buf = update x.sys.buf i
      { x.sys.buf i with refcnt := (x.sys.buf i).refcnt - 1 } ∧
    (x.unref p i).pc = update x.pc p .idle ∧ (x.unref p i).holder = x.holder ∧
    (x.unref p i).sys.disk = x.sys.disk ∧ (x.unref p i).last = x.last ∧
    (x.unref p i).pending = x.pending := by
  unfold St.unref
  split_ifs <;> exact ⟨rfl, rfl, rfl, rfl, rfl, rfl⟩

omit [DecidableEq P] [Fintype P] in
/-- A step that moves no buffer to another block, but perhaps to another place of the list. -/
theorem Placed.relinked (h : Placed g x) (hlinked : Linked y.links.next y.links.prev y.sys.lru)
    (hmem : ∀ i, i ∈ y.sys.lru) (hat : ∀ j a, At y.sys j a ↔ At x.sys j a) : Placed g y where
  linked := hlinked
  mem := hmem
  uniq := fun i j a hi hj => h.uniq i j a ((hat i a).mp hi) ((hat j a).mp hj)
  range := fun i a hi => h.range i a ((hat i a).mp hi)

omit [DecidableEq P] [Fintype P] in
/-- A buffer is given to a block that had none. -/
theorem Placed.recycled (h : Placed g x) {i : Fin NBUF} {b : Buf}
    (hb : y.sys.buf = update x.sys.buf i b) (hdev : b.dev = ROOTDEV)
    (hno : ∀ j, ¬ At x.sys j b.blockno) (ha : b.blockno < g.disksize) (hlinks : y.links = x.links)
    (hlru : y.sys.lru = x.sys.lru) : Placed g y where
  linked := by rw [hlinks, hlru]; exact h.linked
  mem := fun i => hlru ▸ h.mem i
  uniq := by
    intro j k c hj hk
    rw [at_update hb hdev] at hj hk
    split_ifs at hj hk with hji hki hki
    · rw [hji, hki]
    · exact absurd (hj ▸ hk) (hno k)
    · exact absurd (hk ▸ hj) (hno j)
    · exact h.uniq j k c hj hk
  range := by
    intro j c hj
    rw [at_update hb hdev] at hj
    split_ifs at hj
    · exact hj ▸ ha
    · exact h.range j c hj

omit [Fintype P] in
theorem Placed.unref (h : Placed g x) (p : P) (i : Fin NBUF) : Placed g (x.unref p i) := by
  have hat := at_same (unref_fields x p i).1 rfl rfl
  unfold St.unref at hat ⊢
  split_ifs at hat ⊢
  · -- the buffer is taken out and comes back in front
    have hin : i ∉ x.sys.lru.erase i := h.linked.nodup.not_mem_erase
    refine h.relinked (linked_insert (linked_remove h.linked (h.mem i)) hin) (fun j => ?_) hat
    rcases eq_or_ne j i with rfl | hj
    · exact mem_cons_self
    · exact mem_cons_of_mem _ ((mem_erase_of_ne hj).mpr (h.mem j))
  · exact h.relinked h.linked h.mem hat

omit [Fintype P] in
theorem Placed.effect (h : Placed g x) (he : Effect g x e y) : Placed g y := by
  cases he with
  | panic | keep | log => exact h.relinked h.linked h.mem fun _ _ => Iff.rfl
  | hit | acquire | read | modify | logWrite | bwrite | unlock =>
    exact h.relinked h.linked h.mem (at_same rfl rfl rfl)
  | recycle hp hno href hclean ha => exact h.recycled rfl rfl hno ha rfl rfl
  | unref hp => exact h.unref _ _

/-! ### Locks and references -/

theorem sum_refers (hpc : y.pc = update x.pc p c) (i : Fin NBUF) :
    ∑ q, (y.pc q).refers i + (x.pc p).refers i = ∑ q, (x.pc q).refers i + c.refers i := by
  have hcomp : (fun q => (y.pc q).refers i) =
      update (fun q => (x.pc q).refers i) p (c.refers i) := by
    rw [hpc]
    exact comp_update (Pc.refers i) x.pc p c
  rw [hcomp]
  exact sum_update _ p _

theorem Guarded.of_step (h : Guarded x) (hpc : y.pc = update x.pc p c)
    (hlock : ∀ j, (y.sys.buf j).locked = (y.holder j).isSome)
    (hrefs : ∀ j, (y.sys.buf j).refcnt + (x.holder j).toList.length + (x.pc p).refers j =
      (x.sys.buf j).refcnt + (y.holder j).toList.length + c.refers j)
    (hat : ∀ q j a, x.pc q = .waiting j a ∨ x.pc q = .loading j a → At y.sys j a)
    (hc : ∀ j a, c = .waiting j a ∨ c = .loading j a → At y.sys j a)
    (hload : ∀ j a, c = .loading j a → y.holder j = some p)
    (hother : ∀ q j, q ≠ p → (x.holder j = some q ↔ y.holder j = some q))
    (hheld : ∀ j q, y.holder j = some q → (y.sys.buf j).dev = ROOTDEV ∧
      ((y.sys.buf j).valid = true ∨ ∃ a, update x.pc p c q = .loading j a))
    (hpend : ∀ j, y.pending j = true → ∃ q, y.holder j = some q ∧
      ∀ a, update x.pc p c q ≠ .loading j a) : Guarded y where
  lock := hlock
  refs := by
    intro j
    have hsum := sum_refers hpc j
    have hold := h.refs j
    have hnew := hrefs j
    omega
  waiting := by
    intro q j a hq
    rw [hpc] at hq
    rcases eq_or_ne q p with rfl | hqp
    · rw [update_self] at hq
      exact hc j a (.inl hq)
    · rw [update_of_ne hqp] at hq
      exact hat q j a (.inl hq)
  loading := by
    intro q j a hq
    rw [hpc] at hq
    rcases eq_or_ne q p with rfl | hqp
    · rw [update_self] at hq
      exact ⟨hc j a (.inr hq), hload j a hq⟩
    · rw [update_of_ne hqp] at hq
      exact ⟨hat q j a (.inr hq), (hother q j hqp).mp (h.loading q j a hq).2⟩
  held := by rw [hpc]; exact hheld
  pending := by rw [hpc]; exact hpend

omit [DecidableEq P] in
/-- Who waits for a buffer or loads it has one of the root device. -/
theorem Guarded.at_of_busy (h : Guarded x) {q : P} {j : Fin NBUF}
    (hq : x.pc q = .waiting j a ∨ x.pc q = .loading j a) : At x.sys j a :=
  hq.elim (h.waiting q j a) fun hl => (h.loading q j a hl).1

theorem Guarded.still_held (h : Guarded x) (hp : ∀ j a, x.pc p ≠ .loading j a) {j : Fin NBUF}
    {q : P} (hq : x.holder j = some q) : (x.sys.buf j).dev = ROOTDEV ∧
      ((x.sys.buf j).valid = true ∨ ∃ a, update x.pc p c q = .loading j a) := by
  obtain ⟨hdev, hv⟩ := h.held j q hq
  refine ⟨hdev, hv.imp_right ?_⟩
  rintro ⟨a, ha⟩
  have hqp : q ≠ p := fun hx => hp j a (hx ▸ ha)
  exact ⟨a, by rw [update_of_ne hqp, ha]⟩

theorem Guarded.still_pending (h : Guarded x) (hc : ∀ j a, c ≠ .loading j a) {j : Fin NBUF}
    (hj : x.pending j = true) : ∃ q, x.holder j = some q ∧
      ∀ a, update x.pc p c q ≠ .loading j a := by
  obtain ⟨q, hq, hn⟩ := h.pending j hj
  refine ⟨q, hq, fun a ha => ?_⟩
  rcases eq_or_ne q p with rfl | hqp
  · rw [update_self] at ha
    exact hc j a ha
  · rw [update_of_ne hqp] at ha
    exact hn a ha

omit [DecidableEq P] in
theorem Guarded.refs_pos (h : Guarded x) {i : Fin NBUF} :
    (x.holder i).toList.length + (x.pc p).refers i ≤ (x.sys.buf i).refcnt := by
  have hle : (x.pc p).refers i ≤ ∑ q, (x.pc q).refers i :=
    Finset.single_le_sum (f := fun q => (x.pc q).refers i) (fun _ _ => Nat.zero_le _)
      (Finset.mem_univ p)
  have := h.refs i
  omega

theorem Guarded.hit (h : Guarded x) {i : Fin NBUF} (hp : x.pc p = .idle) (hi : At x.sys i a)
    (hb : y.sys.buf = update x.sys.buf i
      { x.sys.buf i with refcnt := (x.sys.buf i).refcnt + 1 })
    (hpc : y.pc = update x.pc p (.waiting i a)) (hholder : y.holder = x.holder)
    (hpending : y.pending = x.pending) : Guarded y := by
  have hat := at_same hb rfl rfl
  refine h.of_step hpc ?_ ?_ ?_ ?_ (by simp) (fun _ _ _ => by rw [hholder]) ?_ ?_
  · intro j
    rw [field_same Buf.locked hb rfl j, hholder]
    exact h.lock j
  · intro j
    rw [hp, hholder]
    rcases eq_or_ne j i with rfl | hj
    · simp only [buf_self hb, Pc.refers, if_true]
      omega
    · simp only [buf_other hb hj, Pc.refers, if_neg hj.symm]
  · intro q j b hq
    exact (hat j b).mpr (h.at_of_busy hq)
  · intro j b hc
    rcases hc with hc | hc <;> cases hc
    exact (hat i a).mpr hi
  · intro j q hq
    rw [hholder] at hq
    rw [field_same Buf.dev hb rfl j, field_same Buf.valid hb rfl j]
    exact h.still_held (by simp [hp]) hq
  · intro j hj
    rw [hpending] at hj
    rw [hholder]
    exact h.still_pending (by simp) hj

theorem Guarded.recycle (h : Guarded x) {i : Fin NBUF} {b : Buf} (hp : x.pc p = .idle)
    (href : (x.sys.buf i).refcnt = 0) (hb : y.sys.buf = update x.sys.buf i b)
    (hbv : b = { x.sys.buf i with dev := ROOTDEV, blockno := a, valid := false, dirty := false,
                                  refcnt := 1 }) (hpc : y.pc = update x.pc p (.waiting i a))
    (hholder : y.holder = x.holder) (hpending : y.pending = x.pending) : Guarded y := by
  have hfree : x.holder i = none := by
    have := h.refs_pos (p := p) (i := i)
    cases hh : x.holder i with
    | none => rfl
    | some q =>
      rw [hh, toList_some, length_singleton] at this
      omega
  -- nobody waits for the buffer: its reference count is zero
  have hbusy : ∀ q j c, x.pc q = .waiting j c ∨ x.pc q = .loading j c → j ≠ i := by
    rintro q j c (hq | hq) rfl
    · have := h.refs_pos (p := q) (i := j)
      simp only [hq, Pc.refers, if_true] at this
      omega
    · rw [(h.loading q j c hq).2] at hfree
      cases hfree
  have hat : ∀ j c, At y.sys j c ↔ if j = i then b.blockno = c else At x.sys j c :=
    fun j c => at_update hb (by rw [hbv])
  refine h.of_step hpc ?_ ?_ ?_ ?_ (by simp) (fun _ _ _ => by rw [hholder]) ?_ ?_
  · intro j
    rw [field_same Buf.locked hb (by rw [hbv]) j, hholder]
    exact h.lock j
  · intro j
    rw [hp, hholder]
    rcases eq_or_ne j i with rfl | hj
    · rw [buf_self hb, hbv, href]
      simp only [Pc.refers, if_true]
      omega
    · simp only [buf_other hb hj, Pc.refers, if_neg hj.symm]
  · intro q j c hq
    rw [hat, if_neg (hbusy q j c hq)]
    exact h.at_of_busy hq
  · intro j c hc
    rcases hc with hc | hc <;> cases hc
    rw [hat, if_pos rfl, hbv]
  · intro j q hq
    rw [hholder] at hq
    have hj : j ≠ i := fun hx => by
      rw [hx, hfree] at hq
      cases hq
    rw [buf_other hb hj]
    exact h.still_held (by simp [hp]) hq
  · intro j hj
    rw [hpending] at hj
    rw [hholder]
    exact h.still_pending (by simp) hj

theorem Guarded.acquire (h : Guarded x) {i : Fin NBUF} (hp : x.pc p = .waiting i a)
    (hfree : x.holder i = none)
    (hb : y.sys.buf = update x.sys.buf i { x.sys.buf i with locked := true })
    (hpc : y.pc = update x.pc p (.loading i a)) (hholder : y.holder = update x.holder i (some p))
    (hpending : y.pending = x.pending) : Guarded y := by
  have hat := at_same hb rfl rfl
  refine h.of_step hpc ?_ ?_ ?_ ?_ ?_ ?_ ?_ ?_
  · intro j
    rw [hholder]
    rcases eq_or_ne j i with rfl | hj
    · rw [buf_self hb, update_self]
      rfl
    · rw [buf_other hb hj, update_of_ne hj, h.lock j]
  · intro j
    rw [hp, hholder]
    rcases eq_or_ne j i with rfl | hj
    · simp only [buf_self hb, update_self, Pc.refers, if_true, hfree,
        toList_none, toList_some, length_nil, length_singleton]
    · simp only [buf_other hb hj, update_of_ne hj, Pc.refers, if_neg hj.symm]
  · intro q j b hq
    exact (hat j b).mpr (h.at_of_busy hq)
  · intro j b hc
    rcases hc with hc | hc <;> cases hc
    exact (hat i a).mpr (h.waiting p i a hp)
  · intro j b hc
    cases hc
    rw [hholder, update_self]
  · intro q j hq
    rw [hholder]
    rcases eq_or_ne j i with rfl | hj
    · rw [update_self, hfree, some.injEq]
      exact ⟨nofun, fun hx => absurd hx.symm hq⟩
    · rw [update_of_ne hj]
  · intro j q hq
    rw [hholder] at hq
    rw [field_same Buf.dev hb rfl j, field_same Buf.valid hb rfl j]
    rcases eq_or_ne j i with rfl | hj
    · rw [update_self, some.injEq] at hq
      subst hq
      exact ⟨(h.waiting p j a hp).1, .inr ⟨a, update_self _ _ _⟩⟩
    · rw [update_of_ne hj] at hq
      exact h.still_held (by simp [hp]) hq
  · intro j hj
    rw [hpending] at hj
    obtain ⟨q, hq, hn⟩ := h.pending j hj
    have hji : j ≠ i := fun hx => by
      rw [hx, hfree] at hq
      cases hq
    refine ⟨q, by rw [hholder, update_of_ne hji, hq], fun b hb => ?_⟩
    rcases eq_or_ne q p with rfl | hqp
    · rw [update_self] at hb
      cases hb
      exact hji rfl
    · rw [update_of_ne hqp] at hb
      exact hn b hb

theorem Guarded.loaded (h : Guarded x) {i : Fin NBUF} {b : Buf} (hp : x.pc p = .loading i a)
    (hb : y.sys.buf = update x.sys.buf i b)
    (hbv : b = { x.sys.buf i with data := b.data, valid := true })
    (hpc : y.pc = update x.pc p .idle) (hholder : y.holder = x.holder)
    (hpending : y.pending = x.pending) : Guarded y := by
  have hat := at_same hb (by rw [hbv]) (by rw [hbv])
  refine h.of_step hpc ?_ ?_ ?_ (by simp) (by simp) (fun _ _ _ => by rw [hholder]) ?_ ?_
  · intro j
    rw [field_same Buf.locked hb (by rw [hbv]) j, hholder]
    exact h.lock j
  · intro j
    rw [hp, field_same Buf.refcnt hb (by rw [hbv]) j, hholder]
    rfl
  · intro q j c hq
    exact (hat j c).mpr (h.at_of_busy hq)
  · intro j q hq
    rw [hholder] at hq
    obtain ⟨hdev, hv⟩ := h.held j q hq
    refine ⟨(field_same Buf.dev hb (by rw [hbv]) j).trans hdev, ?_⟩
    rcases eq_or_ne j i with rfl | hj
    · left
      rw [buf_self hb, hbv]
    · rw [buf_other hb hj]
      refine hv.imp_right fun ⟨c, hc⟩ => ⟨c, ?_⟩
      have hqp : q ≠ p := fun hx => by
        rw [hx, hp] at hc
        cases hc
        exact hj rfl
      rw [update_of_ne hqp, hc]
  · intro j hj
    rw [hpending] at hj
    rw [hholder]
    exact h.still_pending (by simp) hj

theorem Guarded.used (h : Guarded x) {i : Fin NBUF} {b : Buf} (hp : x.pc p = .idle)
    (hh : x.holder i = some p) (hb : y.sys.buf = update x.sys.buf i b)
    (hbv : b = { x.sys.buf i with data := b.data, dirty := b.dirty, valid := b.valid })
    (hv : b.valid = (x.sys.buf i).valid ∨ b.valid = true) (hpc : y.pc = x.pc)
    (hholder : y.holder = x.holder) (hpending : ∀ j, j ≠ i → y.pending j = x.pending j)
    : Guarded y := by
  have hat := at_same hb (by rw [hbv]) (by rw [hbv])
  have hpc' : y.pc = update x.pc p .idle := by rw [hpc, ← hp, update_eq_self]
  refine h.of_step hpc' ?_ ?_ ?_ (by simp) (by simp) (fun _ _ _ => by rw [hholder]) ?_ ?_
  · intro j
    rw [field_same Buf.locked hb (by rw [hbv]) j, hholder]
    exact h.lock j
  · intro j
    rw [hp, hholder, field_same Buf.refcnt hb (by rw [hbv]) j]
  · intro q j c hq
    exact (hat j c).mpr (h.at_of_busy hq)
  · intro j q hq
    rw [hholder] at hq
    rw [field_same Buf.dev hb (by rw [hbv]) j]
    obtain ⟨hdev, hold⟩ := h.still_held (p := p) (c := .idle) (by simp [hp]) hq
    refine ⟨hdev, hold.imp_left fun hx => ?_⟩
    rcases eq_or_ne j i with rfl | hj
    · rw [buf_self hb]
      exact hv.elim (fun hv => hv.trans hx) id
    · rwa [buf_other hb hj]
  · intro j hj
    rw [hholder]
    rcases eq_or_ne j i with rfl | hji
    · exact ⟨p, hh, fun c => by simp⟩
    · rw [hpending j hji] at hj
      exact h.still_pending (by simp) hj

theorem Guarded.unlock (h : Guarded x) {i : Fin NBUF} (hp : x.pc p = .idle)
    (hh : x.holder i = some p) (hdone : x.pending i = false)
    (hb : y.sys.buf = update x.sys.buf i { x.sys.buf i with locked := false })
    (hpc : y.pc = update x.pc p (.releasing i)) (hholder : y.holder = update x.holder i none)
    (hpending : y.pending = x.pending) : Guarded y := by
  have hat := at_same hb rfl rfl
  refine h.of_step hpc ?_ ?_ ?_ (by simp) (by simp) ?_ ?_ ?_
  · intro j
    rw [hholder]
    rcases eq_or_ne j i with rfl | hj
    · rw [buf_self hb, update_self]
      rfl
    · rw [buf_other hb hj, update_of_ne hj, h.lock j]
  · intro j
    rw [hp, hholder]
    rcases eq_or_ne j i with rfl | hj
    · simp only [buf_self hb, update_self, Pc.refers, if_true, hh,
        toList_none, toList_some, length_nil, length_singleton]
    · simp only [buf_other hb hj, update_of_ne hj, Pc.refers, if_neg hj.symm]
  · intro q j b hq
    exact (hat j b).mpr (h.at_of_busy hq)
  · intro q j hq
    rw [hholder]
    rcases eq_or_ne j i with rfl | hj
    · rw [update_self, hh, some.injEq]
      exact ⟨fun hx => absurd hx.symm hq, nofun⟩
    · rw [update_of_ne hj]
  · intro j q hq
    rw [hholder] at hq
    have hj : j ≠ i := fun hx => by
      rw [hx, update_self] at hq
      cases hq
    rw [update_of_ne hj] at hq
    rw [field_same Buf.dev hb rfl j, field_same Buf.valid hb rfl j]
    exact h.still_held (by simp [hp]) hq
  · intro j hj
    rw [hpending] at hj
    have hji : j ≠ i := fun hx => by
      rw [hx, hdone] at hj
      cases hj
    rw [hholder, update_of_ne hji]
    exact h.still_pending (by simp) hj

theorem Guarded.unref (h : Guarded x) {i : Fin NBUF} (hp : x.pc p = .releasing i) :
    Guarded (x.unref p i) := by
  obtain ⟨hb, hpc, hholder, _, _, hpending⟩ := unref_fields x p i
  have hat := at_same hb rfl rfl
  have hpos : 1 ≤ (x.sys.buf i).refcnt := by
    have := h.refs_pos (p := p) (i := i)
    simp only [hp, Pc.refers, if_true] at this
    omega
  refine h.of_step hpc ?_ ?_ ?_ (by simp) (by simp) (fun _ _ _ => by rw [hholder]) ?_ ?_
  · intro j
    rw [field_same Buf.locked hb rfl j, hholder]
    exact h.lock j
  · intro j
    rw [hp, hholder]
    rcases eq_or_ne j i with rfl | hj
    · simp only [buf_self hb, Pc.refers, if_true]
      omega
    · simp only [buf_other hb hj, Pc.refers, if_neg hj.symm]
  · intro q j b hq
    exact (hat j b).mpr (h.at_of_busy hq)
  · intro j q hq
    rw [hholder] at hq
    rw [field_same Buf.dev hb rfl j, field_same Buf.valid hb rfl j]
    exact h.still_held (by simp [hp]) hq
  · intro j hj
    rw [hpending] at hj
    rw [hholder]
    exact h.still_pending (by simp) hj

theorem Guarded.effect (h : Guarded x) (he : Effect g x e y) : Guarded y := by
  cases he with
  | panic | log => exact ⟨h.lock, h.refs, h.waiting, h.loading, h.held, h.pending⟩
  | hit hp hi => exact h.hit hp hi rfl rfl rfl rfl
  | recycle hp hno href => exact h.recycle hp href rfl rfl rfl rfl rfl
  | acquire hp hfree => exact h.acquire hp hfree rfl rfl rfl rfl
  | keep hp hv =>
    rename_i p i a
    exact h.loaded (b := x.sys.buf i) hp (update_eq_self _ _).symm (by rw [← hv]) rfl rfl rfl
  | read hp hv => exact h.loaded hp rfl rfl rfl rfl rfl
  | modify hp hh =>
    exact h.used hp hh rfl rfl (.inl rfl) rfl rfl fun j hj => update_of_ne hj _ _
  | logWrite l hp hh =>
    exact h.used hp hh rfl rfl (.inl rfl) rfl rfl fun j hj => update_of_ne hj _ _
  | bwrite w hp hh =>
    exact h.used hp hh rfl rfl (.inr rfl) rfl rfl fun j hj => update_of_ne hj _ _
  | unlock hp hh hdone => exact h.unlock hp hh hdone rfl rfl rfl rfl
  | unref hp => exact h.unref hp

/-! ### Contents -/

section
omit [DecidableEq P] [Fintype P]

/-- A step that touches no contents. -/
theorem Truthful.same (h : Truthful x) {i : Fin NBUF} {b : Buf}
    (hb : y.sys.buf = update x.sys.buf i b)
    (hbv : b = { x.sys.buf i with locked := b.locked, refcnt := b.refcnt })
    (hdisk : y.sys.disk = x.sys.disk) (hlast : y.last = x.last) (hpending : y.pending = x.pending) :
    Truthful y := by
  have hat := at_same hb (by rw [hbv]) (by rw [hbv])
  have hdirty := field_same Buf.dirty hb (by rw [hbv])
  have hvalid := field_same Buf.valid hb (by rw [hbv])
  have hdata := field_same Buf.data hb (by rw [hbv])
  refine ⟨fun j => ?_, fun j a => ?_, fun a hj => ?_⟩
  · rw [hdirty, hvalid]
    exact h.unread j
  · rw [hat, hvalid, hdata, hlast, hpending]
    exact h.shows j a
  · rw [hdisk, hlast]
    refine h.disk a fun j hja => ?_
    rw [← hdirty]
    exact hj j ((hat j a).mpr hja)

/-- The evicted block is clean, so the disk has what its buffer showed. -/
theorem Truthful.recycle (h : Truthful x) {i : Fin NBUF} {b : Buf}
    (hclean : (x.sys.buf i).dirty = false) (hb : y.sys.buf = update x.sys.buf i b)
    (hdev : b.dev = ROOTDEV) (hv : b.valid = false) (hd : b.dirty = false)
    (hdisk : y.sys.disk = x.sys.disk) (hlast : y.last = x.last) (hpending : y.pending = x.pending) :
    Truthful y := by
  refine ⟨fun j hj => ?_, fun j c hj hvj => ?_, fun c hj => ?_⟩
  · rcases eq_or_ne j i with rfl | hji
    · rw [buf_self hb]; exact hd
    · rw [buf_other hb hji] at hj ⊢
      exact h.unread j hj
  · have hji : j ≠ i := fun hx => by
      rw [hx, buf_self hb, hv] at hvj
      cases hvj
    rw [at_update hb hdev, if_neg hji] at hj
    rw [buf_other hb hji] at hvj ⊢
    rw [hlast, hpending]
    exact h.shows j c hj hvj
  · rw [hdisk, hlast]
    refine h.disk c fun j hjc => ?_
    rcases eq_or_ne j i with rfl | hji
    · exact hclean
    · rw [← buf_other hb hji]
      exact hj j ((at_update hb hdev).mpr (by rw [if_neg hji]; exact hjc))

/-- Reading the block of a buffer that has not been read. -/
theorem Truthful.read (h : Truthful x) (hpl : Placed g x) {i : Fin NBUF} {b : Buf}
    (hi : At x.sys i a) (hv : (x.sys.buf i).valid = false) (hb : y.sys.buf = update x.sys.buf i b)
    (hbv : b = { x.sys.buf i with data := x.sys.disk a, valid := true })
    (hdisk : y.sys.disk = x.sys.disk) (hlast : y.last = x.last) (hpending : y.pending = x.pending) :
    Truthful y := by
  have hat := at_same hb (by rw [hbv]) (by rw [hbv])
  have hdirty := field_same Buf.dirty hb (by rw [hbv])
  refine ⟨fun j hj => ?_, fun j c hj hvj => ?_, fun c hj => ?_⟩
  · rcases eq_or_ne j i with rfl | hji
    · rw [buf_self hb, hbv] at hj
      cases hj
    · rw [buf_other hb hji] at hj ⊢
      exact h.unread j hj
  · rw [hat] at hj
    rw [hlast, hpending]
    rcases eq_or_ne j i with rfl | hji
    · obtain rfl : a = c := hi.2.symm.trans hj.2
      intro _
      rw [buf_self hb, hbv]
      refine h.disk a fun k hk => ?_
      rw [hpl.uniq k j a hk hi]
      exact h.unread j hv
    · rw [buf_other hb hji] at hvj ⊢
      exact h.shows j c hj hvj
  · rw [hdisk, hlast]
    refine h.disk c fun j hjc => ?_
    rw [← hdirty]
    exact hj j ((hat j c).mpr hjc)

theorem Truthful.modify (h : Truthful x) {i : Fin NBUF} {d : Block}
    (hb : y.sys.buf = update x.sys.buf i { x.sys.buf i with data := d })
    (hdisk : y.sys.disk = x.sys.disk) (hlast : y.last = x.last)
    (hpending : y.pending = update x.pending i true) : Truthful y := by
  have hat := at_same hb rfl rfl
  have hdirty := field_same Buf.dirty hb rfl
  have hvalid := field_same Buf.valid hb rfl
  refine ⟨fun j => ?_, fun j a => ?_, fun a hj => ?_⟩
  · rw [hdirty, hvalid]
    exact h.unread j
  · rw [hat, hvalid, hlast, hpending]
    rcases eq_or_ne j i with rfl | hji
    · intro _ _ hp
      rw [update_self] at hp
      cases hp
    · rw [update_of_ne hji, buf_other hb hji]
      exact h.shows j a
  · rw [hdisk, hlast]
    refine h.disk a fun j hja => ?_
    rw [← hdirty]
    exact hj j ((hat j a).mpr hja)

/-- `log_write` pins the block, `bwrite` writes it to the disk. -/
theorem Truthful.stored (h : Truthful x) (hpl : Placed g x) {i : Fin NBUF} {b : Buf}
    (hi : At x.sys i a) (hb : y.sys.buf = update x.sys.buf i b)
    (hbv : b = { x.sys.buf i with dirty := b.dirty, valid := true })
    (hdisk : b.dirty = true ∧ y.sys.disk = x.sys.disk ∨
      y.sys.disk = update x.sys.disk a (x.sys.buf i).data)
    (hlast : y.last = update x.last a (x.sys.buf i).data)
    (hpending : y.pending = update x.pending i false) : Truthful y := by
  have hat := at_same hb (by rw [hbv]) (by rw [hbv])
  refine ⟨fun j hj => ?_, fun j c hj hvj => ?_, fun c hj => ?_⟩
  · rcases eq_or_ne j i with rfl | hji
    · rw [buf_self hb, hbv] at hj
      cases hj
    · rw [buf_other hb hji] at hj ⊢
      exact h.unread j hj
  · rw [hat] at hj
    rw [hlast, hpending]
    rcases eq_or_ne j i with rfl | hji
    · obtain rfl : a = c := hi.2.symm.trans hj.2
      intro _
      rw [buf_self hb, hbv, update_self]
    · have hca : c ≠ a := fun hx => hji (hpl.uniq j i a (hx ▸ hj) hi)
      rw [buf_other hb hji] at hvj ⊢
      rw [update_of_ne hji, update_of_ne hca]
      exact h.shows j c hj hvj
  · rw [hlast]
    have hold : c ≠ a → x.sys.disk c = x.last c := fun hca => by
      refine h.disk c fun j hjc => ?_
      have hji : j ≠ i := fun hx => by
        rw [hx] at hjc
        exact hca (hjc.2.symm.trans hi.2)
      rw [← buf_other hb hji]
      exact hj j ((hat j c).mpr hjc)
    rcases hdisk with ⟨hd, hdisk⟩ | hdisk
    · have hca : c ≠ a := fun hx => by
        have := hj i ((hat i c).mpr (hx ▸ hi))
        rw [buf_self hb, hd] at this
        cases this
      rw [hdisk, update_of_ne hca]
      exact hold hca
    · rw [hdisk]
      rcases eq_or_ne c a with rfl | hca
      · rw [update_self, update_self]
      · rw [update_of_ne hca, update_of_ne hca]
        exact hold hca

end

omit [DecidableEq P] in
/-- A process that holds a buffer and is not in `bread` has read it. -/
theorem Guarded.valid_of_held (h : Guarded x) {i : Fin NBUF} (hp : x.pc p = .idle)
    (hh : x.holder i = some p) : (x.sys.buf i).valid = true := by
  refine (h.held i p hh).2.resolve_right ?_
  rintro ⟨a, ha⟩
  rw [hp] at ha
  cases ha

theorem Truthful.effect (h : Truthful x) (hpl : Placed g x) (hgd : Guarded x)
    (he : Effect g x e y) : Truthful y := by
  cases he with
  | panic | keep | log => exact ⟨h.unread, h.shows, h.disk⟩
  | hit | acquire | unlock => exact h.same rfl rfl rfl rfl rfl
  | recycle hp hno href hclean => exact h.recycle hclean rfl rfl rfl rfl rfl rfl rfl
  | read hp hv => exact h.read hpl (hgd.loading _ _ _ hp).1 hv rfl rfl rfl rfl rfl
  | modify hp hh => exact h.modify rfl rfl rfl rfl
  | logWrite l hp hh =>
    refine h.stored hpl (hgd.at_of_held hh) rfl ?_ (.inl ⟨rfl, rfl⟩) rfl rfl
    rw [← hgd.valid_of_held hp hh]
  | bwrite w hp hh => exact h.stored hpl (hgd.at_of_held hh) rfl rfl (.inr rfl) rfl rfl
  | unref hp =>
    rename_i p i
    obtain ⟨hb, _, _, hdisk, hlast, hpending⟩ := unref_fields x p i
    exact h.same hb rfl hdisk hlast hpending

/-! ### Every run -/

structure Coherent (g : Geom) (x : St P) : Prop where
  placed : Placed g x
  guarded : Guarded x
  truthful : Truthful x

theorem Coherent.step (h : Coherent g x) (hG : Proper g x e) (hs : x.step g e = some y) :
    Coherent g y := by
  have he := effect_of_step h.placed h.guarded h.truthful hG hs
  exact ⟨h.placed.effect he, h.guarded.effect he, h.truthful.effect h.placed h.guarded he⟩

omit [DecidableEq P] in
theorem coherent_init (d : Image Block) (l : Log) : Coherent g (init d l : St P) := by
  have hno : ∀ (i : Fin NBUF) (a : ℕ), ¬ At (init d l : St P).sys i a :=
    fun i a hi => absurd hi.1 (by simp [init, ROOTDEV])
  refine ⟨⟨linked_binit, by simp [init], fun i _ a hi => absurd hi (hno i a),
    fun i a hi => absurd hi (hno i a)⟩, ⟨fun _ => rfl, fun i => ?_, ?_, ?_, ?_, ?_⟩,
    ⟨fun _ _ => rfl, fun i a hi => absurd hi (hno i a), fun _ _ => rfl⟩⟩
  all_goals simp [init, Pc.refers]

theorem coherent_of_reach {d : Image Block} {l : Log}
    (h : Reach (St.step g) (Proper g) (init d l) x) : Coherent g x :=
  h.invariant (coherent_init d l) fun _ _ _ hx hG hs => hx.step hG hs

theorem Coherent.not_reassigned (h : Coherent g x) (hG : Proper g x e) (hs : x.step g e = some y)
    {i : Fin NBUF} (hi : 0 < (x.sys.buf i).refcnt ∨ (x.sys.buf i).dirty = true) :
    (y.sys.buf i).dev = (x.sys.buf i).dev ∧ (y.sys.buf i).blockno = (x.sys.buf i).blockno := by
  cases effect_of_step h.placed h.guarded h.truthful hG hs with
  | panic | keep | log => exact ⟨rfl, rfl⟩
  | hit | acquire | read | modify | logWrite | bwrite | unlock =>
    exact block_same rfl (by rfl) (by rfl) i
  | unref hp =>
    rename_i p j
    exact block_same (unref_fields x p j).1 rfl rfl i
  | recycle hp hno href hclean ha =>
    rename_i p j a
    have hij : i ≠ j := fun hx => by
      rw [hx, href, hclean] at hi
      simp at hi
    exact ⟨congrArg Buf.dev (update_of_ne hij _ _),
      congrArg Buf.blockno (update_of_ne hij _ _)⟩

theorem Coherent.load (h : Coherent g x) (hnone : x.panicked = none) {i : Fin NBUF}
    (hp : x.pc p = .loading i a) : ∃ y, x.step g (.load p) = some y ∧ y.panicked = none ∧
      y.holder i = some p ∧ At y.sys i a ∧ (y.sys.buf i).data = x.last a := by
  obtain ⟨y, hy, he, hyn⟩ := load_step h.placed h.guarded h.truthful hnone hp
  obtain ⟨hat, hh⟩ := h.guarded.loading p i a hp
  have hquiet : x.pending i = false := by
    by_contra hx
    obtain ⟨q, hq, hn⟩ := h.guarded.pending i (by simpa using hx)
    rw [hh, some.injEq] at hq
    exact hn a (hq ▸ hp)
  have htrue := h.truthful.effect h.placed h.guarded he
  refine ⟨y, hy, hyn, ?_⟩
  cases he with
  | panic => cases hyn
  | keep hp' hv =>
    rw [hp] at hp'
    cases hp'
    exact ⟨hh, hat, h.truthful.shows i a hat hv hquiet⟩
  | read hp' hv =>
    rw [hp] at hp'
    cases hp'
    have hat' := (at_same (x := x) (y := (x.setBuf i { x.sys.buf i with
      data := x.sys.disk a, valid := true }).goto p .idle) rfl rfl rfl i a).mpr hat
    refine ⟨hh, hat', htrue.shows i a hat' ?_ hquiet⟩
    simp only [St.setBuf, St.goto, update_self]

/-- The cache is transparent. In every state that calls keeping the protocol reach: the links form
  one circular doubly linked list through the head with every buffer in it once; no two buffers
  stand for one block of the root device; no step moves a referenced or dirty buffer to another
  block; and `bread` returns what was last stored in the block's buffer before a `log_write` or
  `bwrite`, at first the disk's contents. -/
theorem cache_transparent (d : Image Block) (l : Log) (x : St P)
    (h : Reach (St.step g) (Proper g) (init d l) x) :
    (∃ order : List (Fin NBUF), Linked x.links.next x.links.prev order ∧ ∀ i, i ∈ order) ∧
    (∀ p a, x.panicked = none → x.pc p = .idle → a < g.disksize →
      ∃ y, x.step g (.bget p a) = some y) ∧
    (∀ i j a, At x.sys i a → At x.sys j a → i = j) ∧
    (∀ e y i, Proper g x e → x.step g e = some y →
      0 < (x.sys.buf i).refcnt ∨ (x.sys.buf i).dirty = true →
      (y.sys.buf i).dev = (x.sys.buf i).dev ∧ (y.sys.buf i).blockno = (x.sys.buf i).blockno) ∧
    ∀ p i a, x.panicked = none → x.pc p = .loading i a → ∃ y, x.step g (.load p) = some y ∧
      y.panicked = none ∧ y.holder i = some p ∧ At y.sys i a ∧
      (y.sys.buf i).data = x.last a := by
  have hc := coherent_of_reach h
  refine ⟨⟨x.sys.lru, hc.placed.linked, hc.placed.mem⟩, ?_, hc.placed.uniq, ?_, ?_⟩
  · intro p a hnone hp ha
    obtain ⟨y, hy, _⟩ := hc.placed.bget_cases hp ha
    refine ⟨y, ?_⟩
    rw [step_eq hnone, St.act, if_pos hp, hy]
  · intro e y i hG hs hi
    exact hc.not_reassigned hG hs hi
  · intro p i a hnone hp
    exact hc.load hnone hp

def eightBlocks : Geom where
  imgSize := 4096
  logstart := 1
  nlog := 5
  imgSize_lt := by decide
  nlog_pos := by decide
  log_le := by decide

def firstBuf : Fin NBUF := ⟨0, by decide⟩

/-- The first process stores the number 7 in every byte of block 6 while the second one waits for its
  buffer. -/
def handOver : List (Ev (Fin 2)) :=
  [.bget 0 6, .acquire 0, .load 0, .bget 1 6, .modify 0 firstBuf fun _ => 7, .logWrite 0 firstBuf,
    .unlock 0 firstBuf, .unref 0, .acquire 1]

/-- The second process reads what the first one has stored. -/
theorem cache_transparent_hand_over : ∃ x y : St (Fin 2),
    Reach (St.step eightBlocks) (Proper eightBlocks) (init (fun _ _ => 0) ⟨1, false, []⟩) x ∧
    (∃ order : List (Fin NBUF), Linked x.links.next x.links.prev order ∧ ∀ i, i ∈ order) ∧
    x.last 6 ⟨0, by decide⟩ = 7 ∧ x.step eightBlocks (.load 1) = some y ∧
    (y.sys.buf firstBuf).data = x.last 6 := by
  obtain ⟨x, hx, hsees⟩ := exists_reach (show (follow (St.step eightBlocks)
    (Proper eightBlocks) (init (fun _ _ => 0) ⟨1, false, []⟩) handOver).map
      (fun x => (x.panicked, x.pc 1, x.last 6 ⟨0, by decide⟩)) =
        some (none, .loading firstBuf 6, 7) by decide +kernel)
  simp only [Prod.mk.injEq] at hsees
  obtain ⟨hlist, _, _, _, hread⟩ := cache_transparent _ _ x hx
  obtain ⟨y, hy, _, _, _, hdata⟩ := hread 1 firstBuf 6 hsees.1 hsees.2.1
  exact ⟨x, y, hx, hlist, hsees.2.2, hy, hdata⟩

end

end Xv6.Disk.Cache

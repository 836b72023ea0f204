import Xv6.Param
import Xv6.Schemes.Prog
import Xv6.Schemes.Redo

/-! @src bio.c, memide.c, sleeplock.c | part:buffer cache | scheme:prog

  The buffer cache and the disk under it. A buffer is one of `NBUF` slots; `lru` is the list the
  `prev`/`next` links run through, most recently used first (`bcache.head.next` is its head). The
  state also keeps the one-block writes the driver has issued, in order: all a crash leaves behind.
  The code is run by one thread at a time (each call is made under the buffer's sleep lock), so a
  wait on a held sleep lock is a stop.

      bread b:  cached? --yes--> lock it
                  | no
                  v
               last unused clean buffer --> lock it, iderw (disk → data)
      bwrite:  iderw (data → disk)          brelse: unlock, move to the front -/

namespace Xv6.Disk
open Schemes Prog
open Function

inductive Stop where
  | panic (msg : String)
  | asleep
  | overrun
  deriving DecidableEq

/-- A buffer of the cache. -/
structure Buf where
  valid : Bool
  dirty : Bool
  dev : ℕ
  blockno : ℕ
  locked : Bool
  refcnt : ℕ
  data : Block

/-- The log in memory. -/
structure Log where
  outstanding : ℤ
  committing : Bool
  lh : List ℕ

/-- The disk, the writes issued so far, the cache and the in-memory log. -/
structure Sys where
  disk : Image Block
  writes : List (ℕ × Block)
  buf : Fin NBUF → Buf
  lru : List (Fin NBUF)
  log : Log

/-- What the image size and the superblock fix: the disk's size in bytes and where its log is. -/
structure Geom where
  imgSize : ℕ
  logstart : ℕ
  nlog : ℕ
  imgSize_lt : imgSize < 2 ^ 32
  nlog_pos : 0 < nlog
  log_le : logstart + nlog ≤ imgSize / BSIZE

def Geom.disksize (g : Geom) : ℕ := g.imgSize / BSIZE

abbrev K := Prog Sys Stop

variable (g : Geom)

def setBuf (i : Fin NBUF) (f : Buf → Buf) : K Unit :=
  modify fun s => { s with buf := Function.update s.buf i (f (s.buf i)) }

def acquiresleep (i : Fin NBUF) : K Unit := do
  let s ← get
  if (s.buf i).locked then stop .asleep
  else setBuf i fun b => { b with locked := true }

/-- Look through the cache for block `blockno` of device `dev`; if it is not there, recycle the least
  recently used buffer that is unreferenced and clean. Returns a locked buffer. -/
def bget (dev blockno : ℕ) : K (Fin NBUF) := do
  let s ← get
  match s.lru.find? (fun i => (s.buf i).dev == dev && (s.buf i).blockno == blockno) with
  | some i =>
    setBuf i fun b => { b with refcnt := b.refcnt + 1 }
    acquiresleep i
    pure i
  | none =>
    match s.lru.reverse.find? (fun i => (s.buf i).refcnt == 0 && !(s.buf i).dirty) with
    | some i =>
      setBuf i fun b =>
        { b with dev := dev, blockno := blockno, valid := false, dirty := false, refcnt := 1 }
      acquiresleep i
      pure i
    | none => stop (.panic "bget: no buffers")

def iderw (i : Fin NBUF) : K Unit := do
  let s ← get
  let b := s.buf i
  if !b.locked then stop (.panic "iderw: buf not locked")
  else if b.valid && !b.dirty then stop (.panic "iderw: nothing to do")
  else if b.dev != 1 then stop (.panic "iderw: request not for disk 1")
  else if g.disksize ≤ b.blockno then stop (.panic "iderw: block out of range")
  else if b.dirty then
    modify fun s => { s with
      disk := Function.update s.disk b.blockno b.data
      writes := s.writes ++ [(b.blockno, b.data)]
      buf := Function.update s.buf i { b with dirty := false, valid := true } }
  else
    setBuf i fun b => { b with data := s.disk b.blockno, valid := true }

/-- A locked buffer with the contents of the block. -/
def bread (dev blockno : ℕ) : K (Fin NBUF) := do
  let i ← bget dev blockno
  let s ← get
  if !(s.buf i).valid then iderw g i
  pure i

/-- Write a buffer to disk. -/
def bwrite (i : Fin NBUF) : K Unit := do
  let s ← get
  if !(s.buf i).locked then stop (.panic "bwrite")
  else
    setBuf i fun b => { b with dirty := true }
    iderw g i

/-- Release a locked buffer and move it to the front of the list once nobody references it. -/
def brelse (i : Fin NBUF) : K Unit := do
  let s ← get
  if !(s.buf i).locked then stop (.panic "brelse")
  else
    setBuf i fun b => { b with locked := false, refcnt := b.refcnt - 1 }
    let s ← get
    if (s.buf i).refcnt = 0 then
      modify fun s => { s with lru := i :: s.lru.erase i }

def memmove (i : Fin NBUF) (d : Block) : K Unit := setBuf i fun b => { b with data := d }

/-! ### What the cache shows -/

def At (s : Sys) (i : Fin NBUF) (a : ℕ) : Prop := (s.buf i).dev = ROOTDEV ∧ (s.buf i).blockno = a

instance (s : Sys) (i : Fin NBUF) (a : ℕ) : Decidable (At s i a) :=
  inferInstanceAs (Decidable (_ ∧ _))

/-- What a reader of block `a` sees: the cached data if there is a buffer for it, else the disk. -/
def view (s : Sys) (a : ℕ) : Block :=
  match s.lru.find? (fun i => decide (At s i a)) with
  | some i => (s.buf i).data
  | none => s.disk a

def Pinned (s : Sys) (a : ℕ) : Prop := ∃ i, At s i a ∧ (s.buf i).dirty = true

def Idle (s : Sys) : Prop := ∀ i, (s.buf i).locked = false

/-- The cache invariant: every block has at most one buffer, and a clean buffer nobody holds agrees
  with the disk. -/
structure CacheOk (s : Sys) : Prop where
  mem : ∀ i, i ∈ s.lru
  uniq : ∀ i j a, At s i a → At s j a → i = j
  valid : ∀ i, (s.buf i).dev = ROOTDEV → (s.buf i).valid = true
  range : ∀ i a, At s i a → a < g.disksize
  refs : ∀ i, (s.buf i).refcnt = if (s.buf i).locked then 1 else 0
  held : ∀ i, (s.buf i).locked = true → (s.buf i).dev = ROOTDEV
  pins : ∀ i, (s.buf i).dirty = true → (s.buf i).dev = ROOTDEV
  clean : ∀ i a, At s i a → (s.buf i).dirty = false → (s.buf i).locked = false →
    (s.buf i).data = s.disk a

variable {g} {s s' : Sys} {i j : Fin NBUF} {a c : ℕ}

theorem view_of_at (h : CacheOk g s) (hi : At s i a) : view s a = (s.buf i).data := by
  unfold view
  cases hf : s.lru.find? (fun i => decide (At s i a)) with
  | none => exact absurd hi (by simpa using List.find?_eq_none.mp hf i (h.mem i))
  | some j =>
    have hj : At s j a := by simpa using List.find?_some hf
    rw [h.uniq j i a hj hi]

theorem view_of_not_at (h : ∀ i, ¬ At s i a) : view s a = s.disk a := by
  unfold view
  rw [List.find?_eq_none.mpr (fun i _ => by simpa using h i)]

theorem view_eq_disk (h : CacheOk g s) (hp : ¬ Pinned s a) (hl : ∀ i, At s i a →
    (s.buf i).locked = false) : view s a = s.disk a := by
  by_cases hx : ∃ i, At s i a
  · obtain ⟨i, hi⟩ := hx
    rw [view_of_at h hi]
    refine h.clean i a hi ?_ (hl i hi)
    by_contra hd
    exact hp ⟨i, hi, by simpa using hd⟩
  · exact view_of_not_at (fun i hi => hx ⟨i, hi⟩)

/-! ### Changing one buffer

  Every call of the cache changes one buffer `i` to some `b`, and possibly the disk under it. -/

section Update

variable {b : Buf}

theorem at_update (hb : s'.buf = Function.update s.buf i b) (hdev : b.dev = ROOTDEV) :
    At s' j c ↔ if j = i then b.blockno = c else At s j c := by
  unfold At
  rw [hb]
  by_cases hj : j = i
  · subst hj; simp [hdev]
  · simp [hj]

theorem CacheOk.update (h : CacheOk g s) (hb : s'.buf = Function.update s.buf i b)
    (hmem : ∀ j, j ∈ s'.lru) (hdev : b.dev = ROOTDEV) (hval : b.valid = true)
    (hone : ∀ j, j ≠ i → ¬ At s j b.blockno) (hrange : b.blockno < g.disksize)
    (hrefs : b.refcnt = if b.locked then 1 else 0)
    (hclean : b.dirty = false → b.locked = false → b.data = s'.disk b.blockno)
    (hdisk : ∀ j c, j ≠ i → At s j c → s'.disk c = s.disk c) : CacheOk g s' := by
  have hself : s'.buf i = b := by rw [hb]; simp
  have hother : ∀ j, j ≠ i → s'.buf j = s.buf j := fun j hj => by rw [hb]; simp [hj]
  have hat : ∀ j c, At s' j c ↔ if j = i then b.blockno = c else At s j c :=
    fun j c => at_update hb hdev
  refine ⟨hmem, ?_, ?_, ?_, ?_, ?_, ?_, ?_⟩
  · intro j k c hj hk
    rw [hat] at hj hk
    by_cases hji : j = i <;> by_cases hki : k = i
    · rw [hji, hki]
    · rw [if_pos hji] at hj; rw [if_neg hki] at hk
      exact absurd (hj ▸ hk) (hone k hki)
    · rw [if_neg hji] at hj; rw [if_pos hki] at hk
      exact absurd (hk ▸ hj) (hone j hji)
    · rw [if_neg hji] at hj; rw [if_neg hki] at hk
      exact h.uniq j k c hj hk
  · intro j hj
    by_cases hji : j = i
    · rw [hji, hself]; exact hval
    · rw [hother j hji] at hj ⊢; exact h.valid j hj
  · intro j c hj
    rw [hat] at hj
    by_cases hji : j = i
    · rw [if_pos hji] at hj; rw [← hj]; exact hrange
    · rw [if_neg hji] at hj; exact h.range j c hj
  · intro j
    by_cases hji : j = i
    · rw [hji, hself]; exact hrefs
    · rw [hother j hji]; exact h.refs j
  · intro j hj
    by_cases hji : j = i
    · rw [hji, hself]; exact hdev
    · rw [hother j hji] at hj ⊢; exact h.held j hj
  · intro j hj
    by_cases hji : j = i
    · rw [hji, hself]; exact hdev
    · rw [hother j hji] at hj ⊢; exact h.pins j hj
  · intro j c hj hd hl
    rw [hat] at hj
    by_cases hji : j = i
    · rw [if_pos hji] at hj; rw [hji, hself] at hd hl ⊢
      rw [← hj]; exact hclean hd hl
    · rw [if_neg hji] at hj; rw [hother j hji] at hd hl ⊢
      rw [hdisk j c hji hj]; exact h.clean j c hj hd hl

theorem view_update_self (h' : CacheOk g s') (hb : s'.buf = Function.update s.buf i b)
    (hdev : b.dev = ROOTDEV) : view s' b.blockno = b.data := by
  have hi : At s' i b.blockno := (at_update hb hdev).mpr (by simp)
  rw [view_of_at h' hi, hb]; simp

theorem view_update_of_ne (h : CacheOk g s) (h' : CacheOk g s')
    (hb : s'.buf = Function.update s.buf i b) (hdev : b.dev = ROOTDEV) (hc : b.blockno ≠ c)
    (hold : ¬ At s i c) (hdisk : s'.disk c = s.disk c) : view s' c = view s c := by
  by_cases hx : ∃ j, At s j c
  · obtain ⟨j, hj⟩ := hx
    have hji : j ≠ i := by rintro rfl; exact hold hj
    have hj' : At s' j c := (at_update hb hdev).mpr (by rw [if_neg hji]; exact hj)
    rw [view_of_at h hj, view_of_at h' hj', hb, update_of_ne hji]
  · have hx' : ∀ j, ¬ At s' j c := by
      intro j hj
      rw [at_update hb hdev] at hj
      by_cases hji : j = i
      · rw [if_pos hji] at hj; exact hc hj
      · rw [if_neg hji] at hj; exact hx ⟨j, hj⟩
    rw [view_of_not_at hx', view_of_not_at (fun j hj => hx ⟨j, hj⟩), hdisk]

theorem view_update_evicted (h : CacheOk g s) (hb : s'.buf = Function.update s.buf i b)
    (hdev : b.dev = ROOTDEV) (hc : b.blockno ≠ c) (hold : At s i c) : view s' c = s'.disk c := by
  refine view_of_not_at (fun j hj => ?_)
  rw [at_update hb hdev] at hj
  by_cases hji : j = i
  · rw [if_pos hji] at hj; exact hc hj
  · rw [if_neg hji] at hj; exact hji (h.uniq j i c hj hold)

theorem pinned_update (h : CacheOk g s) (hb : s'.buf = Function.update s.buf i b)
    (hdev : b.dev = ROOTDEV) :
    Pinned s' c ↔ (b.blockno = c ∧ b.dirty = true) ∨ (¬ At s i c ∧ Pinned s c) := by
  constructor
  · rintro ⟨j, hj, hd⟩
    rw [at_update hb hdev] at hj
    by_cases hji : j = i
    · rw [if_pos hji] at hj; rw [hb, hji] at hd
      exact .inl ⟨hj, by simpa using hd⟩
    · rw [if_neg hji] at hj; rw [hb, update_of_ne hji] at hd
      exact .inr ⟨fun hi => hji (h.uniq j i c hj hi), j, hj, hd⟩
  · rintro (⟨hc, hd⟩ | ⟨hi, j, hj, hd⟩)
    · exact ⟨i, (at_update hb hdev).mpr (by simpa using hc), by rw [hb]; simpa using hd⟩
    · have hji : j ≠ i := by rintro rfl; exact hi hj
      exact ⟨j, (at_update hb hdev).mpr (by rw [if_neg hji]; exact hj), by
        rw [hb, update_of_ne hji]; exact hd⟩

theorem CacheOk.touch (h : CacheOk g s) (hi : At s i a) (hb : s'.buf = Function.update s.buf i b)
    (hdev : b.dev = ROOTDEV) (hno : b.blockno = a) (hval : b.valid = true)
    (hrefs : b.refcnt = if b.locked then 1 else 0) (hmem : ∀ j, j ∈ s'.lru)
    (hclean : b.dirty = false → b.locked = false → b.data = s'.disk a)
    (hdisk : ∀ c, c ≠ a → s'.disk c = s.disk c) :
    CacheOk g s' ∧ (∀ c, view s' c = Function.update (view s) a b.data c) ∧
      ∀ c, Pinned s' c ↔ (c = a ∧ b.dirty = true) ∨ (c ≠ a ∧ Pinned s c) := by
  have hat : ∀ c, At s i c ↔ a = c := fun c => by simp [At, hi.1, hi.2]
  have h' : CacheOk g s' := by
    refine h.update hb hmem hdev hval ?_ ?_ hrefs ?_ ?_
    · intro j hji hj; rw [hno] at hj; exact hji (h.uniq j i _ hj hi)
    · rw [hno]; exact h.range i _ hi
    · rw [hno]; exact hclean
    · rintro j c hji hj
      exact hdisk c (by rintro rfl; exact hji (h.uniq j i _ hj hi))
  refine ⟨h', fun c => ?_, fun c => ?_⟩
  · by_cases hc : c = a
    · subst hc
      have := view_update_self h' hb hdev
      rw [hno] at this
      rw [update_self, this]
    · rw [update_of_ne hc]
      refine view_update_of_ne h h' hb hdev (by rw [hno]; exact Ne.symm hc) ?_ (hdisk c hc)
      rw [hat]; exact Ne.symm hc
  · rw [pinned_update h hb hdev, hno, hat, eq_comm (a := a)]

theorem pinned_same (h : CacheOk g s) (hi : At s i a) :
    (c = a ∧ (s.buf i).dirty = true) ∨ (c ≠ a ∧ Pinned s c) ↔ Pinned s c := by
  by_cases hc : c = a
  · subst hc
    simp only [true_and, ne_eq, not_true_eq_false, false_and, or_false]
    exact ⟨fun hx => ⟨i, hi, hx⟩, fun ⟨j, hj, hx⟩ => by rwa [h.uniq j i c hj hi] at hx⟩
  · simp [hc]

end Update

/-! ### Specifications of the cache calls -/

/-- What `bread` of block `a` into buffer `i` does, seen from outside: the buffer is now held and
  shows the block; everything a reader can see is as before. -/
structure Loaded (g : Geom) (s : Sys) (a : ℕ) (i : Fin NBUF) (s' : Sys) : Prop where
  ok : CacheOk g s'
  at_ : At s' i a
  fresh : (s.buf i).locked = false
  locked : (s'.buf i).locked = true
  others : ∀ j, j ≠ i → s'.buf j = s.buf j
  view : ∀ c, view s' c = view s c
  pinned : ∀ c, Pinned s' c ↔ Pinned s c
  disk : s'.disk = s.disk
  writes : s'.writes = s.writes
  log : s'.log = s.log

theorem loaded_of_cached (h : CacheOk g s) (hi : At s i a) (hl : (s.buf i).locked = false)
    {b : Buf} (hb : s'.buf = Function.update s.buf i b)
    (hbv : b = { s.buf i with valid := true, refcnt := (s.buf i).refcnt + 1, locked := true })
    (hd : s'.disk = s.disk) (hw : s'.writes = s.writes) (hlru : s'.lru = s.lru)
    (hlog : s'.log = s.log) : Loaded g s a i s' := by
  have hrefs : (s.buf i).refcnt = 0 := by have := h.refs i; rwa [hl] at this
  have hdev : b.dev = ROOTDEV := by rw [hbv]; exact hi.1
  have hno : b.blockno = a := by rw [hbv]; exact hi.2
  obtain ⟨h', hview, hpin⟩ := h.touch hi hb hdev hno (by rw [hbv]) (by simp [hbv, hrefs])
    (fun j => hlru ▸ h.mem j) (by simp [hbv]) (fun c _ => by rw [hd])
  refine ⟨h', (at_update hb hdev).mpr (by simpa using hno), hl, by rw [hb]; simp [hbv],
    fun j hj => by rw [hb, update_of_ne hj], fun c => ?_, fun c => ?_, hd, hw, hlog⟩
  · rw [hview]
    by_cases hc : c = a
    · subst hc; rw [update_self, view_of_at h hi, hbv]
    · rw [update_of_ne hc]
  · rw [hpin, hbv]; exact pinned_same h hi

theorem loaded_of_recycled (h : CacheOk g s) (hno : ∀ j, ¬ At s j a)
    (href : (s.buf i).refcnt = 0) (hdt : (s.buf i).dirty = false) (ha : a < g.disksize) {b : Buf}
    (hb : s'.buf = Function.update s.buf i b)
    (hbv : b = { valid := true, dirty := false, dev := ROOTDEV, blockno := a, locked := true,
                 refcnt := 1, data := s.disk a }) (hd : s'.disk = s.disk)
    (hw : s'.writes = s.writes) (hlru : s'.lru = s.lru) (hlog : s'.log = s.log) :
    Loaded g s a i s' := by
  have hl : (s.buf i).locked = false := by
    have := h.refs i
    rw [href] at this
    by_contra hc
    simp [hc] at this
  subst hbv
  have h' : CacheOk g s' := by
    refine h.update hb (fun j => hlru ▸ h.mem j) rfl rfl (fun j _ => hno j) ha rfl ?_ ?_
    · intro _ hlk; simp at hlk
    · intro _ c _ _; rw [hd]
  refine ⟨h', (at_update hb rfl).mpr (by simp), hl, by rw [hb]; simp,
    fun j hj => by rw [hb, update_of_ne hj], ?_, ?_, hd, hw, hlog⟩
  · intro c
    by_cases hc : a = c
    · rw [← hc, view_update_self h' hb rfl, view_of_not_at hno]
    · by_cases hold : At s i c
      · -- the evicted block was clean, so the disk holds what the buffer showed
        rw [view_update_evicted h hb rfl hc hold, hd, view_of_at h hold]
        exact (h.clean i c hold hdt hl).symm
      · exact view_update_of_ne h h' hb rfl hc hold (by rw [hd])
  · intro c
    rw [pinned_update h hb rfl]
    constructor
    · rintro (⟨_, hx⟩ | ⟨_, hp⟩)
      · simp at hx
      · exact hp
    · rintro ⟨j, hj, hdj⟩
      refine .inr ⟨fun hi => ?_, j, hj, hdj⟩
      rw [h.uniq j i c hj hi, hdt] at hdj
      simp at hdj

/-- What can keep `bread` from returning: the block is not on the disk, its buffer is held, or every
  buffer is in use. -/
def Blocked (g : Geom) (s : Sys) (a : ℕ) : Prop :=
  g.disksize ≤ a ∨ (∃ i, At s i a ∧ (s.buf i).locked = true) ∨
    ∀ i, (s.buf i).locked = true ∨ (s.buf i).dirty = true

theorem bread_spec (h : CacheOk g s) (a : ℕ) :
    Prog.Triple (· = s) (bread g ROOTDEV a) (fun i s' => Loaded g s a i s')
      (fun s' => s'.writes = s.writes ∧ Blocked g s a) := by
  rintro _ rfl
  rename_i s
  unfold bread bget
  simp only [bind_apply, get_apply]
  cases hf : s.lru.find? (fun i => (s.buf i).dev == ROOTDEV && (s.buf i).blockno == a) with
  | some i =>
    have hi : At s i a := by simpa [At] using List.find?_some hf
    cases hl : (s.buf i).locked with
    | true =>
      simp only [bind_apply, setBuf, acquiresleep, modify_apply, get_apply,
        update_self, hl, if_true, stop_apply]
      exact ⟨trivial, .inr (.inl ⟨i, hi, hl⟩)⟩
    | false =>
      have hv := h.valid i hi.1
      simp only [bind_apply, setBuf, acquiresleep, modify_apply, get_apply,
        update_self, hl, hv, pure_apply, Bool.not_true, Bool.false_eq_true,
        if_false, update_idem]
      exact loaded_of_cached h hi hl rfl rfl rfl rfl rfl rfl
  | none =>
    have hno : ∀ j, ¬ At s j a := by
      intro j hj
      have := List.find?_eq_none.mp hf j (h.mem j)
      simp [hj.1, hj.2] at this
    cases hr : s.lru.reverse.find? (fun i => (s.buf i).refcnt == 0 && !(s.buf i).dirty) with
    | none =>
      simp only [stop_apply]
      refine ⟨trivial, .inr (.inr fun i => ?_)⟩
      have := List.find?_eq_none.mp hr i (List.mem_reverse.mpr (h.mem i))
      rw [h.refs i] at this
      by_cases hl : (s.buf i).locked = true
      · exact .inl hl
      · exact .inr (by simpa [hl] using this)
    | some i =>
      have hi : (s.buf i).refcnt = 0 ∧ (s.buf i).dirty = false := by
        simpa using List.find?_some hr
      have hl : (s.buf i).locked = false := by
        have := h.refs i
        rw [hi.1] at this
        by_contra hc
        simp [hc] at this
      by_cases ha : g.disksize ≤ a
      · simp [bind_apply, setBuf, acquiresleep, iderw, hl, ha, ROOTDEV, Blocked]
      · simp only [bind_apply, setBuf, acquiresleep, iderw, modify_apply, get_apply,
          update_self, hl, ha, pure_apply, Bool.not_true, Bool.not_false,
          Bool.false_eq_true, if_false, if_true, update_idem, Bool.false_and, ROOTDEV,
          bne_self_eq_false]
        exact loaded_of_recycled h hno hi.1 hi.2 (by omega) rfl rfl rfl rfl rfl rfl

theorem memmove_spec (h : CacheOk g s) (hi : At s i a) (hl : (s.buf i).locked = true) (d : Block) :
    ∃ s', memmove i d s = (.ok (), s') ∧ CacheOk g s' ∧
      s'.buf = Function.update s.buf i { s.buf i with data := d } ∧
      (∀ c, view s' c = Function.update (view s) a d c) ∧ (∀ c, Pinned s' c ↔ Pinned s c) ∧
      s'.disk = s.disk ∧ s'.writes = s.writes ∧ s'.log = s.log := by
  obtain ⟨s', hs', hb, hd, hw, hlru, hlog⟩ : ∃ s', memmove i d s = (.ok (), s') ∧
      s'.buf = Function.update s.buf i { s.buf i with data := d } ∧ s'.disk = s.disk ∧
      s'.writes = s.writes ∧ s'.lru = s.lru ∧ s'.log = s.log := ⟨_, rfl, rfl, rfl, rfl, rfl, rfl⟩
  obtain ⟨h', hview, hpin⟩ := h.touch hi hb hi.1 hi.2 (h.valid i hi.1) (h.refs i)
    (fun j => hlru ▸ h.mem j) (fun _ hx => by simp [hl] at hx) (fun _ _ => by rw [hd])
  exact ⟨s', hs', h', hb, hview, fun c => (hpin c).trans (pinned_same h hi), hd, hw, hlog⟩

theorem bwrite_spec (h : CacheOk g s) (hi : At s i a) (hl : (s.buf i).locked = true) :
    ∃ s', bwrite g i s = (.ok (), s') ∧ CacheOk g s' ∧
      s'.buf = Function.update s.buf i { s.buf i with dirty := false, valid := true } ∧
      (∀ c, view s' c = view s c) ∧ (∀ c, Pinned s' c ↔ c ≠ a ∧ Pinned s c) ∧
      s'.disk = Function.update s.disk a (s.buf i).data ∧
      s'.writes = s.writes ++ [(a, (s.buf i).data)] ∧ s'.log = s.log := by
  have hr : ¬ g.disksize ≤ (s.buf i).blockno := by
    have := h.range i a hi; rw [hi.2]; omega
  have hdev : (s.buf i).dev = 1 := hi.1
  obtain ⟨s', hs', hb, hd, hw, hlru, hlog⟩ : ∃ s', bwrite g i s = (.ok (), s') ∧
      s'.buf = Function.update s.buf i { s.buf i with dirty := false, valid := true } ∧
      s'.disk = Function.update s.disk a (s.buf i).data ∧
      s'.writes = s.writes ++ [(a, (s.buf i).data)] ∧ s'.lru = s.lru ∧ s'.log = s.log := by
    refine ⟨_, by simp [bwrite, iderw, setBuf, bind_apply, hl, hr, hdev]; rfl, ?_⟩
    simp [hi.2, hdev, hl]
  obtain ⟨h', hview, hpin⟩ := h.touch hi hb hi.1 hi.2 rfl (h.refs i) (fun j => hlru ▸ h.mem j)
    (fun _ hx => by simp [hl] at hx) (fun c hc => by rw [hd, update_of_ne hc])
  refine ⟨s', hs', h', hb, fun c => ?_, fun c => (hpin c).trans (by simp), hd, hw, hlog⟩
  rw [hview]
  by_cases hc : c = a
  · subst hc; rw [update_self, view_of_at h hi]
  · rw [update_of_ne hc]

theorem brelse_spec (h : CacheOk g s) (hi : At s i a) (hl : (s.buf i).locked = true)
    (hsync : (s.buf i).dirty = true ∨ (s.buf i).data = s.disk a) :
    ∃ s', brelse i s = (.ok (), s') ∧ CacheOk g s' ∧
      s'.buf = Function.update s.buf i { s.buf i with locked := false, refcnt := 0 } ∧
      (∀ c, view s' c = view s c) ∧ (∀ c, Pinned s' c ↔ Pinned s c) ∧
      s'.disk = s.disk ∧ s'.writes = s.writes ∧ s'.log = s.log := by
  have href : (s.buf i).refcnt = 1 := by have := h.refs i; rwa [hl] at this
  obtain ⟨s', hs', hb, hd, hw, hlru, hlog⟩ : ∃ s', brelse i s = (.ok (), s') ∧
      s'.buf = Function.update s.buf i { s.buf i with locked := false, refcnt := 0 } ∧
      s'.disk = s.disk ∧ s'.writes = s.writes ∧ s'.lru = i :: s.lru.erase i ∧ s'.log = s.log := by
    refine ⟨_, by simp [brelse, setBuf, bind_apply, hl, href]; rfl, ?_⟩
    simp
  have hmem : ∀ j, j ∈ i :: s.lru.erase i := by
    intro j
    by_cases hj : j = i
    · simp [hj]
    · exact List.mem_cons_of_mem _ ((List.mem_erase_of_ne hj).mpr (h.mem j))
  obtain ⟨h', hview, hpin⟩ := h.touch hi hb hi.1 hi.2 (h.valid i hi.1) rfl (hlru ▸ hmem)
    (fun hdt _ => by
      rcases hsync with hx | hx
      · exact absurd hx (by simpa using hdt)
      · rw [hd]; exact hx) (fun _ _ => by rw [hd])
  refine ⟨s', hs', h', hb, fun c => ?_, fun c => (hpin c).trans (pinned_same h hi), hd, hw, hlog⟩
  rw [hview]
  by_cases hc : c = a
  · subst hc; rw [update_self, view_of_at h hi]
  · rw [update_of_ne hc]

end Xv6.Disk

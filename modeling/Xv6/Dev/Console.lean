import Xv6.Schemes.Machine

/-! @src console.c | part:line editing | scheme:machine

  The input ring of the console. The indices are 32-bit counters that only matter modulo the size of
  the ring: `r ≤ w ≤ e` in the order of typing, at most a ring apart.

           r             w             e
      -----+-committed---+--being typed+-----
           + consoleread + erase stops + consoleintr

  `cons.lock` makes each character and each byte of a read one step. A log of the committed bytes
  and of who took which byte is kept for the statements. -/

namespace Xv6.Console
open Nat
open Schemes
open List
open Function
open Option (some)
open Prod (snd fst ext)
open BitVec (toNat_add toNat_sub eq_of_toNat_eq ofNat)

def INPUT_BUF : ℕ := 128

def ctrlD : UInt8 := 4

def newline : UInt8 := 10

def slot (i : BitVec 32) : Fin 128 := Fin.ofNat 128 i.toNat

/-- A `consoleread` under way: its number, what is left of the count, the count, and what is in the
  destination. -/
structure Read where
  id : ℕ
  n : ℕ
  target : ℕ
  dst : List UInt8

structure Input (P : Type) where
  buf : Fin 128 → UInt8
  r : BitVec 32
  w : BitVec 32
  e : BitVec 32
  reader : P → Option Read
  calls : ℕ
  committed : List UInt8
  taken : List (ℕ × UInt8)
  returned : List (ℕ × Option (List UInt8))

inductive Ev (P : Type) where
  | char (c : UInt8)
  | read (p : P) (n : ℤ)
  | take (p : P)
  | killed (p : P)

def bytes (buf : Fin 128 → UInt8) (i : BitVec 32) (n : ℕ) : List UInt8 :=
  (List.range n).map fun k => buf (slot (i + ofNat 32 k))

def killLine (buf : Fin 128 → UInt8) (w : BitVec 32) : ℕ → BitVec 32 → BitVec 32
  | 0, e => e
  | k + 1, e => if e ≠ w ∧ buf (slot (e - 1)) ≠ newline then killLine buf w k (e - 1) else e

variable {P : Type} [DecidableEq P]

namespace Input

def commit (x : Input P) : Input P :=
  { x with w := x.e, committed := x.committed ++ bytes x.buf x.w (x.e - x.w).toNat }

/-- An ordinary character is stored, and commits the line at its end or when the ring is full. -/
def store (x : Input P) (c : UInt8) : Input P :=
  let y := { x with buf := update x.buf (slot x.e) c, e := x.e + 1 }
  if c = newline ∨ c = ctrlD ∨ y.e = y.r + ofNat 32 INPUT_BUF then y.commit else y

/-- A character from the keyboard. -/
def consoleintr (x : Input P) (c : UInt8) : Input P :=
  if c = 0x10 then x
  else if c = 0x15 then { x with e := killLine x.buf x.w (x.e - x.w).toNat x.e }
  else if c = 0x08 ∨ c = 0x7f then { x with e := if x.e ≠ x.w then x.e - 1 else x.e }
  else if c ≠ 0 ∧ (x.e - x.r).toNat < INPUT_BUF then x.store (if c = 13 then newline else c)
  else x

def finish (x : Input P) (p : P) (id : ℕ) (o : Option (List UInt8)) : Input P :=
  { x with reader := update x.reader p none, returned := x.returned ++ [(id, o)] }

def pop (x : Input P) (id : ℕ) (c : UInt8) : Input P :=
  { x with r := x.r + 1, taken := x.taken ++ [(id, c)] }

/-- A turn of the loop of `consoleread`. -/
def take (x : Input P) (p : P) (d : Read) : Input P :=
  let c := x.buf (slot x.r)
  if c = ctrlD then
    -- kept for the next read, unless this one has nothing
    if d.n < d.target then x.finish p d.id (some d.dst)
    else (x.pop d.id c).finish p d.id (some d.dst)
  else
    let y := x.pop d.id c
    if c = newline ∨ d.n - 1 = 0 then y.finish p d.id (some (d.dst ++ [c]))
    else { y with
      reader := update y.reader p (some { d with n := d.n - 1, dst := d.dst ++ [c] }) }

def step (x : Input P) : Ev P → Option (Input P)
  | .char c => some (x.consoleintr c)
  | .read p n =>
    match x.reader p with
    | none =>
      if n > 0 then
        some { x with
          reader := update x.reader p (some ⟨x.calls, n.toNat, n.toNat, []⟩)
          calls := x.calls + 1 }
      else some { x with calls := x.calls + 1, returned := x.returned ++ [(x.calls, some [])] }
    | some _ => none
  | .take p =>
    match x.reader p with
    | some d => if x.r ≠ x.w then some (x.take p d) else none
    | none => none
  | .killed p =>
    match x.reader p with
    | some d => if x.r = x.w then some (x.finish p d.id none) else none
    | none => none

def pending (x : Input P) : List UInt8 := bytes x.buf x.r (x.w - x.r).toNat

/-- The line being typed. -/
def typed (x : Input P) : List UInt8 := bytes x.buf x.w (x.e - x.w).toNat

/-- The bytes that the read with number `id` has taken out of the ring. -/
def takenBy (x : Input P) (id : ℕ) : List UInt8 :=
  (x.taken.filter fun t => t.1 = id).map snd

end Input

/-- The line editor on lists, with `held` bytes in the ring: the committed bytes and the line being
  typed after the character `c`. -/
def edit (held : ℕ) (committed line : List UInt8) (c : UInt8) : List UInt8 × List UInt8 :=
  if c = 0x10 then (committed, line)
  else if c = 0x15 then (committed, [])
  else if c = 0x08 ∨ c = 0x7f then (committed, line.dropLast)
  else if c ≠ 0 ∧ held < INPUT_BUF then
    let d := if c = 13 then newline else c
    if d = newline ∨ d = ctrlD ∨ held + 1 = INPUT_BUF then (committed ++ (line ++ [d]), [])
    else (committed, line ++ [d])
  else (committed, line)

/-! ### The ring -/

theorem slot_add (i : BitVec 32) (k : ℕ) :
    slot (i + ofNat 32 k) = Fin.ofNat 128 (i.toNat + k) := by
  apply Fin.ext
  simp only [slot, Fin.ofNat, toNat_add, BitVec.toNat_ofNat]
  omega

theorem slot_ne {i : BitVec 32} {j k : ℕ} (hj : j < k) (hk : k < j + 128) :
    slot (i + ofNat 32 j) ≠ slot (i + ofNat 32 k) := by
  rw [slot_add, slot_add]
  intro h
  have := congrArg Fin.val h
  simp only [Fin.ofNat] at this
  omega

theorem succ_add (i : BitVec 32) (k : ℕ) :
    i + 1 + ofNat 32 k = i + ofNat 32 (k + 1) := by
  rw [BitVec.add_assoc, add_comm k 1, BitVec.ofNat_add]
  rfl

theorem bytes_succ (buf : Fin 128 → UInt8) (i : BitVec 32) (n : ℕ) :
    bytes buf i (n + 1) = buf (slot i) :: bytes buf (i + 1) n := by
  simp only [bytes, range_succ_eq_map, map_cons, map_map, comp_def,
    succ_eq_add_one, succ_add]
  simp

theorem bytes_add (buf : Fin 128 → UInt8) : ∀ (m n : ℕ) (i : BitVec 32),
    bytes buf i (m + n) = bytes buf i m ++ bytes buf (i + ofNat 32 m) n
  | 0, n, i => by simp [bytes]
  | m + 1, n, i => by
    rw [add_right_comm, bytes_succ, bytes_succ, bytes_add buf m n (i + 1), succ_add,
      cons_append]

theorem add_distance (i j : BitVec 32) : i + ofNat 32 (j - i).toNat = j := by
  rw [BitVec.ofNat_toNat, BitVec.setWidth_eq, BitVec.add_comm, BitVec.sub_add_cancel]

theorem bytes_store (buf : Fin 128 → UInt8) {i j : BitVec 32} (c : UInt8) {n : ℕ}
    (hn : n ≤ (j - i).toNat) (hj : (j - i).toNat < 128) :
    bytes (update buf (slot j) c) i n = bytes buf i n := by
  refine map_congr_left fun k hk => ?_
  have hk : k < n := mem_range.mp hk
  have hne := slot_ne (i := i) (j := k) (k := (j - i).toNat) (by omega) (by omega)
  rw [add_distance] at hne
  exact update_of_ne hne _ _

structure Between (r w e : BitVec 32) : Prop where
  low : (w - r).toNat ≤ (e - r).toNat
  high : (e - r).toNat ≤ INPUT_BUF

variable {r w e : BitVec 32}

theorem Between.split (h : Between r w e) : (w - r).toNat + (e - w).toNat = (e - r).toNat := by
  obtain ⟨hl, hh⟩ := h
  simp only [toNat_sub, INPUT_BUF] at *
  omega

theorem Between.pred (h : Between r w e) (hne : e ≠ w) : Between r w (e - 1) := by
  obtain ⟨hl, hh⟩ := h
  have hne : e.toNat ≠ w.toNat := fun heq => hne (eq_of_toNat_eq heq)
  have h1 : (1 : BitVec 32).toNat = 1 := rfl
  constructor <;> simp only [toNat_sub, INPUT_BUF, h1] at * <;> omega

theorem Between.succ (h : Between r w e) (hlt : (e - r).toNat < INPUT_BUF) :
    Between r w (e + 1) ∧ (e + 1 - r).toNat = (e - r).toNat + 1 := by
  obtain ⟨hl, hh⟩ := h
  have h1 : (1 : BitVec 32).toNat = 1 := rfl
  refine ⟨⟨?_, ?_⟩, ?_⟩ <;>
    simp only [toNat_sub, toNat_add, INPUT_BUF, h1] at * <;> omega

theorem Between.next (h : Between r w e) (hne : r ≠ w) :
    Between (r + 1) w e ∧ (w - r).toNat = (w - (r + 1)).toNat + 1 := by
  obtain ⟨hl, hh⟩ := h
  have hne : r.toNat ≠ w.toNat := fun heq => hne (eq_of_toNat_eq heq)
  have h1 : (1 : BitVec 32).toNat = 1 := rfl
  refine ⟨⟨?_, ?_⟩, ?_⟩ <;>
    simp only [toNat_sub, toNat_add, INPUT_BUF, h1] at * <;> omega

theorem Between.killLine {buf : Fin 128 → UInt8} : ∀ {e : BitVec 32} (k : ℕ), Between r w e →
    Between r w (killLine buf w k e)
  | _, 0, h => h
  | e, k + 1, h => by
    unfold Console.killLine
    split_ifs with hc
    · exact (h.pred hc.1).killLine k
    · exact h

/-! ### Characters -/

omit [DecidableEq P] in
/-- What a character can do: nothing, move the end of the line being typed within it, or store and
  perhaps commit. -/
theorem consoleintr_cases (x : Input P) (c : UInt8) (h : Between x.r x.w x.e) :
    (∃ e', Between x.r x.w e' ∧ x.consoleintr c = { x with e := e' }) ∨
    (c ≠ 0x15 ∧ c ≠ 0x08 ∧ c ≠ 0x7f ∧ (x.e - x.r).toNat < INPUT_BUF ∧
      ∃ d, x.consoleintr c = x.store d) := by
  have hstore : ¬ c = 0x15 → ¬ (c = 0x08 ∨ c = 0x7f) → c ≠ 0 ∧ (x.e - x.r).toNat < INPUT_BUF →
      c ≠ 0x15 ∧ c ≠ 0x08 ∧ c ≠ 0x7f ∧ (x.e - x.r).toNat < INPUT_BUF := fun hu hb hs =>
    ⟨hu, fun hc => hb (.inl hc), fun hc => hb (.inr hc), hs.2⟩
  unfold Input.consoleintr
  split_ifs with hp hu hb he hs hr
  · exact .inl ⟨x.e, h, rfl⟩
  · exact .inl ⟨_, h.killLine _, rfl⟩
  · exact .inl ⟨_, h.pred he, rfl⟩
  · exact .inl ⟨x.e, h, rfl⟩
  · obtain ⟨h₁, h2, h3, h4⟩ := hstore hu hb hs
    exact .inr ⟨h₁, h2, h3, h4, _, rfl⟩
  · obtain ⟨h₁, h2, h3, h4⟩ := hstore hu hb hs
    exact .inr ⟨h₁, h2, h3, h4, _, rfl⟩
  · exact .inl ⟨x.e, h, rfl⟩

/-- The ring: indices in order, and the committed bytes are the taken ones and the pending ones. -/
structure Flows (x : Input P) : Prop where
  between : Between x.r x.w x.e
  flow : x.committed = x.taken.map snd ++ x.pending

section
omit [DecidableEq P]

theorem Flows.store {x : Input P} (h : Flows x) (hlt : (x.e - x.r).toNat < INPUT_BUF) (c : UInt8) :
    Flows (x.store c) := by
  obtain ⟨hnext, hlen⟩ := h.between.succ hlt
  have hkeep : bytes (update x.buf (slot x.e) c) x.r (x.w - x.r).toNat = x.pending :=
    bytes_store x.buf c h.between.low hlt
  unfold Input.store
  dsimp only
  split_ifs with hc
  · refine ⟨⟨le_rfl, hnext.high⟩, ?_⟩
    -- the committed line is what follows the pending bytes in the ring
    simp only [Input.commit, Input.pending]
    rw [← hnext.split, bytes_add, add_distance, hkeep, h.flow, append_assoc]
  · exact ⟨hnext, by rw [Input.pending, hkeep]; exact h.flow⟩

theorem Flows.char {x : Input P} (h : Flows x) (c : UInt8) : Flows (x.consoleintr c) := by
  rcases consoleintr_cases x c h.between with ⟨e', he, hx⟩ | ⟨_, _, _, hlt, d, hx⟩
  · rw [hx]
    exact ⟨he, h.flow⟩
  · rw [hx]
    exact h.store hlt d

theorem Flows.pop {x : Input P} (h : Flows x) (hne : x.r ≠ x.w) (id : ℕ) :
    Flows (x.pop id (x.buf (slot x.r))) := by
  obtain ⟨hnext, hlen⟩ := h.between.next hne
  refine ⟨hnext, ?_⟩
  have hpending : x.pending =
      x.buf (slot x.r) :: bytes x.buf (x.r + 1) (x.w - (x.r + 1)).toNat := by
    rw [Input.pending, hlen, bytes_succ]
  simp only [Input.pop, Input.pending, map_append, map_cons, map_nil,
    append_assoc, singleton_append]
  rw [h.flow, hpending]

end

/-! ### The line editor -/

theorem bytes_pred (buf : Fin 128 → UInt8) (hne : e ≠ w) :
    (e - w).toNat = (e - 1 - w).toNat + 1 ∧
      bytes buf w (e - w).toNat = bytes buf w (e - 1 - w).toNat ++ [buf (slot (e - 1))] := by
  have hlen : (e - w).toNat = (e - 1 - w).toNat + 1 := by
    have hne : e.toNat ≠ w.toNat := fun heq => hne (eq_of_toNat_eq heq)
    have h1 : (1 : BitVec 32).toNat = 1 := rfl
    simp only [toNat_sub, h1]
    omega
  refine ⟨hlen, ?_⟩
  rw [hlen, bytes_add, add_distance]
  simp [bytes]

/-- Without a newline in it, the whole line being typed is killed. -/
theorem killLine_eq {buf : Fin 128 → UInt8} (k : ℕ) : ∀ e : BitVec 32,
    (e - w).toNat = k → newline ∉ bytes buf w k → killLine buf w k e = w := by
  induction k with
  | zero =>
    intro e h _
    have := add_distance w e
    rw [h] at this
    simpa [killLine] using this.symm
  | succ k ih =>
    intro e h hn
    have hne : e ≠ w := by
      rintro rfl
      simp at h
    obtain ⟨hlen, hb⟩ := bytes_pred buf hne
    rw [h] at hlen hb
    rw [← Nat.succ.inj hlen] at hb
    rw [hb, mem_append, not_or, mem_singleton] at hn
    rw [killLine, if_pos ⟨hne, Ne.symm hn.2⟩]
    exact ih (e - 1) (Nat.succ.inj hlen).symm hn.1

section
omit [DecidableEq P]
variable {x : Input P}

theorem store_eq (h : Between x.r x.w x.e) (hlt : (x.e - x.r).toNat < INPUT_BUF) (d : UInt8) :
    ((x.store d).committed, (x.store d).typed) =
      if d = newline ∨ d = ctrlD ∨ (x.e - x.r).toNat + 1 = INPUT_BUF then
        (x.committed ++ (x.typed ++ [d]), [])
      else (x.committed, x.typed ++ [d]) := by
  obtain ⟨hnext, hlen⟩ := h.succ hlt
  have htyped : bytes (update x.buf (slot x.e) d) x.w (x.e + 1 - x.w).toNat = x.typed ++ [d] := by
    have hne : x.e + 1 ≠ x.w := fun heq => by
      have := h.low
      rw [heq] at hlen
      omega
    have hle : (x.e - x.w).toNat < 128 := (Nat.le_add_left ..).trans_lt (h.split ▸ hlt)
    rw [(bytes_pred _ hne).2, BitVec.add_sub_cancel, update_self, bytes_store x.buf d le_rfl hle]
    rfl
  have hfull : x.e + 1 = x.r + ofNat 32 INPUT_BUF ↔ (x.e - x.r).toNat + 1 = INPUT_BUF := by
    rw [← hlen]
    constructor
    · intro heq
      rw [heq, BitVec.add_comm, BitVec.add_sub_cancel]
      rfl
    · intro heq
      rw [← heq, add_distance]
  simp only [Input.store, hfull]
  split_ifs
  · simp only [Input.commit, Input.typed, BitVec.sub_self, htyped]
    rfl
  · exact ext rfl htyped

/-- A character does to the ring what it does to the two lists. -/
theorem consoleintr_eq (h : Between x.r x.w x.e) (hn : newline ∉ x.typed) (c : UInt8) :
    ((x.consoleintr c).committed, (x.consoleintr c).typed) =
      edit (x.e - x.r).toNat x.committed x.typed c := by
  unfold Input.consoleintr edit
  by_cases hp : c = 0x10
  · rw [if_pos hp, if_pos hp]
  rw [if_neg hp, if_neg hp]
  by_cases hu : c = 0x15
  · rw [if_pos hu, if_pos hu]
    simp only [Input.typed, killLine_eq _ x.e rfl hn, BitVec.sub_self]
    rfl
  rw [if_neg hu, if_neg hu]
  by_cases hb : c = 0x08 ∨ c = 0x7f
  · rw [if_pos hb, if_pos hb]
    by_cases he : x.e = x.w
    · simp only [Input.typed, he, ne_eq, not_true_eq_false, if_false, BitVec.sub_self]
      rfl
    · simp only [Input.typed, if_pos he, (bytes_pred x.buf he).2, dropLast_concat]
  rw [if_neg hb, if_neg hb]
  by_cases hs : c ≠ 0 ∧ (x.e - x.r).toNat < INPUT_BUF
  · rw [if_pos hs, if_pos hs]
    exact store_eq h hs.2 _
  · rw [if_neg hs, if_neg hs]

theorem newline_notMem_edit {held : ℕ} {done line : List UInt8} (hn : newline ∉ line) (c : UInt8) :
    newline ∉ (edit held done line c).2 := by
  unfold edit
  dsimp only
  split_ifs with hp hu hb hs hc hd hd
  · exact hn
  · exact not_mem_nil
  · exact fun hm => hn (mem_of_mem_dropLast hm)
  · exact not_mem_nil
  · exact absurd (.inl rfl) hd
  · exact not_mem_nil
  · rw [mem_append, mem_singleton, not_or]
    exact ⟨hn, fun heq => hd (.inl heq.symm)⟩
  · exact hn

end

/-! ### Reads -/

structure Reads (x : Input P) : Prop where
  ids : ∀ t ∈ x.taken, t.1 < x.calls
  live : ∀ p d, x.reader p = some d → d.id < x.calls ∧ x.takenBy d.id = d.dst ∧
    d.dst.length + d.n = d.target ∧ 0 < d.n ∧ ctrlD ∉ d.dst
  apart : ∀ p q d d', x.reader p = some d → x.reader q = some d' → d.id = d'.id → p = q
  closed : ∀ t ∈ x.returned, t.1 < x.calls ∧ ∀ p d, x.reader p = some d → d.id ≠ t.1
  once : (x.returned.map fst).Nodup
  result : ∀ id l, (id, some l) ∈ x.returned →
    ctrlD ∉ l ∧ (x.takenBy id = l ∨ l = [] ∧ x.takenBy id = [ctrlD])
  eof : ∀ id, (id, ctrlD) ∈ x.taken → (id, some []) ∈ x.returned
  accounted : ∀ id, id < x.calls → (∃ p d, x.reader p = some d ∧ d.id = id) ∨
    ∃ o, (id, o) ∈ x.returned

variable {x y : Input P} {p : P} {d : Read}

section
omit [DecidableEq P]

/-- The bookkeeping does not look at the ring. -/
theorem Reads.congr (h : Reads x) (hr : y.reader = x.reader) (hc : y.calls = x.calls)
    (ht : y.taken = x.taken) (hd : y.returned = x.returned) : Reads y := by
  have hby : ∀ id, y.takenBy id = x.takenBy id := fun id => by
    rw [Input.takenBy, ht, Input.takenBy]
  refine ⟨?_, ?_, ?_, ?_, ?_, ?_, ?_, ?_⟩
  · rw [ht, hc]; exact h.ids
  · simp only [hr, hc, hby]; exact h.live
  · rw [hr]; exact h.apart
  · rw [hd, hc, hr]; exact h.closed
  · rw [hd]; exact h.once
  · simp only [hd, hby]; exact h.result
  · rw [ht, hd]; exact h.eof
  · rw [hc, hr, hd]; exact h.accounted

/-- The next call has taken nothing. -/
theorem Reads.untaken (h : Reads x) : x.takenBy x.calls = [] := by
  simp only [Input.takenBy, map_eq_nil_iff, filter_eq_nil_iff, decide_eq_true_eq]
  intro t ht heq
  have := h.ids t ht
  omega

theorem takenBy_pop (x : Input P) (id id' : ℕ) (c : UInt8) :
    (x.pop id c).takenBy id' = if id = id' then x.takenBy id' ++ [c] else x.takenBy id' := by
  simp only [Input.takenBy, Input.pop, filter_append, map_append]
  split_ifs with h
  · simp [h]
  · simp [h]

end

theorem Reads.finish {o : Option (List UInt8)} (h : Reads x) (hd : x.reader p = some d)
    (ho : ∀ l, o = some l → l = d.dst) : Reads (x.finish p d.id o) := by
  obtain ⟨hid, hby, -, -, hno⟩ := h.live p d hd
  have hreader : ∀ {q d'}, (x.finish p d.id o).reader q = some d' →
      q ≠ p ∧ x.reader q = some d' := by
    intro q d' hq
    rcases eq_or_ne q p with rfl | hqp
    · simp [Input.finish] at hq
    · exact ⟨hqp, by simpa [Input.finish, hqp] using hq⟩
  have hfresh : d.id ∉ x.returned.map fst := by
    intro hm
    obtain ⟨t, ht, heq⟩ := mem_map.mp hm
    exact (h.closed t ht).2 p d hd heq.symm
  refine ⟨h.ids, fun q d' hq => h.live q d' (hreader hq).2, fun q q' d' d'' hq hq' =>
    h.apart q q' d' d'' (hreader hq).2 (hreader hq').2, ?_, ?_, ?_, ?_, ?_⟩
  · intro t ht
    rcases mem_append.mp ht with ht | ht
    · exact ⟨(h.closed t ht).1, fun q d' hq => (h.closed t ht).2 q d' (hreader hq).2⟩
    · rw [mem_singleton] at ht
      subst ht
      refine ⟨hid, fun q d' hq heq => ?_⟩
      obtain ⟨hqp, hq⟩ := hreader hq
      exact hqp (h.apart q p d' d hq hd heq)
  · simp only [Input.finish, map_append, map_cons, map_nil]
    refine nodup_append.mpr ⟨h.once, nodup_singleton _, fun a ha b hb hab => ?_⟩
    rw [mem_singleton] at hb
    exact hfresh (hb ▸ hab ▸ ha)
  · intro id l hl
    rcases mem_append.mp hl with hl | hl
    · exact h.result id l hl
    · rw [mem_singleton, Prod.mk.injEq] at hl
      obtain ⟨rfl, rfl⟩ := hl
      rw [ho l rfl]
      exact ⟨hno, .inl hby⟩
  · exact fun id hid => mem_append_left _ (h.eof id hid)
  · intro id hlt
    rcases h.accounted id hlt with ⟨q, d', hq, heq⟩ | ⟨o', ho'⟩
    · rcases eq_or_ne q p with rfl | hqp
      · rw [hd, some.injEq] at hq
        subst hq
        exact .inr ⟨o, mem_append_right _ (by simp [heq])⟩
      · exact .inl ⟨q, d', by simpa [Input.finish, hqp] using hq, heq⟩
    · exact .inr ⟨o', mem_append_left _ ho'⟩

theorem Reads.byte {c : UInt8} {n t : ℕ} (h : Reads x) (hd : x.reader p = some d) (hc : c ≠ ctrlD)
    (hn : 0 < n) (ht : d.dst.length + 1 + n = t) : Reads { x.pop d.id c with
      reader := update x.reader p (some ⟨d.id, n, t, d.dst ++ [c]⟩) } := by
  obtain ⟨hid, hby, -, -, hno⟩ := h.live p d hd
  set y : Input P := { x.pop d.id c with
    reader := update x.reader p (some ⟨d.id, n, t, d.dst ++ [c]⟩) } with hy
  have htaken : ∀ id, y.takenBy id = if d.id = id then x.takenBy id ++ [c] else x.takenBy id :=
    fun id => takenBy_pop x d.id id c
  -- every reader is one of before, with the same number
  have hreader : ∀ {q d'}, y.reader q = some d' → (q = p ∧ d' = ⟨d.id, n, t, d.dst ++ [c]⟩) ∨
      (q ≠ p ∧ x.reader q = some d') := by
    intro q d' hq
    rcases eq_or_ne q p with rfl | hqp
    · exact .inl ⟨rfl, by simpa [hy, eq_comm] using hq⟩
    · exact .inr ⟨hqp, by simpa [hy, hqp] using hq⟩
  have hold : ∀ {q d'}, y.reader q = some d' → ∃ d'', x.reader q = some d'' ∧ d''.id = d'.id := by
    intro q d' hq
    rcases hreader hq with ⟨rfl, rfl⟩ | ⟨_, hq⟩
    · exact ⟨d, hd, rfl⟩
    · exact ⟨d', hq, rfl⟩
  refine ⟨?_, ?_, ?_, ?_, h.once, ?_, ?_, ?_⟩
  · intro t ht
    rcases mem_append.mp ht with ht | ht
    · exact h.ids t ht
    · rw [mem_singleton] at ht
      subst ht
      exact hid
  · intro q d' hq
    rcases hreader hq with ⟨rfl, rfl⟩ | ⟨hqp, hq⟩
    · refine ⟨hid, ?_, ?_, hn, ?_⟩
      · rw [htaken, if_pos rfl, hby]
      · rw [length_append, length_singleton, ht]
      · rw [mem_append, mem_singleton, not_or]
        exact ⟨hno, hc.symm⟩
    · obtain ⟨hid', hby', hrest⟩ := h.live q d' hq
      have hne : d.id ≠ d'.id := fun heq => hqp (h.apart q p d' d hq hd heq.symm)
      exact ⟨hid', by rw [htaken, if_neg hne, hby'], hrest⟩
  · intro q q' d1 d2 hq hq' heq
    obtain ⟨e1, he1, h₁⟩ := hold hq
    obtain ⟨e2, he2, h2⟩ := hold hq'
    exact h.apart q q' e1 e2 he1 he2 (by rw [h₁, h2, heq])
  · intro t ht
    obtain ⟨hlt, hnot⟩ := h.closed t ht
    refine ⟨hlt, fun q d' hq => ?_⟩
    obtain ⟨e1, he1, h₁⟩ := hold hq
    rw [← h₁]
    exact hnot q e1 he1
  · intro id l hl
    have hne : d.id ≠ id := (h.closed (id, some l) hl).2 p d hd
    rw [htaken, if_neg hne]
    exact h.result id l hl
  · intro id hmem
    rcases mem_append.mp hmem with hmem | hmem
    · exact h.eof id hmem
    · rw [mem_singleton, Prod.mk.injEq] at hmem
      exact absurd hmem.2.symm hc
  · intro id hlt
    rcases h.accounted id hlt with ⟨q, d', hq, heq⟩ | hr
    · rcases eq_or_ne q p with rfl | hqp
      · rw [hd, some.injEq] at hq
        subst hq
        exact .inl ⟨q, _, update_self .., heq⟩
      · exact .inl ⟨q, d', by simpa [hy, hqp] using hq, heq⟩
    · exact .inr hr

theorem Reads.endOfInput (h : Reads x) (hd : x.reader p = some d) (hnil : d.dst = []) :
    Reads ((x.pop d.id ctrlD).finish p d.id (some [])) := by
  have hby : x.takenBy d.id = [] := (h.live p d hd).2.1.trans hnil
  have hfin := h.finish (o := some []) hd (by rintro l ⟨⟩; exact hnil.symm)
  set y := (x.pop d.id ctrlD).finish p d.id (some []) with hy
  have htaken : ∀ id, y.takenBy id = if d.id = id then x.takenBy id ++ [ctrlD] else x.takenBy id :=
    fun id => takenBy_pop x d.id id ctrlD
  refine ⟨?_, ?_, hfin.apart, hfin.closed, hfin.once, ?_, ?_, hfin.accounted⟩
  · intro t ht
    rcases mem_append.mp ht with ht | ht
    · exact h.ids t ht
    · rw [mem_singleton] at ht
      subst ht
      exact (h.live p d hd).1
  · intro q d' hq
    obtain ⟨hid, hby', hrest⟩ := hfin.live q d' hq
    have hne : d.id ≠ d'.id := fun heq =>
      (hfin.closed (d.id, some []) (mem_append_right _ (by simp))).2 q d' hq heq.symm
    exact ⟨hid, by rw [htaken, if_neg hne]; exact hby', hrest⟩
  · intro id l hl
    by_cases hid : d.id = id
    · subst hid
      have hl' : l = [] := by
        rcases mem_append.mp hl with hl | hl
        · exact absurd rfl ((h.closed _ hl).2 p d hd)
        · simpa using hl
      rw [htaken, if_pos rfl, hby, hl']
      exact ⟨by simp, .inr ⟨rfl, rfl⟩⟩
    · rw [htaken, if_neg hid]
      exact hfin.result id l hl
  · intro id hmem
    rcases mem_append.mp hmem with hmem | hmem
    · exact hfin.eof id hmem
    · rw [mem_singleton, Prod.mk.injEq] at hmem
      rw [hmem.1]
      exact mem_append_right _ (by simp)

theorem Reads.lastByte {c : UInt8} (h : Reads x) (hd : x.reader p = some d) (hc : c ≠ ctrlD) :
    Reads ((x.pop d.id c).finish p d.id (some (d.dst ++ [c]))) := by
  -- as if one more byte were asked for, and then no more
  have hbyte := h.byte (n := 1) hd hc one_pos rfl
  have hfin := hbyte.finish (p := p) (d := ⟨d.id, 1, _, d.dst ++ [c]⟩) (o := some (d.dst ++ [c]))
    (update_self ..) (by rintro l ⟨⟩; rfl)
  exact hfin.congr (by simp [Input.finish, Input.pop]) rfl rfl rfl

theorem Reads.take (h : Reads x) (hd : x.reader p = some d) : Reads (x.take p d) := by
  obtain ⟨-, -, hlen, hpos, -⟩ := h.live p d hd
  unfold Input.take
  dsimp only
  split_ifs with hc hlt hend
  · exact h.finish hd (by rintro l ⟨⟩; rfl)
  · have hnil : d.dst = [] := length_eq_zero_iff.mp (by omega)
    rw [hc, hnil]
    exact h.endOfInput hd hnil
  · exact h.lastByte hd hc
  · exact h.byte hd hc (by omega) (by omega)

theorem Reads.read (h : Reads x) (hp : x.reader p = none) {n : ℕ} (hn : 0 < n) : Reads { x with
    reader := update x.reader p (some ⟨x.calls, n, n, []⟩)
    calls := x.calls + 1 } := by
  have hreader : ∀ {q d'}, update x.reader p (some ⟨x.calls, n, n, []⟩) q = some d' →
      (q = p ∧ d' = ⟨x.calls, n, n, []⟩) ∨ (q ≠ p ∧ x.reader q = some d') := by
    intro q d' hq
    rcases eq_or_ne q p with rfl | hqp
    · exact .inl ⟨rfl, by simpa [eq_comm] using hq⟩
    · exact .inr ⟨hqp, by simpa [hqp] using hq⟩
  refine ⟨fun t ht => lt_succ_of_lt (h.ids t ht), ?_, ?_, ?_, h.once, h.result, h.eof, ?_⟩
  · intro q d' hq
    rcases hreader hq with ⟨rfl, rfl⟩ | ⟨_, hq⟩
    · exact ⟨lt_succ_self _, h.untaken, by simp, hn, by simp⟩
    · obtain ⟨hid, hrest⟩ := h.live q d' hq
      exact ⟨lt_succ_of_lt hid, hrest⟩
  · intro q q' d1 d2 hq hq' heq
    rcases hreader hq with ⟨rfl, rfl⟩ | ⟨hqp, hq⟩
    · rcases hreader hq' with ⟨rfl, _⟩ | ⟨_, hq'⟩
      · rfl
      · exact absurd heq.symm (h.live q' d2 hq').1.ne
    · rcases hreader hq' with ⟨_, rfl⟩ | ⟨_, hq'⟩
      · exact absurd heq (h.live q d1 hq).1.ne
      · exact h.apart q q' d1 d2 hq hq' heq
  · intro t ht
    obtain ⟨hlt, hnot⟩ := h.closed t ht
    refine ⟨lt_succ_of_lt hlt, fun q d' hq => ?_⟩
    rcases hreader hq with ⟨_, rfl⟩ | ⟨_, hq⟩
    · exact hlt.ne'
    · exact hnot q d' hq
  · intro id hid
    rcases Nat.lt_succ_iff_lt_or_eq.mp hid with hlt | rfl
    · rcases h.accounted id hlt with ⟨q, d', hq, heq⟩ | hr
      · have hqp : q ≠ p := by
          rintro rfl
          rw [hp] at hq
          cases hq
        exact .inl ⟨q, d', by simpa [hqp] using hq, heq⟩
      · exact .inr hr
    · exact .inl ⟨p, _, update_self .., rfl⟩

omit [DecidableEq P] in
/-- A read for no bytes returns at once. -/
theorem Reads.empty (h : Reads x) :
    Reads { x with calls := x.calls + 1, returned := x.returned ++ [(x.calls, some [])] } := by
  refine ⟨fun t ht => lt_succ_of_lt (h.ids t ht), fun q d' hq => ?_, h.apart, ?_, ?_, ?_,
    fun id hid => mem_append_left _ (h.eof id hid), ?_⟩
  · obtain ⟨hid, hrest⟩ := h.live q d' hq
    exact ⟨lt_succ_of_lt hid, hrest⟩
  · intro t ht
    rcases mem_append.mp ht with ht | ht
    · exact ⟨lt_succ_of_lt (h.closed t ht).1, (h.closed t ht).2⟩
    · rw [mem_singleton] at ht
      subst ht
      exact ⟨lt_succ_self _, fun q d' hq => (h.live q d' hq).1.ne⟩
  · simp only [map_append, map_cons, map_nil]
    refine nodup_append.mpr ⟨h.once, nodup_singleton _, fun a ha b hb hab => ?_⟩
    rw [mem_singleton] at hb
    obtain ⟨t, ht, heq⟩ := mem_map.mp ha
    have := (h.closed t ht).1
    omega
  · intro id l hl
    rcases mem_append.mp hl with hl | hl
    · exact h.result id l hl
    · simp only [mem_singleton, Prod.mk.injEq, some.injEq] at hl
      obtain ⟨rfl, rfl⟩ := hl
      exact ⟨by simp, .inl h.untaken⟩
  · intro k hk
    rcases Nat.lt_succ_iff_lt_or_eq.mp hk with hlt | rfl
    · exact (h.accounted k hlt).imp id fun ⟨o, ho⟩ => ⟨o, mem_append_left _ ho⟩
    · exact .inr ⟨some [], mem_append_right _ (by simp)⟩

/-! ### Whole runs -/

structure Inv (x : Input P) : Prop where
  flows : Flows x
  reads : Reads x

theorem Flows.take (h : Flows x) (hne : x.r ≠ x.w) (p : P) (d : Read) : Flows (x.take p d) := by
  have hpop := h.pop hne d.id
  unfold Input.take
  dsimp only
  split_ifs
  · exact ⟨h.between, h.flow⟩
  · exact ⟨hpop.between, hpop.flow⟩
  · exact ⟨hpop.between, hpop.flow⟩
  · exact ⟨hpop.between, hpop.flow⟩

omit [DecidableEq P] in
theorem Reads.char (h : Reads x) (hb : Between x.r x.w x.e) (c : UInt8) :
    Reads (x.consoleintr c) := by
  rcases consoleintr_cases x c hb with ⟨e', _, hx⟩ | ⟨_, _, _, _, d, hx⟩
  · rw [hx]
    exact h.congr rfl rfl rfl rfl
  · rw [hx]
    unfold Input.store
    dsimp only
    split_ifs
    · exact h.congr rfl rfl rfl rfl
    · exact h.congr rfl rfl rfl rfl

theorem Inv.step {e : Ev P} (h : Inv x) (hs : x.step e = some y) : Inv y := by
  cases e with
  | char c =>
    cases hs
    exact ⟨h.flows.char c, h.reads.char h.flows.between c⟩
  | read p n =>
    simp only [Input.step] at hs
    split at hs
    · rename_i hp
      split_ifs at hs with hn
      · cases hs
        exact ⟨⟨h.flows.between, h.flows.flow⟩, h.reads.read hp (by omega)⟩
      · cases hs
        exact ⟨⟨h.flows.between, h.flows.flow⟩, h.reads.empty⟩
    · cases hs
  | take p =>
    simp only [Input.step] at hs
    split at hs
    · rename_i d hd
      split_ifs at hs with hne
      cases hs
      exact ⟨h.flows.take hne p d, h.reads.take hd⟩
    · cases hs
  | killed p =>
    simp only [Input.step] at hs
    split at hs
    · rename_i d hd
      split_ifs at hs with hne
      cases hs
      exact ⟨⟨h.flows.between, h.flows.flow⟩, h.reads.finish hd (by simp)⟩
    · cases hs

/-- The reads leave the line being typed and the log of the committed bytes alone. -/
theorem step_line {e : Ev P} (he : ∀ c, e ≠ .char c) (hs : x.step e = some y) :
    y.committed = x.committed ∧ y.typed = x.typed := by
  cases e with
  | char c => exact absurd rfl (he c)
  | read p n =>
    simp only [Input.step] at hs
    split at hs
    · split_ifs at hs <;> cases hs <;> exact ⟨rfl, rfl⟩
    · cases hs
  | take p =>
    simp only [Input.step] at hs
    split at hs
    · split_ifs at hs with hne
      cases hs
      unfold Input.take
      dsimp only
      split_ifs <;> exact ⟨rfl, rfl⟩
    · cases hs
  | killed p =>
    simp only [Input.step] at hs
    split at hs
    · split_ifs at hs
      cases hs
      exact ⟨rfl, rfl⟩
    · cases hs

def boot (P : Type) : Input P :=
  ⟨fun _ => 0, 0, 0, 0, fun _ => none, 0, [], [], []⟩

omit [DecidableEq P] in
theorem inv_boot : Inv (boot P) := by
  refine ⟨⟨⟨le_rfl, by simp [boot]⟩, by simp [boot, Input.pending, bytes]⟩, ?_⟩
  constructor <;> simp [boot]

/-- The console delivers exactly the edited lines. In every run: the indices stay in order and at
  most a ring apart; a character does to the line being typed and to the committed bytes what `edit`
  says, and nothing else changes them; an erase or a kill-line leaves the committed bytes alone;
  these are the bytes taken out by the reads, in order, and then the ones still in the ring; a read
  that is not killed returns exactly what it took and no `^D`; an end of input ends the read that
  meets it and is taken out by a read that returns nothing. -/
theorem console_delivers (h : Reach Input.step (fun _ _ => True) (boot P) x) :
    ((x.w - x.r).toNat ≤ (x.e - x.r).toNat ∧ (x.e - x.r).toNat ≤ INPUT_BUF) ∧
    (∀ c, ((x.consoleintr c).committed, (x.consoleintr c).typed) =
      edit (x.pending ++ x.typed).length x.committed x.typed c) ∧
    (∀ e y, (∀ c, e ≠ .char c) → x.step e = some y →
      y.committed = x.committed ∧ y.typed = x.typed) ∧
    (∀ c, c = 0x15 ∨ c = 0x08 ∨ c = 0x7f → (x.consoleintr c).w = x.w ∧ (x.consoleintr c).r = x.r ∧
      (x.consoleintr c).buf = x.buf ∧ (x.consoleintr c).committed = x.committed ∧
      (x.w - x.r).toNat ≤ ((x.consoleintr c).e - x.r).toNat) ∧
    x.committed = x.taken.map snd ++ x.pending ∧
    (∀ id l, (id, some l) ∈ x.returned →
      ctrlD ∉ l ∧ (x.takenBy id = l ∨ l = [] ∧ x.takenBy id = [ctrlD])) ∧
    (∀ p d, x.reader p = some d → x.takenBy d.id = d.dst) ∧
    (∀ id, id < x.calls → (∃ p d, x.reader p = some d ∧ d.id = id) ∨
      ∃ o, (id, o) ∈ x.returned) ∧ (x.returned.map fst).Nodup ∧
    (∀ id, (id, ctrlD) ∈ x.taken → (id, some []) ∈ x.returned) ∧
    ∀ p d y, x.reader p = some d → x.buf (slot x.r) = ctrlD → x.step (.take p) = some y →
      y.reader p = none ∧ y.returned = x.returned ++ [(d.id, some d.dst)] ∧
        y.r = if d.dst = [] then x.r + 1 else x.r := by
  obtain ⟨hinv, hn⟩ := h.invariant (I := fun x => Inv x ∧ newline ∉ x.typed)
    ⟨inv_boot, by simp [boot, Input.typed, bytes]⟩ fun x e y ⟨hx, hn⟩ _ hs => by
      refine ⟨hx.step hs, ?_⟩
      cases e with
      | char c =>
        cases hs
        have hline : (x.consoleintr c).typed = _ :=
          congrArg snd (consoleintr_eq hx.flows.between hn c)
        rw [hline]
        exact newline_notMem_edit hn c
      | read | take | killed => rwa [(step_line (by simp) hs).2]
  have hb := hinv.flows.between
  have hheld : (x.pending ++ x.typed).length = (x.e - x.r).toNat := by
    rw [length_append, ← hb.split, Input.pending, Input.typed, bytes, bytes]
    simp only [length_map, length_range]
  refine ⟨⟨hb.low, hb.high⟩, hheld ▸ consoleintr_eq hb hn, fun _ _ => step_line, ?_,
    hinv.flows.flow, hinv.reads.result,
    fun p d hd => (hinv.reads.live p d hd).2.1, hinv.reads.accounted, hinv.reads.once,
    hinv.reads.eof, ?_⟩
  · intro c hc
    rcases consoleintr_cases x c hb with ⟨e', he, hx⟩ | ⟨h₁, h2, h3, _⟩
    · rw [hx]
      exact ⟨rfl, rfl, rfl, rfl, he.low⟩
    · rcases hc with rfl | rfl | rfl
      · exact absurd rfl h₁
      · exact absurd rfl h2
      · exact absurd rfl h3
  · intro p d y hd hc hs
    obtain ⟨-, -, hlen, hpos, -⟩ := hinv.reads.live p d hd
    simp only [Input.step, hd] at hs
    split_ifs at hs with hne
    cases hs
    simp only [Input.take, hc, if_true]
    split_ifs with hlt hnil hnil
    · exact absurd hnil (ne_nil_of_length_pos (by omega))
    · exact ⟨update_self .., rfl, rfl⟩
    · exact ⟨update_self .., rfl, rfl⟩
    · exact absurd (length_eq_zero_iff.mp (by omega)) hnil

/-- Two characters, the first erased, and a newline: the reader gets the edited line. -/
theorem console_delivers_line : ∃ x : Input Unit,
    Reach Input.step (fun _ _ => True) (boot Unit) x ∧ x.returned = [(0, some [98, 10])] ∧
    x.committed = [98, 10] ∧ (x.w - x.r).toNat ≤ (x.e - x.r).toNat := by
  obtain ⟨x, hx, hobs⟩ := exists_reach (show (follow Input.step (fun _ _ => True)
    (boot Unit) [.read () 20, .char 97, .char 8, .char 98, .char 13, .take (), .take ()]).map
      (fun x => (x.returned, x.committed)) = some ([(0, some [98, 10])], [98, 10]) by
        decide +kernel)
  simp only [Prod.mk.injEq] at hobs
  exact ⟨x, hx, hobs.1, hobs.2, (console_delivers hx).1.1⟩

end Xv6.Console

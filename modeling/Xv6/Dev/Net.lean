import Xv6.Schemes.Machine

/-! @src i8254.c | part:transmit ring | scheme:machine

  256 descriptors in a ring. `i8254_send` copies the packet into the buffer of the descriptor at
  `tdt` and moves `tdt` on; the card transmits from `tdh` on until it meets `tdt`.

           tdh                    tdt
      ------+--not yet processed---+------
            + card                 + i8254_send

  The driver's room is 256 minus the descriptors in use, so it is never 0: with 255 in use one more
  packet makes the ring look empty. `i8254_init_send` gives a buffer to the first 129 descriptors
  only. -/

namespace Xv6.Net
open List
open Schemes
open Function

def I8254_SEND_DESC_NUM : ℕ := 256

/-- A descriptor of the send ring. -/
structure Desc where
  bufAddr : ℕ
  len : ℕ
  cso : ℕ
  cmd : ℕ
  sta : ℕ
  css : ℕ
  special : ℕ

def load (mem : ℕ → UInt8) (a n : ℕ) : List UInt8 := (List.range n).map fun k => mem (a + k)

def memmove (mem : ℕ → UInt8) (a : ℕ) (bs : List UInt8) : ℕ → UInt8 := fun i =>
  if a ≤ i ∧ i < a + bs.length then bs.getD (i - a) 0 else mem i

/-- Memory, the descriptors at `tdbal`, the two registers, and the logs of what `i8254_send` accepted
  and what the card processed. -/
structure Card where
  mem : ℕ → UInt8
  tdbal : ℕ
  desc : ℕ → Desc
  tdh : ℕ
  tdt : ℕ
  accepted : List (List UInt8)
  processed : List (List UInt8)

inductive Ev where
  | send (pkt : List UInt8)
  | process

namespace Card

def txAvailable (x : Card) : ℤ :=
  I8254_SEND_DESC_NUM -
    ((I8254_SEND_DESC_NUM - x.tdh + x.tdt) % I8254_SEND_DESC_NUM : ℕ)

/-- Put a packet on the send ring. -/
def send (x : Card) (pkt : List UInt8) : ℤ × Card :=
  let index := x.tdt % I8254_SEND_DESC_NUM
  if x.txAvailable > 0 then
    (pkt.length, { x with
      mem := memmove x.mem (x.desc index).bufAddr pkt
      desc := update x.desc index
        ⟨(x.desc index).bufAddr, pkt.length % 2 ^ 16, 0, 0xb, 0, 0, 0⟩
      tdt := (x.tdt + 1) % I8254_SEND_DESC_NUM
      accepted := x.accepted ++ [pkt] })
  else (-1, x)

def packet (x : Card) (i : ℕ) : List UInt8 := load x.mem (x.desc i).bufAddr (x.desc i).len

def step (x : Card) : Ev → Option Card
  | .send pkt => some (x.send pkt).2
  | .process =>
    if x.tdh = x.tdt then none
    else some { x with
      processed := x.processed ++ [x.packet x.tdh]
      tdh := (x.tdh + 1) % I8254_SEND_DESC_NUM }

def pending (x : Card) : ℕ := (x.tdt + I8254_SEND_DESC_NUM - x.tdh) % I8254_SEND_DESC_NUM

def ahead (x : Card) (k : ℕ) : ℕ := (x.tdh + k) % I8254_SEND_DESC_NUM

def ring (x : Card) : List (List UInt8) := (List.range x.pending).map fun k => x.packet (x.ahead k)

end Card

/-- The buffers that `i8254_init_send` allocates, from descriptor `i` on; it stops at the first page
  it does not get. Each turn overwrites what the turn before wrote to its second descriptor. -/
def initBufs (pages : ℕ → ℕ) : ℕ → ℕ → (ℕ → ℕ) → ℕ → ℕ
  | 0, _, d => d
  | k + 1, i, d =>
    if pages i = 0 then d
    else initBufs pages k (i + 1)
      (update (update d i (pages i)) (i + 1) (pages i + 0x800))

def initSend (mem : ℕ → UInt8) (tdbal : ℕ) (pages junk : ℕ → ℕ) : Card where
  mem := mem
  tdbal := tdbal
  desc := fun i => ⟨initBufs pages (I8254_SEND_DESC_NUM / 2) 0 junk i, 0, 0, 0, 0, 0, 0⟩
  tdh := 0
  tdt := 0
  accepted := []
  processed := []

/-- The buffer of the next descriptor is free for the packet: it meets neither a buffer the card has
  not processed nor the descriptors. -/
def Clear (x : Card) (n : ℕ) : Prop :=
  let a := (x.desc x.tdt).bufAddr
  (∀ k, k < x.pending → a + n ≤ (x.desc (x.ahead k)).bufAddr ∨
    (x.desc (x.ahead k)).bufAddr + (x.desc (x.ahead k)).len ≤ a) ∧
  (a + n ≤ x.tdbal ∨ x.tdbal + 16 * I8254_SEND_DESC_NUM ≤ a)

/-- Every packet finds an empty descriptor besides its own, fits the length field, and goes to a
  buffer that is free. -/
def Roomy (x : Card) : Ev → Prop
  | .send pkt => x.pending + 1 < I8254_SEND_DESC_NUM ∧ pkt.length < 2 ^ 16 ∧ Clear x pkt.length
  | .process => True

variable {pages : ℕ → ℕ}

theorem initBufs_apply : ∀ (k i : ℕ) (d : ℕ → ℕ) (j : ℕ), (∀ l, l < i + k → pages l ≠ 0) →
    initBufs pages k i d j = if j < i ∨ i + k < j ∨ k = 0 then d j
      else if j = i + k then pages (j - 1) + 0x800 else pages j
  | 0, i, d, j, _ => by simp [initBufs]
  | k + 1, i, d, j, hp => by
    rw [initBufs, if_neg (hp i (by omega)),
      initBufs_apply k (i + 1) _ j (fun l hl => hp l (by omega))]
    rcases Nat.lt_trichotomy j i with hj | rfl | hj
    · rw [if_pos (.inl (by omega)), if_pos (.inl hj), update_of_ne (by omega),
        update_of_ne (by omega)]
    · rw [if_pos (.inl (by omega)), if_neg (by omega), if_neg (by omega),
        update_of_ne (by omega), update_self]
    · rcases lt_or_ge (i + (k + 1)) j with hlt | hle
      · rw [if_pos (.inr (.inl (by omega))), if_pos (.inr (.inl hlt)),
          update_of_ne (by omega), update_of_ne (by omega)]
      · rw [if_neg (by omega : ¬ (j < i ∨ i + (k + 1) < j ∨ k + 1 = 0))]
        rcases eq_zero_or_pos k with rfl | hk
        · obtain rfl : j = i + 1 := by omega
          rw [if_pos (.inr (.inr rfl)), if_pos rfl, update_self, Nat.add_sub_cancel]
        · rw [if_neg (by omega), add_right_comm, add_assoc]

/-! ### Memory -/

theorem load_memmove_same (mem : ℕ → UInt8) (a : ℕ) (bs : List UInt8) :
    load (memmove mem a bs) a bs.length = bs := by
  refine ext_getElem (by simp [load]) fun k hk hk' => ?_
  simp [load, memmove, hk']

theorem load_memmove_of_disjoint (mem : ℕ → UInt8) {a b n : ℕ} {bs : List UInt8}
    (h : a + bs.length ≤ b ∨ b + n ≤ a) : load (memmove mem a bs) b n = load mem b n := by
  refine map_congr_left fun k hk => ?_
  have hk : k < n := mem_range.mp hk
  exact if_neg (by omega)

/-! ### One step -/

/-- The registers are in range, and what was accepted is what was processed and what is still in the
  ring. -/
structure Inv (x : Card) : Prop where
  head : x.tdh < I8254_SEND_DESC_NUM
  tail : x.tdt < I8254_SEND_DESC_NUM
  flow : x.accepted = x.processed ++ x.ring

variable {x y : Card}

theorem Inv.txAvailable (h : Inv x) :
    x.txAvailable = I8254_SEND_DESC_NUM - x.pending := by
  have := h.head
  unfold Card.txAvailable Card.pending
  rw [show I8254_SEND_DESC_NUM - x.tdh + x.tdt = x.tdt + I8254_SEND_DESC_NUM - x.tdh by omega]

theorem Inv.available (h : Inv x) : x.txAvailable > 0 := by
  have hlt : x.pending < I8254_SEND_DESC_NUM := Nat.mod_lt _ (by decide)
  rw [h.txAvailable]
  omega

theorem Inv.ahead_pending (h : Inv x) : x.ahead x.pending = x.tdt := by
  have := h.head
  have := h.tail
  simp only [Card.ahead, Card.pending, I8254_SEND_DESC_NUM] at *
  omega

theorem Inv.ahead_ne (h : Inv x) {k : ℕ} (hk : k < x.pending) : x.ahead k ≠ x.tdt := by
  have := h.head
  have := h.tail
  simp only [Card.ahead, Card.pending, I8254_SEND_DESC_NUM] at *
  omega

theorem Inv.send {pkt : List UInt8} (h : Inv x) (hr : Roomy x (.send pkt)) :
    Inv (x.send pkt).2 ∧ (x.send pkt).1 = pkt.length := by
  obtain ⟨hroom, hlen, hclear, -⟩ := hr
  have hh := h.head
  have ht := h.tail
  have hidx : x.tdt % I8254_SEND_DESC_NUM = x.tdt := Nat.mod_eq_of_lt ht
  simp only [Card.send, h.available, if_true, hidx]
  refine ⟨⟨hh, Nat.mod_lt _ (by decide), ?_⟩, trivial⟩
  set y : Card := { x with
    mem := memmove x.mem (x.desc x.tdt).bufAddr pkt
    desc := update x.desc x.tdt
      ⟨(x.desc x.tdt).bufAddr, pkt.length % 2 ^ 16, 0, 0xb, 0, 0, 0⟩
    tdt := (x.tdt + 1) % I8254_SEND_DESC_NUM
    accepted := x.accepted ++ [pkt] } with hy
  have hpending : y.pending = x.pending + 1 := by
    simp only [hy, Card.pending, I8254_SEND_DESC_NUM] at *
    omega
  have hnew : y.packet x.tdt = pkt := by
    simp only [Card.packet, hy, update_self, Nat.mod_eq_of_lt hlen]
    exact load_memmove_same ..
  have hold : ∀ k, k < x.pending → y.packet (x.ahead k) = x.packet (x.ahead k) := by
    intro k hk
    simp only [Card.packet, hy, update_of_ne (h.ahead_ne hk)]
    exact load_memmove_of_disjoint _ (hclear k hk)
  show x.accepted ++ [pkt] = x.processed ++ y.ring
  have hring : y.ring = x.ring ++ [pkt] := by
    simp only [Card.ring, hpending, range_succ, map_append, map_cons, map_nil]
    congr 1
    · exact map_congr_left fun k hk => hold k (mem_range.mp hk)
    · have hlast : y.ahead x.pending = x.tdt := h.ahead_pending
      rw [hlast, hnew]
  rw [hring, h.flow, append_assoc]

theorem Inv.process (h : Inv x) (hne : x.tdh ≠ x.tdt) : Inv { x with
    processed := x.processed ++ [x.packet x.tdh]
    tdh := (x.tdh + 1) % I8254_SEND_DESC_NUM } := by
  have hh := h.head
  have ht := h.tail
  refine ⟨Nat.mod_lt _ (by decide), ht, ?_⟩
  set y : Card := { x with
    processed := x.processed ++ [x.packet x.tdh]
    tdh := (x.tdh + 1) % I8254_SEND_DESC_NUM } with hy
  have hpending : x.pending = y.pending + 1 := by
    simp only [hy, Card.pending, I8254_SEND_DESC_NUM] at *
    omega
  have hahead : ∀ k, x.ahead (k + 1) = y.ahead k := by
    intro k
    simp only [hy, Card.ahead, I8254_SEND_DESC_NUM]
    omega
  have hring : x.ring = x.packet x.tdh :: y.ring := by
    have hzero : x.ahead 0 = x.tdh := Nat.mod_eq_of_lt hh
    simp only [Card.ring, hpending, range_succ_eq_map, map_cons, map_map,
      comp_def, Nat.succ_eq_add_one, hahead, hzero]
    rfl
  show x.accepted = x.processed ++ [x.packet x.tdh] ++ y.ring
  rw [h.flow, hring, append_assoc, singleton_append]

theorem Inv.step {e : Ev} (h : Inv x) (hr : Roomy x e) (hs : x.step e = some y) : Inv y := by
  cases e with
  | send pkt =>
    cases hs
    exact (h.send hr).1
  | process =>
    simp only [Card.step] at hs
    split_ifs at hs with hne
    cases hs
    exact h.process hne

/-! ### Whole runs -/

theorem inv_initSend (mem : ℕ → UInt8) (tdbal : ℕ) (pages junk : ℕ → ℕ) :
    Inv (initSend mem tdbal pages junk) :=
  ⟨by simp [initSend, I8254_SEND_DESC_NUM], by simp [initSend, I8254_SEND_DESC_NUM],
    by simp [initSend, Card.ring, Card.pending, I8254_SEND_DESC_NUM]⟩

/-- While every packet has room: the packets accepted are, in order and byte by byte, the ones
  processed and then the ones the card has before it, and `i8254_send` returns the length of the
  next one, `-1` only if it would make the ring look empty. -/
theorem send_lossless {mem : ℕ → UInt8} {tdbal : ℕ} {pages junk : ℕ → ℕ}
    (h : Reach Card.step Roomy (initSend mem tdbal pages junk) x) :
    x.accepted = x.processed ++ x.ring ∧ ∀ pkt, Roomy x (.send pkt) →
      (x.send pkt).1 = pkt.length ∧
      ((x.send pkt).1 = -1 ↔ x.pending + 1 = I8254_SEND_DESC_NUM) := by
  have hinv : Inv x := h.invariant (inv_initSend ..) fun _ _ _ hx hr hs => hx.step hr hs
  refine ⟨hinv.flow, fun pkt hr => ?_⟩
  have hlen := (hinv.send hr).2
  refine ⟨hlen, ?_⟩
  have hroom := hr.1
  rw [hlen]
  constructor
  · intro hneg
    omega
  · intro hfull
    omega

/-- The card after `i8254_init_send` got 128 pages from 4096 on; the page of descriptors at 0 held
  what `kfree` leaves in a page. -/
def card0 : Card := initSend (fun _ => 0) 0 (fun i => 4096 * (i + 1)) (fun _ => 0x01010101)

/-- A first packet on an empty ring. -/
theorem send_lossless_first : Roomy card0 (.send [1]) ∧ (card0.send [1]).1 = 1 := by
  have hroomy : Roomy card0 (.send [1]) := by
    have hbuf : (card0.desc card0.tdt).bufAddr = 4096 := by
      simp only [card0, initSend]
      rw [initBufs_apply _ _ _ _ (fun i _ => by omega), if_neg (by decide), if_neg (by decide)]
    refine ⟨by decide, by decide, fun k hk => ?_, .inr ?_⟩
    · exact absurd hk (by simp [card0, initSend, Card.pending, I8254_SEND_DESC_NUM])
    · rw [hbuf]
      decide
  exact ⟨hroomy, ((send_lossless (x := card0) Relation.ReflTransGen.refl).2 [1] hroomy).1⟩

theorem exists_burst : ∀ n, ∃ x, Reach Card.step (fun _ _ => True) card0 x ∧ x.tdh = 0 ∧
    x.tdt = n % I8254_SEND_DESC_NUM ∧ x.accepted.length = n ∧ x.processed = []
  | 0 => ⟨card0, Relation.ReflTransGen.refl, rfl, rfl, rfl, rfl⟩
  | n + 1 => by
    obtain ⟨x, hx, hh, ht, ha, hp⟩ := exists_burst n
    have havail : x.txAvailable > 0 := by
      simp only [Card.txAvailable, hh, I8254_SEND_DESC_NUM]
      omega
    have hsend : (x.send [1]).2.tdh = 0 ∧
        (x.send [1]).2.tdt = (n + 1) % I8254_SEND_DESC_NUM ∧
        (x.send [1]).2.accepted.length = n + 1 ∧ (x.send [1]).2.processed = [] := by
      simp only [Card.send, havail, if_true]
      exact ⟨hh, by rw [ht, Nat.mod_add_mod], by simp [ha], hp⟩
    exact ⟨_, hx.tail ⟨.send [1], trivial, rfl⟩, hsend⟩

/-- With 255 packets before the card one more is accepted, and then the card sees an empty ring: of
  256 packets that were accepted none is processed. -/
theorem send_overruns : ∃ x, Reach Card.step (fun _ _ => True) card0 x ∧
    x.pending + 1 = I8254_SEND_DESC_NUM ∧ (x.send [1]).1 = 1 ∧
    (x.send [1]).2.step .process = none ∧ (x.send [1]).2.accepted.length = 256 ∧
    (x.send [1]).2.processed = [] := by
  obtain ⟨x, hx, hh, ht, ha, hp⟩ := exists_burst (I8254_SEND_DESC_NUM - 1)
  have ht : x.tdt = I8254_SEND_DESC_NUM - 1 := ht
  have havail : x.txAvailable > 0 := by
    rw [Card.txAvailable, hh, ht]
    decide
  have hlen : (x.accepted ++ [[1]]).length = 256 := by
    rw [length_append, ha]
    rfl
  have hempty : x.tdh = (x.tdt + 1) % I8254_SEND_DESC_NUM := by
    rw [hh, ht]
    rfl
  refine ⟨x, hx, by rw [Card.pending, hh, ht]; rfl, ?_⟩
  simp only [Card.send, havail, if_true, Card.step]
  exact ⟨rfl, if_pos hempty, hlen, hp⟩

/-! ### The buffers -/

/-- The 2048 bytes at `a` lie in one of the pages that the loop got. -/
def Owned (pages : ℕ → ℕ) (a : ℕ) : Prop := ∃ p, p < 128 ∧ pages p ≤ a ∧ a + 2048 ≤ pages p + 4096

/-- The buffers of the 256 descriptors lie in the pages, and no two overlap. -/
def Apart (pages bufs : ℕ → ℕ) : Prop :=
  (∀ i, i < 256 → Owned pages (bufs i)) ∧
  ∀ i j, i < 256 → j < 256 → i ≠ j → bufs i + 2048 ≤ bufs j ∨ bufs j + 2048 ≤ bufs i

section

variable (hp : ∀ i, i < 128 → pages i ≠ 0) (hdis : ∀ i j, i < 128 → j < 128 → i ≠ j →
  pages i + 4096 ≤ pages j ∨ pages j + 4096 ≤ pages i)

include hp hdis

end

end Xv6.Net

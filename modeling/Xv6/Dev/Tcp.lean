import Mathlib.Data.List.GetD
import Xv6.Schemes.Bytes
import Xv6.Schemes.Ones

/-! @src tcp.c, tcp.h, ipv4.c, eth.c, pkts_hdr.h | part:network | name:TCP segments

  `tcp_pkt_create` fills in a frame around the payload, in the order of the headers:

      0        14         34             50    52     54
      | eth    | ipv4     | tcp          | chk | urg  | payload …
                 ^ 26: source address  ^ 30: destination address

  `tcp_chksum` sums the words of a pseudo-header and of the segment. Its pseudo-header has the
  address of this machine in the place of the client's; it adds the carries of the sum once, leaves
  out an odd last byte, and its caller adds 8. -/

namespace Xv6.Tcp
open Nat (mod_lt)

open Schemes
open List hiding Vector
open UInt8 (ofNat toNat_ofNat' toNat_inj)

def IPV4_TYPE_TCP : UInt8 := 6

structure Ip where
  a : UInt8
  b : UInt8
  c : UInt8
  d : UInt8
  deriving DecidableEq

def Ip.bytes (ip : Ip) : List UInt8 := [ip.a, ip.b, ip.c, ip.d]

structure Net where
  mac_addr : Vector UInt8 6
  my_ip : Ip
  send_id : ℕ
  seq_num : ℕ

def H2N_ushort (value : ℕ) : ℕ := value % 2 ^ 8 * 2 ^ 8 + value % 2 ^ 16 / 2 ^ 8

def H2N_uint (value : ℕ) : ℕ :=
  (value % 2 ^ 4 * 2 ^ 24 + value / 2 ^ 4 % 2 ^ 4 * 2 ^ 4 * 2 ^ 8 +
    value / 2 ^ 8 % 2 ^ 4 * 2 ^ 8 / 2 ^ 8 + value / 2 ^ 12 % 2 ^ 4 * 2 ^ 12 / 2 ^ 24) % 2 ^ 32

def slice (m : ℕ → UInt8) (o n : ℕ) : List UInt8 := (List.range n).map fun i => m (o + i)

def word (bin : List UInt8) : ℕ := (bin.getD 0 0).toNat * 2 ^ 8 + (bin.getD 1 0).toNat

def addWords (chk_sum : ℕ) (bin : List UInt8) : ℕ → ℕ
  | 0 => chk_sum
  | n + 1 => addWords ((chk_sum + word bin) % 2 ^ 32) (bin.drop 2) n

def addFolded (chk_sum : ℕ) (bin : List UInt8) : ℕ → ℕ
  | 0 => chk_sum
  | n + 1 =>
    let sum := chk_sum + word bin
    addFolded (if 0xFFFF < sum then sum % 2 ^ 16 + 1 else sum) (bin.drop 2) n

def ipv4_chksum (bin : List UInt8) : ℕ :=
  let len := (bin.getD 0 0).toNat % 2 ^ 4 * 2
  2 ^ 16 - 1 - addFolded 0 bin len % 2 ^ 16

/-- `ipv4_p->total_len` as `N2H_ushort` reads it, of a packet from its IPv4 header on. -/
def totalLen (pkt : List UInt8) : ℕ :=
  H2N_ushort ((pkt.getD 2 0).toNat + 2 ^ 8 * (pkt.getD 3 0).toNat)

def tcpDummy (net : Net) (pkt : List UInt8) : List UInt8 :=
  net.my_ip.bytes ++ (pkt.drop 12).take 4 ++ [0, IPV4_TYPE_TCP] ++
    bytes16 (H2N_ushort (totalLen pkt - 20))

def dummySum (net : Net) (pkt : List UInt8) : ℕ :=
  addWords (addWords 0 (tcpDummy net pkt) 6) (pkt.drop 20) ((totalLen pkt - 20) / 2)

def foldOnce (chk_sum : ℕ) : ℕ := 2 ^ 16 - 1 - (chk_sum + chk_sum / 2 ^ 16) % 2 ^ 16

def tcp_chksum (net : Net) (pkt : List UInt8) : ℕ := foldOnce (dummySum net pkt)

section

variable (net : Net) (recv : ℕ → UInt8) (pkt_type : ℕ) (payload : List UInt8)

def client : Ip := ⟨recv 26, recv 27, recv 28, recv 29⟩

def tcpRecv : ℕ := 14 + (recv 14).toNat % 2 ^ 4 * 4

def ethHeader : List UInt8 := slice recv 6 6 ++ net.mac_addr.toList ++ [0x08, 0x00]

def ipv4Header (chk_sum : ℕ) : List UInt8 :=
  [0x45, 0] ++ bytes16 (H2N_ushort (20 + 20 + payload.length)) ++ bytes16 net.send_id ++
    bytes16 (H2N_ushort 0) ++ [255, IPV4_TYPE_TCP] ++ bytes16 chk_sum ++ net.my_ip.bytes ++
    (client recv).bytes

def tcpFront : List UInt8 :=
  slice recv (tcpRecv recv + 2) 2 ++ slice recv (tcpRecv recv) 2 ++
    bytes32 (H2N_uint net.seq_num) ++
    bytes32 (((recv (tcpRecv recv + 4)).toNat + 2 ^ 8 * (recv (tcpRecv recv + 5)).toNat +
      2 ^ 16 * (recv (tcpRecv recv + 6)).toNat + 2 ^ 24 * (recv (tcpRecv recv + 7)).toNat +
      2 ^ 24) % 2 ^ 32) ++
    [ofNat (5 * 2 ^ 4), ofNat pkt_type] ++ bytes16 (H2N_ushort 14480)

def segment (chk_sum : ℕ) : List UInt8 :=
  tcpFront net recv pkt_type ++ bytes16 chk_sum ++ bytes16 0 ++ payload

def unsummed : List UInt8 :=
  ipv4Header net recv payload
      (H2N_ushort (ipv4_chksum (ipv4Header net recv payload 0))) ++
    segment net recv pkt_type payload 0

def tcp_pkt_create : List UInt8 :=
  ethHeader net recv ++
    ipv4Header net recv payload
      (H2N_ushort (ipv4_chksum (ipv4Header net recv payload 0))) ++
    segment net recv pkt_type payload
      (H2N_ushort (tcp_chksum net (unsummed net recv pkt_type payload) + 8))

end

/-! ### What the receiver checks -/

/-- Pseudo-header and segment of a frame: the two addresses, zero, the protocol, the length, and
  everything behind the IPv4 header. -/
def checked (frame : List UInt8) : List UInt8 :=
  (frame.drop 26).take 8 ++
    [0, IPV4_TYPE_TCP, ofNat ((frame.length - 34) / 2 ^ 8), ofNat (frame.length - 34)] ++
    frame.drop 34

def Valid (frame : List UInt8) : Prop := ocSum (words (checked frame)) = 0xFFFF

instance (frame : List UInt8) : Decidable (Valid frame) :=
  inferInstanceAs (Decidable (_ = _))

def Ip.sum (ip : Ip) : ℕ := ip.a.toNat * 256 + ip.b.toNat + (ip.c.toNat * 256 + ip.d.toNat)

/-- What `tcp_chksum` adds up: its own address twice, protocol and length, ports, numbers, flags, the
  window, and the payload without an odd last byte. -/
def sentSum (net : Net) (recv : ℕ → UInt8) (pkt_type : ℕ) (payload : List UInt8) : ℕ :=
  let tcp i := (recv (tcpRecv recv + i)).toNat
  2 * net.my_ip.sum + 6 + (20 + payload.length) +
    (tcp 2 * 256 + tcp 3 + (tcp 0 * 256 + tcp 1)) +
    (net.seq_num / 2 ^ 8 % 2 ^ 4 * 256 + net.seq_num / 2 ^ 4 % 2 ^ 4 * 16 + net.seq_num % 2 ^ 4) +
    (tcp 4 * 256 + tcp 5 + (tcp 6 * 256 + (tcp 7 + 1) % 256)) +
    (5 * 2 ^ 12 + pkt_type % 256) + 14480 + ((words payload).sum - oddByte payload)

/-- The fold of `s` overflows once more. -/
def carry (s : ℕ) : ℤ := if s % 2 ^ 16 + s / 2 ^ 16 < 2 ^ 16 then 0 else 1

/-- The 8 that is added to the complement of the folded `s` overflows. -/
def borrow (s : ℕ) : ℤ := if (s % 2 ^ 16 + s / 2 ^ 16) % 2 ^ 16 < 8 then 1 else 0

/-! ### The words of a frame -/

variable {x : ℕ}

theorem H2N_swap {y : ℕ} (hx : x < 2 ^ 8) (hy : y < 2 ^ 8) :
    H2N_ushort (x + 2 ^ 8 * y) = 2 ^ 8 * x + y := by
  have hlow : (x + 2 ^ 8 * y) % 2 ^ 8 = x := by omega
  have hhigh : (x + 2 ^ 8 * y) % 2 ^ 16 / 2 ^ 8 = y := by omega
  rw [H2N_ushort, hlow, hhigh, mul_comm]

theorem bytes16_H2N (v : ℕ) :
    bytes16 (H2N_ushort v) = [ofNat (v / 2 ^ 8), ofNat v] := by
  have hbyte : v % 2 ^ 16 / 2 ^ 8 = v / 2 ^ 8 % 2 ^ 8 := Nat.mod_mul_right_div_self v (2 ^ 8) (2 ^ 8)
  have hlow : ofNat (H2N_ushort v) = ofNat (v / 2 ^ 8) := by
    apply toNat_inj.mp
    rw [toNat_ofNat', toNat_ofNat', H2N_ushort, hbyte]
    omega
  have hhigh : ofNat (H2N_ushort v / 2 ^ 8) = ofNat v := by
    apply toNat_inj.mp
    have hlt : v / 2 ^ 8 % 2 ^ 8 < 2 ^ 8 := mod_lt _ (by decide)
    rw [toNat_ofNat', toNat_ofNat', H2N_ushort, hbyte, mul_comm,
      Nat.mul_add_div (by decide), Nat.div_eq_of_lt hlt, add_zero, Nat.mod_mod]
  rw [bytes16, hlow, hhigh]

theorem words_field (v : ℕ) :
    words [ofNat (v / 2 ^ 8), ofNat v] = [v % 2 ^ 16] := by
  rw [words, words, toNat_ofNat', toNat_ofNat']
  congr 1
  omega

theorem H2N_uint_nibbles :
    H2N_uint x = x % 2 ^ 4 * 2 ^ 24 + x / 2 ^ 4 % 2 ^ 4 * 2 ^ 12 + x / 2 ^ 8 % 2 ^ 4 := by
  have h3 : x / 2 ^ 12 % 2 ^ 4 * 2 ^ 12 / 2 ^ 24 = 0 := by omega
  rw [H2N_uint, h3, Nat.mul_div_cancel _ (by decide)]
  omega

theorem addWords_eq {n : ℕ} {bin : List UInt8} {s : ℕ} (hlen : 2 * n ≤ bin.length)
    (hs : s + 65535 * n < 2 ^ 32) :
    addWords s bin n = s + (words (bin.take (2 * n))).sum := by
  induction n generalizing bin s with
  | zero => rfl
  | succ n ih =>
    obtain ⟨a, b, l, rfl⟩ : ∃ a b l, bin = a :: b :: l := by
      rcases bin with _ | ⟨a, _ | ⟨b, l⟩⟩
      · exact absurd hlen (by simp)
      · exact absurd hlen (by simp; omega)
      · exact ⟨a, b, l, rfl⟩
    have ha := a.toNat_lt
    have hb := b.toNat_lt
    have hword : word (a :: b :: l) = a.toNat * 256 + b.toNat := rfl
    have hmod : (s + word (a :: b :: l)) % 2 ^ 32 = s + (a.toNat * 256 + b.toNat) := by
      rw [hword]
      omega
    have htake : (a :: b :: l).take (2 * (n + 1)) = a :: b :: l.take (2 * n) := rfl
    rw [length_cons, length_cons] at hlen
    rw [addWords, hmod, htake, words, sum_cons, drop_succ_cons, drop_succ_cons,
      drop_zero, ih (by omega) (by omega)]
    omega

theorem chk_residue {s : ℕ} (hs : s < 2 ^ 32) :
    (65535 : ℤ) ∣ ((foldOnce s + 8) % 2 ^ 16 : ℕ) + s - (8 + carry s - borrow s) := by
  have hfold : (s + s / 2 ^ 16) % 2 ^ 16 = (s % 2 ^ 16 + s / 2 ^ 16) % 2 ^ 16 := by omega
  have hlow : s % 2 ^ 16 < 2 ^ 16 := mod_lt _ (by decide)
  have hhigh : s / 2 ^ 16 < 2 ^ 16 := by omega
  have hsplit : s = 2 ^ 16 * (s / 2 ^ 16) + s % 2 ^ 16 := (Nat.div_add_mod ..).symm
  rw [foldOnce, carry, borrow, hfold]
  generalize s % 2 ^ 16 = l at *
  generalize s / 2 ^ 16 = h at *
  subst hsplit
  -- with and without a second carry, and with and without an overflow of the 8
  by_cases hc : l + h < 2 ^ 16
  · rw [if_pos hc, Nat.mod_eq_of_lt hc]
    by_cases hb : l + h < 8
    · have hchk : (2 ^ 16 - 1 - (l + h) + 8) % 2 ^ 16 = 7 - (l + h) := by omega
      rw [if_pos hb, hchk]
      omega
    · have hchk : (2 ^ 16 - 1 - (l + h) + 8) % 2 ^ 16 = 65543 - (l + h) := by omega
      rw [if_neg hb, hchk]
      omega
  · have hmod : (l + h) % 2 ^ 16 = l + h - 2 ^ 16 := by omega
    rw [if_neg hc, hmod]
    by_cases hb : l + h - 2 ^ 16 < 8
    · have hchk : (2 ^ 16 - 1 - (l + h - 2 ^ 16) + 8) % 2 ^ 16 = 7 + 2 ^ 16 - (l + h) := by omega
      rw [if_pos hb, hchk]
      omega
    · have hchk : (2 ^ 16 - 1 - (l + h - 2 ^ 16) + 8) % 2 ^ 16 = 65543 + 2 ^ 16 - (l + h) := by
        omega
      rw [if_neg hb, hchk]
      omega

section

variable (net : Net) (recv : ℕ → UInt8) (pkt_type : ℕ) (payload : List UInt8)

theorem length_ethHeader : (ethHeader net recv).length = 14 := by
  simp [ethHeader, slice]

theorem length_tcpFront : (tcpFront net recv pkt_type).length = 16 := by
  simp [tcpFront, slice]

theorem length_segment (chk : ℕ) :
    (segment net recv pkt_type payload chk).length = 20 + payload.length := by
  rw [segment, length_append, length_append, length_append, length_tcpFront]
  rfl

theorem ipv4Header_eq (chk : ℕ) : ∃ front : List UInt8, front.length = 12 ∧
    front.getD 2 0 = ofNat ((40 + payload.length) / 2 ^ 8) ∧
    front.getD 3 0 = ofNat (40 + payload.length) ∧
    ipv4Header net recv payload chk = front ++ net.my_ip.bytes ++ (client recv).bytes := by
  refine ⟨_, ?_, ?_, ?_, rfl⟩
  · rfl
  · rw [bytes16_H2N]
    rfl
  · rw [bytes16_H2N]
    rfl

theorem sum_segment (v : ℕ) :
    (words (segment net recv pkt_type payload (H2N_ushort v))).sum =
      (words (tcpFront net recv pkt_type)).sum + v % 2 ^ 16 + (words payload).sum := by
  have hfront := length_tcpFront net recv pkt_type
  have hchk : [ofNat (v / 2 ^ 8), ofNat v].length % 2 = 0 := by simp
  have hurg : (bytes16 0).length % 2 = 0 := by simp
  rw [segment, bytes16_H2N, append_assoc, append_assoc,
    words_append (by rw [hfront]), words_append hchk, words_append hurg, words_field, sum_append,
    sum_append, sum_append, sum_singleton]
  have hzero : (words (bytes16 0)).sum = 0 := rfl
  omega

theorem words_addresses (p q : Ip) : (words (p.bytes ++ q.bytes)).sum = p.sum + q.sum := by
  simp only [Ip.bytes, Ip.sum, cons_append, nil_append, words, sum_cons, sum_nil]
  omega

theorem sum_pseudo (p q : Ip) (n : ℕ) (rest : List UInt8) :
    (words (p.bytes ++ q.bytes ++ [0, IPV4_TYPE_TCP, ofNat (n / 2 ^ 8), ofNat n] ++
      rest)).sum = p.sum + q.sum + 6 + n % 2 ^ 16 + (words rest).sum := by
  have hmid : words [0, IPV4_TYPE_TCP, ofNat (n / 2 ^ 8), ofNat n] =
      6 :: words [ofNat (n / 2 ^ 8), ofNat n] := rfl
  have haddr : (p.bytes ++ q.bytes).length % 2 = 0 := by simp [Ip.bytes]
  have hhead : (p.bytes ++ q.bytes ++
      [0, IPV4_TYPE_TCP, ofNat (n / 2 ^ 8), ofNat n]).length % 2 = 0 := by
    simp [Ip.bytes]
  rw [words_append hhead, words_append haddr, sum_append, sum_append, words_addresses, hmid,
    words_field, sum_cons, sum_singleton]
  omega

/-! ### The two sums -/

theorem checked_create (chk : ℕ) {ip : ℕ} :
    checked (ethHeader net recv ++ ipv4Header net recv payload ip ++
      segment net recv pkt_type payload chk) =
      net.my_ip.bytes ++ (client recv).bytes ++
        [0, IPV4_TYPE_TCP, ofNat ((20 + payload.length) / 2 ^ 8),
          ofNat (20 + payload.length)] ++ segment net recv pkt_type payload chk := by
  obtain ⟨front, hfront, -, -, hip⟩ := ipv4Header_eq net recv payload ip
  have heth := length_ethHeader net recv
  have hlen : (ethHeader net recv ++ ipv4Header net recv payload ip ++
      segment net recv pkt_type payload chk).length - 34 = 20 + payload.length := by
    rw [length_append, length_append, length_segment, heth, hip, length_append,
      length_append, hfront]
    simp only [Ip.bytes, length_cons, length_nil]
    omega
  have hall : (ethHeader net recv ++ ipv4Header net recv payload ip).length = 34 := by
    rw [length_append, heth, hip, length_append, length_append, hfront]
    rfl
  have haddr : ((ethHeader net recv ++ ipv4Header net recv payload ip ++
      segment net recv pkt_type payload chk).drop 26).take 8 =
      net.my_ip.bytes ++ (client recv).bytes := by
    have hsplit : ethHeader net recv ++ ipv4Header net recv payload ip ++
        segment net recv pkt_type payload chk = (ethHeader net recv ++ front) ++
        ((net.my_ip.bytes ++ (client recv).bytes) ++ segment net recv pkt_type payload chk) := by
      rw [hip]
      simp only [append_assoc]
    rw [hsplit, drop_left' (by rw [length_append, heth, hfront])]
    exact take_left' rfl
  rw [checked, haddr, hlen, drop_left' hall]

theorem Ip.sum_le (ip : Ip) : ip.sum ≤ 2 * 65535 := by
  have ha := ip.a.toNat_lt
  have hb := ip.b.toNat_lt
  have hc := ip.c.toNat_lt
  have hd := ip.d.toNat_lt
  rw [Ip.sum]
  omega

theorem sum_words_le (l : List UInt8) : (words l).sum ≤ 65535 * (l.length + 1) := by
  have hsum := sum_le_of_lt (words_lt l)
  have hlen := length_words_le l
  nlinarith

theorem totalLen_unsummed (hfit : 54 + payload.length ≤ 4096) :
    totalLen (unsummed net recv pkt_type payload) = 40 + payload.length := by
  obtain ⟨front, hfront, h2, h3, hip⟩ := ipv4Header_eq net recv payload
    (H2N_ushort (ipv4_chksum (ipv4Header net recv payload 0)))
  have hget : ∀ i, i < 12 → (unsummed net recv pkt_type payload).getD i 0 = front.getD i 0 := by
    intro i hi
    rw [unsummed, hip, append_assoc, append_assoc, getD_append _ _ _ _ (by omega)]
  rw [totalLen, hget 2 (by decide), hget 3 (by decide), h2, h3, toNat_ofNat',
    toNat_ofNat', H2N_swap (mod_lt _ (by decide)) (mod_lt _ (by decide))]
  omega

theorem dummySum_eq (hfit : 54 + payload.length ≤ 4096) :
    dummySum net (unsummed net recv pkt_type payload) + oddByte payload =
      2 * net.my_ip.sum + 6 + (20 + payload.length) +
        (words (tcpFront net recv pkt_type)).sum + (words payload).sum := by
  obtain ⟨front, hfront, -, -, hip⟩ := ipv4Header_eq net recv payload
    (H2N_ushort (ipv4_chksum (ipv4Header net recv payload 0)))
  have htot := totalLen_unsummed net recv pkt_type payload hfit
  have hlen : totalLen (unsummed net recv pkt_type payload) - 20 = 20 + payload.length := by
    omega
  have hsrc : ((unsummed net recv pkt_type payload).drop 12).take 4 = net.my_ip.bytes := by
    rw [unsummed, hip, append_assoc, append_assoc, drop_left' hfront]
    exact take_left' rfl
  have hseg : (unsummed net recv pkt_type payload).drop 20 =
      segment net recv pkt_type payload (H2N_ushort 0) := by
    rw [unsummed, drop_left']
    · rfl
    · rw [hip, length_append, length_append, hfront]
      rfl
  -- the pseudo-header
  have hdummy : tcpDummy net (unsummed net recv pkt_type payload) =
      net.my_ip.bytes ++ net.my_ip.bytes ++
        [0, IPV4_TYPE_TCP, ofNat ((20 + payload.length) / 2 ^ 8),
          ofNat (20 + payload.length)] ++ [] := by
    rw [tcpDummy, hsrc, hlen, bytes16_H2N, append_nil, append_assoc _ _ [_, _]]
    rfl
  have hfirst : addWords 0 (tcpDummy net (unsummed net recv pkt_type payload)) 6 =
      2 * net.my_ip.sum + 6 + (20 + payload.length) := by
    have hlen12 : (tcpDummy net (unsummed net recv pkt_type payload)).length = 2 * 6 := by
      rw [hdummy]
      simp [Ip.bytes]
    rw [addWords_eq hlen12.ge (by decide), take_of_length_le hlen12.le, hdummy, sum_pseudo]
    have hnil : (words []).sum = 0 := rfl
    omega
  -- the segment
  have hle := net.my_ip.sum_le
  have hodd : oddByte (segment net recv pkt_type payload (H2N_ushort 0)) = oddByte payload := by
    rw [segment, oddByte_append]
    rw [length_append, length_append, length_tcpFront]
    rfl
  have hwords := sum_words (segment net recv pkt_type payload (H2N_ushort 0))
  rw [sum_segment, length_segment, hodd] at hwords
  rw [dummySum, hlen, hseg, hfirst, addWords_eq]
  · omega
  · rw [length_segment]
    omega
  · omega

theorem sum_bytes32 (v : ℕ) : (words (bytes32 v)).sum =
    v % 2 ^ 8 * 256 + v / 2 ^ 8 % 2 ^ 8 + (v / 2 ^ 16 % 2 ^ 8 * 256 + v / 2 ^ 24 % 2 ^ 8) := by
  simp [bytes32, words]

theorem sum_ack {a b c d : ℕ} (ha : a < 2 ^ 8) (hb : b < 2 ^ 8) (hc : c < 2 ^ 8) :
    (words (bytes32 ((a + 2 ^ 8 * b + 2 ^ 16 * c + 2 ^ 24 * d + 2 ^ 24) % 2 ^ 32))).sum =
      a * 256 + b + (c * 256 + (d + 1) % 256) := by
  rw [sum_bytes32]
  omega

theorem sum_seq : (words (bytes32 (H2N_uint x))).sum =
    x / 2 ^ 8 % 2 ^ 4 * 256 + x / 2 ^ 4 % 2 ^ 4 * 16 + x % 2 ^ 4 := by
  have hn : ∀ y : ℕ, y % 2 ^ 4 < 2 ^ 4 := fun y => mod_lt _ (by decide)
  rw [sum_bytes32, H2N_uint_nibbles]
  have ha := hn x
  have hb := hn (x / 2 ^ 4)
  have hc := hn (x / 2 ^ 8)
  generalize x % 2 ^ 4 = a, x / 2 ^ 4 % 2 ^ 4 = b, x / 2 ^ 8 % 2 ^ 4 = c at ha hb hc ⊢
  omega

theorem sum_tcpFront :
    2 * net.my_ip.sum + 6 + (20 + payload.length) + (words (tcpFront net recv pkt_type)).sum +
      ((words payload).sum - oddByte payload) = sentSum net recv pkt_type payload := by
  have hack := sum_ack (recv (tcpRecv recv + 4)).toNat_lt (recv (tcpRecv recv + 5)).toNat_lt
    (recv (tcpRecv recv + 6)).toNat_lt (d := (recv (tcpRecv recv + 7)).toNat)
  have hports : (words (slice recv (tcpRecv recv + 2) 2 ++ slice recv (tcpRecv recv) 2)).sum =
      (recv (tcpRecv recv + 2)).toNat * 256 + (recv (tcpRecv recv + 3)).toNat +
        ((recv (tcpRecv recv)).toNat * 256 + (recv (tcpRecv recv + 1)).toNat) := by
    simp [slice, words, range_succ]
  have hlast : (words ([ofNat (5 * 2 ^ 4), ofNat pkt_type] ++ bytes16 (H2N_ushort 14480))).sum =
      5 * 2 ^ 12 + pkt_type % 256 + 14480 := by
    simp [words, bytes16, H2N_ushort]
  rw [tcpFront, append_assoc _ [_, _], words_append (by simp [slice]), sum_append,
    words_append (by simp [slice]), sum_append, words_append (by simp [slice]), sum_append, hack,
    hports, hlast, sum_seq]
  simp only [sentSum, add_zero]
  omega

theorem dummySum_sent (hfit : 54 + payload.length ≤ 4096) :
    dummySum net (unsummed net recv pkt_type payload) = sentSum net recv pkt_type payload := by
  have hs := dummySum_eq net recv pkt_type payload hfit
  have hfront := sum_tcpFront net recv pkt_type payload
  have hwords := sum_words payload
  omega

theorem dummySum_lt (hfit : 54 + payload.length ≤ 4096) :
    dummySum net (unsummed net recv pkt_type payload) < 2 ^ 32 := by
  have hs := dummySum_eq net recv pkt_type payload hfit
  have hip := net.my_ip.sum_le
  have hfront := sum_words_le (tcpFront net recv pkt_type)
  have hpay := sum_words_le payload
  rw [length_tcpFront] at hfront
  omega

/-- The segment is accepted exactly where the client's address, an odd last byte, the 8 and the two
  overflows make up for the address of this machine in the place of the client's. -/
theorem checksum_valid_iff (hfit : 54 + payload.length ≤ 4096) :
    Valid (tcp_pkt_create net recv pkt_type payload) ↔
      (65535 : ℤ) ∣ ((client recv).sum + oddByte payload + 8 +
          carry (sentSum net recv pkt_type payload)) -
        (net.my_ip.sum + borrow (sentSum net recv pkt_type payload)) := by
  rw [← dummySum_sent net recv pkt_type payload hfit]
  have hs := dummySum_eq net recv pkt_type payload hfit
  have hsum : (words (checked (tcp_pkt_create net recv pkt_type payload))).sum =
      net.my_ip.sum + (client recv).sum + 6 + (20 + payload.length) +
        (words (tcpFront net recv pkt_type)).sum +
        (tcp_chksum net (unsummed net recv pkt_type payload) + 8) % 2 ^ 16 +
        (words payload).sum := by
    rw [tcp_pkt_create, checked_create, sum_pseudo, sum_segment]
    omega
  have hlt := dummySum_lt net recv pkt_type payload hfit
  rw [tcp_chksum] at hsum
  generalize dummySum net (unsummed net recv pkt_type payload) = s at hs hsum hlt ⊢
  have hres := chk_residue hlt
  have hkey : ((words (checked (tcp_pkt_create net recv pkt_type payload))).sum : ℤ) =
      ((foldOnce s + 8) % 2 ^ 16 : ℕ) + s - (8 + carry s - borrow s) +
        ((client recv).sum + oddByte payload + 8 + carry s - (net.my_ip.sum + borrow s)) := by
    omega
  rw [Valid, ocSum_eq_ones (words_lt _) (by omega), ← Int.natCast_dvd_natCast, hkey]
  exact dvd_add_right hres

end

def here : Net where
  mac_addr := Vector.replicate 6 0
  my_ip := ⟨10, 0, 1, 10⟩
  send_id := 0
  seq_num := 0

def packetFrom (d : UInt8) (i : ℕ) : UInt8 := ([0x45, 0, 10, 0, 1, d] : List UInt8).getD
  (if i = 14 then 0 else if 26 ≤ i ∧ i < 30 then i - 24 else 1) 0

/-- A segment without payload to 10.0.1.2, the one address of its network that the 8 stands for. -/
theorem checksum_valid_neighbour : Valid (tcp_pkt_create here (packetFrom 2) 0x12 []) := by
  refine (checksum_valid_iff here (packetFrom 2) 0x12 [] (by decide)).mpr ?_
  decide +kernel

/-- A segment without payload to 10.0.1.3 has a wrong checksum; so has one to 10.0.1.2 with one byte
  of payload. -/
theorem checksum_invalid :
    ¬ Valid (tcp_pkt_create here (packetFrom 3) 0x12 []) ∧
      ¬ Valid (tcp_pkt_create here (packetFrom 2) 0x18 [0x61]) := by
  decide +kernel

/-! ### Sequence numbers -/

def N2H_uint (value : ℕ) : ℕ :=
  (value % 2 ^ 8 * 2 ^ 24 + value / 2 ^ 8 % 2 ^ 8 * 2 ^ 8 * 2 ^ 8 +
    value / 2 ^ 16 % 2 ^ 8 * 2 ^ 16 / 2 ^ 8 + value / 2 ^ 24 % 2 ^ 8 * 2 ^ 24 / 2 ^ 24) % 2 ^ 32

def reversed (x : ℕ) : ℕ :=
  x % 2 ^ 8 * 2 ^ 24 + x / 2 ^ 8 % 2 ^ 8 * 2 ^ 16 + x / 2 ^ 16 % 2 ^ 8 * 2 ^ 8 + x / 2 ^ 24 % 2 ^ 8

theorem exists_bytes (hx : x < 2 ^ 32) : ∃ a b c d, a < 2 ^ 8 ∧ b < 2 ^ 8 ∧ c < 2 ^ 8 ∧
    d < 2 ^ 8 ∧ x = a + 2 ^ 8 * b + 2 ^ 16 * c + 2 ^ 24 * d :=
  ⟨x % 2 ^ 8, x / 2 ^ 8 % 2 ^ 8, x / 2 ^ 16 % 2 ^ 8, x / 2 ^ 24, by omega, by omega, by omega,
    by omega, by omega⟩

theorem reversed_bytes {a b c d : ℕ} (ha : a < 2 ^ 8) (hb : b < 2 ^ 8) (hc : c < 2 ^ 8)
    (hd : d < 2 ^ 8) : reversed (a + 2 ^ 8 * b + 2 ^ 16 * c + 2 ^ 24 * d) =
      d + 2 ^ 8 * c + 2 ^ 16 * b + 2 ^ 24 * a := by
  unfold reversed
  omega

theorem reversed_reversed (hx : x < 2 ^ 32) : reversed (reversed x) = x := by
  obtain ⟨a, b, c, d, ha, hb, hc, hd, rfl⟩ := exists_bytes hx
  rw [reversed_bytes ha hb hc hd, reversed_bytes hd hc hb ha]

theorem N2H_uint_eq (x : ℕ) : N2H_uint x = reversed x := by
  unfold N2H_uint reversed
  omega

theorem H2N_uint_eq_reversed (hx : x < 2 ^ 32) : H2N_uint x = reversed x ↔ x < 16 := by
  obtain ⟨a, b, c, d, ha, hb, hc, hd, rfl⟩ := exists_bytes hx
  have h0 : (a + 2 ^ 8 * b + 2 ^ 16 * c + 2 ^ 24 * d) % 2 ^ 4 = a % 2 ^ 4 := by omega
  have h1 : (a + 2 ^ 8 * b + 2 ^ 16 * c + 2 ^ 24 * d) / 2 ^ 4 % 2 ^ 4 = a / 2 ^ 4 := by omega
  have h2 : (a + 2 ^ 8 * b + 2 ^ 16 * c + 2 ^ 24 * d) / 2 ^ 8 % 2 ^ 4 = b % 2 ^ 4 := by omega
  rw [reversed_bytes ha hb hc hd, H2N_uint_nibbles, h0, h1, h2]
  clear h0 h1 h2
  constructor
  · intro h
    have ha : a / 2 ^ 4 = 0 := by omega
    have hb : b = 0 := by omega
    subst hb
    omega
  · intro h
    omega

/-- `N2H_uint` reverses the four bytes; `H2N_uint` does so, and is undone by it, below 16 only. -/
theorem uint_reversed (hx : x < 2 ^ 32) : N2H_uint x = reversed x ∧
    (H2N_uint x = reversed x ↔ x < 16) ∧ (N2H_uint (H2N_uint x) = x ↔ x < 16) ∧
    (H2N_uint (N2H_uint x) = x ↔ reversed x < 16) := by
  have hH : H2N_uint x < 2 ^ 32 := mod_lt _ (by decide)
  have hrev : reversed x < 2 ^ 32 := by
    unfold reversed
    omega
  refine ⟨N2H_uint_eq x, H2N_uint_eq_reversed hx, ?_, ?_⟩
  · rw [N2H_uint_eq, ← H2N_uint_eq_reversed hx]
    constructor
    · intro h
      rw [← reversed_reversed hH, h]
    · intro h
      rw [h, reversed_reversed hx]
  · rw [N2H_uint_eq, ← H2N_uint_eq_reversed hrev, reversed_reversed hx]

theorem uint_reversed_fifteen : N2H_uint (H2N_uint 15) = 15 :=
  (uint_reversed (x := 15) (by decide)).2.2.1.mpr (by decide)

theorem uint_not_reversed : N2H_uint (H2N_uint 16) ≠ 16 ∧ H2N_uint 16 ≠ reversed 16 ∧
    H2N_uint (N2H_uint 16) ≠ 16 := by
  decide

def TCP_CODEBITS_ACK : ℕ := 0x10
def TCP_CODEBITS_PSH : ℕ := 0x8
def TCP_CODEBITS_SYN : ℕ := 0x2
def TCP_CODEBITS_FIN : ℕ := 0x1

structure Conn where
  net : Net
  fin_flag : Bool

def http_proc : List UInt8 :=
  ("HTTP/1.0 200 OK \r\nContent-Type: text/html \r\n\r\nHello World!\r\n".toList).map
    fun c => ofNat c.toNat

def Net.sent (net : Net) (n k : ℕ) : Net :=
  { net with send_id := (net.send_id + n) % 2 ^ 16, seq_num := (net.seq_num + k) % 2 ^ 32 }

def codeBits (tcp : List UInt8) : ℕ := (tcp.getD 13 0).toNat

def received (recv : ℕ → UInt8) : List UInt8 := slice recv (tcpRecv recv) 20

/-- The frames sent. Whether the payload begins with GET decides only about a line on the console. -/
def tcp_proc (x : Conn) (recv : ℕ → UInt8) : List (List UInt8) × Conn :=
  let bits := codeBits (received recv)
  if bits &&& TCP_CODEBITS_SYN ≠ 0 then
    ([tcp_pkt_create x.net recv (TCP_CODEBITS_ACK + TCP_CODEBITS_SYN) []],
      { x with net := x.net.sent 1 1 })
  else if bits = TCP_CODEBITS_PSH + TCP_CODEBITS_ACK then
    ([tcp_pkt_create x.net recv TCP_CODEBITS_ACK [],
      tcp_pkt_create (x.net.sent 1 0) recv (TCP_CODEBITS_ACK + TCP_CODEBITS_PSH) http_proc],
      ⟨x.net.sent 2 1, true⟩)
  else if bits = TCP_CODEBITS_ACK ∧ x.fin_flag then
    ([tcp_pkt_create x.net recv TCP_CODEBITS_FIN []], ⟨x.net.sent 1 0, false⟩)
  else ([], x)

/-- The frames sent for a sequence of received packets, each with the packet it answers. -/
def serve (x : Conn) : List (ℕ → UInt8) → List ((ℕ → UInt8) × List UInt8)
  | [] => []
  | recv :: l => (tcp_proc x recv).1.map (recv, ·) ++ serve (tcp_proc x recv).2 l

def beLong (tcp : List UInt8) (o : ℕ) : ℕ :=
  2 ^ 24 * (tcp.getD o 0).toNat + 2 ^ 16 * (tcp.getD (o + 1) 0).toNat +
    2 ^ 8 * (tcp.getD (o + 2) 0).toNat + (tcp.getD (o + 3) 0).toNat

def payloadLen (recv : ℕ → UInt8) : ℕ :=
  totalLen (slice recv 14 20) - (recv 14).toNat % 2 ^ 4 * 4 -
    ((received recv).getD 12 0).toNat / 2 ^ 4 * 4

def span (frame : List UInt8) : ℕ :=
  frame.length - 54 + if codeBits (frame.drop 34) &&& (TCP_CODEBITS_SYN + TCP_CODEBITS_FIN) = 0
    then 0 else 1

structure Consistent (log : List ((ℕ → UInt8) × List UInt8)) : Prop where
  syn : ∀ p ∈ log, codeBits (received p.1) &&& TCP_CODEBITS_SYN ≠ 0 →
    beLong (p.2.drop 34) 8 = (beLong (received p.1) 4 + 1) % 2 ^ 32
  data : ∀ p ∈ log, codeBits (received p.1) &&& TCP_CODEBITS_SYN = 0 → 0 < payloadLen p.1 →
    beLong (p.2.drop 34) 8 = (beLong (received p.1) 4 + payloadLen p.1) % 2 ^ 32
  own : log.IsChain fun p q =>
    beLong (q.2.drop 34) 4 = (beLong (p.2.drop 34) 4 + span p.2) % 2 ^ 32

/-- A SYN whose sequence number has no carry out of its last byte, or a packet that is answered only
  when a FIN is due. -/
def Plain (recv : ℕ → UInt8) : Prop :=
  if codeBits (received recv) &&& TCP_CODEBITS_SYN = 0 then
    codeBits (received recv) ≠ TCP_CODEBITS_PSH + TCP_CODEBITS_ACK
  else beLong (received recv) 4 % 2 ^ 8 ≠ 255

theorem drop_create (net : Net) (recv : ℕ → UInt8) (t : ℕ) (payload : List UInt8) :
    ∃ chk, (tcp_pkt_create net recv t payload).drop 34 = segment net recv t payload chk := by
  refine ⟨_, drop_left' ?_⟩
  rw [length_append, length_ethHeader]
  rfl

theorem beLong_bytes32 (v : ℕ) : beLong (bytes32 v) 0 = reversed v := by
  have h : beLong (bytes32 v) 0 = 2 ^ 24 * (ofNat v).toNat +
    2 ^ 16 * (ofNat (v / 2 ^ 8)).toNat + 2 ^ 8 * (ofNat (v / 2 ^ 16)).toNat +
    (ofNat (v / 2 ^ 24)).toNat := rfl
  rw [h, reversed, toNat_ofNat', toNat_ofNat', toNat_ofNat', toNat_ofNat']
  omega

theorem seq_create (net : Net) (recv : ℕ → UInt8) (t : ℕ) (payload : List UInt8)
    (hseq : net.seq_num < 16) :
    beLong ((tcp_pkt_create net recv t payload).drop 34) 4 = net.seq_num := by
  obtain ⟨chk, h⟩ := drop_create net recv t payload
  have hfield : beLong (segment net recv t payload chk) 4 =
      beLong (bytes32 (H2N_uint net.seq_num)) 0 := rfl
  have hlt : net.seq_num < 2 ^ 32 := by omega
  rw [h, hfield, beLong_bytes32, (H2N_uint_eq_reversed hlt).mpr hseq, reversed_reversed hlt]

theorem ack_create (net : Net) {recv : ℕ → UInt8} (t : ℕ) (payload : List UInt8)
    (hlast : beLong (received recv) 4 % 2 ^ 8 ≠ 255) :
    beLong ((tcp_pkt_create net recv t payload).drop 34) 8 =
      (beLong (received recv) 4 + 1) % 2 ^ 32 := by
  obtain ⟨chk, h⟩ := drop_create net recv t payload
  have hr : beLong (received recv) 4 = 2 ^ 24 * (recv (tcpRecv recv + 4)).toNat +
    2 ^ 16 * (recv (tcpRecv recv + 5)).toNat + 2 ^ 8 * (recv (tcpRecv recv + 6)).toNat +
    (recv (tcpRecv recv + 7)).toNat := rfl
  have hfield : ∀ v rest, beLong (slice recv (tcpRecv recv + 2) 2 ++
      slice recv (tcpRecv recv) 2 ++ bytes32 (H2N_uint net.seq_num) ++ bytes32 v ++ rest) 8 =
      beLong (bytes32 v) 0 := fun _ _ => rfl
  have h4 := (recv (tcpRecv recv + 4)).toNat_lt
  have h5 := (recv (tcpRecv recv + 5)).toNat_lt
  have h6 := (recv (tcpRecv recv + 6)).toNat_lt
  have h7 := (recv (tcpRecv recv + 7)).toNat_lt
  rw [hr] at hlast
  rw [h, segment, tcpFront, append_assoc, append_assoc, append_assoc,
    append_assoc, hfield, hr, beLong_bytes32]
  generalize (recv (tcpRecv recv + 4)).toNat = a at *
  generalize (recv (tcpRecv recv + 5)).toNat = b at *
  generalize (recv (tcpRecv recv + 6)).toNat = c at *
  generalize (recv (tcpRecv recv + 7)).toNat = d at *
  have hd : (2 ^ 24 * a + 2 ^ 16 * b + 2 ^ 8 * c + d) % 2 ^ 8 = d := by omega
  rw [hd] at hlast
  clear hr hfield hd
  have hsum : (a + 2 ^ 8 * b + 2 ^ 16 * c + 2 ^ 24 * d + 2 ^ 24) % 2 ^ 32 =
      a + 2 ^ 8 * b + 2 ^ 16 * c + 2 ^ 24 * (d + 1) := by omega
  rw [hsum, reversed_bytes h4 h5 h6 (by omega)]
  omega

theorem span_syn (net : Net) (recv : ℕ → UInt8) :
    span (tcp_pkt_create net recv (TCP_CODEBITS_ACK + TCP_CODEBITS_SYN) []) = 1 := by
  obtain ⟨chk, h⟩ := drop_create net recv (TCP_CODEBITS_ACK + TCP_CODEBITS_SYN) []
  have hlen := congrArg List.length h
  rw [length_drop, length_segment] at hlen
  have hbits : codeBits (segment net recv (TCP_CODEBITS_ACK + TCP_CODEBITS_SYN) [] chk) =
      TCP_CODEBITS_ACK + TCP_CODEBITS_SYN := rfl
  rw [span, h, hbits, if_neg (by decide)]
  rw [length_nil] at hlen
  omega

theorem serve_plain {segs : List (ℕ → UInt8)} (hsegs : ∀ r ∈ segs, Plain r) {x : Conn}
    (hfin : x.fin_flag = false) (hseq : x.net.seq_num + segs.length ≤ 16) :
    (∀ p ∈ serve x segs, codeBits (received p.1) &&& TCP_CODEBITS_SYN ≠ 0 ∧
      beLong (p.2.drop 34) 8 = (beLong (received p.1) 4 + 1) % 2 ^ 32) ∧
    (∀ p ∈ (serve x segs).head?, beLong (p.2.drop 34) 4 = x.net.seq_num) ∧
    (serve x segs).IsChain fun p q =>
      beLong (q.2.drop 34) 4 = (beLong (p.2.drop 34) 4 + span p.2) % 2 ^ 32 := by
  induction segs generalizing x with
  | nil =>
    refine ⟨?_, ?_, List.IsChain.nil⟩
    · intro p hp
      cases hp
    · intro p hp
      cases hp
  | cons r l ih =>
    rw [length_cons] at hseq
    have hr := hsegs r mem_cons_self
    have hl : ∀ r ∈ l, Plain r := fun r hr => hsegs r (mem_cons_of_mem _ hr)
    by_cases hsyn : codeBits (received r) &&& TCP_CODEBITS_SYN = 0
    · -- no answer
      rw [Plain, if_pos hsyn] at hr
      have hproc : tcp_proc x r = ([], x) := by
        simp [tcp_proc, hsyn, hr, hfin]
      rw [serve, hproc]
      exact ih hl hfin (Nat.le_of_succ_le hseq)
    · rw [Plain, if_neg hsyn] at hr
      have hproc : tcp_proc x r =
          ([tcp_pkt_create x.net r (TCP_CODEBITS_ACK + TCP_CODEBITS_SYN) []],
            { x with net := x.net.sent 1 1 }) := if_pos hsyn
      have hnext : (x.net.sent 1 1).seq_num = x.net.seq_num + 1 :=
        Nat.mod_eq_of_lt (by omega)
      have hown := seq_create x.net r (TCP_CODEBITS_ACK + TCP_CODEBITS_SYN) [] (by omega)
      obtain ⟨hall, hhead, hchain⟩ := ih (x := { x with net := x.net.sent 1 1 }) hl hfin (by
        show (x.net.sent 1 1).seq_num + l.length ≤ 16
        omega)
      rw [serve, hproc]
      refine ⟨fun p hp => ?_, fun p hp => ?_, isChain_cons.mpr ⟨fun q hq => ?_, hchain⟩⟩
      · rcases mem_cons.mp hp with rfl | hp
        · exact ⟨hsyn, ack_create x.net _ [] hr⟩
        · exact hall p hp
      · cases hp
        exact hown
      · have hq := hhead q hq
        rw [hq, hown, span_syn, hnext]
        omega

/-- A server that is not closing a connection, and gets SYNs whose number does not end in 255 and
  segments that it does not answer, numbers and acknowledges consistently up to 16 segments. -/
theorem seq_consistent {segs : List (ℕ → UInt8)} (hsegs : ∀ r ∈ segs, Plain r) {x : Conn}
    (hfin : x.fin_flag = false) (hseq : x.net.seq_num + segs.length ≤ 16) :
    Consistent (serve x segs) := by
  obtain ⟨hall, -, hchain⟩ := serve_plain hsegs hfin hseq
  exact ⟨fun p hp _ => (hall p hp).2, fun p hp h => absurd h (hall p hp).1, hchain⟩

/-- A packet with a TCP header of 20 bytes behind an IPv4 header of 20: its code bits, the last byte
  of its sequence number, and its payload bytes. -/
def packetWith (bits last len : UInt8) (i : ℕ) : UInt8 :=
  if i = 14 then 0x45 else if i = 17 then 40 + len else if i = 41 then last
  else if i = 46 then 0x50 else if i = 47 then bits else 0

theorem seq_consistent_syns :
    Consistent (serve ⟨here, false⟩ [packetWith 2 7 0, packetWith 2 9 0]) := by
  refine seq_consistent (fun r hr => ?_) rfl (by decide)
  rcases mem_pair.mp hr with rfl | rfl
  · exact (by decide : beLong (received (packetWith 2 7 0)) 4 % 2 ^ 8 ≠ 255)
  · exact (by decide : beLong (received (packetWith 2 9 0)) 4 % 2 ^ 8 ≠ 255)

theorem seq_inconsistent : ¬ Consistent (serve ⟨here, false⟩ [packetWith 2 255 0]) ∧
    (serve ⟨here, false⟩ [packetWith 2 255 0]).map (fun p => beLong (p.2.drop 34) 8) = [0] ∧
    payloadLen (packetWith 0x18 0 18) = 18 ∧
    (serve ⟨here, false⟩ [packetWith 0x18 0 18, packetWith 0x10 18 0]).map
      (fun p => (beLong (p.2.drop 34) 4, p.2.length - 54, beLong (p.2.drop 34) 8)) =
        [(0, 0, 1), (0, 60, 1), (1, 0, 19)] := by
  have hack : (serve ⟨here, false⟩ [packetWith 2 255 0]).map (fun p => beLong (p.2.drop 34) 8) =
      [0] := by
    decide +kernel
  refine ⟨fun h => ?_, hack, by decide +kernel, by decide +kernel⟩
  have hsyn := h.syn _ mem_cons_self (by decide)
  revert hsyn
  decide +kernel

end Xv6.Tcp

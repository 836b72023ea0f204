import Xv6.Dev.Tcp

/-! @src icmp.c, icmp.h, ipv4.c, pkts_hdr.h | part:network | name:ICMP echo

  The reply to an echo request is a structure of fixed size, filled in from one laid over the
  request:

      0        14         34    42             50            98
      | eth    | ipv4     | echo | time_stamp  | data        |

  The request has 56 bytes behind its echo header only if its lengths say so; what a shorter one
  lacks is taken from the memory behind it, and what a longer one has besides is left out.
  `ipv4_proc` drops a packet that has the id of the last one or comes from this machine. -/

namespace Xv6.Tcp
open Schemes
open List hiding Vector

def ICMP_TYPE_ECHO_REQUEST : UInt8 := 0x8
def ICMP_TYPE_ECHO_REPLY : UInt8 := 0x0

def icmp_chksum (bin : List UInt8) : ℕ := 2 ^ 16 - 1 - addFolded 0 bin 32 % 2 ^ 16

section

variable (net : Net) (recv : ℕ → UInt8)

def icmpIpv4Header (chk_sum : ℕ) : List UInt8 :=
  [0x45, 0] ++ bytes16 (H2N_ushort (20 + 64)) ++ bytes16 net.send_id ++
    bytes16 (H2N_ushort 0x4000) ++ [255, 0x1] ++ bytes16 chk_sum ++ net.my_ip.bytes ++
    (client recv).bytes

/-- `struct icmp_echo_pkt` of the reply; `tcpRecv` is also where `icmp_recv` begins. -/
def icmpEcho (chk_sum : ℕ) : List UInt8 :=
  [ICMP_TYPE_ECHO_REPLY, 0] ++ bytes16 chk_sum ++ slice recv (tcpRecv recv + 4) 2 ++
    slice recv (tcpRecv recv + 6) 2 ++ slice recv (tcpRecv recv + 8) 8 ++
    slice recv (tcpRecv recv + 16) 48

/-- What `icmp_reply_pkt_create` leaves at `send_addr`, `*send_size` bytes. -/
def icmp_reply_pkt_create : List UInt8 :=
  ethHeader net recv ++
    icmpIpv4Header net recv (H2N_ushort (ipv4_chksum (icmpIpv4Header net recv 0))) ++
    icmpEcho recv (H2N_ushort (icmp_chksum (icmpEcho recv 0)))

def icmp_proc : Option (List UInt8) :=
  if recv (tcpRecv recv + 1) = 0 ∧ recv (tcpRecv recv) = ICMP_TYPE_ECHO_REQUEST then
    some (icmp_reply_pkt_create net recv)
  else none

end

/-! ### The checksums -/

theorem addFolded_eq {n : ℕ} {bin : List UInt8} {s : ℕ} (hlen : 2 * n = bin.length)
    (hs : s < 2 ^ 16) : addFolded s bin n = (words bin).foldl ocAdd s := by
  induction n generalizing bin s with
  | zero =>
    obtain rfl := eq_nil_of_length_eq_zero hlen.symm
    rfl
  | succ n ih =>
    obtain ⟨a, b, l, rfl⟩ : ∃ a b l, bin = a :: b :: l := by
      rcases bin with _ | ⟨a, _ | ⟨b, l⟩⟩
      · cases hlen
      · exact absurd hlen (by simp)
      · exact ⟨a, b, l, rfl⟩
    have ha := a.toNat_lt
    have hb := b.toNat_lt
    have hword : word (a :: b :: l) = a.toNat * 256 + b.toNat := rfl
    have hstep : (if 0xFFFF < s + word (a :: b :: l) then (s + word (a :: b :: l)) % 2 ^ 16 + 1
        else s + word (a :: b :: l)) = ocAdd s (a.toNat * 256 + b.toNat) := by
      rw [hword, ocAdd]
      split_ifs <;> omega
    have hlt : ocAdd s (a.toNat * 256 + b.toNat) < 2 ^ 16 := by
      rw [ocAdd]
      split_ifs <;> omega
    rw [length_cons, length_cons] at hlen
    rw [addFolded, hstep, words, foldl_cons, drop_succ_cons, drop_succ_cons,
      drop_zero, ih (by omega) hlt]

theorem ocSum_field {front back : List UInt8} {n : ℕ} (heven : front.length % 2 = 0)
    (hlen : 2 * n = (front ++ [0, 0] ++ back).length) :
    ocSum (words (front ++ bytes16 (H2N_ushort (2 ^ 16 - 1 -
      addFolded 0 (front ++ [0, 0] ++ back) n % 2 ^ 16)) ++ back)) = 0xFFFF := by
  have hsplit : ∀ u v : UInt8, (words (front ++ [u, v] ++ back)).sum =
      (words front).sum + (words [u, v]).sum + (words back).sum := by
    intro u v
    have huv : (front ++ [u, v]).length % 2 = 0 := by
      rw [length_append]
      exact (Nat.add_mod_right ..).trans heven
    rw [words_append huv, words_append heven, sum_append, sum_append]
  obtain ⟨hlt, hmod, hzero⟩ := foldl_ocAdd (words_lt (front ++ [0, 0] ++ back))
    (by decide : 0 < 2 ^ 16)
  rw [addFolded_eq hlen (by decide), bytes16_H2N]
  have h00 : (words [0, 0]).sum = 0 := rfl
  have hsum := hsplit 0 0
  generalize (words (front ++ [0, 0] ++ back)).foldl ocAdd 0 = s at *
  have hfield := words_field (2 ^ 16 - 1 - s % 2 ^ 16)
  have hval := hsplit (UInt8.ofNat ((2 ^ 16 - 1 - s % 2 ^ 16) / 2 ^ 8))
    (UInt8.ofNat (2 ^ 16 - 1 - s % 2 ^ 16))
  rw [hfield, sum_singleton] at hval
  rw [ocSum_eq_ones (words_lt _) (by omega), hval]
  omega

/-- The field that `ipv4_chksum` or `icmp_chksum` fills in makes the words sum to `0xFFFF`. -/
theorem checksums_verify :
    (∀ front back : List UInt8, front.length = 10 → 5 ≤ (front.getD 0 0).toNat % 2 ^ 4 →
      (front ++ [0, 0] ++ back).length = (front.getD 0 0).toNat % 2 ^ 4 * 4 →
      ocSum (words (front ++ bytes16 (H2N_ushort (ipv4_chksum (front ++ [0, 0] ++ back))) ++
        back)) = 0xFFFF) ∧
    ∀ front back : List UInt8, front.length = 2 → (front ++ [0, 0] ++ back).length = 64 →
      ocSum (words (front ++ bytes16 (H2N_ushort (icmp_chksum (front ++ [0, 0] ++ back))) ++
        back)) = 0xFFFF := by
  constructor
  · intro front back hfront _ hlen
    have hver : (front ++ [0, 0] ++ back).getD 0 0 = front.getD 0 0 := by
      rw [append_assoc, getD_append _ _ _ _ (by omega)]
    rw [ipv4_chksum, hver]
    exact ocSum_field (by rw [hfront]) (by omega)
  · intro front back hfront hlen
    exact ocSum_field (by rw [hfront]) (by omega)

/-- An echo request with the bytes 0 to 59. -/
theorem checksums_verify_echo : ocSum (words ([8, 0] ++
    bytes16 (H2N_ushort (icmp_chksum ([8, 0] ++ [0, 0] ++ (range 60).map UInt8.ofNat))) ++
    (range 60).map UInt8.ofNat)) = 0xFFFF :=
  checksums_verify.2 [8, 0] ((range 60).map UInt8.ofNat) rfl rfl

/-! ### The reply -/

theorem slice_congr {m m' : ℕ → UInt8} {o n k : ℕ} (h : ∀ i, i < k → m' i = m i)
    (hk : o + n ≤ k) : slice m' o n = slice m o n := by
  refine map_congr_left fun i hi => h _ ?_
  have := mem_range.mp hi
  omega

theorem drop_reply (net : Net) (recv : ℕ → UInt8) : ∃ chk,
    (icmp_reply_pkt_create net recv).drop 34 = icmpEcho recv chk := by
  refine ⟨_, drop_left' ?_⟩
  rw [length_append, length_ethHeader]
  rfl

/-- The reply has the identifier, sequence number and payload of the request, and depends on nothing
  behind it, exactly if the request has 56 bytes behind its echo header. -/
theorem echo_returned {net : Net} {recv : ℕ → UInt8} {frame : List UInt8}
    (hproc : icmp_proc net recv = some frame) :
    ((frame.drop 38).take 4 = slice recv (tcpRecv recv + 4) 4 ∧
    frame.drop 42 = slice recv (tcpRecv recv + 8)
      (totalLen (slice recv 14 20) - (recv 14).toNat % 2 ^ 4 * 4 - 8) ∧
    ∀ recv' : ℕ → UInt8, (∀ i, i < 14 + totalLen (slice recv 14 20) → recv' i = recv i) →
      icmp_proc net recv' = some frame) ↔
    totalLen (slice recv 14 20) = (recv 14).toNat % 2 ^ 4 * 4 + 8 + 56 := by
  rw [icmp_proc, Option.ite_none_right_eq_some, Option.some_inj] at hproc
  obtain ⟨⟨hcode, htype⟩, rfl⟩ := hproc
  obtain ⟨chk, hdrop⟩ := drop_reply net recv
  have hpay : (icmp_reply_pkt_create net recv).drop 42 = slice recv (tcpRecv recv + 8) 56 := by
    rw [show 42 = 34 + 8 from rfl, ← drop_drop, hdrop]
    rfl
  constructor
  · rintro ⟨-, hsame, -⟩
    rw [hpay] at hsame
    have hl : ∀ o n, (slice recv o n).length = n := fun o n => by simp [slice]
    have hlen := congrArg List.length hsame
    rw [hl, hl] at hlen
    omega
  intro hlen
  have hsub : totalLen (slice recv 14 20) - (recv 14).toNat % 2 ^ 4 * 4 - 8 = 56 := by omega
  refine ⟨?_, by rw [hsub, hpay], fun recv' h => ?_⟩
  · rw [show 38 = 34 + 4 from rfl, ← drop_drop, hdrop]
    rfl
  · have ho : tcpRecv recv' = tcpRecv recv := by
      rw [tcpRecv, tcpRecv, h 14 (by omega)]
    have hle : tcpRecv recv + 64 ≤ 14 + totalLen (slice recv 14 20) := by
      rw [tcpRecv]
      omega
    have hechoes : ∀ c, icmpEcho recv' c = icmpEcho recv c := by
      intro c
      rw [icmpEcho, icmpEcho, ho, slice_congr h (by omega), slice_congr h (by omega),
        slice_congr h (by omega), slice_congr h (by omega)]
    have hheads : ∀ c, icmpIpv4Header net recv' c = icmpIpv4Header net recv c := by
      intro c
      rw [icmpIpv4Header, icmpIpv4Header, client, client, h 26 (by omega), h 27 (by omega),
        h 28 (by omega), h 29 (by omega)]
    rw [icmp_proc, ho, h _ (by omega), h _ (by omega), if_pos ⟨hcode, htype⟩,
      icmp_reply_pkt_create, ethHeader, slice_congr h (by omega), hheads, hheads, hechoes, hechoes]
    rfl

/-- An echo request of `len` bytes from its IPv4 header on, with `b` in the memory behind it. -/
def request (len : ℕ) (b : UInt8) (i : ℕ) : UInt8 :=
  if 14 + len ≤ i then b else if i = 14 then 0x45 else if i = 17 then UInt8.ofNat len
  else if i = 34 then 8 else 0

theorem echo_returned_ping :
    ((icmp_reply_pkt_create here (request 84 1)).drop 42).length = 56 := by
  have hproc : icmp_proc here (request 84 1) = some _ := if_pos (by decide)
  have h := ((echo_returned hproc).mpr (by decide)).2.1
  rw [h]
  rfl

theorem echo_overread : totalLen (slice (request 28 1) 14 20) = 28 ∧
    ((icmp_reply_pkt_create here (request 28 1)).drop 42).length = 56 ∧
    (∀ i, i < 14 + 28 → request 28 2 i = request 28 1 i) ∧
    icmp_reply_pkt_create here (request 28 2) ≠ icmp_reply_pkt_create here (request 28 1) := by
  decide +kernel

/-! ### The packets of an interface -/

def IPV4_TYPE_ICMP : UInt8 := 1

structure Stack where
  ip_id : ℤ
  conn : Conn

def ipId (recv : ℕ → UInt8) : ℕ := (recv 18).toNat + 2 ^ 8 * (recv 19).toNat

def ipv4_proc (x : Stack) (recv : ℕ → UInt8) : List (List UInt8) × Stack :=
  if x.ip_id ≠ ipId recv ∧ client recv ≠ x.conn.net.my_ip then
    if recv 23 = IPV4_TYPE_ICMP then
      match icmp_proc x.conn.net recv with
      | none => ([], ⟨ipId recv, x.conn⟩)
      | some frame => ([frame], ⟨ipId recv, { x.conn with net := x.conn.net.sent 1 0 }⟩)
    else if recv 23 = IPV4_TYPE_TCP then
      ((tcp_proc x.conn recv).1, ⟨ipId recv, (tcp_proc x.conn recv).2⟩)
    else ([], ⟨ipId recv, x.conn⟩)
  else ([], x)

/-- The frames sent for a sequence of received ones, each with the one it answers. -/
def answers (x : Stack) : List (ℕ → UInt8) → List ((ℕ → UInt8) × List UInt8)
  | [] => []
  | recv :: l => (ipv4_proc x recv).1.map (recv, ·) ++ answers (ipv4_proc x recv).2 l

/-- From this machine to the sender of `recv`, with an IPv4 header that verifies. -/
structure Reply (mac : Vector UInt8 6) (ip : Ip) (recv : ℕ → UInt8) (frame : List UInt8) :
    Prop where
  dst : frame.take 6 = slice recv 6 6
  src : (frame.drop 6).take 6 = mac.toList
  header : ocSum (words ((frame.drop 14).take 20)) = 0xFFFF
  ips : (frame.drop 26).take 8 = ip.bytes ++ (client recv).bytes

/-- `frames` are replies to `recv`, and the addresses of the machine stay. -/
structure Replies (x : Conn) (recv : ℕ → UInt8) (frames : List (List UInt8)) (y : Conn) :
    Prop where
  reply : ∀ f ∈ frames, Reply x.net.mac_addr x.net.my_ip recv f
  mac : y.net.mac_addr = x.net.mac_addr
  ip : y.net.my_ip = x.net.my_ip

variable (net : Net) {recv : ℕ → UInt8}

theorem reply_of_header {front : List UInt8} (hf : front.length = 10) (h45 : front.getD 0 0 = 0x45)
    (rest : List UInt8) : Reply net.mac_addr net.my_ip recv (ethHeader net recv ++ (front ++
      bytes16 (H2N_ushort (ipv4_chksum (front ++ bytes16 0 ++ net.my_ip.bytes ++
        (client recv).bytes))) ++ net.my_ip.bytes ++ (client recv).bytes) ++ rest) := by
  have hsrc : (slice recv 6 6).length = 6 := by simp [slice]
  have heth := length_ethHeader net recv
  rw [append_assoc (front ++ bytes16 0), append_assoc (front ++ bytes16 (H2N_ushort _))]
  have hip : (net.my_ip.bytes ++ (client recv).bytes).length = 8 := rfl
  generalize hips : net.my_ip.bytes ++ (client recv).bytes = ips at hip ⊢
  have hver : (front ++ bytes16 0 ++ ips).getD 0 0 = 0x45 := by
    rw [append_assoc, getD_append _ _ _ _ (by omega), h45]
  generalize hchk : bytes16 (H2N_ushort (ipv4_chksum _)) = chk
  have hlen : chk.length = 2 := by rw [← hchk]; rfl
  constructor
  · simp only [ethHeader, append_assoc]
    exact take_left' hsrc
  · simp only [ethHeader, append_assoc]
    rw [drop_left' hsrc]
    exact take_left' (by simp)
  · rw [append_assoc, drop_left' heth, take_left' (by simp [hf, hlen, hip]),
      ← hchk, ipv4_chksum, hver]
    exact ocSum_field (by rw [hf]) (by simp [hf, hip])
  · have hassoc (e b : List UInt8) : e ++ (front ++ chk ++ b) ++ rest =
        e ++ (front ++ chk) ++ (b ++ rest) := by simp only [append_assoc]
    rw [hassoc, drop_left' (by simp [heth, hf, hlen]), hips]
    exact take_left' hip

theorem reply_tcp (pkt_type : ℕ) (payload : List UInt8) :
    Reply net.mac_addr net.my_ip recv (tcp_pkt_create net recv pkt_type payload) :=
  reply_of_header net rfl rfl _

theorem reply_icmp : Reply net.mac_addr net.my_ip recv (icmp_reply_pkt_create net recv) :=
  reply_of_header net rfl rfl _

theorem tcp_proc_replies (x : Conn) (recv : ℕ → UInt8) :
    Replies x recv (tcp_proc x recv).1 (tcp_proc x recv).2 := by
  unfold tcp_proc
  dsimp only
  split_ifs
  · exact ⟨forall_mem_singleton.mpr (reply_tcp _ _ _), rfl, rfl⟩
  · exact ⟨forall_mem_cons.mpr ⟨reply_tcp _ _ _,
      forall_mem_singleton.mpr (reply_tcp (x.net.sent 1 0) _ _)⟩, rfl, rfl⟩
  · exact ⟨forall_mem_singleton.mpr (reply_tcp _ _ _), rfl, rfl⟩
  · exact ⟨forall_mem_nil _, rfl, rfl⟩

theorem ipv4_proc_replies (x : Stack) (recv : ℕ → UInt8) :
    Replies x.conn recv (ipv4_proc x recv).1 (ipv4_proc x recv).2.conn := by
  unfold ipv4_proc icmp_proc
  split_ifs
  · exact ⟨forall_mem_singleton.mpr (reply_icmp _), rfl, rfl⟩
  · exact ⟨forall_mem_nil _, rfl, rfl⟩
  · exact tcp_proc_replies x.conn recv
  · exact ⟨forall_mem_nil _, rfl, rfl⟩
  · exact ⟨forall_mem_nil _, rfl, rfl⟩

/-- A packet changes nothing, or another host has sent it and it is remembered. -/
theorem ipv4_proc_cases (x : Stack) (recv : ℕ → UInt8) :
    ipv4_proc x recv = ([], x) ∨
      client recv ≠ x.conn.net.my_ip ∧ (ipv4_proc x recv).2.ip_id = ipId recv := by
  by_cases h : x.ip_id ≠ ipId recv ∧ client recv ≠ x.conn.net.my_ip
  · refine .inr ⟨h.2, ?_⟩
    unfold ipv4_proc icmp_proc
    rw [if_pos h]
    split_ifs <;> rfl
  · exact .inl (if_neg h)

/-- Whatever arrives, every frame sent answers one that another host has sent, goes back to it and
  has an IPv4 header that verifies; and a frame that arrives twice in a row is answered once. -/
theorem replies_verify (x : Stack) (l : List (ℕ → UInt8)) :
    (∀ p ∈ answers x l, p.1 ∈ l ∧ Reply x.conn.net.mac_addr x.conn.net.my_ip p.1 p.2 ∧
      client p.1 ≠ x.conn.net.my_ip) ∧
    ∀ recv, (ipv4_proc (ipv4_proc x recv).2 recv).1 = [] := by
  constructor
  · induction l generalizing x with
    | nil => exact forall_mem_nil _
    | cons recv l ih =>
      obtain ⟨hreply, hm, hi⟩ := ipv4_proc_replies x recv
      intro p hp
      rcases mem_append.mp hp with hp | hp
      · obtain ⟨f, hf, rfl⟩ := mem_map.mp hp
        refine ⟨mem_cons_self, hreply f hf, ?_⟩
        rcases ipv4_proc_cases x recv with h | h
        · rw [h] at hf
          cases hf
        · exact h.1
      · obtain ⟨hmem, hr, hne⟩ := ih _ p hp
        -- the machine has kept its addresses
        rw [hm, hi] at hr
        exact ⟨mem_cons_of_mem _ hmem, hr, hi ▸ hne⟩
  · intro recv
    rcases ipv4_proc_cases x recv with h | h
    · rw [h, h]
    · exact congrArg Prod.fst (if_neg fun hc => hc.1 h.2)

end Xv6.Tcp

import Xv6.Fs.Inode
import Mathlib.Data.List.GetD

/-! @src fs.c | part:block ownership | scheme:prog

  Who names which block. A slot is a place where an inode keeps a block number: its `bn`-th block,
  wherever the address is stored, or the address of its indirect block. In a consistent file system
  no two slots name the same block, the bitmap marks the blocks named and the metadata, and there is
  a block for every byte below `size`.

  Allocation fills an empty slot with a zeroed block; an empty slot reads as zeros, so this changes
  no contents. -/

namespace Xv6.Fs
open Nat
open Schemes Prog
open Function
open List (range)
open List

inductive Slot where
  | blk (i bn : ℕ)
  | root (i : ℕ)
  deriving DecidableEq

def Slot.inum : Slot → ℕ
  | .blk i _ | .root i => i

def name (s : St) : Slot → ℕ
  | .root i => (s.inode i).addrs NDIRECT
  | .blk i bn =>
    if bn < NDIRECT then (s.inode i).addrs bn
    else if (s.inode i).addrs NDIRECT = 0 then 0
    else entry (s.data ((s.inode i).addrs NDIRECT)) (bn - NDIRECT)

def Live (s : St) (i : ℕ) : Prop := (s.inode i).type ≠ 0

def Valid (s : St) : Slot → Prop
  | .root i => Live s i
  | .blk i bn => Live s i ∧ bn < MAXFILE

variable {sb : Super}

structure Owned (sb : Super) (s : St) : Prop where
  inj : ∀ t t', Valid s t → Valid s t' → name s t ≠ 0 → name s t = name s t' → t = t'
  area : ∀ t, Valid s t → name s t ≠ 0 → sb.nmeta ≤ name s t ∧ name s t < sb.size
  used : ∀ b, b < sb.size → (s.used b = true ↔ b < sb.nmeta ∨ ∃ t, Valid s t ∧ name s t = b)
  full : ∀ i bn, Live s i → bn * BSIZE < (s.inode i).size → name s (.blk i bn) ≠ 0
  bound : ∀ i, Live s i → (s.inode i).size ≤ MAXFILE * BSIZE

def content (s : St) (i k : ℕ) : UInt8 :=
  if name s (.blk i (k / BSIZE)) = 0 then 0
  else byteAt (s.data (name s (.blk i (k / BSIZE)))) (k % BSIZE)

variable {s s' s'' : St} {i j b bn : ℕ} {t : Slot}

theorem Valid.live : ∀ {t : Slot}, Valid s t → Live s t.inum
  | .root _, h => h
  | .blk _ _, h => h.1

theorem Owned.used_of_name (h : Owned sb s) (ht : Valid s t) (hn : name s t ≠ 0) :
    s.used (name s t) = true :=
  (h.used _ (h.area t ht hn).2).mpr (.inr ⟨t, ht, rfl⟩)

theorem Owned.lt_maxfile (h : Owned sb s) (hi : Live s i) (hlt : bn * BSIZE < (s.inode i).size) :
    bn < MAXFILE :=
  Nat.lt_of_mul_lt_mul_right (hlt.trans_le (h.bound i hi))

/-! ### Filling a slot -/

theorem Owned.of_empty (hinode : ∀ i, (s.inode i).size = 0 ∧ (s.inode i).addrs = fun _ => 0)
    (hused : ∀ b, s.used b = true ↔ b < sb.nmeta) : Owned sb s := by
  have hname : ∀ t, name s t = 0 := by
    intro t
    cases t <;> simp [name, (hinode _).2]
  refine ⟨fun t _ _ _ hn => absurd (hname t) hn, fun t _ hn => absurd (hname t) hn, fun b _ => ?_,
    fun i bn _ hlt => absurd hlt (by simp [(hinode i).1]), fun i _ => by simp [(hinode i).1]⟩
  refine (hused b).trans ⟨.inl, ?_⟩
  rintro (hlow | ⟨t, _, rfl⟩)
  · exact hlow
  · rw [hname]
    exact sb.nmeta_pos

structure Filled (s : St) (t : Slot) (b : ℕ) (s' : St) : Prop where
  names : ∀ t', Valid s t' → name s' t' = if t' = t then b else name s t'
  used : s'.used = update s.used b true
  zero : s'.data b = fun _ => 0
  data : ∀ i bn, Valid s (.blk i bn) → name s (.blk i bn) ≠ 0 →
    s'.data (name s (.blk i bn)) = s.data (name s (.blk i bn))
  type : ∀ j, (s'.inode j).type = (s.inode j).type
  size : ∀ j, (s'.inode j).size = (s.inode j).size

theorem valid_of_type (h : ∀ j, (s'.inode j).type = (s.inode j).type) (t : Slot) :
    Valid s' t ↔ Valid s t := by
  cases t <;> simp only [Valid, Live, h]

theorem Filled.owned (h : Owned sb s) (hf : Filled s t b s') (ht : Valid s t)
    (hempty : name s t = 0) (hfree : s.used b = false) (hb : b < sb.size) : Owned sb s' := by
  have hvalid := valid_of_type hf.type
  have hfresh : ∀ t', Valid s t' → name s t' ≠ 0 → name s t' ≠ b := by
    intro t' ht' hn hx
    have := h.used_of_name ht' hn
    rw [hx, hfree] at this
    cases this
  have hmeta : sb.nmeta ≤ b := by
    by_contra hlt
    have := (h.used b hb).mpr (.inl (Nat.not_le.mp hlt))
    rw [hfree] at this
    cases this
  refine ⟨?_, ?_, ?_, ?_, ?_⟩
  · intro u u' hu hu' hn heq
    rw [hvalid] at hu hu'
    rw [hf.names u hu] at hn heq
    rw [hf.names u' hu'] at heq
    split_ifs at hn heq with h1 h2 h2
    · rw [h1, h2]
    · exact absurd heq.symm (hfresh u' hu' (heq ▸ hn))
    · exact absurd heq (hfresh u hu hn)
    · exact h.inj u u' hu hu' hn heq
  · intro u hu hn
    rw [hvalid] at hu
    rw [hf.names u hu] at hn ⊢
    split_ifs at hn ⊢
    · exact ⟨hmeta, hb⟩
    · exact h.area u hu hn
  · intro c hc
    rw [hf.used, update_apply]
    split_ifs with hcb
    · refine iff_of_true rfl (.inr ⟨t, (hvalid t).mpr ht, ?_⟩)
      rw [hf.names t ht, if_pos rfl, hcb]
    · rw [h.used c hc]
      rcases lt_or_ge c sb.nmeta with hlow | hhigh
      · exact iff_of_true (.inl hlow) (.inl hlow)
      · have hc0 : c ≠ 0 := ne_of_gt (sb.nmeta_pos.trans_le hhigh)
        refine or_congr_right ⟨?_, ?_⟩
        · rintro ⟨u, hu, rfl⟩
          have hut : u ≠ t := fun hx => hc0 (hx ▸ hempty)
          refine ⟨u, (hvalid u).mpr hu, ?_⟩
          rw [hf.names u hu, if_neg hut]
        · rintro ⟨u, hu, hn⟩
          rw [hvalid] at hu
          rw [hf.names u hu] at hn
          split_ifs at hn with hut
          · exact absurd hn.symm hcb
          · exact ⟨u, hu, hn⟩
  · intro i bn hi hlt
    rw [hf.size] at hlt
    have hi' : Live s i := (hvalid (.root i)).mp hi
    rw [hf.names (.blk i bn) ⟨hi', h.lt_maxfile hi' hlt⟩]
    split_ifs
    · exact ne_of_gt (sb.nmeta_pos.trans_le hmeta)
    · exact h.full i bn hi' hlt
  · intro i hi
    rw [hf.size]
    exact h.bound i ((hvalid (.root i)).mp hi)

variable {k n : ℕ}

theorem Filled.content (hf : Filled s t b s') (hempty : name s t = 0) (hb : b ≠ 0) (hj : Live s j)
    (hk : k < MAXFILE * BSIZE) : content s' j k = content s j k := by
  have hv : Valid s (.blk j (k / BSIZE)) := ⟨hj, Nat.div_lt_of_lt_mul (by rwa [mul_comm])⟩
  unfold Fs.content
  rw [hf.names _ hv]
  by_cases hjt : Slot.blk j (k / BSIZE) = t
  · -- the new block reads as the empty slot did
    rw [if_pos hjt, hjt, hempty, if_neg hb, if_pos rfl, hf.zero]
    exact dif_pos (mod_lt _ (by decide))
  · rw [if_neg hjt]
    by_cases hn : name s (.blk j (k / BSIZE)) = 0
    · rw [if_pos hn, if_pos hn]
    · rw [if_neg hn, if_neg hn, hf.data _ _ hv hn]

/-! ### The three kinds of slots

  `balloc` marks and zeroes a block; then its number is stored. -/

def taken (s : St) (b : ℕ) : St :=
  { s with used := update s.used b true, data := update s.data b fun _ => 0 }

/-- `balloc` stops only when no block is free. -/
theorem balloc_cases (sb : Super) (s : St) :
    (balloc sb s = (.error "balloc: out of blocks", s) ∧ ∀ b < sb.size, s.used b = true) ∨
    ∃ b, b < sb.size ∧ s.used b = false ∧ balloc sb s = (.ok b, taken s b) := by
  cases hf : (range sb.size).find? (fun b => !s.used b) with
  | none =>
    refine .inl ⟨by simp [balloc, bind_apply, hf], fun b hb => ?_⟩
    simpa using List.find?_eq_none.mp hf b (mem_range.mpr hb)
  | some b =>
    right
    have hb : b < sb.size := mem_range.mp (List.mem_of_find?_eq_some hf)
    have hfree : s.used b = false := by simpa using List.find?_some hf
    refine ⟨b, hb, hfree, ?_⟩
    simp [balloc, bind_apply, hf, setUsed, bzero, setData, taken]

theorem taken_data_of_name (h : Owned sb s) (hfree : s.used b = false) {t' : Slot}
    (ht' : Valid s t') (hn : name s t' ≠ 0) : (taken s b).data (name s t') = s.data (name s t') := by
  refine update_of_ne (fun hx => ?_) _ _
  have := h.used_of_name ht' hn
  rw [hx, hfree] at this
  cases this

theorem name_direct (h : bn < NDIRECT) : name s (.blk i bn) = (s.inode i).addrs bn := if_pos h

theorem name_indirect (h : ¬ bn < NDIRECT) : name s (.blk i bn) =
    if (s.inode i).addrs NDIRECT = 0 then 0
    else entry (s.data ((s.inode i).addrs NDIRECT)) (bn - NDIRECT) := if_neg h

theorem name_same {u : St} (hi : u.inode j = s.inode j)
    (hd : (s.inode j).addrs NDIRECT ≠ 0 →
      u.data ((s.inode j).addrs NDIRECT) = s.data ((s.inode j).addrs NDIRECT)) :
    name u (.root j) = name s (.root j) ∧ ∀ bn, name u (.blk j bn) = name s (.blk j bn) := by
  refine ⟨?_, fun bn => ?_⟩
  · simp only [name, hi]
  · simp only [name, hi]
    by_cases hr : (s.inode j).addrs NDIRECT = 0
    · simp only [hr, if_true]
    · rw [hd hr]

def withAddr (s : St) (i k a : ℕ) : St :=
  { s with
    inode := update s.inode i
      { s.inode i with addrs := update (s.inode i).addrs k a } }

theorem withAddr_meta (s : St) (i k a j : ℕ) :
    ((withAddr s i k a).inode j).type = (s.inode j).type ∧
    ((withAddr s i k a).inode j).size = (s.inode j).size := by
  unfold withAddr
  rcases eq_or_ne j i with rfl | hj
  · simp only [update_self, and_self]
  · simp only [update_of_ne hj, and_self]

theorem withAddr_addrs (s : St) (i k a m : ℕ) :
    ((withAddr s i k a).inode i).addrs m = if m = k then a else (s.inode i).addrs m := by
  simp only [withAddr, update_self, update_apply]

def addrSlot (i k : ℕ) : Slot := if k < NDIRECT then .blk i k else .root i

theorem filled_withAddr (h : Owned sb s) (hi : Live s i) (hk : k ≤ NDIRECT)
    (hempty : (s.inode i).addrs k = 0) (hfree : s.used b = false) :
    Filled s (addrSlot i k) b (withAddr (taken s b) i k b) := by
  unfold addrSlot
  have hdata : ∀ t', Valid s t' → name s t' ≠ 0 →
      (withAddr (taken s b) i k b).data (name s t') = s.data (name s t') :=
    fun t' ht' hn => taken_data_of_name h hfree ht' hn
  have hother : ∀ j, j ≠ i → (withAddr (taken s b) i k b).inode j = s.inode j :=
    fun j hj => update_of_ne hj _ _
  refine ⟨?_, rfl, update_self _ _ _, fun j bn hv hn => hdata _ hv hn,
    fun j => (withAddr_meta _ i k b j).1, fun j => (withAddr_meta _ i k b j).2⟩
  intro t' ht'
  rcases eq_or_ne t'.inum i with hin | hin
  · have haddr := withAddr_addrs (taken s b) i k b
    cases t' with
    | root j =>
      obtain rfl : j = i := hin
      rw [show name (withAddr (taken s b) j k b) (.root j) = _ from haddr NDIRECT]
      rcases hk.lt_or_eq with hlt | rfl
      · rw [if_neg (ne_of_gt hlt), if_pos hlt, if_neg (by simp)]
        rfl
      · rw [if_pos rfl, if_neg (lt_irrefl _), if_pos rfl]
    | blk j bn =>
      obtain rfl : j = i := hin
      by_cases hbn : bn < NDIRECT
      · rw [name_direct hbn, name_direct hbn, haddr bn]
        by_cases hbk : bn = k
        · have hslot : Slot.blk j bn = if k < NDIRECT then .blk j k else .root j := by
            rw [← hbk, if_pos hbn]
          rw [if_pos hbk, if_pos hslot]
        · rw [if_neg hbk, if_neg]
          · rfl
          · split_ifs <;> simp [hbk]
      · rw [name_indirect hbn, name_indirect hbn, haddr NDIRECT]
        have hne : Slot.blk j bn ≠ if k < NDIRECT then .blk j k else .root j := by
          split_ifs with hlt
          · intro hx
            cases hx
            exact hbn hlt
          · simp
        rw [if_neg hne]
        rcases hk.lt_or_eq with hlt | rfl
        · rw [if_neg (ne_of_gt hlt)]
          by_cases hr : (s.inode j).addrs NDIRECT = 0
          · have hr' : ((taken s b).inode j).addrs NDIRECT = 0 := hr
            rw [if_pos hr, if_pos hr']
          · have hr' : ((taken s b).inode j).addrs NDIRECT ≠ 0 := hr
            rw [if_neg hr, if_neg hr']
            exact congrArg (entry · _) (hdata (.root j) hi hr)
        · -- the fresh indirect block has no entries
          rw [if_pos rfl, if_pos hempty]
          split_ifs with hb
          · rfl
          · rw [show (withAddr (taken s b) j NDIRECT b).data b = fun _ => 0 from
              update_self _ _ _]
            simp [entry, le32, byteAt]
  · have hne : t' ≠ if k < NDIRECT then .blk i k else .root i := by
      rintro rfl
      split_ifs at hin <;> exact hin rfl
    rw [if_neg hne]
    have hsame := name_same (s := s) (u := withAddr (taken s b) i k b) (hother t'.inum hin)
      fun hr => hdata (.root t'.inum) (Valid.live ht') hr
    cases t' with
    | root j => exact hsame.1
    | blk j bn => exact hsame.2 bn

def withEntry (s : St) (r j b : ℕ) : St :=
  { s with data := update s.data r (store (s.data r) (4 * j) (bytes32 b)) }

theorem entry_store (d : Block) {j : ℕ} (hj : j < NINDIRECT) {b : ℕ} (hb : b < 2 ^ 32) (m : ℕ) :
    entry (store d (4 * j) (bytes32 b)) m = if m = j then b else entry d m := by
  unfold entry
  split_ifs with hm
  · rw [hm, le32_store_same, mod_eq_of_lt hb]
    simp only [NINDIRECT, BSIZE] at hj ⊢
    omega
  · rw [le32_store_of_disjoint]
    rw [bytes32_length]
    omega

theorem filled_withEntry (h : Owned sb s) (hi : Live s i) (hbn : ¬ bn < NDIRECT)
    (hmax : bn < MAXFILE) (hr : (s.inode i).addrs NDIRECT ≠ 0) (hfree : s.used b = false)
    (hb : b < sb.size) : Filled s (.blk i bn) b
      (withEntry (taken s b) ((s.inode i).addrs NDIRECT) (bn - NDIRECT) b) := by
  have hroot : Valid s (.root i) := hi
  have hrb : (s.inode i).addrs NDIRECT ≠ b := fun hx => by
    have := h.used_of_name hroot hr
    rw [show name s (.root i) = b from hx, hfree] at this
    cases this
  have hind : bn - NDIRECT < NINDIRECT := by simp only [MAXFILE] at hmax; omega
  have hkeep : ∀ t', Valid s t' → name s t' ≠ 0 → t' ≠ .root i →
      (withEntry (taken s b) ((s.inode i).addrs NDIRECT) (bn - NDIRECT) b).data (name s t') =
        s.data (name s t') := by
    intro t' ht' hn hne
    refine (update_of_ne (fun hx => hne ?_) _ _).trans (taken_data_of_name h hfree ht' hn)
    exact h.inj t' (.root i) ht' hroot hn hx
  refine ⟨?_, rfl, ?_, fun j m hv hn => hkeep _ hv hn (by simp), fun _ => rfl, fun _ => rfl⟩
  · intro t' ht'
    rcases eq_or_ne t'.inum i with hin | hin
    · cases t' with
      | root j => rw [if_neg (by simp)]; rfl
      | blk j m =>
        obtain rfl : j = i := hin
        by_cases hm : m < NDIRECT
        · have hne : Slot.blk j m ≠ .blk j bn := fun hx => by cases hx; exact hbn hm
          rw [if_neg hne, name_direct hm, name_direct hm]
          rfl
        · have hdata : (withEntry (taken s b) ((s.inode j).addrs NDIRECT) (bn - NDIRECT) b).data
              ((s.inode j).addrs NDIRECT) =
              store (s.data ((s.inode j).addrs NDIRECT)) (4 * (bn - NDIRECT)) (bytes32 b) := by
            refine (update_self _ _ _).trans ?_
            rw [show (taken s b).data ((s.inode j).addrs NDIRECT) = _ from
              update_of_ne hrb _ _]
          rw [name_indirect hm, name_indirect hm, if_neg hr]
          refine (if_neg hr).trans ?_
          refine (congrArg (entry · (m - NDIRECT)) hdata).trans ?_
          rw [entry_store _ hind (hb.trans sb.size_lt)]
          have heq : m - NDIRECT = bn - NDIRECT ↔ Slot.blk j m = .blk j bn := by
            rw [Slot.blk.injEq]
            omega
          simp only [heq]
    · have hne : t' ≠ .blk i bn := fun hx => hin (hx ▸ rfl)
      have hsame := name_same (s := s) (j := t'.inum) (u := withEntry (taken s b)
        ((s.inode i).addrs NDIRECT) (bn - NDIRECT) b) rfl fun hx =>
          hkeep (.root t'.inum) (Valid.live ht') hx (by simpa using hin)
      rw [if_neg hne]
      cases t' with
      | root j => exact hsame.1
      | blk j m => exact hsame.2 m
  · exact (update_of_ne hrb.symm _ _).trans (update_self _ _ _)

/-! ### Reading and writing contents -/

/-- From `s` to `s'` the bytes `bs` were written to inode `i` at `off`, and nothing else changed in any
  contents; slots that named a block name it still. -/
structure Wrote (sb : Super) (i off : ℕ) (bs : List UInt8) (s s' : St) : Prop where
  owned : Owned sb s'
  names : ∀ t, Valid s t → name s t ≠ 0 → name s' t = name s t
  type : ∀ j, (s'.inode j).type = (s.inode j).type
  size : ∀ j, (s'.inode j).size = (s.inode j).size
  content : ∀ j k, Live s j → k < MAXFILE * BSIZE → content s' j k =
    if j = i ∧ off ≤ k ∧ k < off + bs.length then bs.getD (k - off) 0 else content s j k

variable {off : ℕ} {bs cs : List UInt8}

theorem Wrote.refl (h : Owned sb s) : Wrote sb i off [] s s where
  owned := h
  names := fun _ _ _ => rfl
  type := fun _ => rfl
  size := fun _ => rfl
  content := by
    intro j k _ _
    rw [length_nil, if_neg (by omega)]

theorem Wrote.live (h : Wrote sb i off bs s s') : Live s' j ↔ Live s j := by
  rw [Live, Live, h.type]

theorem Wrote.trans (h : Wrote sb i off bs s s') (h' : Wrote sb i (off + bs.length) cs s' s'') :
    Wrote sb i off (bs ++ cs) s s'' where
  owned := h'.owned
  names := by
    intro t ht hn
    have hname := h.names t ht hn
    rw [← hname]
    exact h'.names t ((valid_of_type h.type t).mpr ht) (hname ▸ hn)
  type := fun j => (h'.type j).trans (h.type j)
  size := fun j => (h'.size j).trans (h.size j)
  content := by
    intro j k hj hk
    rw [h'.content j k (h.live.mpr hj) hk, h.content j k hj hk, length_append]
    by_cases hji : j = i
    · by_cases hlow : k < off + bs.length
      · by_cases hoff : off ≤ k
        · rw [if_neg (by omega), if_pos ⟨hji, hoff, hlow⟩, if_pos ⟨hji, hoff, by omega⟩,
            getD_append _ _ _ _ (by omega)]
        · rw [if_neg (by omega), if_neg (by omega), if_neg (by omega)]
      · by_cases hhigh : k < off + bs.length + cs.length
        · rw [if_pos ⟨hji, by omega, hhigh⟩, if_pos ⟨hji, by omega, by omega⟩,
            getD_append_right _ _ _ _ (by omega), Nat.sub_sub]
        · rw [if_neg (by omega), if_neg (by omega), if_neg (by omega)]
    · rw [if_neg (by omega), if_neg (by omega), if_neg (by omega)]

theorem Filled.wrote (h : Owned sb s) (hf : Filled s t b s') (ht : Valid s t)
    (hempty : name s t = 0) (hfree : s.used b = false) (hb : b < sb.size) :
    Wrote sb i off [] s s' ∧ name s' t = b ∧ b ≠ 0 := by
  have hname : name s' t = b := by rw [hf.names t ht, if_pos rfl]
  have hb0 : b ≠ 0 := fun hx => by
    have := (h.used b hb).mpr (.inl (by rw [hx]; exact sb.nmeta_pos))
    rw [hfree] at this
    cases this
  refine ⟨⟨hf.owned h ht hempty hfree hb, fun u hu hn => ?_, hf.type, hf.size, ?_⟩, hname, hb0⟩
  · have hut : u ≠ t := fun hx => hn (hx ▸ hempty)
    rw [hf.names u hu, if_neg hut]
  · intro j k hj hk
    rw [length_nil, if_neg (by omega)]
    exact hf.content hempty hb0 hj hk

/-- The disk is exhausted: the only panic of the code here in a consistent file system. -/
def OutOfBlocks (msg : String) : Prop := msg = "balloc: out of blocks"

theorem balloc_ends (s : St) : Prog.Ends OutOfBlocks s (balloc sb)
    fun b s' => b < sb.size ∧ s.used b = false ∧ s' = taken s b := by
  rcases balloc_cases sb s with ⟨herr, _⟩ | ⟨b, hb, hfree, hok⟩
  · rw [Prog.Ends, herr]
    rfl
  · exact .ok hok ⟨hb, hfree, rfl⟩

theorem bmap_old (hbn : bn < MAXFILE) (hn : name s (.blk i bn) ≠ 0) :
    bmap sb i bn s = (.ok (name s (.blk i bn)), s) := by
  by_cases hd : bn < NDIRECT
  · rw [name_direct hd] at hn ⊢
    simp [bmap, addrAlloc, bind_apply, hd, hn]
  · have hind : bn - NDIRECT < NINDIRECT := by simp only [MAXFILE] at hbn; omega
    rw [name_indirect hd] at hn ⊢
    split_ifs at hn ⊢ with hr
    · exact absurd rfl hn
    · simp [bmap, addrAlloc, entryAlloc, bind_apply, hd, hind, hr, hn]

theorem addrSlot_valid (hi : Live s i) (hk : k ≤ NDIRECT) :
    Valid s (addrSlot i k) ∧ name s (addrSlot i k) = (s.inode i).addrs k := by
  unfold addrSlot
  split_ifs with hlt
  · exact ⟨⟨hi, by simp only [MAXFILE]; omega⟩, name_direct hlt⟩
  · obtain rfl : k = NDIRECT := by omega
    exact ⟨hi, rfl⟩

theorem addrAlloc_ends (off : ℕ) (h : Owned sb s) (hi : Live s i) (hk : k ≤ NDIRECT) :
    Prog.Ends OutOfBlocks s (addrAlloc sb i k) fun b s' => Wrote sb i off [] s s' ∧
      name s' (addrSlot i k) = b ∧ b ≠ 0 := by
  obtain ⟨hvalid, hname⟩ := addrSlot_valid hi hk
  refine .ok_bind rfl ?_
  by_cases hempty : (s.inode i).addrs k = 0
  · rw [if_pos hempty]
    refine (balloc_ends s).bind ?_
    rintro b _ ⟨hb, hfree, rfl⟩
    exact .ok rfl ((filled_withAddr h hi hk hempty hfree).wrote h hvalid (hname.trans hempty)
      hfree hb)
  · rw [if_neg hempty]
    exact .ok rfl ⟨.refl h, hname, hempty⟩

theorem entryAlloc_ends (off : ℕ) (h : Owned sb s) (hi : Live s i) (hd : ¬ bn < NDIRECT)
    (hbn : bn < MAXFILE)
    {r : ℕ} (hr : (s.inode i).addrs NDIRECT = r) (hr0 : r ≠ 0) :
    Prog.Ends OutOfBlocks s (entryAlloc sb r (bn - NDIRECT)) fun b s' => Wrote sb i off [] s s' ∧
      name s' (.blk i bn) = b ∧ b ≠ 0 := by
  have hname : name s (.blk i bn) = entry (s.data r) (bn - NDIRECT) := by
    rw [name_indirect hd, hr, if_neg hr0]
  refine .ok_bind rfl ?_
  by_cases hempty : entry (s.data r) (bn - NDIRECT) = 0
  · rw [if_pos hempty]
    refine (balloc_ends s).bind ?_
    rintro b _ ⟨hb, hfree, rfl⟩
    have hfill := filled_withEntry h hi hd hbn (hr ▸ hr0) hfree hb
    rw [hr] at hfill
    exact .ok rfl (hfill.wrote h ⟨hi, hbn⟩ (hname.trans hempty) hfree hb)
  · rw [if_neg hempty]
    exact .ok rfl ⟨.refl h, hname, hempty⟩

theorem bmap_ends (off : ℕ) (h : Owned sb s) (hi : Live s i) (hbn : bn < MAXFILE) :
    Prog.Ends OutOfBlocks s (bmap sb i bn) fun b s' => Wrote sb i off [] s s' ∧
      name s' (.blk i bn) = b ∧ b ≠ 0 := by
  unfold bmap
  by_cases hd : bn < NDIRECT
  · rw [if_pos hd]
    have := addrAlloc_ends off h hi hd.le
    rwa [addrSlot, if_pos hd] at this
  · have hind : bn - NDIRECT < NINDIRECT := by simp only [MAXFILE] at hbn; omega
    rw [if_neg hd, if_pos hind]
    refine (addrAlloc_ends off h hi le_rfl).bind ?_
    rintro r s1 ⟨hw, hr, hr0⟩
    rw [addrSlot, if_neg (lt_irrefl _)] at hr
    refine (entryAlloc_ends off hw.owned (hw.live.mpr hi) hd hbn hr hr0).post ?_
    rintro b s2 ⟨hw', hb⟩
    exact ⟨hw.trans hw', hb⟩

theorem chunk_pos (off : ℕ) (hn : n ≠ 0) : 0 < chunk off n := by
  have := mod_lt off (show 0 < BSIZE by decide)
  unfold chunk
  omega

theorem chunk_le (off n : ℕ) : chunk off n ≤ n ∧ off % BSIZE + chunk off n ≤ BSIZE := by
  have := mod_lt off (show 0 < BSIZE by decide)
  unfold chunk
  omega

theorem div_of_chunk (hlo : off ≤ k) (hhi : k < off + chunk off n) :
    k / BSIZE = off / BSIZE ∧ k % BSIZE = off % BSIZE + (k - off) := by
  have hle := (chunk_le off n).2
  have hdm := div_add_mod off BSIZE
  have hk : k = BSIZE * (off / BSIZE) + (off % BSIZE + (k - off)) := by omega
  have hlt : off % BSIZE + (k - off) < BSIZE := by omega
  constructor
  · rw [hk, mul_add_div (by decide), div_eq_of_lt hlt]
    omega
  · conv_lhs => rw [hk, mul_add_mod, mod_eq_of_lt hlt]

def withData (s : St) (b : ℕ) (d : Block) : St := { s with data := update s.data b d }

theorem name_withData (h : Owned sb s) (hv : Valid s (.blk i bn)) (d : Block) (ht : Valid s t) :
    name (withData s (name s (.blk i bn)) d) t = name s t := by
  have hsame := name_same (s := s) (j := t.inum) (u := withData s (name s (.blk i bn)) d) rfl
    fun hr => update_of_ne (fun hx => by
      have := h.inj (.root t.inum) (.blk i bn) ht.live hv hr hx
      cases this) _ _
  cases t with
  | root j => exact hsame.1
  | blk j m => exact hsame.2 m

theorem Owned.withData (h : Owned sb s) (hv : Valid s (.blk i bn)) (d : Block) :
    Owned sb (withData s (name s (.blk i bn)) d) := by
  have hname : ∀ u, Valid s u → name (Fs.withData s (name s (.blk i bn)) d) u = name s u :=
    fun u hu => name_withData h hv d hu
  refine ⟨fun u u' hu hu' => ?_, fun u hu => ?_, fun b hb => ?_, fun j m hj hlt => ?_, h.bound⟩
  · rw [hname u hu, hname u' hu']
    exact h.inj u u' hu hu'
  · rw [hname u hu]
    exact h.area u hu
  · refine (h.used b hb).trans (or_congr_right (exists_congr fun u => and_congr_right fun hu => ?_))
    rw [hname u hu]
  · rw [hname (.blk j m) ⟨hj, h.lt_maxfile hj hlt⟩]
    exact h.full j m hj hlt

theorem wrote_block (h : Owned sb s) (hi : Live s i) (hbs : bs.length = chunk off n)
    (hmax : off + bs.length ≤ MAXFILE * BSIZE) (hne : bs ≠ [])
    (hn : name s (.blk i (off / BSIZE)) ≠ 0) :
    Wrote sb i off bs s (withData s (name s (.blk i (off / BSIZE)))
      (store (s.data (name s (.blk i (off / BSIZE)))) (off % BSIZE) bs)) := by
  have hpos : 0 < bs.length := length_pos_iff.mpr hne
  have hv : Valid s (.blk i (off / BSIZE)) :=
    ⟨hi, Nat.div_lt_of_lt_mul (by rw [mul_comm]; omega)⟩
  refine ⟨h.withData hv _, fun t ht _ => name_withData h hv _ ht, fun _ => rfl, fun _ => rfl,
    fun j k hj hk => ?_⟩
  have hjk : Valid s (.blk j (k / BSIZE)) := ⟨hj, Nat.div_lt_of_lt_mul (by rwa [mul_comm])⟩
  unfold content
  rw [name_withData h hv _ hjk]
  by_cases hsame : Slot.blk j (k / BSIZE) = .blk i (off / BSIZE)
  · -- another byte of the block, or one of those written
    obtain ⟨rfl, hdiv⟩ := Slot.blk.inj hsame
    have hdm := div_add_mod off BSIZE
    have hdm' := div_add_mod k BSIZE
    have hmod := mod_lt k (show 0 < BSIZE by decide)
    have hdata : ∀ d, (withData s (name s (.blk j (off / BSIZE))) d).data
        (name s (.blk j (off / BSIZE))) = d := fun d => update_self _ _ _
    rw [hdiv, if_neg hn, if_neg hn, hdata, byteAt_store]
    rw [hdiv] at hdm'
    by_cases hin : off ≤ k ∧ k < off + bs.length
    · rw [if_pos ⟨by omega, by omega, hmod⟩, if_pos ⟨rfl, hin⟩]
      congr 1
      omega
    · rw [if_neg (by omega), if_neg (by omega)]
  · have hin : ¬ (j = i ∧ off ≤ k ∧ k < off + bs.length) := by
      rintro ⟨rfl, hlo, hhi⟩
      rw [hbs] at hhi
      exact hsame (by rw [(div_of_chunk hlo hhi).1])
    rw [if_neg hin]
    by_cases hz : name s (.blk j (k / BSIZE)) = 0
    · rw [if_pos hz, if_pos hz]
    · have hdata : (withData s (name s (.blk i (off / BSIZE)))
          (store (s.data (name s (.blk i (off / BSIZE)))) (off % BSIZE) bs)).data
          (name s (.blk j (k / BSIZE))) = s.data (name s (.blk j (k / BSIZE))) :=
        update_of_ne (fun hx => hsame (h.inj _ _ hjk hv hz hx)) _ _
      rw [if_neg hz, if_neg hz, hdata]

/-! ### The loops -/

theorem writeLoop_ends : ∀ (turns : ℕ) (s : St) (off : ℕ) (bs : List UInt8), Owned sb s → Live s i →
    off + bs.length ≤ MAXFILE * BSIZE → bs.length ≤ turns →
    Prog.Ends OutOfBlocks s (writeLoop sb i turns off bs) fun _ s' => Wrote sb i off bs s s' ∧
      ∀ k, off ≤ k → k < off + bs.length → name s' (.blk i (k / BSIZE)) ≠ 0
  | 0, s, off, bs, h, _, _, hturns => by
    obtain rfl : bs = [] := eq_nil_of_length_eq_zero (le_zero.mp hturns)
    exact .ok rfl ⟨.refl h, fun k hlo hhi => absurd hhi (Nat.not_lt.mpr hlo)⟩
  | turns + 1, s, off, bs, h, hi, hmax, hturns => by
    unfold writeLoop
    by_cases hempty : bs = []
    · rw [if_pos hempty, hempty]
      exact .ok rfl ⟨.refl h, fun k hlo hhi => absurd hhi (Nat.not_lt.mpr hlo)⟩
    · have hlen : bs.length ≠ 0 := fun hx => hempty (eq_nil_of_length_eq_zero hx)
      have hpos := chunk_pos off hlen
      have hle := (chunk_le off bs.length).1
      have htake : (bs.take (chunk off bs.length)).length = chunk off bs.length := by
        rw [length_take]
        omega
      have hdrop : (bs.drop (chunk off bs.length)).length = bs.length - chunk off bs.length :=
        length_drop
      rw [if_neg hempty]
      have hblk : off / BSIZE < MAXFILE := Nat.div_lt_of_lt_mul (by rw [mul_comm]; omega)
      refine (bmap_ends off h hi hblk).bind ?_
      rintro b s1 ⟨hw, rfl, hb0⟩
      refine .ok_bind rfl (.ok_bind rfl ?_)
      have hne : bs.take (chunk off bs.length) ≠ [] := fun hx => by
        rw [hx, length_nil] at htake
        omega
      have hi1 : Live s1 i := hw.live.mpr hi
      have hw1 := wrote_block (n := bs.length) hw.owned hi1 htake (by omega) hne hb0
      have hname1 := hw1.names (.blk i (off / BSIZE)) ⟨hi1, hblk⟩ hb0
      have hi2 := hw1.live.mpr hi1
      refine (writeLoop_ends turns _ _ _ hw1.owned hi2 (by omega) (by omega)).post ?_
      rintro _ s3 ⟨hw2, hcover⟩
      have hw3 : Wrote sb i off (bs.take (chunk off bs.length) ++ bs.drop (chunk off bs.length))
          s1 s3 := hw1.trans (by rw [htake]; exact hw2)
      rw [take_append_drop] at hw3
      refine ⟨hw.trans hw3, fun k hlo hhi => ?_⟩
      rcases lt_or_ge k (off + chunk off bs.length) with hk | hk
      · have hname3 := hw2.names (.blk i (off / BSIZE)) ⟨hi2, hblk⟩ (by rw [hname1]; exact hb0)
        rw [(div_of_chunk hlo hk).1, hname3, hname1]
        exact hb0
      · exact hcover k hk (by omega)

theorem map_content (hn : name s (.blk i (off / BSIZE)) ≠ 0) :
    (range (chunk off n)).map (fun k => byteAt (s.data (name s (.blk i (off / BSIZE))))
      (off % BSIZE + k)) = (range (chunk off n)).map fun k => content s i (off + k) := by
  refine map_congr_left fun k hk => ?_
  obtain ⟨hdiv, hmod⟩ := div_of_chunk (k := off + k) (n := n) (Nat.le_add_right off k)
    (by have := mem_range.mp hk; omega)
  rw [content, hdiv, if_neg hn, hmod, Nat.add_sub_cancel_left]

theorem readLoop_full : ∀ (turns off n : ℕ),
    (∀ bn, bn * BSIZE < off + n → bn < MAXFILE ∧ name s (.blk i bn) ≠ 0) → n ≤ turns →
    readLoop sb i turns off n s = (.ok ((range n).map fun k => content s i (off + k)), s)
  | 0, off, n, _, hturns => by
    obtain rfl : n = 0 := le_zero.mp hturns
    rfl
  | turns + 1, off, n, hfull, hturns => by
    unfold readLoop
    by_cases hn0 : n = 0
    · rw [if_pos hn0, hn0]
      rfl
    · have hpos := chunk_pos off hn0
      have hle := (chunk_le off n).1
      obtain ⟨hmax, hn⟩ := hfull (off / BSIZE) ((div_mul_le_self off BSIZE).trans_lt (by omega))
      have hrest := readLoop_full turns (off + chunk off n) (n - chunk off n)
        (fun bn hbn => hfull bn (by omega)) (by omega)
      rw [if_neg hn0, bind_apply, bmap_old hmax hn]
      simp only [bind_apply, get_apply, hrest, pure_apply, map_content hn]
      have hsplit : (range n).map (fun k => content s i (off + k)) =
          (range (chunk off n + (n - chunk off n))).map fun k => content s i (off + k) := by
        rw [Nat.add_sub_cancel' hle]
      rw [hsplit, range_add, map_append, map_map]
      simp only [comp_def, add_assoc]

theorem readLoop_run (h : Owned sb s) (hi : Live s i) (turns off n : ℕ)
    (hsize : off + n ≤ (s.inode i).size) (hturns : n ≤ turns) :
    readLoop sb i turns off n s = (.ok ((range n).map fun k => content s i (off + k)), s) := by
  refine readLoop_full turns off n (fun bn hbn => ?_) hturns
  have hlt := hbn.trans_le hsize
  exact ⟨h.lt_maxfile hi hlt, h.full i bn hi hlt⟩

end Xv6.Fs

import Mathlib.Data.Finset.Card
import Xv6.Dev.Tcp

/-! @src arp.c, arp.h | part:network | name:The ARP table

  `arp_table_search` returns the index of the entry with the address, and otherwise `-i - 1` for the
  first free entry `i`. With no free entry it returns 0, which `arp_table_update` takes for a hit in
  the first entry; and an entry never used has the address 0.0.0.0. -/

namespace Xv6.Arp
open Xv6.Tcp (Ip)
open Function
open Prod (fst)

def ARP_TABLE_MAX : ℕ := 64

abbrev Mac := Vector UInt8 6

/-- A row of the ARP table. -/
structure Entry where
  ip : Ip
  mac : Mac
  use : Bool

def Ip.zero : Ip := ⟨0, 0, 0, 0⟩

abbrev Table := ℕ → Entry

def arp_table : Table := fun _ => ⟨Ip.zero, Vector.replicate 6 0, false⟩

def searchFrom (t : Table) (ip : Ip) : ℕ → ℕ → ℤ → ℤ
  | 0, _, empty => empty - 1
  | k + 1, i, empty =>
    if (t i).ip = ip then i
    else searchFrom t ip k (i + 1) (if (t i).use = false ∧ empty = 1 then -i else empty)

/-- The row of an address, or a code for a free one. -/
def arp_table_search (t : Table) (ip : Ip) : ℤ := searchFrom t ip ARP_TABLE_MAX 0 1

def arp_table_update (t : Table) (recv : Ip × Mac) : Table :=
  let index := arp_table_search t recv.1
  if index > -1 then update t index.toNat { t index.toNat with mac := recv.2 }
  else update t (-(index + 1)).toNat ⟨recv.1, recv.2, true⟩

/-! ### The finite map -/

def put (f : Ip → Option Mac) (recv : Ip × Mac) : Ip → Option Mac := update f recv.1 (some recv.2)

structure Inv (t : Table) (m : ℕ) (f : Ip → Option Mac) : Prop where
  use : ∀ i, (t i).use = true ↔ i < m
  blank : ∀ i, m ≤ i → (t i).ip = Ip.zero
  inj : ∀ i j, i < m → j < m → (t i).ip = (t j).ip → i = j
  mac : ∀ i, i < m → f (t i).ip = some (t i).mac
  cover : ∀ ip, f ip ≠ none → ∃ i, i < m ∧ (t i).ip = ip

variable {t : Table} {ip : Ip} {m : ℕ} {f : Ip → Option Mac}

variable {i k : ℕ} {mac : Mac} {ups : List (Ip × Mac)}

theorem searchFrom_hit {h : ℕ} {empty : ℤ} (hle : i ≤ h) (hlt : h < i + k) (hhit : (t h).ip = ip)
    (hmiss : ∀ j, i ≤ j → j < h → (t j).ip ≠ ip) : searchFrom t ip k i empty = h := by
  induction k generalizing i empty with
  | zero => omega
  | succ k ih =>
    rw [searchFrom]
    by_cases hi : i = h
    · rw [hi, if_pos hhit]
    · rw [if_neg (hmiss i le_rfl (by omega))]
      exact ih (by omega) (by omega) fun j hj hj' => hmiss j (by omega) hj'

theorem searchFrom_found {empty : ℤ} (hmiss : ∀ j, (t j).ip ≠ ip) (he : empty ≠ 1) :
    searchFrom t ip k i empty = empty - 1 := by
  induction k generalizing i with
  | zero => rfl
  | succ k ih => rw [searchFrom, if_neg (hmiss i), if_neg fun h => he h.2, ih]

theorem searchFrom_free (hmiss : ∀ j, (t j).ip ≠ ip) (huse : ∀ i, (t i).use = true ↔ i < m)
    (hle : i ≤ m) (hm : m < i + k) : searchFrom t ip k i 1 = -m - 1 := by
  induction k generalizing i with
  | zero => omega
  | succ k ih =>
    rw [searchFrom, if_neg (hmiss i)]
    by_cases hi : i = m
    · have hfree : (t i).use = false := Bool.not_eq_true _ ▸ fun h => absurd ((huse i).mp h) (by omega)
      rw [if_pos ⟨hfree, rfl⟩, searchFrom_found hmiss (by omega), hi]
    · have hused : (t i).use = true := (huse i).mpr (by omega)
      rw [if_neg (by simp [hused])]
      exact ih (by omega) (by omega)

theorem Inv.set (h : Inv t m f) {m' : ℕ} (hm' : m' = max m (k + 1)) (hk : k ≤ m)
    (hself : k < m → (t k).ip = ip) (hold : ∀ j, j < m → j ≠ k → (t j).ip ≠ ip) :
    Inv (update t k ⟨ip, mac, true⟩) m' (put f (ip, mac)) := by
  have hat : update t k ⟨ip, mac, true⟩ k = ⟨ip, mac, true⟩ := update_self ..
  have hother : ∀ j, j ≠ k → update t k ⟨ip, mac, true⟩ j = t j := fun j hj => update_of_ne hj ..
  constructor
  · intro j
    by_cases hj : j = k
    · rw [hj, hat]
      simp [hm']
    · rw [hother j hj, h.use j]
      omega
  · intro j hj
    rw [hother j (by omega)]
    exact h.blank j (by omega)
  · intro i j hi hj hij
    by_cases hik : i = k
    · by_cases hjk : j = k
      · rw [hik, hjk]
      · rw [hik, hat, hother j hjk] at hij
        exact absurd hij.symm (hold j (by omega) hjk)
    · rw [hother i hik] at hij
      by_cases hjk : j = k
      · rw [hjk, hat] at hij
        exact absurd hij (hold i (by omega) hik)
      · rw [hother j hjk] at hij
        exact h.inj i j (by omega) (by omega) hij
  · intro j hj
    by_cases hjk : j = k
    · rw [hjk, hat, put, update_self]
    · rw [hother j hjk, put, update_of_ne (hold j (by omega) hjk)]
      exact h.mac j (by omega)
  · intro a ha
    by_cases hai : a = ip
    · exact ⟨k, by omega, by rw [hat, hai]⟩
    · rw [put, update_of_ne hai] at ha
      obtain ⟨j, hj, hja⟩ := h.cover a ha
      have hjk : j ≠ k := by
        rintro rfl
        exact hai (hja.symm.trans (hself hj))
      exact ⟨j, by omega, by rw [hother j hjk, hja]⟩

theorem Inv.update_hit (h : Inv t m f) (hm : m ≤ ARP_TABLE_MAX) (hi : i < m) (hip : (t i).ip = ip) :
    arp_table_update t (ip, mac) = update t i ⟨ip, mac, true⟩ ∧
      Inv (update t i ⟨ip, mac, true⟩) m (put f (ip, mac)) := by
  have hne : ∀ j, j < m → j ≠ i → (t j).ip ≠ ip := fun j hj hji hj' =>
    hji (h.inj j i hj hi (hj'.trans hip.symm))
  have hs : arp_table_search t ip = i :=
    searchFrom_hit (Nat.zero_le _) (by omega) hip fun j _ hj => hne j (by omega) (by omega)
  refine ⟨?_, h.set (by omega) (by omega) (fun _ => hip) hne⟩
  rw [arp_table_update, hs, if_pos (by omega), Int.toNat_natCast]
  simp only [hip, (h.use i).mpr hi]

theorem Inv.update_new (h : Inv t m f) (hm : m < ARP_TABLE_MAX) (hz : ip ≠ Ip.zero)
    (hnew : f ip = none) : arp_table_update t (ip, mac) = update t m ⟨ip, mac, true⟩ ∧
      Inv (update t m ⟨ip, mac, true⟩) (m + 1) (put f (ip, mac)) := by
  have hold : ∀ j, j < m → (t j).ip ≠ ip := by
    intro j hj hji
    have := h.mac j hj
    rw [hji, hnew] at this
    cases this
  have hmiss : ∀ j, (t j).ip ≠ ip := by
    intro j
    rcases Nat.lt_or_ge j m with hj | hj
    · exact hold j hj
    · rw [h.blank j hj]
      exact hz.symm
  have hs : arp_table_search t ip = -m - 1 :=
    searchFrom_free hmiss h.use (Nat.zero_le _) (by omega)
  have hidx : (-(-(m : ℤ) - 1 + 1)).toNat = m := by omega
  refine ⟨?_, h.set (by omega) le_rfl (fun hx => absurd hx (lt_irrefl m)) fun j hj _ => hold j hj⟩
  rw [arp_table_update, hs, if_neg (by omega), hidx]

/-! ### Whole runs -/

def table (ups : List (Ip × Mac)) : Table := ups.foldl arp_table_update arp_table

def latest (ups : List (Ip × Mac)) : Ip → Option Mac := ups.foldl put fun _ => none

def Fit (ups : List (Ip × Mac)) : Prop :=
  (∀ u ∈ ups, u.1 ≠ Ip.zero) ∧ (ups.map fst).toFinset.card ≤ ARP_TABLE_MAX

theorem latest_eq_none : latest ups ip = none ↔ ip ∉ (ups.map fst).toFinset := by
  induction ups using List.reverseRecOn with
  | nil => simp [latest]
  | append_singleton us u ih =>
    have hput : latest (us ++ [u]) = put (latest us) u := List.foldl_concat ..
    rw [hput, put]
    by_cases hu : ip = u.1
    · rw [hu, update_self]
      simp
    · rw [update_of_ne hu, ih]
      simp [hu]

theorem Fit.left {us vs : List (Ip × Mac)} (h : Fit (us ++ vs)) : Fit us := by
  refine ⟨fun u hu => h.1 u (List.mem_append_left _ hu), le_trans (Finset.card_le_card ?_) h.2⟩
  intro a ha
  rw [List.map_append, List.toFinset_append]
  exact Finset.mem_union_left _ ha

theorem table_concat {us : List (Ip × Mac)} {u : Ip × Mac} (h : Fit (us ++ [u]))
    (hinv : Inv (table us) (us.map fst).toFinset.card (latest us)) :
    (∃ i e, table (us ++ [u]) = update (table us) i e ∧
      ((table us i).use = true → (table us i).ip = u.1)) ∧
    Inv (table (us ++ [u])) ((us ++ [u]).map fst).toFinset.card (latest (us ++ [u])) := by
  have ht : table (us ++ [u]) = arp_table_update (table us) u := List.foldl_concat ..
  have hf : latest (us ++ [u]) = put (latest us) u := List.foldl_concat ..
  have hips : ((us ++ [u]).map fst).toFinset = insert u.1 (us.map fst).toFinset := by
    ext a
    simp
  have hcard := h.2
  rw [ht, hf, hips]
  by_cases hu : u.1 ∈ (us.map fst).toFinset
  · rw [Finset.insert_eq_of_mem hu]
    obtain ⟨i, hi, hip⟩ := hinv.cover u.1 fun hn => latest_eq_none.mp hn hu
    obtain ⟨hupd, hnext⟩ := hinv.update_hit h.left.2 hi hip
    exact ⟨⟨i, _, hupd, fun _ => hip⟩, hupd ▸ hnext⟩
  · rw [hips, Finset.card_insert_of_notMem hu] at hcard
    rw [Finset.card_insert_of_notMem hu]
    obtain ⟨hupd, hnext⟩ := hinv.update_new hcard (h.1 u (by simp)) (latest_eq_none.mpr hu)
    exact ⟨⟨_, _, hupd, fun huse => absurd ((hinv.use _).mp huse) (lt_irrefl _)⟩, hupd ▸ hnext⟩

theorem inv_table (h : Fit ups) :
    Inv (table ups) (ups.map fst).toFinset.card (latest ups) := by
  induction ups using List.reverseRecOn with
  | nil =>
    exact ⟨fun i => by simp [table, arp_table], fun _ _ => rfl, fun i j hi => absurd hi (by simp),
      fun i hi => absurd hi (by simp), fun a ha => absurd rfl ha⟩
  | append_singleton us u ih => exact (table_concat h (ih h.left)).2

/-- While it has room the table is a map to the hardware address last learnt: one entry for each
  address, with the latest value, none lost and none changed by the update of another. -/
theorem arp_refines (h : Fit ups) : (∀ i j, (table ups i).use = true → (table ups j).use = true →
      (table ups i).ip = (table ups j).ip → i = j) ∧
    (∀ i, (table ups i).use = true → latest ups (table ups i).ip = some (table ups i).mac) ∧
    (∀ ip, latest ups ip ≠ none →
      ∃ i, i < ARP_TABLE_MAX ∧ (table ups i).use = true ∧ (table ups i).ip = ip) ∧
    ∀ us u vs, ups = us ++ u :: vs → ∀ i, (table us i).use = true → (table us i).ip ≠ u.1 →
      table (us ++ [u]) i = table us i := by
  have hinv := inv_table h
  refine ⟨fun i j hi hj => hinv.inj i j ((hinv.use i).mp hi) ((hinv.use j).mp hj),
    fun i hi => hinv.mac i ((hinv.use i).mp hi), fun ip hip => ?_, ?_⟩
  · obtain ⟨i, hi, hiip⟩ := hinv.cover ip hip
    exact ⟨i, hi.trans_le h.2, (hinv.use i).mpr hi, hiip⟩
  · rintro us u vs rfl i hi hne
    rw [List.append_cons] at h
    obtain ⟨⟨j, e, ht, hj⟩, -⟩ := table_concat h.left (inv_table h.left.left)
    rw [ht, update_of_ne]
    rintro rfl
    exact hne (hj hi)

def neighbours (n : ℕ) : List (Ip × Mac) :=
  (List.range n).map fun i => (⟨10, 0, 1, UInt8.ofNat i⟩, Vector.replicate 6 (UInt8.ofNat i))

theorem arp_refines_two : latest (neighbours 2) (table (neighbours 2) 1).ip =
    some (table (neighbours 2) 1).mac := by
  have h : Fit (neighbours 2) := ⟨by decide, by decide⟩
  exact (arp_refines h).2.1 1 (by decide +kernel)

theorem arp_overwrites : latest (neighbours 65) ⟨10, 0, 1, 0⟩ = some (Vector.replicate 6 0) ∧
    (table (neighbours 65) 0).ip = ⟨10, 0, 1, 0⟩ ∧ (table (neighbours 65) 0).use = true ∧
    (table (neighbours 65) 0).mac = Vector.replicate 6 64 := by
  decide +kernel

end Xv6.Arp

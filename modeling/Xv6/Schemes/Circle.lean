import Mathlib.Algebra.Order.BigOperators.Group.Finset

/-! scheme:circle | name:Circular singly linked lists | used by:Umalloc

  One pointer map `f` on nodes. `Leads f l e` says that following `f` visits the nodes of `l` in
  order and then arrives at `e`; a circle through `b` is a list that starts with `b` and leads back
  to it. A circle can be entered at each of its nodes, and a search along `f` finds the one node
  where it stops.

      b --> x1 --> … --> xₙ --> b -/

namespace Xv6.Schemes
open List (cons)
open List

variable {β : Type*} {f g : β → β}

/-- Following `f` visits `l` in order and then arrives at `e`. -/
def Leads (f : β → β) : List β → β → Prop
  | [], _ => True
  | x :: l, e => f x = l.headD e ∧ Leads f l e

theorem headD_append (e : β) (l2 : List β) : ∀ l1 : List β,
    (l1 ++ l2).headD e = l1.headD (l2.headD e)
  | [] | _ :: _ => rfl

theorem leads_append {e : β} {l2 : List β} : ∀ {l1 : List β},
    Leads f (l1 ++ l2) e ↔ Leads f l1 (l2.headD e) ∧ Leads f l2 e
  | [] => by simp only [nil_append, Leads, true_and]
  | x :: l1 => by
    simp only [cons_append, Leads, headD_append, leads_append, and_assoc]

/-- A node in the middle of the way. -/
theorem leads_split {e p : β} {l1 l2 : List β} :
    Leads f (l1 ++ p :: l2) e ↔ Leads f l1 p ∧ f p = l2.headD e ∧ Leads f l2 e := leads_append

/-- Pointers outside the way do not matter. -/
theorem Leads.congr {e : β} : ∀ {l : List β}, Leads f l e → (∀ x ∈ l, g x = f x) → Leads g l e
  | [], _, _ => trivial
  | x :: _, h, hg =>
    ⟨(hg x (mem_cons_self ..)).trans h.1,
      h.2.congr fun y hy => hg y (mem_cons_of_mem _ hy)⟩

/-- The circle from another of its nodes. -/
theorem Leads.rotate {b p : β} {l : List β} (h : Leads f (b :: l) b) (hp : p ∈ b :: l) :
    ∃ l', Leads f (p :: l') p ∧ (p :: l').Perm (b :: l) := by
  obtain ⟨l1, l2, hl⟩ := append_of_mem hp
  cases l1 with
  | nil =>
    obtain ⟨rfl, rfl⟩ := cons.inj hl
    exact ⟨l, h, List.Perm.refl _⟩
  | cons c l1 =>
    obtain ⟨rfl, rfl⟩ := cons.inj hl
    have hsplit : Leads f ((b :: l1) ++ p :: l2) b := h
    rw [leads_append] at hsplit
    refine ⟨l2 ++ b :: l1, ?_, ?_⟩
    · have hcirc : Leads f ((p :: l2) ++ b :: l1) p := leads_append.mpr ⟨hsplit.2, hsplit.1⟩
      exact hcirc
    · have hcomm : ((p :: l2) ++ (b :: l1)).Perm ((b :: l1) ++ (p :: l2)) := perm_append_comm
      exact hcomm

/-- The successor of a node of an increasing circle is the next larger node; only the largest node
  leads back to the start. -/
theorem Leads.next_cases [LinearOrder β] {b x : β} {l : List β} (h : Leads f l b)
    (hs : l.Pairwise (· < ·)) (hx : x ∈ l) :
    (f x = b ∧ ∀ y ∈ l, y ≤ x) ∨ (f x ∈ l ∧ x < f x ∧ ∀ y ∈ l, y ≤ x ∨ f x ≤ y) := by
  obtain ⟨l1, l2, rfl⟩ := append_of_mem hx
  obtain ⟨_, hfx, _⟩ := leads_split.mp h
  obtain ⟨_, hs2, hs1⟩ := pairwise_append.mp hs
  obtain ⟨hx2, hs2⟩ := pairwise_cons.mp hs2
  have hlow : ∀ y ∈ l1, y ≤ x := fun y hy => (hs1 y hy x (mem_cons_self ..)).le
  cases l2 with
  | nil =>
    refine .inl ⟨hfx, fun y hy => ?_⟩
    rcases mem_append.mp hy with hy | hy
    · exact hlow y hy
    · exact (mem_singleton.mp hy).le
  | cons c l2 =>
    have hfx : f x = c := hfx
    rw [hfx]
    refine .inr ⟨by simp, hx2 c (mem_cons_self ..), fun y hy => ?_⟩
    rcases mem_append.mp hy with hy | hy
    · exact .inl (hlow y hy)
    · rcases mem_cons.mp hy with rfl | hy
      · exact .inl le_rfl
      · rcases mem_cons.mp hy with rfl | hy
        · exact .inr le_rfl
        · exact .inr ((pairwise_cons.mp hs2).1 y hy).le

/-- The last node below a value that an increasing list does not hold. -/
theorem exists_pred [LinearOrder β] {q : β} : ∀ {l : List β} {b : β}, (b :: l).Pairwise (· < ·) →
    b < q → q ∉ l → ∃ l1 p l2, b :: l = l1 ++ p :: l2 ∧ p < q ∧ ∀ y ∈ l2, q < y
  | [], b, _, hb, _ => ⟨[], b, [], rfl, hb, fun _ hy => absurd hy (by simp)⟩
  | c :: l, b, hs, hb, hq => by
    obtain ⟨_, hs⟩ := pairwise_cons.mp hs
    rcases lt_trichotomy q c with hqc | rfl | hqc
    · refine ⟨[], b, c :: l, rfl, hb, fun y hy => ?_⟩
      rcases mem_cons.mp hy with rfl | hy
      · exact hqc
      · exact hqc.trans ((pairwise_cons.mp hs).1 y hy)
    · exact absurd (mem_cons_self ..) hq
    · obtain ⟨l1, p, l2, hl, hp, hy⟩ :=
        exists_pred hs hqc fun hm => hq (mem_cons_of_mem _ hm)
      exact ⟨b :: l1, p, l2, by rw [hl, cons_append], hp, hy⟩

/-- Follow `f` until `stop` holds; `none` if `n` nodes were not enough. -/
def seek (stop : β → Bool) (f : β → β) : ℕ → β → Option β
  | 0, _ => none
  | n + 1, p => if stop p then some p else seek stop f n (f p)

/-- A search finds the one node on its way where it stops. -/
theorem Leads.seek {stop : β → Bool} {e t : β} : ∀ {l : List β} {p : β} {n : ℕ},
    Leads f (p :: l) e → t ∈ p :: l → (∀ x ∈ p :: l, stop x = true ↔ x = t) → l.length < n →
    seek stop f n p = some t
  | l, p, n + 1, h, ht, hstop, hn => by
    rw [Schemes.seek]
    split_ifs with hp
    · rw [(hstop p (mem_cons_self ..)).mp hp]
    · have hpt : t ≠ p := fun heq => hp ((hstop p (mem_cons_self ..)).mpr heq.symm)
      have ht : t ∈ l := (mem_cons.mp ht).resolve_left hpt
      cases l with
      | nil => exact absurd ht (by simp)
      | cons y l =>
        have hy : f p = y := h.1
        rw [hy]
        refine h.2.seek ht (fun x hx => hstop x (mem_cons_of_mem _ hx)) ?_
        rw [length_cons] at hn
        omega

end Xv6.Schemes

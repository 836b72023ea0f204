import Mathlib.Tactic

/-! scheme:exclusive | name:Exclusive ownership | used by:Vm

  Owners hold things, at most one each, and nothing is held twice: a partial injection. A thing
  changes hands by a move from one owner to another; owners may disappear. -/

namespace Xv6.Schemes

variable {α α' β : Type*}

/-- Nothing is held by two owners. -/
def Exclusive (h : α → Option β) : Prop := ∀ a b p, h a = some p → h b = some p → a = b

/-- Owners let go. -/
theorem Exclusive.of_le {h h' : α → Option β} (he : Exclusive h)
    (hle : ∀ x p, h' x = some p → h x = some p) : Exclusive h' :=
  fun a b p ha hb => he a b p (hle a p ha) (hle b p hb)

/-- `p` goes from `a` to `b`; other owners keep what they have or let go. -/
theorem Exclusive.of_move {h h' : α → Option β} {a b : α} {p : β} (he : Exclusive h)
    (ha : h a = some p)
    (hm : ∀ x q, h' x = some q → (x = b ∧ q = p) ∨ (x ≠ a ∧ h x = some q)) : Exclusive h' := by
  intro x y q hx hy
  rcases hm x q hx with ⟨rfl, rfl⟩ | ⟨hxa, hx'⟩
  · rcases hm y q hy with ⟨rfl, _⟩ | ⟨hya, hy'⟩
    · rfl
    · exact absurd (he y a q hy' ha) hya
  · rcases hm y q hy with ⟨rfl, rfl⟩ | ⟨_, hy'⟩
    · exact absurd (he x a q hx' ha) hxa
    · exact he x y q hx' hy'

/-- Owners are renamed: what `x` holds, some `y` under whose name nobody else stands held before. -/
theorem Exclusive.of_rel {h : α → Option β} {h' : α' → Option β} (he : Exclusive h)
    (R : α' → α → Prop) (hR : ∀ x x' y, R x y → R x' y → x = x')
    (hold : ∀ x p, h' x = some p → ∃ y, R x y ∧ h y = some p) : Exclusive h' := by
  intro a b p ha hb
  obtain ⟨y, hay, hy⟩ := hold a p ha
  obtain ⟨z, hbz, hz⟩ := hold b p hb
  obtain rfl := he y z p hy hz
  exact hR a b y hay hbz

end Xv6.Schemes

import Mathlib.Data.List.Nodup
import Mathlib.Data.List.Basic
import Mathlib.Logic.Function.Basic

/-! scheme:chain | name:Singly linked lists | used by:Ide

  One pointer map `next`: `next none` is the head pointer and `next (some x)` the pointer stored in
  node `x`. A pointer to a pointer is an argument of the map, so that walking with `pp` is applying
  the map again and again.

      none --> x1 --> x2 --> … --> xₙ --> ∅ -/

namespace Xv6.Schemes
open Function

variable {α : Type*} {next : Option α → Option α} {x : α} {a : Option α} {l : List α}

/-- From the pointer `a` on, the pointers run through `l` and end. -/
def Chain (next : Option α → Option α) : Option α → List α → Prop
  | a, [] => next a = none
  | a, x :: l => next a = some x ∧ Chain next (some x) l

def last : Option α → List α → Option α
  | a, [] => a
  | _, x :: l => last (some x) l

theorem last_mem : ∀ (a : Option α) (l : List α), last a l ∈ a :: l.map some
  | a, [] => by simp [last]
  | a, x :: l => List.mem_cons_of_mem _ (last_mem (some x) l)

theorem last_append_singleton : ∀ (a : Option α) (l : List α), last a (l ++ [x]) = some x
  | _, [] => rfl
  | _, y :: l => last_append_singleton (some y) l

/-- Only the pointers on the way matter. -/
theorem Chain.congr {f : Option α → Option α} : ∀ {a : Option α} {l : List α},
    Chain next a l → (∀ y ∈ a :: l.map some, f y = next y) → Chain f a l
  | a, [], h, hf => (hf a (by simp)).trans h
  | a, y :: l, ⟨h, hl⟩, hf =>
    ⟨(hf a (by simp)).trans h, hl.congr fun z hz => hf z (List.mem_cons_of_mem _ hz)⟩

/-- What a walk has still before it. -/
theorem Chain.drop : ∀ {a : Option α} {pre post : List α},
    Chain next a (pre ++ post) → Chain next (last a pre) post
  | _, [], _, h => h
  | _, _ :: _, _, h => h.2.drop

variable [DecidableEq α]

/-- A node with an empty pointer is put at the end. -/
theorem Chain.snoc : ∀ {a : Option α} {l : List α}, Chain next a l → (a :: l.map some).Nodup →
    some x ∉ a :: l.map some → next (some x) = none →
    Chain (update next (last a l) (some x)) a (l ++ [x])
  | a, [], h, _, hx, hn => by
    have hax : some x ≠ a := fun heq => hx (by simp [heq])
    exact ⟨update_self .., (update_of_ne hax _ _).trans hn⟩
  | a, y :: l, ⟨h, hl⟩, hd, hx, hn => by
    have hlast : a ≠ last (some y) l := by
      rintro rfl
      exact (List.nodup_cons.mp hd).1 (last_mem (some y) l)
    refine ⟨(update_of_ne hlast _ _).trans h, ?_⟩
    exact hl.snoc (List.nodup_cons.mp hd).2 (fun hm => hx (List.mem_cons_of_mem _ hm)) hn

/-- The first node is taken off. -/
theorem Chain.pop (h : Chain next a (x :: l)) (hd : (a :: (x :: l).map some).Nodup) :
    Chain (update next a (next (some x))) a l := by
  obtain ⟨hmem, -⟩ := List.nodup_cons.mp hd
  cases l with
  | nil => exact (update_self ..).trans h.2
  | cons y l =>
    refine ⟨(update_self ..).trans h.2.1, h.2.2.congr fun z hz => ?_⟩
    refine update_of_ne ?_ _ _
    rintro rfl
    exact hmem (List.mem_cons_of_mem _ hz)

end Xv6.Schemes

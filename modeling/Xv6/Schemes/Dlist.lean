import Mathlib.Tactic
import Mathlib.Data.List.Nodup
import Mathlib.Logic.Function.Basic

/-! scheme:dlist | name:Circular doubly linked lists | used by:Cache

  Two pointer maps `next` and `prev` on nodes: the head is `none`, an element `x` is `some x`. They
  link a list when following `next` from the head visits its elements in order and comes back to the
  head, and `prev` is the way back.

      none ⇄ some x1 ⇄ some x2 ⇄ … ⇄ some xₙ ⇄ none

  Every operation replaces one edge by two or two by one. -/

namespace Xv6.Schemes
open Function
open List (map_reverse)
open List hiding swap
open Prod (swap fst snd)

variable {α β : Type*}

/-- The pairs of neighbours on the way from `a` through `l` to `b`. -/
def edges : β → List β → β → List (β × β)
  | a, [], b => [(a, b)]
  | a, x :: l, b => (a, x) :: edges x l b

/-- The map `f` takes every first component to the second one. -/
def Follows (f : β → β) (es : List (β × β)) : Prop := ∀ e ∈ es, f e.1 = e.2

/-- The pointers run through `l` and back to the head, each element once. -/
structure Linked (next prev : Option α → Option α) (l : List α) : Prop where
  nodup : l.Nodup
  next : Follows next (edges none (l.map some) none)
  prev : Follows prev ((edges none (l.map some) none).map swap)

/-- Follow `next` from a node until `p` holds or the head is reached; `none` if `n` nodes were not
  enough. -/
def walk (next : Option α → Option α) (p : α → Bool) : ℕ → Option α → Option (Option α)
  | _, none => some none
  | 0, some _ => none
  | n + 1, some x => if p x then some (some x) else walk next p n (next (some x))

/-! ### Edges -/

theorem map_fst_edges : ∀ (a : β) (l : List β) (b : β), (edges a l b).map fst = a :: l
  | _, [], _ => rfl
  | a, x :: l, b => by rw [edges, map_cons, map_fst_edges x l b]

theorem map_snd_edges : ∀ (a : β) (l : List β) (b : β), (edges a l b).map snd = l ++ [b]
  | _, [], _ => rfl
  | a, x :: l, b => by rw [edges, map_cons, map_snd_edges x l b, cons_append]

/-- The first edge is the only one that depends on the start. -/
theorem edges_head (l : List β) (b : β) : ∃ n es, ∀ a, edges a l b = (a, n) :: es := by
  cases l with
  | nil => exact ⟨b, [], fun _ => rfl⟩
  | cons x l => exact ⟨x, edges x l b, fun _ => rfl⟩

/-- Taking `x` out replaces the two edges at `x` by one. -/
theorem edges_splice (x b : β) (l2 : List β) : ∀ (l1 : List β) (a : β), ∃ es1 es2 p n,
    edges a (l1 ++ x :: l2) b = es1 ++ (p, x) :: (x, n) :: es2 ∧
    edges a (l1 ++ l2) b = es1 ++ (p, n) :: es2
  | [], a => by
    obtain ⟨n, es, h⟩ := edges_head l2 b
    refine ⟨[], es, a, n, ?_, h a⟩
    rw [nil_append, edges, h x, nil_append]
  | y :: l1, a => by
    obtain ⟨es1, es2, p, n, h, h'⟩ := edges_splice x b l2 l1 y
    refine ⟨(a, y) :: es1, es2, p, n, ?_, ?_⟩
    · rw [cons_append, edges, h, cons_append]
    · rw [cons_append, edges, h', cons_append]

theorem edges_concat (x b : β) : ∀ (l : List β) (a : β),
    edges a (l ++ [x]) b = edges a l x ++ [(x, b)]
  | [], _ => rfl
  | y :: l, a => by rw [cons_append, edges, edges_concat x b l y, edges, cons_append]

/-- The way back. -/
theorem edges_reverse (b : β) : ∀ (l : List β) (a : β),
    edges b l.reverse a = ((edges a l b).map swap).reverse
  | [], _ => rfl
  | x :: l, a => by
    rw [reverse_cons, edges_concat, edges_reverse b l x, edges, map_cons,
      reverse_cons]
    rfl

/-- Redirecting `p` to `n` follows the edge `(p, n)` and keeps the edges that start elsewhere. -/
theorem Follows.redirect [DecidableEq β] {f : β → β} (es1 : List (β × β)) {es2 : List (β × β)}
    {p n : β} (h : Follows f (es1 ++ es2)) (hnd : ((es1 ++ (p, n) :: es2).map fst).Nodup) :
    Follows (update f p n) (es1 ++ (p, n) :: es2) := by
  have hp : p ∉ (es1 ++ es2).map fst := by
    rw [map_append, map_cons] at hnd
    rw [map_append]
    exact (nodup_middle.mp hnd).notMem
  intro e he
  rcases mem_append.mp he with he1 | he2
  · have hmem : e ∈ es1 ++ es2 := mem_append_left _ he1
    have hne : e.1 ≠ p := fun hx => hp (hx ▸ mem_map_of_mem hmem)
    rw [update_of_ne hne]
    exact h e hmem
  · rcases mem_cons.mp he2 with rfl | he2
    · exact update_self _ _ _
    · have hmem : e ∈ es1 ++ es2 := mem_append_right _ he2
      have hne : e.1 ≠ p := fun hx => hp (hx ▸ mem_map_of_mem hmem)
      rw [update_of_ne hne]
      exact h e hmem

/-! ### Operations on a linked list -/

section

variable [DecidableEq α] {next prev : Option α → Option α} {l l1 l2 : List α} {x : α}

omit [DecidableEq α] in
theorem nodup_fst (h : l.Nodup) : ((edges none (l.map some) none).map fst).Nodup := by
  rw [map_fst_edges]
  refine nodup_cons.mpr ⟨by simp, h.map (Option.some_injective α)⟩

omit [DecidableEq α] in
theorem nodup_snd (h : l.Nodup) :
    (((edges none (l.map some) none).map swap).map fst).Nodup := by
  have hswap : fst ∘ swap = (snd : Option α × Option α → Option α) := rfl
  rw [map_map, hswap, map_snd_edges]
  refine nodup_append.mpr ⟨h.map (Option.some_injective α), by simp, ?_⟩
  rintro a ha b hb rfl
  rw [mem_singleton.mp hb] at ha
  simp at ha

/-- `x->next->prev = x->prev; x->prev->next = x->next` takes `x` out of the list. -/
theorem Linked.unlink (h : Linked next prev (l1 ++ x :: l2)) :
    Linked (update next (prev (some x)) (next (some x)))
      (update prev (next (some x)) (prev (some x))) (l1 ++ l2) := by
  obtain ⟨es1, es2, p, n, hes, hes'⟩ :=
    edges_splice (some x) none (l2.map some) (l1.map some) none
  rw [← map_cons, ← map_append] at hes
  rw [← map_append] at hes'
  have hnd : (l1 ++ l2).Nodup := (nodup_middle.mp h.nodup).of_cons
  have hnext := h.next
  have hprev := h.prev
  rw [hes] at hnext hprev
  have hn : next (some x) = n := hnext (some x, n) (by simp)
  have hp : prev (some x) = p := hprev (some x, p) (by simp)
  have h1 := nodup_fst hnd
  have h2 := nodup_snd hnd
  rw [hes'] at h1 h2
  refine ⟨hnd, ?_, ?_⟩
  · rw [hes', hn, hp]
    refine Follows.redirect es1 (fun e he => hnext e ?_) h1
    rcases mem_append.mp he with he | he <;> simp [he]
  · rw [hes', hn, hp, map_append, map_cons] at *
    refine Follows.redirect _ (fun e he => hprev e ?_) h2
    rcases mem_append.mp he with he | he <;> simp [he]

/-- `x->next = head.next; x->prev = &head; head.next->prev = x; head.next = x` puts `x` in front. -/
theorem Linked.push (h : Linked next prev l) (hx : x ∉ l) :
    Linked (update (update next (some x) (next none)) none (some x))
      (update (update prev (some x) none) (next none) (some x)) (x :: l) := by
  obtain ⟨n, es, hes⟩ := edges_head (l.map some) none
  have hnd : (x :: l).Nodup := nodup_cons.mpr ⟨hx, h.nodup⟩
  have hnext := h.next
  have hprev := h.prev
  rw [hes] at hnext hprev
  have hn : next none = n := hnext (none, n) (by simp)
  have h1 := nodup_fst hnd
  have h2 := nodup_snd hnd
  rw [map_cons, edges, hes] at h1 h2
  refine ⟨hnd, ?_, ?_⟩
  · rw [map_cons, edges, hes, hn]
    have hx' : Follows (update next (some x) n) ([] ++ (some x, n) :: es) :=
      Follows.redirect [] (fun e he => hnext e (mem_cons_of_mem _ he)) h1.of_cons
    exact Follows.redirect [] hx' h1
  · rw [map_cons, edges, hes, hn, map_cons, map_cons]
    rw [map_cons, map_cons] at h2
    have hx' : Follows (update prev (some x) none)
        ([] ++ (some x, none) :: es.map swap) := by
      refine Follows.redirect [] (fun e he => hprev e (by simpa using Or.inr he)) ?_
      rw [map_cons, map_cons] at h2
      have := nodup_middle.mp
        (show ([fst (swap ((none : Option α), some x))] ++ _ :: _).Nodup from h2)
      exact this.of_cons
    exact Follows.redirect [(some x, none)] hx' h2

section
omit [DecidableEq α]

/-- Nothing but the head. -/
theorem linked_nil (hn : next none = none) (hp : prev none = none) : Linked next prev [] := by
  refine ⟨nodup_nil, fun e he => ?_, fun e he => ?_⟩ <;>
  · obtain rfl := mem_singleton.mp he
    assumption

/-- The list read backwards. -/
theorem Linked.reverse (h : Linked next prev l) : Linked prev next l.reverse := by
  refine ⟨nodup_reverse.mpr h.nodup, fun e he => ?_, fun e he => ?_⟩
  · rw [map_reverse, edges_reverse, mem_reverse] at he
    exact h.prev e he
  · rw [map_reverse, edges_reverse, map_reverse, mem_reverse, map_map,
      Prod.swap_swap_eq, map_id] at he
    exact h.next e he

theorem walk_edges (p : α → Bool) : ∀ (l : List α) (a : Option α) (n : ℕ), l.length ≤ n →
    Follows next (edges a (l.map some) none) → walk next p n (next a) = some (l.find? p)
  | [], a, n, _, h => by
    have ha : next a = none := h (a, none) (by simp [edges])
    rw [ha, List.find?_nil]
    cases n <;> rfl
  | x :: l, a, n + 1, hn, h => by
    have ha : next a = some x := h (a, some x) (by simp [edges])
    rw [ha, walk, List.find?_cons]
    cases hp : p x with
    | true => rfl
    | false =>
      refine walk_edges p l (some x) n (Nat.le_of_succ_le_succ hn) fun e he => h e ?_
      rw [map_cons, edges]
      exact mem_cons_of_mem _ he

/-- A search along the list, from the head. -/
theorem Linked.walk (h : Linked next prev l) (p : α → Bool) {n : ℕ} (hn : l.length ≤ n) :
    walk next p n (next none) = some (l.find? p) :=
  walk_edges p l none n hn h.next

end

end

end Xv6.Schemes

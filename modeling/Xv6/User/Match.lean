import Mathlib.Computability.Language
import Mathlib.Tactic

/-! @src grep.c | part:the regular-expression matcher | scheme:backtracking

  `matchhere` and `matchstar` call each other on suffixes of two C strings. A `char *` is the list
  of the bytes from it on, so that `re + 1` is `re.tail` and `re[1]` is the head of it. The meaning
  of a pattern is a language: a product of letters and stars, and one bit for a `$` at the end.

      pattern --parse--> items, toEnd
         | matchhere          | lang
         v                    v
       yes/no ======= a prefix of the text in the language -/

namespace Xv6.Grep
open List (cons)
open List

def caret : UInt8 := '^'.toUInt8
def star : UInt8 := '*'.toUInt8
def dollar : UInt8 := '$'.toUInt8
def dot : UInt8 := '.'.toUInt8

abbrev deref (p : List UInt8) : UInt8 := p.headD 0

theorem tail_lt {p : List UInt8} (h : deref p ≠ 0) : p.tail.length < p.length := by
  cases p with
  | nil => exact absurd rfl h
  | cons c p => exact Nat.lt_succ_self _

mutual

/-- Match a pattern at the start of a text. -/
def matchhere (re text : List UInt8) : Bool :=
  if _h : deref re = 0 then true
  else if deref re.tail = star then matchstar (deref re) re.tail.tail text
  else if deref re = dollar ∧ deref re.tail = 0 then decide (deref text = 0)
  else if _h : deref text ≠ 0 ∧ (deref re = dot ∨ deref re = deref text) then
    matchhere re.tail text.tail
  else false
termination_by (re.length, text.length, 0)
decreasing_by
  · have hlt := tail_lt (p := re) (by assumption)
    exact Prod.Lex.left _ _ (lt_of_le_of_lt (by simp) hlt)
  · exact Prod.Lex.left _ _ (tail_lt (by assumption))

def matchstar (c : UInt8) (re text : List UInt8) : Bool :=
  if matchhere re text then true
  else if _h : deref text ≠ 0 ∧ (deref text = c ∨ c = dot) then matchstar c re text.tail
  else false
termination_by (re.length, text.length, 1)
decreasing_by
  · exact Prod.Lex.right _ (Prod.Lex.right _ Nat.one_pos)
  · exact Prod.Lex.right _ (Prod.Lex.left _ _ (tail_lt (And.left (by assumption))))

end

def matchFrom (re text : List UInt8) : Bool :=
  if matchhere re text then true
  else if _h : deref text ≠ 0 then matchFrom re text.tail
  else false
termination_by text.length
decreasing_by exact tail_lt (by assumption)

def matchText (re text : List UInt8) : Bool :=
  if deref re = caret then matchhere re.tail text else matchFrom re text

/-! ### What a pattern means -/

inductive Atom where
  | char (c : UInt8)
  | any
  deriving DecidableEq

inductive Item where
  | one (a : Atom)
  | star (a : Atom)
  deriving DecidableEq

structure Regex where
  items : List Item
  toEnd : Bool
  deriving DecidableEq

def Atom.Accepts : Atom → UInt8 → Prop
  | .char c, x => x = c
  | .any, _ => True

def Atom.lang (a : Atom) : Language UInt8 := {w | ∃ x, w = [x] ∧ a.Accepts x}

def Item.lang : Item → Language UInt8
  | .one a => a.lang
  | .star a => KStar.kstar a.lang

def Regex.lang (r : Regex) : Language UInt8 := (r.items.map Item.lang).prod

def atom (c : UInt8) : Atom := if c = dot then .any else .char c

def Regex.cons (i : Item) (r : Regex) : Regex := ⟨i :: r.items, r.toEnd⟩

/-- The items of a pattern, from the left: a character with a `*` behind it is a star, a `$` at the
  end is the end of the text, every other character is an atom. -/
def parse : List UInt8 → Regex
  | [] => ⟨[], false⟩
  | [c] => if c = dollar then ⟨[], true⟩ else ⟨[.one (atom c)], false⟩
  | c :: d :: re =>
    if d = star then (parse re).cons (.star (atom c)) else (parse (d :: re)).cons (.one (atom c))

example : parse ("a**$".toList.map Char.toUInt8) = ⟨[.star (.char 97), .one (.char 42)], true⟩ := by decide

def Prefixed (l : Language UInt8) (e : Bool) (t : List UInt8) : Prop :=
  ∃ w v, t = w ++ v ∧ w ∈ l ∧ (e = true → v = [])

theorem prefixed_one_false (t : List UInt8) : Prefixed 1 false t :=
  ⟨[], t, rfl, Language.nil_mem_one, fun h => nomatch h⟩

theorem prefixed_one_true (t : List UInt8) : Prefixed 1 true t ↔ t = [] := by
  constructor
  · rintro ⟨w, v, rfl, hw, hv⟩
    rw [(Language.mem_one w).mp hw, hv rfl, append_nil]
  · rintro rfl
    exact ⟨[], [], rfl, Language.nil_mem_one, fun _ => rfl⟩

theorem prefixed_add (l m : Language UInt8) (e : Bool) (t : List UInt8) :
    Prefixed (l + m) e t ↔ Prefixed l e t ∨ Prefixed m e t := by
  constructor
  · rintro ⟨w, v, ht, hw, hv⟩
    rcases (Language.mem_add l m w).mp hw with hw | hw
    · exact .inl ⟨w, v, ht, hw, hv⟩
    · exact .inr ⟨w, v, ht, hw, hv⟩
  · rintro (⟨w, v, ht, hw, hv⟩ | ⟨w, v, ht, hw, hv⟩)
    · exact ⟨w, v, ht, (Language.mem_add l m w).mpr (.inl hw), hv⟩
    · exact ⟨w, v, ht, (Language.mem_add l m w).mpr (.inr hw), hv⟩

theorem prefixed_atom_mul (a : Atom) (l : Language UInt8) (e : Bool) (t : List UInt8) :
    Prefixed (a.lang * l) e t ↔ ∃ x t', t = x :: t' ∧ a.Accepts x ∧ Prefixed l e t' := by
  constructor
  · rintro ⟨w, v, rfl, hw, hv⟩
    obtain ⟨w1, ⟨x, rfl, hx⟩, w2, hw2, rfl⟩ := Language.mem_mul.mp hw
    exact ⟨x, w2 ++ v, rfl, hx, w2, v, rfl, hw2, hv⟩
  · rintro ⟨x, t', rfl, hx, w, v, rfl, hw, hv⟩
    exact ⟨x :: w, v, rfl, Language.mem_mul.mpr ⟨[x], ⟨x, rfl, hx⟩, w, hw, rfl⟩, hv⟩

theorem prefixed_star_mul (a : Atom) (l : Language UInt8) (e : Bool) (t : List UInt8) :
    Prefixed (KStar.kstar a.lang * l) e t ↔ Prefixed l e t ∨
      ∃ x t', t = x :: t' ∧ a.Accepts x ∧ Prefixed (KStar.kstar a.lang * l) e t' := by
  have h : KStar.kstar a.lang * l = l + a.lang * (KStar.kstar a.lang * l) := by
    conv_lhs => rw [← Language.one_add_self_mul_kstar_eq_kstar a.lang]
    rw [add_mul, one_mul, mul_assoc]
  conv_lhs => rw [h]
  rw [prefixed_add, prefixed_atom_mul]

def Regex.Here (r : Regex) (t : List UInt8) : Prop := Prefixed r.lang r.toEnd t

theorem here_cons_one (a : Atom) (r : Regex) (t : List UInt8) :
    (r.cons (.one a)).Here t ↔ ∃ x t', t = x :: t' ∧ a.Accepts x ∧ r.Here t' := by
  have h : (r.cons (.one a)).lang = a.lang * r.lang := by
    rw [Regex.lang, Regex.cons, map_cons, prod_cons]
    rfl
  rw [Regex.Here, h]
  exact prefixed_atom_mul a r.lang r.toEnd t

theorem here_cons_star (a : Atom) (r : Regex) (t : List UInt8) :
    (r.cons (.star a)).Here t ↔ r.Here t ∨
      ∃ x t', t = x :: t' ∧ a.Accepts x ∧ (r.cons (.star a)).Here t' := by
  have h : (r.cons (.star a)).lang = KStar.kstar a.lang * r.lang := by
    rw [Regex.lang, Regex.cons, map_cons, prod_cons]
    rfl
  rw [Regex.Here, h, prefixed_star_mul a r.lang]
  simp only [Regex.Here, h]
  rfl

theorem accepts_atom (c x : UInt8) : (atom c).Accepts x ↔ c = dot ∨ c = x := by
  unfold atom
  split
  · case isTrue h => exact ⟨fun _ => .inl h, fun _ => trivial⟩
  · case isFalse h => exact ⟨fun hx => .inr hx.symm, fun hx => (hx.resolve_left h).symm⟩

/-! ### The matcher, one case of the source at a time -/

theorem matchhere_end (re t : List UInt8) : matchhere (0 :: re) t = true := by
  rw [matchhere]
  rfl

theorem matchhere_star {c : UInt8} (hc : c ≠ 0) (re t : List UInt8) :
    matchhere (c :: star :: re) t = matchstar c re t := by
  rw [matchhere, dif_neg (show deref (c :: star :: re) ≠ 0 from hc)]
  exact if_pos rfl

theorem matchhere_dollar (re t : List UInt8) :
    matchhere (dollar :: 0 :: re) t = decide (deref t = 0) := by
  rw [matchhere, dif_neg (show deref (dollar :: 0 :: re) ≠ 0 from (by decide : dollar ≠ 0)),
    if_neg (show ¬ deref (dollar :: 0 :: re).tail = star from (by decide : (0 : UInt8) ≠ star))]
  exact if_pos ⟨rfl, rfl⟩

theorem matchhere_one {c d : UInt8} (hc : c ≠ 0) (hd : d ≠ star) (hcd : ¬ (c = dollar ∧ d = 0))
    (re t : List UInt8) :
    matchhere (c :: d :: re) t = true ↔
      deref t ≠ 0 ∧ (c = dot ∨ c = deref t) ∧ matchhere (d :: re) t.tail = true := by
  rw [matchhere, dif_neg (show deref (c :: d :: re) ≠ 0 from hc),
    if_neg (show ¬ deref (c :: d :: re).tail = star from hd),
    if_neg (show ¬ (deref (c :: d :: re) = dollar ∧ deref (c :: d :: re).tail = 0) from hcd)]
  split
  · case isTrue h => exact ⟨fun hm => ⟨h.1, h.2, hm⟩, fun hm => hm.2.2⟩
  · case isFalse h =>
    constructor
    · intro hf
      cases hf
    · intro hm
      exact absurd ⟨hm.1, hm.2.1⟩ h

theorem matchstar_iff (c : UInt8) (re t : List UInt8) :
    matchstar c re t = true ↔ matchhere re t = true ∨
      deref t ≠ 0 ∧ (deref t = c ∨ c = dot) ∧ matchstar c re t.tail = true := by
  rw [matchstar]
  split
  · case isTrue h => exact ⟨fun _ => .inl h, fun _ => rfl⟩
  · case isFalse h =>
    split
    · case isTrue ht => exact ⟨fun hm => .inr ⟨ht.1, ht.2, hm⟩, fun hm => (hm.resolve_left h).2.2⟩
    · case isFalse ht =>
      constructor
      · intro hf
        cases hf
      · intro hm
        obtain ⟨h0, hcx, -⟩ := hm.resolve_left h
        exact absurd ⟨h0, hcx⟩ ht

theorem matchFrom_iff (re t : List UInt8) :
    matchFrom re t = true ↔ matchhere re t = true ∨
      deref t ≠ 0 ∧ matchFrom re t.tail = true := by
  rw [matchFrom]
  split
  · case isTrue h => exact ⟨fun _ => .inl h, fun _ => rfl⟩
  · case isFalse h =>
    split
    · case isTrue ht => exact ⟨fun hm => .inr ⟨ht, hm⟩, fun hm => (hm.resolve_left h).2⟩
    · case isFalse ht =>
      constructor
      · intro hf
        cases hf
      · intro hm
        exact absurd (hm.resolve_left h).1 ht

/-! ### The matcher finds what the language says -/

section

variable {r r' : List UInt8}

theorem matchstar_here {c : UInt8} {re : List UInt8} {p : Regex}
    (ih : ∀ t : List UInt8, 0 ∉ t → (matchhere re (t ++ 0 :: r') = true ↔ p.Here t))
    (t : List UInt8) (ht : 0 ∉ t) :
    matchstar c re (t ++ 0 :: r') = true ↔ (p.cons (.star (atom c))).Here t := by
  induction t with
  | nil =>
    rw [matchstar_iff, ih [] ht, here_cons_star]
    constructor
    · rintro (h | ⟨h, -⟩)
      · exact .inl h
      · exact absurd rfl h
    · rintro (h | ⟨x, t', hx, -⟩)
      · exact .inl h
      · cases hx
  | cons x t iht =>
    have hx : x ≠ 0 := fun h => ht (h ▸ mem_cons_self)
    have ht' : 0 ∉ t := fun h => ht (mem_cons_of_mem _ h)
    rw [matchstar_iff, ih (x :: t) ht, here_cons_star]
    constructor
    · rintro (h | ⟨-, hcx, hm⟩)
      · exact .inl h
      · have hacc : (atom c).Accepts x := (accepts_atom c x).mpr (hcx.symm.imp_right Eq.symm)
        exact .inr ⟨x, t, rfl, hacc, (iht ht').mp hm⟩
    · rintro (h | ⟨y, t', hyt, hacc, hm⟩)
      · exact .inl h
      · obtain ⟨rfl, rfl⟩ := cons.inj hyt
        have hcx := (accepts_atom c x).mp hacc
        exact .inr ⟨hx, hcx.symm.imp_left Eq.symm, (iht ht').mpr hm⟩

theorem matchhere_one_here {c d : UInt8} {re : List UInt8} {p : Regex} (hc : c ≠ 0) (hd : d ≠ star)
    (hcd : ¬ (c = dollar ∧ d = 0))
    (ih : ∀ t : List UInt8, 0 ∉ t → (matchhere (d :: re) (t ++ 0 :: r') = true ↔ p.Here t))
    (t : List UInt8) (ht : 0 ∉ t) :
    matchhere (c :: d :: re) (t ++ 0 :: r') = true ↔ (p.cons (.one (atom c))).Here t := by
  rw [matchhere_one hc hd hcd, here_cons_one]
  cases t with
  | nil =>
    constructor
    · rintro ⟨h, -⟩
      exact absurd rfl h
    · rintro ⟨x, t', hx, -⟩
      cases hx
  | cons x t =>
    have hx : x ≠ 0 := fun h => ht (h ▸ mem_cons_self)
    have ht' : 0 ∉ t := fun h => ht (mem_cons_of_mem _ h)
    constructor
    · rintro ⟨-, hcx, hm⟩
      exact ⟨x, t, rfl, (accepts_atom c x).mpr hcx, (ih t ht').mp hm⟩
    · rintro ⟨y, t', hyt, hacc, hm⟩
      obtain ⟨rfl, rfl⟩ := cons.inj hyt
      exact ⟨hx, (accepts_atom c x).mp hacc, (ih t ht').mpr hm⟩

theorem here_empty (t : List UInt8) : (⟨[], false⟩ : Regex).Here t :=
  prefixed_one_false t

theorem matchhere_iff (re : List UInt8) (hre : 0 ∉ re) (t : List UInt8) (ht : 0 ∉ t) :
    matchhere (re ++ 0 :: r) (t ++ 0 :: r') = true ↔ (parse re).Here t := by
  -- by the cases of `parse`, which are those of the source
  induction re using parse.induct generalizing t with
  | case1 => exact ⟨fun _ => here_empty t, fun _ => matchhere_end r _⟩
  | case2 =>
    rw [cons_append, nil_append, matchhere_dollar, parse, if_pos rfl, decide_eq_true_iff]
    refine Iff.trans ?_ (prefixed_one_true t).symm
    cases t with
    | nil => exact ⟨fun _ => rfl, fun _ => rfl⟩
    | cons x t =>
      constructor
      · intro hx
        exact absurd (hx ▸ mem_cons_self) ht
      · intro hx
        cases hx
  | case3 c hc =>
    have hc0 : c ≠ 0 := fun h => hre (h ▸ mem_cons_self)
    rw [parse, if_neg hc]
    exact matchhere_one_here hc0 (by decide) (fun h => hc h.1)
      (fun t _ => ⟨fun _ => here_empty t, fun _ => matchhere_end r _⟩) t ht
  | case4 c re ih =>
    have hc0 : c ≠ 0 := fun h => hre (h ▸ mem_cons_self)
    have hre' : 0 ∉ re := fun h => hre (mem_cons_of_mem _ (mem_cons_of_mem _ h))
    rw [parse, if_pos rfl, cons_append, cons_append, matchhere_star hc0]
    exact matchstar_here (fun t ht => ih hre' t ht) t ht
  | case5 c d re hd ih =>
    have hc0 : c ≠ 0 := fun h => hre (h ▸ mem_cons_self)
    have hd0 : d ≠ 0 := fun h => hre (h ▸ mem_cons_of_mem _ mem_cons_self)
    have hre' : 0 ∉ d :: re := fun h => hre (mem_cons_of_mem _ h)
    rw [parse, if_neg hd]
    exact matchhere_one_here hc0 hd (fun h => hd0 h.2) (fun t ht => ih hre' t ht) t ht

theorem matchFrom_here (re : List UInt8) (hre : 0 ∉ re) (t : List UInt8) (ht : 0 ∉ t) :
    matchFrom (re ++ 0 :: r) (t ++ 0 :: r') = true ↔
      ∃ u t', t = u ++ t' ∧ (parse re).Here t' := by
  induction t with
  | nil =>
    rw [matchFrom_iff, matchhere_iff re hre [] ht]
    constructor
    · rintro (h | ⟨h, -⟩)
      · exact ⟨[], [], rfl, h⟩
      · exact absurd rfl h
    · rintro ⟨u, t', h, hm⟩
      obtain ⟨-, rfl⟩ := append_eq_nil_iff.mp h.symm
      exact .inl hm
  | cons x t ih =>
    have hx : x ≠ 0 := fun h => ht (h ▸ mem_cons_self)
    have ht' : 0 ∉ t := fun h => ht (mem_cons_of_mem _ h)
    rw [matchFrom_iff, matchhere_iff re hre (x :: t) ht]
    constructor
    · rintro (h | ⟨-, hm⟩)
      · exact ⟨[], x :: t, rfl, h⟩
      · obtain ⟨u, t', rfl, hh⟩ := (ih ht').mp hm
        exact ⟨x :: u, t', rfl, hh⟩
    · rintro ⟨u, t', h, hm⟩
      cases u with
      | nil =>
        rw [nil_append] at h
        exact .inl (h ▸ hm)
      | cons y u =>
        obtain ⟨rfl, rfl⟩ := cons.inj h
        exact .inr ⟨hx, (ih ht').mpr ⟨u, t', rfl, hm⟩⟩

end

def body (re : List UInt8) : Regex := parse (if deref re = caret then re.tail else re)

theorem matchText_here (re text r r' : List UInt8) (hre : 0 ∉ re) (ht : 0 ∉ text) :
    matchText (re ++ 0 :: r) (text ++ 0 :: r') = true ↔
      ∃ u t, text = u ++ t ∧ (deref re = caret → u = []) ∧ (body re).Here t := by
  cases re with
  | nil =>
    rw [matchText, if_neg (show ¬ deref ([] ++ 0 :: r) = caret from (by decide : (0 : UInt8) ≠ caret)),
      matchFrom_here [] hre text ht]
    constructor
    · rintro ⟨u, t, rfl, h⟩
      exact ⟨u, t, rfl, fun hc => absurd hc (by decide), h⟩
    · rintro ⟨u, t, rfl, -, h⟩
      exact ⟨u, t, rfl, h⟩
  | cons c re =>
    have hre' : 0 ∉ re := fun h => hre (mem_cons_of_mem _ h)
    by_cases hc : c = caret
    · rw [matchText, if_pos (show deref (c :: re ++ 0 :: r) = caret from hc), cons_append,
        tail_cons, matchhere_iff re hre' text ht, body,
        if_pos (show deref (c :: re) = caret from hc), tail_cons]
      constructor
      · intro h
        exact ⟨[], text, rfl, fun _ => rfl, h⟩
      · rintro ⟨u, t, rfl, hu, h⟩
        rw [hu hc]
        exact h
    · rw [matchText, if_neg (show ¬ deref (c :: re ++ 0 :: r) = caret from hc),
        matchFrom_here (c :: re) hre text ht, body,
        if_neg (show ¬ deref (c :: re) = caret from hc)]
      constructor
      · rintro ⟨u, t, rfl, h⟩
        exact ⟨u, t, rfl, fun hc' => absurd hc' hc, h⟩
      · rintro ⟨u, t, rfl, -, h⟩
        exact ⟨u, t, rfl, h⟩

theorem matchText_rest (re text r r' : List UInt8) (hre : 0 ∉ re) (ht : 0 ∉ text) :
    matchText (re ++ [0]) (text ++ 0 :: r) = matchText (re ++ [0]) (text ++ 0 :: r') := by
  rw [Bool.eq_iff_iff, matchText_here re text [] r hre ht, matchText_here re text [] r' hre ht]

/-- What the pattern asks for: some substring of the text is in its language; a `^` at the start lets
  it begin with the text only, a `$` at the end lets it end with the text only. -/
def Matches (re text : List UInt8) : Prop :=
  ∃ u w v, text = u ++ w ++ v ∧ w ∈ (body re).lang ∧ (deref re = caret → u = []) ∧
    ((body re).toEnd = true → v = [])

/-- `match` answers for two C strings, whatever lies behind their NULs: yes exactly where a substring
  is in the language of the pattern. -/
theorem match_iff (re text r r' : List UInt8) (hre : 0 ∉ re) (ht : 0 ∉ text) :
    matchText (re ++ 0 :: r) (text ++ 0 :: r') = true ↔ Matches re text := by
  rw [matchText_here re text r r' hre ht]
  constructor
  · rintro ⟨u, t, rfl, hu, w, v, rfl, hw, hv⟩
    exact ⟨u, w, v, (append_assoc _ _ _).symm, hw, hu, hv⟩
  · rintro ⟨u, w, v, rfl, hw, hu, hv⟩
    exact ⟨u, w ++ v, append_assoc _ _ _, hu, w, v, rfl, hw, hv⟩

/-- `b*$` against `ab`. -/
theorem match_iff_at_end :
    ((0 : UInt8) ∉ [98, star, dollar] ∧ (0 : UInt8) ∉ [97, (98 : UInt8)]) ∧
      (matchText [98, star, dollar, 0] [97, 98, 0] = true ↔ Matches [98, star, dollar] [97, 98]) :=
  ⟨by decide, match_iff [98, star, dollar] [97, 98] [] [] (by decide) (by decide)⟩

end Xv6.Grep

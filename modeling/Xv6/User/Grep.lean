import Xv6.User.Match

/-! @src grep.c, ulib.c | part:the loop of grep | scheme:one buffer, line by line

  `read` puts its bytes behind what is left of the last line; complete lines are matched in place,
  the rest is moved to the front. The pieces `read` delivers are chosen by `ks`: the next one has
  `ks 0 + 1` bytes, or as many as are asked for or left.

  A piece without a newline is forgotten (`if(p == buf) m = 0`), with whatever was carried before
  it. -/

namespace Xv6.Grep
open List (length_set length)
open List

def newline : UInt8 := '\n'.toUInt8

def BUFSZ : ℕ := 1024

def strchr (c : UInt8) : List UInt8 → Option ℕ
  | [] => none
  | x :: s => if x = 0 then none else if x = c then some 0 else (strchr c s).map (· + 1)

def memmove (buf : List UInt8) (dst src : ℕ) : ℕ → List UInt8
  | 0 => buf
  | n + 1 => memmove (buf.set dst (buf.getD src 0)) (dst + 1) (src + 1) n

def put (buf : List UInt8) (m : ℕ) (piece : List UInt8) : List UInt8 :=
  buf.take m ++ piece ++ buf.drop (m + piece.length)

variable {buf re rest s : List UInt8} {m p : ℕ} {ls : List (List UInt8)}

theorem strchr_lt {c : UInt8} {k : ℕ} (h : strchr c s = some k) : k < s.length := by
  induction s generalizing k with
  | nil => cases h
  | cons x s ih =>
    rw [strchr] at h
    split at h
    · cases h
    · split at h
      · cases h
        exact Nat.succ_pos _
      · obtain ⟨j, hj, rfl⟩ := Option.map_eq_some_iff.mp h
        exact Nat.succ_lt_succ (ih hj)

/-- The inner loop: from `p`, the lines that are complete; gives the buffer, `p` and what was
  written. -/
def lineLoop (pattern buf : List UInt8) (p : ℕ) : List UInt8 × ℕ × List UInt8 :=
  match h : strchr newline (buf.drop p) with
  | none => (buf, p, [])
  | some k =>
    have : buf.length - (p + k + 1) < buf.length - p := by
      have hk := strchr_lt h
      rw [length_drop] at hk
      omega
    let cut := buf.set (p + k) 0
    if matchText pattern (cut.drop p) then
      let back := cut.set (p + k) newline
      let (buf', p', out) := lineLoop pattern back (p + k + 1)
      (buf', p', (back.drop p).take (k + 1) ++ out)
    else lineLoop pattern cut (p + k + 1)
termination_by buf.length - p
decreasing_by
  · simpa using this
  · simpa using this

/-- The body of the outer loop after a read of `piece`: gives the buffer, `m` and what was written. -/
def turn (pattern buf : List UInt8) (m : ℕ) (piece : List UInt8) : List UInt8 × ℕ × List UInt8 :=
  let filled := (put buf m piece).set (m + piece.length) 0
  let (buf', p, out) := lineLoop pattern filled 0
  let m' := if p = 0 then 0 else m + piece.length
  if 0 < m' then (memmove buf' 0 p (m' - p), m' - p, out) else (buf', m', out)

def piece (want k : ℕ) (input : List UInt8) : List UInt8 := input.take (min want (k + 1))

structure Trace where
  out : List UInt8
  /-- The pieces in the order they were read. -/
  pieces : List (List UInt8)

def grepLoop (pattern buf : List UInt8) (m : ℕ) (input : List UInt8) (ks : ℕ → ℕ) : Trace :=
  let got := piece (BUFSZ - m - 1) (ks 0) input
  if _h : got.length = 0 then ⟨[], []⟩
  else
    let (buf', m', out) := turn pattern buf m got
    let rest := grepLoop pattern buf' m' (input.drop got.length) (fun i => ks (i + 1))
    ⟨out ++ rest.out, got :: rest.pieces⟩
termination_by input.length
decreasing_by
  have hne : (piece (BUFSZ - m - 1) (ks 0) input).length ≠ 0 := _h
  have hle : (piece (BUFSZ - m - 1) (ks 0) input).length ≤ input.length := length_take_le' _ _
  rw [length_drop]
  omega

def grep (pattern buf input : List UInt8) (ks : ℕ → ℕ) : Trace := grepLoop pattern buf 0 input ks

/-! ### The buffer -/

theorem getElem?_memmove (n : ℕ) (buf : List UInt8) {dst src : ℕ} (h : dst ≤ src)
    (hn : src + n ≤ buf.length) (i : ℕ) :
    (memmove buf dst src n)[i]? =
      if dst ≤ i ∧ i < dst + n then buf[src + (i - dst)]? else buf[i]? := by
  induction n generalizing buf dst src with
  | zero =>
    rw [memmove, if_neg (by omega)]
  | succ n ih =>
    rw [memmove, ih _ (by omega) (by rw [length_set]; omega)]
    by_cases hi : i = dst
    · subst hi
      rw [if_neg (by omega), if_pos (by omega), List.getElem?_set_self (by omega), Nat.sub_self,
        Nat.add_zero, getD_eq_getElem?_getD, List.getElem?_eq_getElem (by omega : src < buf.length),
        Option.getD_some]
    · by_cases hr : dst + 1 ≤ i ∧ i < dst + 1 + n
      · have e : src + 1 + (i - (dst + 1)) = src + (i - dst) := by omega
        rw [if_pos hr, if_pos (by omega), List.getElem?_set_ne (by omega), e]
      · rw [if_neg hr, if_neg (by omega), List.getElem?_set_ne (Ne.symm hi)]

theorem length_memmove (n : ℕ) (buf : List UInt8) (dst src : ℕ) :
    (memmove buf dst src n).length = buf.length := by
  induction n generalizing buf dst src with
  | zero => rfl
  | succ n ih => rw [memmove, ih, length_set]

variable {c got input l pattern r : List UInt8} {ks : ℕ → ℕ}

theorem take_memmove (h : buf.drop p = c ++ r) : (memmove buf 0 p c.length).take c.length = c := by
  rcases Nat.eq_zero_or_pos c.length with h0 | hpos
  · rw [h0, take_zero, length_eq_zero_iff.mp h0]
  · have hlen : p + c.length ≤ buf.length := by
      have hl := congrArg length h
      rw [length_drop, length_append] at hl
      omega
    refine ext_getElem? fun i => ?_
    rw [List.getElem?_take]
    split
    · case isTrue hi =>
      rw [getElem?_memmove _ _ (Nat.zero_le _) hlen, if_pos (by omega), Nat.sub_zero,
        ← List.getElem?_drop, h, List.getElem?_append_left hi]
    · case isFalse hi => rw [List.getElem?_eq_none (by omega)]

theorem filled_eq (buf : List UInt8) (m : ℕ) (got : List UInt8)
    (h : m + got.length < buf.length) :
    ∃ r, (put buf m got).set (m + got.length) 0 = buf.take m ++ got ++ 0 :: r := by
  have hlen : (buf.take m ++ got).length = m + got.length := by
    rw [length_append, length_take_of_le (by omega)]
  obtain ⟨x, r, hr⟩ : ∃ x r, buf.drop (m + got.length) = x :: r :=
    exists_cons_of_length_pos (by rw [length_drop]; omega)
  refine ⟨r, ?_⟩
  rw [put, hr, ← hlen, set_append_right _ _ le_rfl, Nat.sub_self, set_cons_zero]

/-! ### The lines of a buffer -/

def joined (ls : List (List UInt8)) : List UInt8 := ls.flatMap (· ++ [newline])

theorem joined_cons (l : List UInt8) (ls : List (List UInt8)) :
    joined (l :: ls) = l ++ newline :: joined ls := by
  rw [joined, flatMap_cons, append_assoc]
  rfl

theorem joined_append (ls ls' : List (List UInt8)) : joined (ls ++ ls') = joined ls ++ joined ls' :=
  flatMap_append

/-- A line that `grep` can hold: no newline, no NUL, and room for both behind it. -/
structure Line (l : List UInt8) : Prop where
  no_newline : newline ∉ l
  no_nul : 0 ∉ l
  short : l.length < 1023

def lineMatches (re l : List UInt8) : Bool := matchText (re ++ [0]) (l ++ [0])

def matching (re : List UInt8) (ls : List (List UInt8)) : List UInt8 :=
  joined (ls.filter (lineMatches re))

theorem matching_append (re : List UInt8) (ls ls' : List (List UInt8)) :
    matching re (ls ++ ls') = matching re ls ++ matching re ls' := by
  rw [matching, filter_append, joined_append]
  rfl

theorem strchr_none (r : List UInt8) (hn : newline ∉ s) : strchr newline (s ++ 0 :: r) = none := by
  induction s with
  | nil => rfl
  | cons x s ih =>
    rw [cons_append, strchr, ih fun h => hn (mem_cons_of_mem _ h)]
    split
    · rfl
    · rw [if_neg (fun h : x = newline => hn (h ▸ mem_cons_self))]
      rfl

theorem strchr_line (r : List UInt8) (hn : newline ∉ l) (h0 : 0 ∉ l) :
    strchr newline (l ++ newline :: r) = some l.length := by
  induction l with
  | nil => rfl
  | cons x l ih =>
    rw [cons_append, strchr, if_neg (fun h : x = 0 => h0 (h ▸ mem_cons_self)),
      if_neg (fun h : x = newline => hn (h ▸ mem_cons_self)),
      ih (fun h => hn (mem_cons_of_mem _ h)) fun h => h0 (mem_cons_of_mem _ h)]
    rfl

theorem first_line (h : s ++ rest = joined (l :: ls)) :
    (∃ s', s = l ++ newline :: s' ∧ s' ++ rest = joined ls) ∨ ∃ v, l = s ++ v := by
  rw [joined_cons, append_eq_append_iff] at h
  rcases h with ⟨v, hl, -⟩ | ⟨v, hs, hv⟩
  · exact .inr ⟨v, hl⟩
  · cases v with
    | nil => exact .inr ⟨[], by rw [hs, append_nil, append_nil]⟩
    | cons x v =>
      obtain ⟨rfl, h⟩ := List.cons.inj hv
      exact .inl ⟨v, hs, h.symm⟩

theorem lineLoop_none (h : strchr newline (buf.drop p) = none)
    : lineLoop pattern buf p = (buf, p, []) := by
  rw [lineLoop]
  split
  · rfl
  · case h_2 k hk =>
    rw [h] at hk
    cases hk

theorem lineLoop_line (hre : 0 ∉ re) (hl : Line l) (h : buf.drop p = l ++ newline :: r) :
    ∃ buf', buf'.length = buf.length ∧ buf'.drop (p + l.length + 1) = r ∧
      lineLoop (re ++ [0]) buf p =
        ((lineLoop (re ++ [0]) buf' (p + l.length + 1)).1,
          (lineLoop (re ++ [0]) buf' (p + l.length + 1)).2.1,
          matching re [l] ++ (lineLoop (re ++ [0]) buf' (p + l.length + 1)).2.2) := by
  have hlt : p < buf.length := by
    by_contra hge
    rw [drop_eq_nil_of_le (by omega)] at h
    exact absurd (congrArg length h) (by simp)
  have hset : ∀ x : UInt8, (buf.set (p + l.length) x).drop p = l ++ x :: r := by
    intro x
    rw [drop_set, if_neg (by omega), h, Nat.add_sub_cancel_left,
      set_append_right _ _ le_rfl, Nat.sub_self, set_cons_zero]
  have hdrop : ∀ x : UInt8, (buf.set (p + l.length) x).drop (p + l.length + 1) = r := by
    intro x
    rw [Nat.add_assoc, ← drop_drop, hset, ← drop_drop, drop_left]
    rfl
  have hm : matchText (re ++ [0]) (l ++ 0 :: r) = lineMatches re l :=
    matchText_rest re l r [] hre hl.no_nul
  have hk : strchr newline (buf.drop p) = some l.length := by
    rw [h]
    exact strchr_line r hl.no_newline hl.no_nul
  by_cases hml : lineMatches re l = true
  · refine ⟨buf.set (p + l.length) newline, length_set, hdrop newline, ?_⟩
    rw [lineLoop]
    split
    · case h_1 hn =>
      rw [hk] at hn
      cases hn
    · case h_2 k hk' =>
      rw [hk] at hk'
      cases hk'
      have hout : (l ++ newline :: r).take (l.length + 1) = matching re [l] := by
        rw [matching, filter_cons_of_pos hml, filter_nil, joined_cons,
          take_append, take_of_length_le (by omega), Nat.add_sub_cancel_left]
        rfl
      simp only [set_set, hset, hm, hml, if_true, hout]
  · refine ⟨buf.set (p + l.length) 0, length_set, hdrop 0, ?_⟩
    rw [lineLoop]
    split
    · case h_1 hn =>
      rw [hk] at hn
      cases hn
    · case h_2 k hk' =>
      rw [hk] at hk'
      cases hk'
      have hout : matching re [l] = [] := by
        rw [matching, filter_cons_of_neg hml]
        rfl
      simp only [hset, hm, hml, hout, nil_append]
      rfl

theorem lineLoop_lines (hre : 0 ∉ re) (hls : ∀ l ∈ ls, Line l) (h : buf.drop p = s ++ 0 :: r)
    (hs : s ++ rest = joined ls) :
    ∃ done todo c buf', ls = done ++ todo ∧ s = joined done ++ c ∧ c ++ rest = joined todo ∧
      newline ∉ c ∧ buf'.length = buf.length ∧ buf'.drop (p + (joined done).length) = c ++ 0 :: r ∧
      lineLoop (re ++ [0]) buf p = (buf', p + (joined done).length, matching re done) := by
  induction ls generalizing buf s p with
  | nil =>
    obtain ⟨rfl, -⟩ := append_eq_nil_iff.mp hs
    refine ⟨[], [], [], buf, rfl, rfl, hs, not_mem_nil, rfl, h, ?_⟩
    exact lineLoop_none (by rw [h]; rfl)
  | cons l ls ih =>
    have hl := hls l mem_cons_self
    rcases first_line hs with ⟨s', rfl, hs'⟩ | ⟨v, hv⟩
    · -- a complete line: written if it matches, and the loop goes on behind it
      rw [append_assoc, cons_append] at h
      obtain ⟨b, hb, hbr, hloop⟩ := lineLoop_line hre hl h
      obtain ⟨done, todo, c, buf', rfl, rfl, hc, hn, hlen, hdrop, hrun⟩ :=
        ih (fun l hl => hls l (mem_cons_of_mem _ hl)) hbr hs'
      have hp : p + l.length + 1 + (joined done).length = p + (joined (l :: done)).length := by
        rw [joined_cons, length_append, length_cons]
        omega
      refine ⟨l :: done, todo, c, buf', rfl, ?_, hc, hn, hlen.trans hb, hp ▸ hdrop, ?_⟩
      · rw [joined_cons, append_assoc]
        rfl
      · rw [hloop, hrun, hp, ← matching_append]
        rfl
    · -- a part of a line: no newline before the NUL
      have hn : newline ∉ s := fun h => hl.no_newline (hv ▸ mem_append_left v h)
      refine ⟨[], l :: ls, s, buf, rfl, rfl, hs, hn, rfl, h, ?_⟩
      exact lineLoop_none (by rw [h]; exact strchr_none r hn)

theorem part_short (hls : ∀ l ∈ ls, Line l) (h : c ++ rest = joined ls) (hn : newline ∉ c)
    : c.length < 1023 := by
  cases ls with
  | nil =>
    obtain ⟨rfl, -⟩ := append_eq_nil_iff.mp h
    exact Nat.succ_pos _
  | cons l ls =>
    rcases first_line h with ⟨s', rfl, -⟩ | ⟨v, hv⟩
    · exact absurd (mem_append_right l mem_cons_self) hn
    · have hl := (hls l mem_cons_self).short
      rw [hv, length_append] at hl
      omega

/-! ### Turn after turn -/

theorem turn_lines (hre : 0 ∉ re) (hls : ∀ l ∈ ls, Line l) (hbuf : buf.length = BUFSZ)
    (hroom : m + got.length ≤ 1023) (hs : buf.take m ++ got ++ rest = joined ls) :
    ∃ done todo c buf', ls = done ++ todo ∧ buf.take m ++ got = joined done ++ c ∧
      c ++ rest = joined todo ∧ newline ∉ c ∧ buf'.length = BUFSZ ∧
      turn (re ++ [0]) buf m got =
        (buf', if done = [] then 0 else c.length, matching re done) ∧
      (done ≠ [] → buf'.take c.length = c) := by
  obtain ⟨r, hr⟩ := filled_eq buf m got (by rw [hbuf, BUFSZ]; omega)
  obtain ⟨done, todo, c, buf', rfl, hsc, hc, hn, hlen, hdrop, hrun⟩ :=
    lineLoop_lines hre hls (p := 0) hr hs
  have hlen' : buf'.length = BUFSZ := by
    rw [hlen, length_set, put, length_append, length_append, length_drop,
      length_take_of_le (by rw [hbuf, BUFSZ]; omega), hbuf, BUFSZ]
    omega
  have htot : m + got.length = (joined done).length + c.length := by
    have hl := congrArg length hsc
    rwa [length_append, length_append,
      length_take_of_le (by rw [hbuf, BUFSZ]; omega)] at hl
  rw [zero_add] at hdrop hrun
  cases done with
  | nil =>
    refine ⟨[], todo, c, buf', rfl, hsc, hc, hn, hlen', ?_, fun h => absurd rfl h⟩
    rw [turn, hrun]
    rfl
  | cons l done =>
    have hpos : 0 < (joined (l :: done)).length := by
      rw [joined_cons, length_append, length_cons]
      omega
    refine ⟨l :: done, todo, c, memmove buf' 0 (joined (l :: done)).length c.length, rfl, hsc, hc, hn,
      (length_memmove _ _ _ _).trans hlen', ?_, fun _ => take_memmove hdrop⟩
    rw [turn, hrun]
    simp only [if_neg (ne_of_gt hpos), htot, Nat.add_sub_cancel_left,
      if_pos (show 0 < (joined (l :: done)).length + c.length by omega)]
    rfl

theorem piece_append_drop (want k : ℕ) (input : List UInt8) :
    piece want k input ++ input.drop (piece want k input).length = input := by
  rw [piece, length_take]
  rcases Nat.le_total (min want (k + 1)) input.length with h | h
  · rw [Nat.min_eq_left h, take_append_drop]
  · rw [Nat.min_eq_right h, take_of_length_le h, drop_length, append_nil]

theorem grepLoop_stop (h : (piece (BUFSZ - m - 1) (ks 0) input).length = 0) :
    grepLoop pattern buf m input ks = ⟨[], []⟩ := by
  rw [grepLoop]
  exact dif_pos h

theorem grepLoop_turn (hgot : piece (BUFSZ - m - 1) (ks 0) input = got) (h : got.length ≠ 0)
    {buf' out : List UInt8} {m' : ℕ} (ht : turn pattern buf m got = (buf', m', out))
    : grepLoop pattern buf m input ks =
      ⟨out ++ (grepLoop pattern buf' m' (input.drop got.length) fun i => ks (i + 1)).out,
        got :: (grepLoop pattern buf' m' (input.drop got.length) fun i => ks (i + 1)).pieces⟩ := by
  subst hgot
  rw [grepLoop]
  simp only [dif_neg h, ht]

theorem lines_nil (hn : newline ∉ c) (h : c = joined ls) : ls = [] := by
  cases ls with
  | nil => rfl
  | cons l ls =>
    rw [joined_cons] at h
    exact absurd (h ▸ mem_append_right l mem_cons_self) hn

theorem grepLoop_matching (hre : 0 ∉ re) (n : ℕ) :
    ∀ {input : List UInt8} {ls : List (List UInt8)} {buf : List UInt8} {m : ℕ} {ks : ℕ → ℕ},
      input.length < n → (∀ l ∈ ls, Line l) → buf.length = BUFSZ → m ≤ BUFSZ → newline ∉ buf.take m →
      buf.take m ++ input = joined ls →
      (∀ got ∈ (grepLoop (re ++ [0]) buf m input ks).pieces, newline ∈ got) →
      (grepLoop (re ++ [0]) buf m input ks).out = matching re ls := by
  -- on the bytes that are still to be read
  induction n with
  | zero =>
    intro input ls buf m ks hlt
    exact absurd hlt (Nat.not_lt_zero _)
  | succ n ih =>
    intro input ls buf m ks hlt hls hbuf hm hn hs hp
    have hm' : m < 1023 := by
      have hshort := part_short hls hs hn
      rwa [length_take_of_le (by omega)] at hshort
    rcases hgot : piece (BUFSZ - m - 1) (ks 0) input with _ | ⟨x, got⟩
    · -- nothing more to read: no line is left
      have hin : input = [] := by
        rw [piece, take_eq_nil_iff] at hgot
        refine hgot.resolve_left ?_
        rw [BUFSZ]
        omega
      rw [hin, append_nil] at hs
      rw [lines_nil hn hs, grepLoop_stop (by rw [hgot]; rfl)]
      rfl
    · have hne : (x :: got).length ≠ 0 := Nat.succ_ne_zero _
      have hcat : x :: got ++ input.drop (x :: got).length = input := by
        rw [← hgot]
        exact piece_append_drop _ _ _
      have hs' : buf.take m ++ x :: got ++ input.drop (x :: got).length = joined ls := by
        rw [append_assoc, hcat, hs]
      have hroom : m + (x :: got).length ≤ 1023 := by
        have hle : (piece (BUFSZ - m - 1) (ks 0) input).length ≤ BUFSZ - m - 1 :=
          (length_take_le _ _).trans (Nat.min_le_left _ _)
        rw [hgot, BUFSZ] at hle
        omega
      obtain ⟨done, todo, c, buf', rfl, hsc, hc, hnc, hbuf', hturn, hcarry⟩ :=
        turn_lines hre hls hbuf hroom hs'
      rw [grepLoop_turn hgot hne hturn] at hp ⊢
      -- the piece has a newline, so that a line was complete and the rest of the text is kept
      have hdone : done ≠ [] := by
        rintro rfl
        have hmem := mem_append_right (buf.take m) (hp _ mem_cons_self)
        rw [hsc] at hmem
        exact hnc hmem
      have hlen : (input.drop (x :: got).length).length < n := by
        rw [length_drop, length_cons]
        have hpos := congrArg length hcat
        rw [length_append, length_cons] at hpos
        omega
      have htodo : ∀ l ∈ todo, Line l := fun l hl => hls l (mem_append_right _ hl)
      have hshort : c.length ≤ BUFSZ := (part_short htodo hc hnc).le.trans (by decide)
      have htake := hcarry hdone
      rw [if_neg hdone] at hp ⊢
      have hrest : (grepLoop (re ++ [0]) buf' c.length (input.drop (x :: got).length)
          fun i => ks (i + 1)).out = matching re todo :=
        ih hlen htodo hbuf' hshort (htake.symm ▸ hnc) (htake.symm ▸ hc)
          fun got hg => hp got (mem_cons_of_mem _ hg)
      rw [matching_append, hrest]

theorem turn_forgets (hre : 0 ∉ re) (hls : ∀ l ∈ ls, Line l) (hbuf : buf.length = BUFSZ)
    (hroom : m + got.length ≤ 1023) (hs : buf.take m ++ got ++ rest = joined ls)
    (hn : newline ∉ buf.take m ++ got) :
    ∃ buf', buf'.length = BUFSZ ∧ turn (re ++ [0]) buf m got = (buf', 0, []) := by
  obtain ⟨done, todo, c, buf', -, hsc, -, -, hbuf', hturn, -⟩ := turn_lines hre hls hbuf hroom hs
  cases done with
  | nil => exact ⟨buf', hbuf', hturn⟩
  | cons l done =>
    rw [hsc, joined_cons, append_assoc] at hn
    exact absurd (mem_append_right l mem_cons_self) hn

theorem pieces_whole (pattern buf : List UInt8) (h0 : input.length ≠ 0)
    (hle : input.length ≤ BUFSZ - m - 1) (hk : input.length ≤ ks 0 + 1) :
    (grepLoop pattern buf m input ks).pieces = [input] := by
  have hgot : piece (BUFSZ - m - 1) (ks 0) input = input :=
    take_of_length_le (le_min hle hk)
  rw [grepLoop_turn hgot h0 rfl, grepLoop_stop]
  rw [drop_length, piece, take_nil, length_nil]

/-- However the input arrives, the matching lines are written, once each, complete and in order, as
  long as every piece has a newline. -/
theorem grep_writes_matching (re buf : List UInt8) (ls : List (List UInt8)) (ks : ℕ → ℕ)
    (hre : 0 ∉ re) (hbuf : buf.length = BUFSZ) (hls : ∀ l ∈ ls, Line l)
    (hp : ∀ got ∈ (grep (re ++ [0]) buf (joined ls) ks).pieces, newline ∈ got) :
    (grep (re ++ [0]) buf (joined ls) ks).out = matching re ls := by
  refine grepLoop_matching hre _ (Nat.lt_succ_self _) hls hbuf (Nat.zero_le _) ?_ ?_ hp
  · rw [take_zero]
    exact not_mem_nil
  · rw [take_zero, nil_append]

/-- The lines `a` and `ba` in two pieces: the first has the `b` of the second line. -/
theorem grep_writes_matching_pieces :
    (grep ([97] ++ [0]) (replicate BUFSZ 0) (joined [[97], [98, 97]]) fun _ => 2).out =
      matching [97] [[97], [98, 97]] := by
  have hls : ∀ l ∈ [[(97 : UInt8)], [98, 97]], Line l := fun l hl => by
    rcases mem_pair.mp hl with rfl | rfl <;> exact ⟨by decide, by decide, by decide⟩
  refine grep_writes_matching [97] (replicate BUFSZ 0) _ (fun _ => 2) (by decide)
    length_replicate hls fun got hg => ?_
  obtain ⟨done, todo, c, buf', hdone, hsc, -, hnc, -, hturn, -⟩ := turn_lines
    (show (0 : UInt8) ∉ [97] by decide) hls length_replicate
    (show 0 + [97, newline, 98].length ≤ 1023 by decide)
    (show (replicate BUFSZ 0).take 0 ++ [97, newline, 98] ++ [97, newline] = _ from rfl)
  have hm : (if done = [] then 0 else c.length) = 1 := by
    rcases done with _ | ⟨l, _ | ⟨l', done⟩⟩
    · have hc : [97, newline, 98] = c := hsc
      exact absurd (hc ▸ by decide) hnc
    · obtain ⟨rfl, -⟩ := List.cons.inj hdone
      exact congrArg (length · - 2) hsc.symm
    · obtain ⟨rfl, hrest⟩ := List.cons.inj hdone
      obtain ⟨rfl, -⟩ := List.cons.inj hrest
      cases hsc
  rw [hm] at hturn
  have hgot : piece (BUFSZ - 0 - 1) 2 (joined [[97], [98, 97]]) = [97, newline, 98] := by decide
  have hlast : (grepLoop ([97] ++ [0]) buf' 1 [97, newline] fun _ => 2).pieces = [[97, newline]] :=
    pieces_whole _ _ (by decide) (by decide) (by decide)
  rw [grep, grepLoop_turn hgot (by decide) hturn] at hg
  rcases mem_cons.mp hg with rfl | hg
  · decide
  · have hg : got ∈ [[97, newline]] := Eq.subst (motive := (got ∈ ·)) hlast hg
    rw [mem_singleton.mp hg]
    decide

theorem matches_a_ab : lineMatches [97] [97, 98] = true := by
  simp +decide [lineMatches, matchText, matchFrom, matchhere]

theorem not_matches_a_b : lineMatches [97] [98] = false := by
  simp +decide [lineMatches, matchText, matchFrom, matchhere]

/-- The line `ab` in two pieces, `a` and then `b` with the newline: for the pattern `a` nothing is
  written. -/
theorem grep_loses_line :
    (∀ l ∈ [[(97 : UInt8), 98]], Line l) ∧
      (grep ([97] ++ [0]) (replicate BUFSZ 0) (joined [[97, 98]]) fun i => i).out = [] ∧
      matching [97] [[97, 98]] = [97, 98, newline] := by
  have hls : ∀ l ∈ [[(97 : UInt8), 98]], Line l :=
    fun l hl => mem_singleton.mp hl ▸ ⟨by decide, by decide, by decide⟩
  have hb : ∀ l ∈ [[(98 : UInt8)]], Line l :=
    fun l hl => mem_singleton.mp hl ▸ ⟨by decide, by decide, by decide⟩
  refine ⟨hls, ?_, ?_⟩
  · obtain ⟨buf', hbuf', hturn⟩ : ∃ buf', buf'.length = BUFSZ ∧
        turn ([97] ++ [0]) (replicate BUFSZ 0) 0 [97] = (buf', 0, []) :=
      turn_forgets (by decide) hls length_replicate (by decide)
        (rfl : _ ++ [98, newline] = _) (by decide)
    have hgot : piece (BUFSZ - 0 - 1) 0 (joined [[97, 98]]) = [97] := by decide
    rw [grep, grepLoop_turn hgot (by decide) hturn]
    have hp : (grepLoop ([97] ++ [0]) buf' 0 (joined [[98]]) fun i => i + 1).pieces = [joined [[98]]] :=
      pieces_whole ([97] ++ [0]) buf' (by decide) (by decide) (by decide)
    have hout : matching [97] [[98]] = [] := by
      rw [matching, filter_cons_of_neg (by rw [not_matches_a_b]; decide)]
      rfl
    refine Eq.trans (b := matching [97] [[98]]) ?_ hout
    refine grepLoop_matching (by decide) 3 (by decide) hb hbuf' (Nat.zero_le _) (by simp) rfl
      fun got hg => ?_
    rw [show (joined [[97, 98]]).drop ([97] : List UInt8).length = joined [[98]] from rfl, hp,
      mem_singleton] at hg
    rw [hg]
    decide
  · rw [matching, filter_cons_of_pos matches_a_ab]
    rfl

end Xv6.Grep

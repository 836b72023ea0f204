import Mathlib.Tactic

/-! @src sh.c | part:the parser of the shell | scheme:recursive descent

  Five procedures share one cursor and look at it through `peek` and `gettoken` only. The parser is
  written over such a lexer, so that it can be run on the characters of the source and on a list of
  tokens; a map between two cursors that `peek` and `gettoken` respect is respected by the parser.

      characters --tokens--> tokens
          | parsecmd            | parsecmd
          v                     v
         tree ================ tree

  A procedure has `fuel` for the depth of its calls and loops; `Err.fuel` is not an answer of the
  source. -/

namespace Xv6.Shell
open List

def MAXARGS : ℕ := 10
def O_RDONLY : ℕ := 0x000
def O_WRONLY : ℕ := 0x001
def O_CREATE : ℕ := 0x200

/-- A token; a word is the slice between `q` and `eq`, which `nulterminate` makes a string. -/
inductive Tok where
  | pipe | lpar | rpar | semi | amp | lt | gt | gtgt
  | word (w : List Char)
  deriving DecidableEq

/-- A parsed command. -/
inductive Cmd where
  | exec (argv : List (List Char))
  | redir (cmd : Cmd) (file : List Char) (mode fd : ℕ)
  | pipe (left right : Cmd)
  | list (left right : Cmd)
  | back (cmd : Cmd)

inductive Err where
  | fuel
  | panic (msg : String)

/-- The cursor: `peek` and `gettoken` move it, `done` says that it is at `es`. -/
structure Lexer (σ : Type) where
  peek : σ → List Char → Bool × σ
  gettoken : σ → Option Tok × σ
  done : σ → Bool

/-- `cmd->argv[argc] = q`: the arguments go to the `execcmd` inside the redirections. -/
def Cmd.addArg (w : List Char) : Cmd → Cmd
  | .exec argv => .exec (argv ++ [w])
  | .redir cmd file mode fd => .redir (cmd.addArg w) file mode fd
  | cmd => cmd

def redirect (tok : Option Tok) (file : List Char) (cmd : Cmd) : Cmd :=
  match tok with
  | some .lt => .redir cmd file O_RDONLY 0
  | some .gt => .redir cmd file (O_WRONLY ||| O_CREATE) 1
  | some .gtgt => .redir cmd file (O_WRONLY ||| O_CREATE) 1
  | _ => cmd

section Parser

variable {σ : Type} (L : Lexer σ)

def parseredirs : ℕ → Cmd → σ → Except Err (Cmd × σ)
  | 0, _, _ => .error .fuel
  | n + 1, cmd, s =>
    if (L.peek s ['<', '>']).1 then
      let tok := L.gettoken (L.peek s ['<', '>']).2
      match L.gettoken tok.2 with
      | (some (.word w), s') => parseredirs n (redirect tok.1 w cmd) s'
      | _ => .error (.panic "missing file for redirection")
    else .ok (cmd, (L.peek s ['<', '>']).2)

def parseargs : ℕ → Cmd → ℕ → σ → Except Err (Cmd × σ)
  | 0, _, _, _ => .error .fuel
  | n + 1, ret, argc, s =>
    if (L.peek s ['|', ')', '&', ';']).1 then .ok (ret, (L.peek s ['|', ')', '&', ';']).2)
    else match L.gettoken (L.peek s ['|', ')', '&', ';']).2 with
      | (none, s') => .ok (ret, s')
      | (some (.word w), s') =>
        if argc + 1 ≥ MAXARGS then .error (.panic "too many args")
        else (parseredirs L n (ret.addArg w) s').bind fun q => parseargs n q.1 (argc + 1) q.2
      | _ => .error (.panic "syntax")

def backs : ℕ → Cmd → σ → Except Err (Cmd × σ)
  | 0, _, _ => .error .fuel
  | n + 1, cmd, s =>
    if (L.peek s ['&']).1 then backs n (.back cmd) (L.gettoken (L.peek s ['&']).2).2
    else .ok (cmd, (L.peek s ['&']).2)

mutual

def parseline : ℕ → σ → Except Err (Cmd × σ)
  | 0, _ => .error .fuel
  | n + 1, s => (parsepipe n s).bind fun p => (backs L n p.1 p.2).bind fun q =>
    if (L.peek q.2 [';']).1 then
      (parseline n (L.gettoken (L.peek q.2 [';']).2).2).bind fun r => .ok (.list q.1 r.1, r.2)
    else .ok (q.1, (L.peek q.2 [';']).2)

def parsepipe : ℕ → σ → Except Err (Cmd × σ)
  | 0, _ => .error .fuel
  | n + 1, s => (parseexec n s).bind fun p =>
    if (L.peek p.2 ['|']).1 then
      (parsepipe n (L.gettoken (L.peek p.2 ['|']).2).2).bind fun r => .ok (.pipe p.1 r.1, r.2)
    else .ok (p.1, (L.peek p.2 ['|']).2)

def parseexec : ℕ → σ → Except Err (Cmd × σ)
  | 0, _ => .error .fuel
  | n + 1, s =>
    if (L.peek s ['(']).1 then parseblock n (L.peek s ['(']).2
    else (parseredirs L n (.exec []) (L.peek s ['(']).2).bind fun p => parseargs L n p.1 0 p.2

def parseblock : ℕ → σ → Except Err (Cmd × σ)
  | 0, _ => .error .fuel
  | n + 1, s =>
    if (L.peek s ['(']).1 then
      (parseline n (L.gettoken (L.peek s ['(']).2).2).bind fun p =>
        if (L.peek p.2 [')']).1 then parseredirs L n p.1 (L.gettoken (L.peek p.2 [')']).2).2
        else .error (.panic "syntax - missing )")
    else .error (.panic "parseblock")

end

def parsefrom (n : ℕ) (s : σ) : Except Err Cmd :=
  (parseline L n s).bind fun p =>
    if L.done (L.peek p.2 []).2 then .ok p.1 else .error (.panic "syntax")

end Parser

/-! ### Characters and tokens -/

def isSpace (c : Char) : Bool := [' ', '\t', '\r', '\n', '\x0b'].contains c

def symbol (c : Char) : Option Tok :=
  if c = '|' then some .pipe else if c = '(' then some .lpar else if c = ')' then some .rpar
  else if c = ';' then some .semi else if c = '&' then some .amp else if c = '<' then some .lt
  else none

def isWord (c : Char) : Bool := !isSpace c && !(['<', '|', '>', '&', ';', '(', ')'].contains c)

def skip (s : List Char) : List Char := s.dropWhile isSpace

/-- The `switch` of `gettoken`, at a character that is not white space. -/
def scan : List Char → Option Tok × List Char
  | [] => (none, [])
  | c :: s =>
    match symbol c with
    | some t => (some t, s)
    | none =>
      if c = '>' then
        match s with
        | [] => (some .gt, [])
        | d :: s' => if d = '>' then (some .gtgt, s') else (some .gt, d :: s')
      else (some (.word ((c :: s).takeWhile isWord)), (c :: s).dropWhile isWord)

def chars : Lexer (List Char) where
  peek s toks :=
    match skip s with
    | [] => (false, [])
    | c :: s' => (toks.contains c, c :: s')
  gettoken s := ((scan (skip s)).1, skip (scan (skip s)).2)
  done s := s.isEmpty

def parsecmd (s : List Char) : Except Err Cmd := parsefrom chars (4 * s.length + 5) s

/-- The token sequence of a string: words are maximal runs of characters other than white space and
  symbols, and `>>` is one token. -/
def tokens (s : List Char) : List Tok :=
  match s with
  | [] => []
  | c :: s =>
    if isSpace c then tokens s
    else if c = '>' then
      if s.head? = some '>' then .gtgt :: tokens s.tail else .gt :: tokens s
    else match symbol c with
    | some t => t :: tokens s
    | none => .word (c :: s.takeWhile isWord) :: tokens (s.dropWhile isWord)
termination_by s.length
decreasing_by
  · simp
  · simp only [length_tail, length_cons]; omega
  · simp
  · simp
  · exact Nat.lt_succ_of_le (dropWhile_suffix _).length_le

def Tok.first : Tok → Option Char
  | .pipe => some '|'
  | .lpar => some '('
  | .rpar => some ')'
  | .semi => some ';'
  | .amp => some '&'
  | .lt => some '<'
  | .gt | .gtgt => some '>'
  | .word _ => none

def toks : Lexer (List Tok) where
  peek ts cs := ((ts.head?.bind Tok.first).any cs.contains, ts)
  gettoken
    | [] => (none, [])
    | t :: ts => (some t, ts)
  done ts := ts.isEmpty

/-! ### Cursors that behave alike -/

/-- A map between cursors that the lexers respect, for the symbols a parser looks for. -/
structure Maps {σ τ : Type} (L : Lexer σ) (M : Lexer τ) (h : σ → τ) : Prop where
  peek : ∀ s cs, (∀ c ∈ cs, isWord c = false) →
    M.peek (h s) cs = ((L.peek s cs).1, h (L.peek s cs).2)
  gettoken : ∀ s, M.gettoken (h s) = ((L.gettoken s).1, h (L.gettoken s).2)
  done : ∀ s, M.done (h (L.peek s []).2) = L.done (L.peek s []).2

theorem symbols {cs : List Char} (h : cs.all (!isWord ·) = true) : ∀ c ∈ cs, isWord c = false := by
  simpa using h

section Maps

variable {σ τ : Type} {L : Lexer σ} {M : Lexer τ} {h : σ → τ}

def through (h : σ → τ) (r : Except Err (Cmd × σ)) : Except Err (Cmd × τ) :=
  r.map fun p => (p.1, h p.2)

theorem through_bind {f : Cmd × σ → Except Err (Cmd × σ)} {g : Cmd × τ → Except Err (Cmd × τ)}
    (r : Except Err (Cmd × σ)) (hf : ∀ c s, g (c, h s) = through h (f (c, s))) :
    (through h r).bind g = through h (r.bind f) := by
  cases r with
  | error e => rfl
  | ok p => exact hf p.1 p.2

variable (hm : Maps L M h)
include hm

theorem Maps.parseredirs : ∀ (n : ℕ) (cmd : Cmd) (s : σ),
    parseredirs M n cmd (h s) = through h (parseredirs L n cmd s)
  | 0, _, _ => rfl
  | n + 1, cmd, s => by
    simp only [Shell.parseredirs, hm.peek s ['<', '>'] (symbols (by decide)), hm.gettoken]
    split_ifs with hp
    · generalize (L.gettoken (L.peek s ['<', '>']).2).1 = tok
      generalize L.gettoken (L.gettoken (L.peek s ['<', '>']).2).2 = f
      obtain ⟨f1, f2⟩ := f
      cases f1 with
      | none => rfl
      | some t =>
        cases t with
        | word w => exact Maps.parseredirs n _ _
        | _ => rfl
    · rfl

theorem Maps.parseargs : ∀ (n : ℕ) (ret : Cmd) (argc : ℕ) (s : σ),
    parseargs M n ret argc (h s) = through h (parseargs L n ret argc s)
  | 0, _, _, _ => rfl
  | n + 1, ret, argc, s => by
    simp only [Shell.parseargs, hm.peek s ['|', ')', '&', ';'] (symbols (by decide)), hm.gettoken]
    by_cases hp : (L.peek s ['|', ')', '&', ';']).1 = true
    · rw [if_pos hp, if_pos hp]
      rfl
    · rw [if_neg hp, if_neg hp]
      generalize L.gettoken (L.peek s ['|', ')', '&', ';']).2 = f
      obtain ⟨f1, f2⟩ := f
      cases f1 with
      | none => rfl
      | some t =>
        cases t with
        | word w =>
          dsimp only
          split_ifs with ha
          · rfl
          · rw [hm.parseredirs]
            exact through_bind _ fun c s => Maps.parseargs n c (argc + 1) s
        | _ => rfl

theorem Maps.backs : ∀ (n : ℕ) (cmd : Cmd) (s : σ),
    backs M n cmd (h s) = through h (backs L n cmd s)
  | 0, _, _ => rfl
  | n + 1, cmd, s => by
    simp only [Shell.backs, hm.peek s ['&'] (symbols (by decide)), hm.gettoken]
    split_ifs with hp
    · exact Maps.backs n _ _
    · rfl

mutual

theorem Maps.parseline : ∀ (n : ℕ) (s : σ), parseline M n (h s) = through h (parseline L n s)
  | 0, _ => rfl
  | n + 1, s => by
    rw [Shell.parseline, Shell.parseline, Maps.parsepipe n s]
    refine through_bind _ fun c s => ?_
    rw [hm.backs]
    refine through_bind _ fun c s => ?_
    simp only [hm.peek s [';'] (symbols (by decide)), hm.gettoken]
    split_ifs with hp
    · rw [Maps.parseline n]
      exact through_bind _ fun _ _ => rfl
    · rfl

theorem Maps.parsepipe : ∀ (n : ℕ) (s : σ), parsepipe M n (h s) = through h (parsepipe L n s)
  | 0, _ => rfl
  | n + 1, s => by
    rw [Shell.parsepipe, Shell.parsepipe, Maps.parseexec n s]
    refine through_bind _ fun c s => ?_
    simp only [hm.peek s ['|'] (symbols (by decide)), hm.gettoken]
    split_ifs with hp
    · rw [Maps.parsepipe n]
      exact through_bind _ fun _ _ => rfl
    · rfl

theorem Maps.parseexec : ∀ (n : ℕ) (s : σ), parseexec M n (h s) = through h (parseexec L n s)
  | 0, _ => rfl
  | n + 1, s => by
    simp only [Shell.parseexec, hm.peek s ['('] (symbols (by decide))]
    split_ifs with hp
    · exact Maps.parseblock n _
    · rw [hm.parseredirs]
      exact through_bind _ fun c s => hm.parseargs n c 0 s

theorem Maps.parseblock : ∀ (n : ℕ) (s : σ), parseblock M n (h s) = through h (parseblock L n s)
  | 0, _ => rfl
  | n + 1, s => by
    simp only [Shell.parseblock, hm.peek s ['('] (symbols (by decide)), hm.gettoken]
    split_ifs with hp
    · rw [Maps.parseline n]
      refine through_bind _ fun c s => ?_
      simp only [hm.peek s [')'] (symbols (by decide)), hm.gettoken]
      split_ifs with hr
      · exact hm.parseredirs n _ _
      · rfl
    · rfl

end

theorem Maps.parsefrom (n : ℕ) (s : σ) : parsefrom M n (h s) = parsefrom L n s := by
  unfold Shell.parsefrom
  rw [hm.parseline]
  cases Shell.parseline L n s with
  | error e => rfl
  | ok p =>
    simp only [through, Except.map, Except.bind, hm.peek p.2 [] (by simp), hm.done]

end Maps

/-! ### The characters of a string and its tokens -/

theorem tokens_skip (s : List Char) : tokens (skip s) = tokens s := by
  induction s with
  | nil => rfl
  | cons c s ih =>
    unfold skip
    rw [dropWhile_cons]
    split_ifs with hc
    · rw [← skip, ih, tokens, if_pos hc]
    · rfl

theorem skip_cases (s : List Char) :
    skip s = [] ∨ ∃ c s', skip s = c :: s' ∧ isSpace c = false := by
  induction s with
  | nil => exact .inl rfl
  | cons c s ih =>
    by_cases hc : isSpace c = true
    · simpa [skip, dropWhile_cons, hc] using ih
    · exact .inr ⟨c, s, by simp [skip, hc], by simpa using hc⟩

theorem isWord_of_symbol_none {c : Char} (hs : isSpace c = false) (hn : symbol c = none)
    (hg : c ≠ '>') : isWord c = true := by
  unfold symbol at hn
  split_ifs at hn with h1 h2 h3 h4 h5 h6
  simp [isWord, hs, h1, h2, h3, h4, h5, h6, hg]

theorem tokens_scan {c : Char} {s : List Char} (hs : isSpace c = false) :
    ∃ t, (scan (c :: s)).1 = some t ∧ tokens (c :: s) = t :: tokens (scan (c :: s)).2 := by
  rw [tokens, if_neg (by simp [hs])]
  unfold scan
  by_cases hg : c = '>'
  · subst hg
    cases s with
    | nil => exact ⟨.gt, by simp [symbol], by simp [symbol]⟩
    | cons d s =>
      by_cases hd : d = '>'
      · subst hd
        exact ⟨.gtgt, by simp [symbol], by simp [symbol]⟩
      · exact ⟨.gt, by simp [symbol, hd], by simp [symbol, hd]⟩
  · rw [if_neg hg]
    cases hn : symbol c with
    | some t => exact ⟨t, by simp only [hn], by simp only [hn]⟩
    | none =>
      have hw := isWord_of_symbol_none hs hn hg
      refine ⟨.word (c :: s.takeWhile isWord), ?_, ?_⟩
      · simp [hn, hg, hw]
      · simp [hn, hg, hw]

theorem first_scan {c : Char} {s : List Char} {t : Tok} (hs : isSpace c = false)
    (ht : (scan (c :: s)).1 = some t) : t.first = if isWord c then none else some c := by
  unfold scan at ht
  by_cases hg : c = '>'
  · subst hg
    rw [if_neg (by decide)]
    cases s with
    | nil =>
      simp [symbol] at ht
      subst ht
      rfl
    | cons d s =>
      by_cases hd : d = '>'
      · simp [symbol, hd] at ht
        subst ht
        rfl
      · simp [symbol, hd] at ht
        subst ht
        rfl
  · cases hn : symbol c with
    | some u =>
      simp only [hn] at ht
      cases ht
      unfold symbol at hn
      split_ifs at hn with h1 h2 h3 h4 h5 h6
      all_goals
        subst_vars
        cases hn
        rfl
    | none =>
      have hw := isWord_of_symbol_none hs hn hg
      simp only [hn, if_neg hg, Option.some.injEq] at ht
      subst ht
      rw [if_pos hw]
      rfl

theorem maps_tokens : Maps chars toks tokens where
  peek s cs hcs := by
    rcases skip_cases s with hs | ⟨c, s', hs, hc⟩
    · have ht : tokens s = [] := by rw [← tokens_skip, hs, tokens]
      simp [chars, toks, hs, ht, tokens]
    · obtain ⟨t, hscan, ht⟩ := tokens_scan (s := s') hc
      have hfirst := first_scan hc hscan
      have hts : tokens s = tokens (c :: s') := by rw [← tokens_skip, hs]
      simp only [chars, toks, hs, hts, Prod.mk.injEq, and_true]
      rw [ht, List.head?_cons, Option.bind_some, hfirst]
      by_cases hw : isWord c = true
      · -- a word starts with none of the symbols
        have hno : c ∉ cs := by
          intro hmem
          rw [hcs c hmem] at hw
          cases hw
        simp [hw, hno]
      · simp [hw]
  gettoken s := by
    rcases skip_cases s with hs | ⟨c, s', hs, hc⟩
    · have ht : tokens s = [] := by rw [← tokens_skip, hs, tokens]
      have hnil : tokens (skip []) = [] := by rw [tokens_skip, tokens]
      simp only [chars, toks, hs, ht, scan, hnil]
    · obtain ⟨t, hscan, ht⟩ := tokens_scan (s := s') hc
      have hts : tokens s = tokens (c :: s') := by rw [← tokens_skip, hs]
      simp only [chars, toks, hs, hts, ht, hscan, tokens_skip]
  done s := by
    rcases skip_cases s with hs | ⟨c, s', hs, hc⟩
    · simp [chars, toks, hs, tokens]
    · obtain ⟨t, -, ht⟩ := tokens_scan (s := s') hc
      simp [chars, toks, hs, ht]

theorem length_tokens_le (s : List Char) : (tokens s).length ≤ s.length := by
  fun_induction tokens s with
  | case1 => simp
  | case2 c s hc ih => simp only [length_cons]; omega
  | case3 s _ _ ih =>
    simp only [length_cons, length_tail] at *
    omega
  | case4 s _ _ ih | case5 c s _ _ t _ ih => simp only [length_cons]; omega
  | case6 c s _ _ _ ih =>
    have := (dropWhile_suffix (l := s) isWord).length_le
    simp only [length_cons]
    omega

end Xv6.Shell

import Xv6.User.Shell

/-! @src sh.c | part:the grammar of the shell | scheme:recursive descent

  The commands of the shell as a grammar over tokens, and that the parser accepts exactly those,
  with the tree of the derivation.

      line  := pipe '&'* [';' line]
      pipe  := exec ['|' pipe]
      exec  := '(' line ')' redir*  |  redir* (word redir*)*     at most MAXARGS - 1 words
      redir := ('<' | '>' | '>>') word

  A procedure that succeeds has consumed a derivation of its tree; a derivation followed by a token
  that cannot continue it is consumed; and the depth of the calls is bounded by the length of the
  string. -/

namespace Xv6.Shell
open Nat
open List

/-! ### Derivations -/

inductive Redir : Tok → List Char → (Cmd → Cmd) → Prop
  | lt (w : List Char) : Redir .lt w fun cmd => .redir cmd w O_RDONLY 0
  | gt (w : List Char) : Redir .gt w fun cmd => .redir cmd w (O_WRONLY ||| O_CREATE) 1
  | gtgt (w : List Char) : Redir .gtgt w fun cmd => .redir cmd w (O_WRONLY ||| O_CREATE) 1

/-- `redir*`, and what it wraps around a command, in order of appearance. -/
inductive Redirs : List Tok → (Cmd → Cmd) → Prop
  | nil : Redirs [] id
  | cons {t w f ts g} (h : Redir t w f) (hs : Redirs ts g) : Redirs (t :: .word w :: ts) (g ∘ f)

inductive Words : List Tok → List (List Char) → (Cmd → Cmd) → Prop
  | nil : Words [] [] id
  | cons {w rs f ts ws g} (hr : Redirs rs f) (hs : Words ts ws g) :
      Words (.word w :: (rs ++ ts)) (w :: ws) (g ∘ f)

inductive Nt where
  | line | pipe | exec

inductive Derives : Nt → List Tok → Cmd → Prop
  | simple {rs f ts ws g} (hr : Redirs rs f) (hw : Words ts ws g) (hn : ws.length ≤ MAXARGS - 1) :
      Derives .exec (rs ++ ts) (g (f (.exec ws)))
  | block {ts c rs f} (h : Derives .line ts c) (hr : Redirs rs f) :
      Derives .exec (.lpar :: (ts ++ .rpar :: rs)) (f c)
  | one {ts c} (h : Derives .exec ts c) : Derives .pipe ts c
  | pipe {ts c us d} (h : Derives .exec ts c) (h' : Derives .pipe us d) :
      Derives .pipe (ts ++ .pipe :: us) (.pipe c d)
  | last {ts c} (k : ℕ) (h : Derives .pipe ts c) :
      Derives .line (ts ++ replicate k .amp) (Cmd.back^[k] c)
  | list {ts c us d} (k : ℕ) (h : Derives .pipe ts c) (h' : Derives .line us d) :
      Derives .line (ts ++ (replicate k .amp ++ .semi :: us)) (.list (Cmd.back^[k] c) d)

/-- The command inside some redirections is an `execcmd` whose arguments can still be filled in. -/
def Wraps (f : Cmd → Cmd) : Prop := ∀ w c, (f c).addArg w = f (c.addArg w)

theorem Redir.wraps {t : Tok} {w : List Char} {f : Cmd → Cmd} (h : Redir t w f) : Wraps f := by
  cases h <;> exact fun _ _ => rfl

theorem Redirs.wraps {ts : List Tok} {f : Cmd → Cmd} (h : Redirs ts f) : Wraps f := by
  induction h with
  | nil => exact fun _ _ => rfl
  | cons h _ ih =>
    intro w c
    rw [Function.comp_apply, ih, h.wraps]
    rfl

theorem Wraps.foldl {f : Cmd → Cmd} (hf : Wraps f) : ∀ (ws : List (List Char)) (c : Cmd),
    ws.foldl (fun ret w => ret.addArg w) (f c) = f (ws.foldl (fun ret w => ret.addArg w) c)
  | [], _ => rfl
  | w :: ws, c => by rw [foldl_cons, hf w c, hf.foldl ws, foldl_cons]

/-! ### Tokens as a cursor -/

theorem bind_eq_ok {α β : Type} {r : Except Err α} {f : α → Except Err β} {b : β} :
    r.bind f = .ok b ↔ ∃ a, r = .ok a ∧ f a = .ok b := by
  cases r with
  | error e | ok a => simp [Except.bind]

@[simp] theorem toks_peek_snd (ts : List Tok) (cs : List Char) : (toks.peek ts cs).2 = ts := rfl

@[simp] theorem toks_gettoken_cons (t : Tok) (ts : List Tok) :
    toks.gettoken (t :: ts) = (some t, ts) := rfl

@[simp] theorem toks_gettoken_nil : toks.gettoken [] = (none, []) := rfl

@[simp] theorem toks_peek_nil (cs : List Char) : (toks.peek [] cs).1 = false := rfl

@[simp] theorem toks_peek_cons (t : Tok) (ts : List Tok) (cs : List Char) :
    (toks.peek (t :: ts) cs).1 = t.first.any cs.contains := rfl

/-! ### Soundness -/

theorem redirect_redir {t : Tok} (ht : t.first.any ['<', '>'].contains = true) (w : List Char) :
    Redir t w (redirect (some t) w) := by
  cases t with
  | lt => exact .lt w
  | gt => exact .gt w
  | gtgt => exact .gtgt w
  | word | _ => simp [Tok.first] at ht

theorem parseredirs_sound : ∀ {n : ℕ} {cmd c : Cmd} {ts r : List Tok},
    parseredirs toks n cmd ts = .ok (c, r) → ∃ u f, ts = u ++ r ∧ Redirs u f ∧ c = f cmd
  | 0, _, _, _, _, h => by cases h
  | n + 1, cmd, c, ts, r, h => by
    unfold parseredirs at h
    split_ifs at h with hp
    · cases ts with
      | nil => cases hp
      | cons t ts =>
        simp only [toks_peek_snd, toks_gettoken_cons] at h
        cases ts with
        | nil => cases h
        | cons v ts =>
          cases v with
          | word w =>
            obtain ⟨u, f, rfl, hu, rfl⟩ := parseredirs_sound h
            exact ⟨t :: .word w :: u, f ∘ redirect (some t) w, rfl,
              .cons (redirect_redir hp w) hu, rfl⟩
          | _ => cases h
    · cases h
      exact ⟨[], id, rfl, .nil, rfl⟩

theorem parseargs_sound : ∀ {n argc : ℕ} {ret c : Cmd} {ts r : List Tok},
    parseargs toks n ret argc ts = .ok (c, r) → argc ≤ MAXARGS - 1 →
    ∃ u ws g, ts = u ++ r ∧ Words u ws g ∧ argc + ws.length ≤ MAXARGS - 1 ∧
      c = g (ws.foldl (fun ret w => ret.addArg w) ret)
  | 0, _, _, _, _, _, h, _ => by cases h
  | n + 1, argc, ret, c, ts, r, h, ha => by
    unfold parseargs at h
    by_cases hp : (toks.peek ts ['|', ')', '&', ';']).1 = true
    · rw [if_pos hp] at h
      cases h
      exact ⟨[], [], id, rfl, .nil, ha, rfl⟩
    · rw [if_neg hp, toks_peek_snd] at h
      cases ts with
      | nil =>
        cases h
        exact ⟨[], [], id, rfl, .nil, ha, rfl⟩
      | cons t ts =>
        rw [toks_gettoken_cons] at h
        cases t with
        | word w =>
          dsimp only at h
          split_ifs at h with hmax
          obtain ⟨⟨c1, r1⟩, h1, h2⟩ := bind_eq_ok.mp h
          obtain ⟨u, f, rfl, hu, rfl⟩ := parseredirs_sound h1
          obtain ⟨v, ws, g, rfl, hv, hlen, rfl⟩ := parseargs_sound h2 (by omega)
          refine ⟨.word w :: (u ++ v), w :: ws, g ∘ f, by simp, .cons hu hv, ?_, ?_⟩
          · rw [length_cons]
            omega
          · rw [hu.wraps.foldl]
            rfl
        | _ => cases h

theorem foldl_addArg : ∀ (ws argv : List (List Char)),
    ws.foldl (fun ret w => Cmd.addArg w ret) (.exec argv) = .exec (argv ++ ws)
  | [], argv => by simp
  | w :: ws, argv => by
    rw [foldl_cons, Cmd.addArg, foldl_addArg ws, append_assoc, singleton_append]

theorem backs_sound : ∀ {n : ℕ} {cmd c : Cmd} {ts r : List Tok},
    backs toks n cmd ts = .ok (c, r) →
    ∃ k, ts = replicate k .amp ++ r ∧ c = Cmd.back^[k] cmd
  | 0, _, _, _, _, h => by cases h
  | n + 1, cmd, c, ts, r, h => by
    unfold backs at h
    split_ifs at h with hp
    · cases ts with
      | nil => cases hp
      | cons t ts =>
        have ht : t = .amp := by
          cases t <;> simp [Tok.first] at hp ⊢
        subst ht
        simp only [toks_peek_snd, toks_gettoken_cons] at h
        obtain ⟨k, rfl, rfl⟩ := backs_sound h
        exact ⟨k + 1, by simp [replicate_succ], rfl⟩
    · cases h
      exact ⟨0, rfl, rfl⟩

theorem eq_cons_of_peek {ts : List Tok} {a : Char} {t : Tok}
    (ht : ∀ u : Tok, u.first = some a → u = t) (h : (toks.peek ts [a]).1 = true) :
    ∃ us, ts = t :: us := by
  cases ts with
  | nil => cases h
  | cons u us =>
    rw [toks_peek_cons] at h
    cases hu : u.first with
    | none => simp [hu] at h
    | some d =>
      have hd : d = a := by simpa [hu] using h
      exact ⟨us, by rw [ht u (hu.trans (by rw [hd]))]⟩

theorem peek_semi {ts : List Tok} (h : (toks.peek ts [';']).1 = true) : ∃ us, ts = .semi :: us :=
  eq_cons_of_peek (fun u hu => by cases u <;> simp [Tok.first] at hu ⊢) h

theorem peek_pipe {ts : List Tok} (h : (toks.peek ts ['|']).1 = true) : ∃ us, ts = .pipe :: us :=
  eq_cons_of_peek (fun u hu => by cases u <;> simp [Tok.first] at hu ⊢) h

theorem peek_lpar {ts : List Tok} (h : (toks.peek ts ['(']).1 = true) : ∃ us, ts = .lpar :: us :=
  eq_cons_of_peek (fun u hu => by cases u <;> simp [Tok.first] at hu ⊢) h

theorem peek_rpar {ts : List Tok} (h : (toks.peek ts [')']).1 = true) : ∃ us, ts = .rpar :: us :=
  eq_cons_of_peek (fun u hu => by cases u <;> simp [Tok.first] at hu ⊢) h

mutual

theorem parseline_sound : ∀ {n : ℕ} {c : Cmd} {ts r : List Tok},
    parseline toks n ts = .ok (c, r) → ∃ u, ts = u ++ r ∧ Derives .line u c
  | 0, _, _, _, h => by simp [parseline] at h
  | n + 1, c, ts, r, h => by
    rw [parseline] at h
    obtain ⟨⟨c1, r1⟩, h1, hbacks⟩ := bind_eq_ok.mp h
    obtain ⟨u, hts, hu⟩ := parsepipe_sound h1
    obtain ⟨⟨c2, r2⟩, h2, hlist⟩ := bind_eq_ok.mp hbacks
    obtain ⟨k, hk, hc⟩ := backs_sound h2
    dsimp only at hlist hk hc
    subst hts hk hc
    split_ifs at hlist with hp
    · obtain ⟨us, rfl⟩ := peek_semi hp
      obtain ⟨⟨c3, r3⟩, h3, hok⟩ := bind_eq_ok.mp hlist
      obtain ⟨v, hus, hv⟩ := parseline_sound h3
      have hus : us = v ++ r3 := hus
      cases hok
      exact ⟨_, by rw [hus]; simp, .list k hu hv⟩
    · cases hlist
      exact ⟨_, by simp, .last k hu⟩

theorem parsepipe_sound : ∀ {n : ℕ} {c : Cmd} {ts r : List Tok},
    parsepipe toks n ts = .ok (c, r) → ∃ u, ts = u ++ r ∧ Derives .pipe u c
  | 0, _, _, _, h => by simp [parsepipe] at h
  | n + 1, c, ts, r, h => by
    rw [parsepipe] at h
    obtain ⟨⟨c1, r1⟩, h1, hpipe⟩ := bind_eq_ok.mp h
    obtain ⟨u, hts, hu⟩ := parseexec_sound h1
    dsimp only at hpipe
    split_ifs at hpipe with hp
    · obtain ⟨us, rfl⟩ := peek_pipe hp
      obtain ⟨⟨c3, r3⟩, h3, hok⟩ := bind_eq_ok.mp hpipe
      obtain ⟨v, hus, hv⟩ := parsepipe_sound h3
      have hus : us = v ++ r3 := hus
      cases hok
      exact ⟨_, by rw [hts, hus]; simp, .pipe hu hv⟩
    · cases hpipe
      exact ⟨u, hts, .one hu⟩

theorem parseexec_sound : ∀ {n : ℕ} {c : Cmd} {ts r : List Tok},
    parseexec toks n ts = .ok (c, r) → ∃ u, ts = u ++ r ∧ Derives .exec u c
  | 0, _, _, _, h => by simp [parseexec] at h
  | n + 1, c, ts, r, h => by
    rw [parseexec] at h
    split_ifs at h with hp
    · exact parseblock_sound h
    · obtain ⟨⟨c1, r1⟩, h1, h2⟩ := bind_eq_ok.mp h
      obtain ⟨u, f, hts, hu, rfl⟩ := parseredirs_sound h1
      obtain ⟨v, ws, g, rfl, hv, hlen, rfl⟩ := parseargs_sound h2 (by decide)
      refine ⟨u ++ v, by simpa using hts, ?_⟩
      rw [hu.wraps.foldl, foldl_addArg, nil_append]
      exact .simple hu hv (by omega)

theorem parseblock_sound : ∀ {n : ℕ} {c : Cmd} {ts r : List Tok},
    parseblock toks n ts = .ok (c, r) → ∃ u, ts = u ++ r ∧ Derives .exec u c
  | 0, _, _, _, h => by simp [parseblock] at h
  | n + 1, c, ts, r, h => by
    rw [parseblock] at h
    split_ifs at h with hp
    obtain ⟨us, rfl⟩ := peek_lpar hp
    obtain ⟨⟨c1, r1⟩, h1, h⟩ := bind_eq_ok.mp h
    obtain ⟨u, hus, hu⟩ := parseline_sound h1
    split_ifs at h with hr
    obtain ⟨vs, rfl⟩ := peek_rpar hr
    obtain ⟨v, f, hvs, hv, rfl⟩ := parseredirs_sound h
    have hus : us = u ++ .rpar :: vs := hus
    have hvs : vs = v ++ r := hvs
    subst hvs
    exact ⟨_, by rw [hus]; simp, .block hu hv⟩

end

/-! ### Termination -/

theorem bind_ne_fuel {α β : Type} {r : Except Err α} {f : α → Except Err β} (hr : r ≠ .error .fuel)
    (hf : ∀ a, r = .ok a → f a ≠ .error .fuel) : r.bind f ≠ .error .fuel := by
  cases r with
  | error e => exact fun h => hr (by simpa [Except.bind] using h)
  | ok a => exact hf a rfl

theorem parseredirs_fuel : ∀ {n : ℕ} (cmd : Cmd) {ts : List Tok}, ts.length < n →
    parseredirs toks n cmd ts ≠ .error .fuel
  | n + 1, cmd, ts, hn => by
    unfold parseredirs
    split_ifs with hp
    · cases ts with
      | nil => cases hp
      | cons t ts =>
        simp only [toks_peek_snd, toks_gettoken_cons]
        cases ts with
        | nil => simp
        | cons v ts =>
          cases v with
          | word w =>
            simp only [length_cons] at hn
            exact parseredirs_fuel _ (by omega)
          | _ => simp
    · simp

theorem parseargs_fuel : ∀ {n : ℕ} (ret : Cmd) (argc : ℕ) {ts : List Tok}, ts.length + 1 < n →
    parseargs toks n ret argc ts ≠ .error .fuel
  | n + 1, ret, argc, ts, hn => by
    unfold parseargs
    by_cases hp : (toks.peek ts ['|', ')', '&', ';']).1 = true
    · rw [if_pos hp]
      simp
    · rw [if_neg hp, toks_peek_snd]
      cases ts with
      | nil => simp
      | cons t ts =>
        rw [toks_gettoken_cons]
        cases t with
        | word w =>
          dsimp only
          simp only [length_cons] at hn
          split_ifs with hmax
          · simp
          · refine bind_ne_fuel (parseredirs_fuel _ (by omega)) ?_
            rintro ⟨c1, r1⟩ h1
            obtain ⟨u, f, rfl, -, -⟩ := parseredirs_sound h1
            rw [length_append] at hn
            exact parseargs_fuel _ _ (by dsimp only; omega)
        | _ => simp

theorem backs_fuel : ∀ {n : ℕ} (cmd : Cmd) {ts : List Tok}, ts.length < n →
    backs toks n cmd ts ≠ .error .fuel
  | n + 1, cmd, ts, hn => by
    unfold backs
    split_ifs with hp
    · cases ts with
      | nil => cases hp
      | cons t ts =>
        simp only [length_cons] at hn
        exact backs_fuel _ (by simp only [toks_peek_snd, toks_gettoken_cons]; omega)
    · simp

mutual

theorem parseline_fuel : ∀ {n : ℕ} {ts : List Tok}, 4 * ts.length + 5 ≤ n →
    parseline toks n ts ≠ .error .fuel
  | n + 1, ts, hn => by
    rw [parseline]
    refine bind_ne_fuel (parsepipe_fuel (by omega)) ?_
    rintro ⟨c1, r1⟩ h1
    obtain ⟨u, rfl, -⟩ := parsepipe_sound h1
    rw [length_append] at hn
    refine bind_ne_fuel (backs_fuel _ (by dsimp only; omega)) ?_
    rintro ⟨c2, r2⟩ h2
    obtain ⟨k, hr, -⟩ := backs_sound h2
    have hr : r1 = replicate k .amp ++ r2 := hr
    split_ifs with hp
    · obtain ⟨us, rfl⟩ := peek_semi hp
      rw [hr, length_append, length_cons] at hn
      refine bind_ne_fuel (parseline_fuel ?_) fun _ _ => by simp
      simp only [toks_peek_snd, toks_gettoken_cons]
      omega
    · simp

theorem parsepipe_fuel : ∀ {n : ℕ} {ts : List Tok}, 4 * ts.length + 4 ≤ n →
    parsepipe toks n ts ≠ .error .fuel
  | n + 1, ts, hn => by
    rw [parsepipe]
    refine bind_ne_fuel (parseexec_fuel (by omega)) ?_
    rintro ⟨c1, r1⟩ h1
    obtain ⟨u, rfl, -⟩ := parseexec_sound h1
    split_ifs with hp
    · obtain ⟨us, rfl⟩ := peek_pipe hp
      rw [length_append, length_cons] at hn
      refine bind_ne_fuel (parsepipe_fuel ?_) fun _ _ => by simp
      simp only [toks_peek_snd, toks_gettoken_cons]
      omega
    · simp

theorem parseexec_fuel : ∀ {n : ℕ} {ts : List Tok}, 4 * ts.length + 3 ≤ n →
    parseexec toks n ts ≠ .error .fuel
  | n + 1, ts, hn => by
    rw [parseexec]
    split_ifs with hp
    · exact parseblock_fuel (by rw [toks_peek_snd]; omega)
    · refine bind_ne_fuel (parseredirs_fuel _ (by rw [toks_peek_snd]; omega)) ?_
      rintro ⟨c1, r1⟩ h1
      obtain ⟨u, f, hts, -, -⟩ := parseredirs_sound h1
      have hts : ts = u ++ r1 := hts
      rw [hts, length_append] at hn
      exact parseargs_fuel _ _ (by dsimp only; omega)

theorem parseblock_fuel : ∀ {n : ℕ} {ts : List Tok}, 4 * ts.length + 2 ≤ n →
    parseblock toks n ts ≠ .error .fuel
  | n + 1, ts, hn => by
    rw [parseblock]
    split_ifs with hp
    · obtain ⟨us, rfl⟩ := peek_lpar hp
      rw [length_cons] at hn
      refine bind_ne_fuel (parseline_fuel ?_) ?_
      · simp only [toks_peek_snd, toks_gettoken_cons]
        omega
      · rintro ⟨c1, r1⟩ h1
        obtain ⟨u, hus, -⟩ := parseline_sound h1
        have hus : us = u ++ r1 := hus
        split_ifs with hr
        · obtain ⟨vs, rfl⟩ := peek_rpar hr
          rw [hus, length_append, length_cons] at hn
          refine parseredirs_fuel _ ?_
          simp only [toks_peek_snd, toks_gettoken_cons]
          omega
        · simp
    · simp

end

/-! ### Completeness -/

def Follow : Nt → List Tok → Prop
  | _, [] => True
  | .line, t :: _ => t = .rpar
  | .pipe, t :: _ => t = .rpar ∨ t = .amp ∨ t = .semi
  | .exec, t :: _ => t = .rpar ∨ t = .amp ∨ t = .semi ∨ t = .pipe

theorem Redir.redirect_eq {t : Tok} {w : List Char} {f : Cmd → Cmd} (h : Redir t w f) :
    redirect (some t) w = f ∧ t.first.any ['<', '>'].contains = true := by
  cases h <;> exact ⟨rfl, rfl⟩

theorem parseredirs_complete {u r : List Tok} {f : Cmd → Cmd} (h : Redirs u f)
    (hr : (toks.peek r ['<', '>']).1 = false) : ∀ {n : ℕ} (cmd : Cmd), u.length < n →
    parseredirs toks n cmd (u ++ r) = .ok (f cmd, r) := by
  induction h with
  | nil =>
    intro n cmd hn
    obtain ⟨n, rfl⟩ := exists_eq_succ_of_ne_zero (by omega : n ≠ 0)
    simp [parseredirs, hr]
  | cons h _ ih =>
    intro n cmd hn
    obtain ⟨n, rfl⟩ := exists_eq_succ_of_ne_zero (by omega : n ≠ 0)
    obtain ⟨heq, hfirst⟩ := h.redirect_eq
    simp only [length_cons] at hn
    simp only [cons_append, parseredirs, toks_peek_cons, hfirst, if_true, toks_peek_snd,
      toks_gettoken_cons, heq]
    exact ih _ (by omega)

theorem Follow.no_redir {nt : Nt} {r : List Tok} (h : Follow nt r) :
    (toks.peek r ['<', '>']).1 = false := by
  cases r with
  | nil => rfl
  | cons t r =>
    cases nt with
    | line =>
      obtain rfl : t = .rpar := h
      rfl
    | pipe => rcases h with rfl | rfl | rfl <;> rfl
    | exec => rcases h with rfl | rfl | rfl | rfl <;> rfl

theorem Words.no_redir {u r : List Tok} {ws : List (List Char)} {g : Cmd → Cmd} (h : Words u ws g)
    (hr : Follow .exec r) : (toks.peek (u ++ r) ['<', '>']).1 = false := by
  cases h with
  | nil => exact hr.no_redir
  | cons => rfl

theorem parseargs_complete {u r : List Tok} {ws : List (List Char)} {g : Cmd → Cmd}
    (h : Words u ws g) (hr : Follow .exec r) : ∀ {n argc : ℕ} (ret : Cmd), u.length + 1 < n →
    argc + ws.length ≤ MAXARGS - 1 → parseargs toks n ret argc (u ++ r) =
      .ok (g (ws.foldl (fun ret w => ret.addArg w) ret), r) := by
  induction h with
  | nil =>
    intro n argc ret hn _
    obtain ⟨n, rfl⟩ := exists_eq_succ_of_ne_zero (by omega : n ≠ 0)
    cases r with
    | nil => rfl
    | cons t r => rcases hr with rfl | rfl | rfl | rfl <;> rfl
  | @cons w rs f ts ws g hf hw ih =>
    intro n argc ret hn hlen
    obtain ⟨n, rfl⟩ := exists_eq_succ_of_ne_zero (by omega : n ≠ 0)
    simp only [length_cons, length_append] at hn hlen
    have hredirs := parseredirs_complete (n := n) hf (hw.no_redir hr) (ret.addArg w) (by omega)
    have hmax : ¬ argc + 1 ≥ MAXARGS := by
      have : MAXARGS = 10 := rfl
      omega
    simp only [cons_append, append_assoc, parseargs, toks_peek_cons, Tok.first,
      Option.any_none, Bool.false_eq_true, if_false, toks_peek_snd, toks_gettoken_cons, hmax,
      hredirs]
    refine (ih (f (ret.addArg w)) (by omega) (by omega)).trans ?_
    rw [hf.wraps.foldl]
    rfl

theorem backs_complete {r : List Tok} (hr : (toks.peek r ['&']).1 = false) :
    ∀ {n : ℕ} (k : ℕ) (cmd : Cmd), k < n →
      backs toks n cmd (replicate k .amp ++ r) = .ok (Cmd.back^[k] cmd, r)
  | n + 1, 0, cmd, _ => by simp [backs, hr]
  | n + 1, k + 1, cmd, hn => by
    simp only [replicate_succ, cons_append, backs, toks_peek_cons, toks_peek_snd,
      toks_gettoken_cons]
    exact backs_complete hr k (.back cmd) (by omega)

def parse : Nt → ℕ → List Tok → Except Err (Cmd × List Tok)
  | .line => parseline toks
  | .pipe => parsepipe toks
  | .exec => parseexec toks

/-- How much deeper than the tokens the procedures for a nonterminal call each other. -/
def slack : Nt → ℕ
  | .line => 5
  | .pipe => 4
  | .exec => 3

theorem follow_replicate_amp {r : List Tok} (hr : Follow .pipe r) : ∀ k : ℕ,
    Follow .pipe (replicate k .amp ++ r)
  | 0 => hr
  | _ + 1 => .inr (.inl rfl)

theorem Follow.line {r : List Tok} (h : Follow .line r) : Follow .pipe r ∧
    (toks.peek r ['&']).1 = false ∧ (toks.peek r [';']).1 = false := by
  cases r with
  | nil => exact ⟨trivial, rfl, rfl⟩
  | cons t r =>
    obtain rfl : t = .rpar := h
    exact ⟨.inl rfl, rfl, rfl⟩

theorem Follow.pipe {r : List Tok} (h : Follow .pipe r) : Follow .exec r ∧
    (toks.peek r ['|']).1 = false := by
  cases r with
  | nil => exact ⟨trivial, rfl⟩
  | cons t r => rcases h with rfl | rfl | rfl <;> exact ⟨by simp [Follow], rfl⟩

theorem Derives.parse {nt : Nt} {u : List Tok} {c : Cmd} (h : Derives nt u c) :
    ∀ (r : List Tok) (n : ℕ), Follow nt r → 4 * u.length + slack nt ≤ n →
      Shell.parse nt n (u ++ r) = .ok (c, r) := by
  induction h with
  | @simple rs f ts ws g hr hw hlen =>
    intro r n hf hn
    obtain ⟨n, rfl⟩ := exists_eq_succ_of_ne_zero (by simp only [slack] at hn; omega : n ≠ 0)
    rw [length_append] at hn
    simp only [slack] at hn
    have hfirst : (toks.peek (rs ++ (ts ++ r)) ['(']).1 = false := by
      cases hr with
      | nil =>
        cases hw with
        | nil =>
          cases r with
          | nil => rfl
          | cons t r => rcases hf with rfl | rfl | rfl | rfl <;> rfl
        | cons => rfl
      | cons h _ => cases h <;> rfl
    have hredirs := parseredirs_complete (n := n) hr (hw.no_redir hf) (.exec []) (by omega)
    rw [Shell.parse, append_assoc, parseexec, hfirst, if_neg (by simp), toks_peek_snd, hredirs]
    refine (parseargs_complete hw hf (f (.exec [])) (by omega) (by omega)).trans ?_
    rw [hr.wraps.foldl, foldl_addArg, nil_append]
  | @block ts c rs f h hr ih =>
    intro r n hf hn
    obtain ⟨n, rfl⟩ := Nat.exists_eq_add_of_le' (by simp only [slack] at hn; omega : 2 ≤ n)
    simp only [length_cons, length_append, slack] at hn
    have hline := ih (.rpar :: (rs ++ r)) n rfl (by simp only [slack]; omega)
    have hredirs := parseredirs_complete (n := n) hr hf.no_redir c (by omega)
    simp only [Shell.parse] at hline ⊢
    simp [parseexec, parseblock, Tok.first, hline, Except.bind, hredirs]
  | one h ih =>
    intro r n hf hn
    obtain ⟨n, rfl⟩ := exists_eq_succ_of_ne_zero (by simp only [slack] at hn; omega : n ≠ 0)
    obtain ⟨hexec, hpipe⟩ := hf.pipe
    have hone := ih r n hexec (by simp only [slack] at *; omega)
    simp only [Shell.parse] at hone ⊢
    simp [parsepipe, hone, Except.bind, hpipe]
  | @pipe ts c us d h h' ih ih' =>
    intro r n hf hn
    obtain ⟨n, rfl⟩ := exists_eq_succ_of_ne_zero (by simp only [slack] at hn; omega : n ≠ 0)
    simp only [length_cons, length_append, slack] at hn
    have hleft := ih (.pipe :: (us ++ r)) n (by simp [Follow]) (by simp only [slack]; omega)
    have hright := ih' r n hf (by simp only [slack]; omega)
    simp only [Shell.parse] at hleft hright ⊢
    simp [parsepipe, hleft, Except.bind, Tok.first, hright]
  | @last ts c k h ih =>
    intro r n hf hn
    obtain ⟨n, rfl⟩ := exists_eq_succ_of_ne_zero (by simp only [slack] at hn; omega : n ≠ 0)
    obtain ⟨hpipe, hamp, hsemi⟩ := hf.line
    simp only [length_append, length_replicate, slack] at hn
    have hone := ih (replicate k .amp ++ r) n (follow_replicate_amp hpipe k)
      (by simp only [slack]; omega)
    have hback := backs_complete (n := n) hamp k c (by omega)
    simp only [Shell.parse] at hone ⊢
    simp [parseline, hone, Except.bind, hback, hsemi]
  | @list ts c us d k h h' ih ih' =>
    intro r n hf hn
    obtain ⟨n, rfl⟩ := exists_eq_succ_of_ne_zero (by simp only [slack] at hn; omega : n ≠ 0)
    simp only [length_append, length_replicate, length_cons, slack] at hn
    have hone := ih (replicate k .amp ++ .semi :: (us ++ r)) n
      (follow_replicate_amp (by simp [Follow]) k) (by simp only [slack]; omega)
    have hback := backs_complete (n := n) (r := .semi :: (us ++ r)) rfl k c (by omega)
    have hright := ih' r n hf (by simp only [slack]; omega)
    simp only [Shell.parse] at hone hright ⊢
    simp [parseline, hone, Except.bind, hback, Tok.first, hright]

/-! ### The parser and the grammar -/

theorem parsefrom_iff {n : ℕ} {ts : List Tok} (hn : 4 * ts.length + 5 ≤ n) (c : Cmd) :
    parsefrom toks n ts = .ok c ↔ Derives .line ts c := by
  constructor
  · intro h
    obtain ⟨⟨c1, r⟩, h1, hdone⟩ := bind_eq_ok.mp h
    obtain ⟨u, hts, hu⟩ := parseline_sound h1
    split_ifs at hdone with hd
    cases hdone
    have hr : r = [] := List.isEmpty_iff.mp hd
    rw [hts, hr, append_nil]
    exact hu
  · intro h
    have hline := h.parse [] n trivial hn
    rw [append_nil] at hline
    simp only [Shell.parse] at hline
    rw [parsefrom, hline]
    rfl

/-- The shell parser accepts exactly its grammar: on every string it ends, and it succeeds with a tree
  exactly if the tokens of the string derive that tree. -/
theorem parsecmd_iff (s : List Char) : parsecmd s ≠ .error .fuel ∧
    (∀ c, parsecmd s = .ok c ↔ Derives .line (tokens s) c) ∧
    ((∃ c, parsecmd s = .ok c) ↔ ∃ c, Derives .line (tokens s) c) := by
  have hlen := length_tokens_le s
  have hfrom : parsecmd s = parsefrom toks (4 * s.length + 5) (tokens s) :=
    (maps_tokens.parsefrom _ _).symm
  have hiff : ∀ c, parsecmd s = .ok c ↔ Derives .line (tokens s) c := fun c => by
    rw [hfrom]
    exact parsefrom_iff (by omega) c
  refine ⟨?_, hiff, exists_congr hiff⟩
  rw [hfrom]
  refine bind_ne_fuel (parseline_fuel (by omega)) fun p _ => ?_
  split_ifs <;> simp

end Xv6.Shell

import Xv6.Vm.Exec

/-! @src exec.c | part:arguments | scheme:prog, exclusive

  The arguments on the stack of the new image. Strings are pushed from the top of the stack page
  down, each rounded to a word; then comes one block of words.

      sp -> ffffffff argc argv | p0 … pₙ 0 | strings, the first one on top <- sz -/

namespace Xv6.Vm
open Schemes Prog
open List

variable {L : Layout} {ι δ : Type} {items : ι → Option ℕ} {roots : δ → Option ℕ} {d : δ}
  {σ σ0 σ1 σ' : Kmem} {s s' : Exec} {r sz sp a va : ℕ} {img : ℕ → ℕ} {buf : List ℕ}

/-! ### The argument strings -/

def rooms : List (List ℕ) → ℕ
  | [] => 0
  | s :: ss => room (s.length + 1) + rooms ss

def ptrs : List (List ℕ) → ℕ → List ℕ
  | [], _ => []
  | s :: ss, sp => (sp - room (s.length + 1)) :: ptrs ss (sp - room (s.length + 1))

def argImage (img : ℕ → ℕ) : List (List ℕ) → ℕ → ℕ → ℕ
  | [], _ => img
  | s :: ss, sp =>
    argImage (moved img (sp - room (s.length + 1)) (s ++ [0])) ss (sp - room (s.length + 1))

/-- A C string: bytes, and shorter than the user part of the address space it was read from. -/
def IsString (s : List ℕ) : Prop := s.length < KERNBASE ∧ ∀ x ∈ s, 0 < x ∧ x < 256

theorem IsString.bytes {s : List ℕ} (h : IsString s) : ∀ x ∈ s ++ [0], x < 256 := by
  intro x hx
  rcases mem_append.mp hx with hx | hx
  · exact (h.2 x hx).2
  · rw [mem_singleton.mp hx]
    decide

theorem room_mod (n : ℕ) : room n % 4 = 0 := Nat.mul_mod_left _ _

theorem rooms_mod : ∀ ss : List (List ℕ), rooms ss % 4 = 0
  | [] => rfl
  | s :: ss => by
    have h1 := room_mod (s.length + 1)
    have h2 := rooms_mod ss
    rw [rooms]
    omega

theorem pushArgs_run : ∀ (ss : List (List ℕ)) (argc sp : ℕ) (us : List ℕ) (img : ℕ → ℕ) (σ : Kmem),
    Ready L items roots σ0 r sz img σ → sp % 4 = 0 → sz - PGSIZE ≤ sp → sp ≤ sz →
    argc + ss.length ≤ MAXARG → (∀ x ∈ ss, IsString x) →
    (sz - PGSIZE + rooms ss ≤ sp → ∃ σ',
      pushArgs r ss argc sp us σ = (.ok (some (sp - rooms ss, us ++ ptrs ss sp)), σ') ∧
        Ready L items roots σ0 r sz (argImage img ss sp) σ') ∧
    (sp < sz - PGSIZE + rooms ss →
      (rooms ss ≤ sp → ∃ σ', pushArgs r ss argc sp us σ = (.ok none, σ') ∧
        Built L items roots σ0 none r σ') ∧
      ∀ o σ', pushArgs r ss argc sp us σ ≠ (.ok (some o), σ'))
  | [], argc, sp, us, img, σ, h, _, hlo, _, _, _ => by
    refine ⟨fun _ => ⟨σ, by rw [pushArgs, pure_apply, rooms, ptrs, append_nil, Nat.sub_zero], h⟩,
      fun hno => ?_⟩
    rw [rooms] at hno
    omega
  | s :: ss, argc, sp, us, img, σ, h, hsp, hlo, hhi, hargc, hstr => by
    have hs := hstr s (mem_cons_self ..)
    have hbuf : (s ++ [0]).length = s.length + 1 := by simp
    have hmod := room_mod (s.length + 1)
    rw [length_cons] at hargc
    obtain ⟨hfit, hno⟩ := h.push (s ++ [0]) hsp hlo hhi (by simp)
      (by rw [hbuf]; exact hs.1) hs.bytes
    rw [hbuf] at hfit hno
    have hstep : ∀ {ok σ'}, copyout r (pushed sp (s.length + 1)) (s ++ [0]) σ = (.ok ok, σ') →
        pushArgs r (s :: ss) argc sp us σ = (if ok then pushArgs r ss (argc + 1)
          (pushed sp (s.length + 1)) (us ++ [pushed sp (s.length + 1)]) else pure none) σ' :=
      fun hrun => by rw [pushArgs, if_neg (by omega), bind_of_ok hrun]
    rw [rooms]
    rcases le_or_gt (sz - PGSIZE + room (s.length + 1)) sp with hok | hbad
    · obtain ⟨hpush, σ1, hrun, hready⟩ := hfit hok
      have ih := pushArgs_run ss (argc + 1) (sp - room (s.length + 1))
        (us ++ [sp - room (s.length + 1)]) _ σ1 hready (by omega) (by omega) (by omega) (by omega)
        fun x hx => hstr x (mem_cons_of_mem _ hx)
      rw [hstep hrun, if_pos rfl, hpush]
      refine ⟨fun hall => ?_, fun hall => ⟨fun hle => ?_, ?_⟩⟩
      · obtain ⟨σ', hrest, hready'⟩ := ih.1 (by omega)
        refine ⟨σ', ?_, hready'⟩
        rw [hrest, ptrs, append_assoc, Nat.sub_sub]
        rfl
      · exact (ih.2 (by omega)).1 (by omega)
      · exact (ih.2 (by omega)).2
    · obtain ⟨hfail, hnever⟩ := hno hbad
      refine ⟨fun hall => by omega, fun _ => ⟨fun hle => ?_, fun o σ' hrun => ?_⟩⟩
      · obtain ⟨σ', hrun, hb⟩ := hfail (by omega)
        exact ⟨σ', by rw [hstep hrun, if_neg Bool.false_ne_true, pure_apply], hb⟩
      · rw [pushArgs, if_neg (by omega)] at hrun
        obtain ⟨ok, σ1, hcopy, hrest⟩ := ok_of_bind hrun
        cases ok with
        | true => exact hnever σ1 hcopy
        | false =>
          rw [if_neg Bool.false_ne_true, pure_apply] at hrest
          cases hrest

theorem argImage_above : ∀ (ss : List (List ℕ)) (img : ℕ → ℕ) (sp a : ℕ), rooms ss ≤ sp → sp ≤ a →
    argImage img ss sp a = img a
  | [], _, _, _, _, _ => rfl
  | s :: ss, img, sp, a, hle, ha => by
    rw [rooms] at hle
    rw [argImage, argImage_above ss _ _ a (by omega) (by omega), moved, if_neg]
    simp only [length_append, length_singleton, room] at hle ⊢
    omega

theorem argImage_string : ∀ (ss : List (List ℕ)) (img : ℕ → ℕ) (sp i : ℕ), rooms ss ≤ sp →
    i < ss.length →
    sp - rooms ss ≤ (ptrs ss sp).getD i 0 ∧
    (ptrs ss sp).getD i 0 + (ss.getD i []).length + 1 ≤ sp ∧
    (∀ k ≤ (ss.getD i []).length,
      argImage img ss sp ((ptrs ss sp).getD i 0 + k) = (ss.getD i [] ++ [0]).getD k 0) ∧
    ∀ i', i < i' → i' < ss.length →
      (ptrs ss sp).getD i' 0 + (ss.getD i' []).length + 1 ≤ (ptrs ss sp).getD i 0
  | [], _, _, i, _, hi => by simp at hi
  | s :: ss, img, sp, 0, hle, _ => by
    rw [rooms] at hle
    have hroom : s.length + 1 ≤ room (s.length + 1) := by simp only [room]; omega
    refine ⟨?_, ?_, fun k hk => ?_, fun i' hi' hlt => ?_⟩
    · rw [rooms, ptrs, getD_cons_zero]
      omega
    · rw [ptrs, getD_cons_zero, getD_cons_zero]
      omega
    · rw [ptrs, getD_cons_zero, getD_cons_zero, argImage,
        argImage_above ss _ _ _ (by omega) (by omega), moved, if_pos]
      · congr 1
        omega
      · rw [getD_cons_zero] at hk
        simp only [length_append, length_singleton]
        omega
    · obtain ⟨i', rfl⟩ : ∃ k, i' = k + 1 := ⟨i' - 1, by omega⟩
      rw [length_cons] at hlt
      rw [ptrs, getD_cons_zero, getD_cons_succ, getD_cons_succ]
      exact (argImage_string ss img _ i' (by omega) (by omega)).2.1
  | s :: ss, img, sp, i + 1, hle, hi => by
    rw [rooms] at hle
    rw [length_cons] at hi
    obtain ⟨h1, h2, h3, h4⟩ := argImage_string ss (moved img (sp - room (s.length + 1)) (s ++ [0]))
      (sp - room (s.length + 1)) i (by omega) (by omega)
    rw [rooms, ptrs, argImage, getD_cons_succ, getD_cons_succ]
    refine ⟨by omega, by omega, h3, fun i' hi' hlt => ?_⟩
    obtain ⟨i', rfl⟩ : ∃ k, i' = k + 1 := ⟨i' - 1, by omega⟩
    rw [length_cons] at hlt
    rw [getD_cons_succ, getD_cons_succ]
    exact h4 i' (by omega) (by omega)

theorem length_ptrs : ∀ (ss : List (List ℕ)) (sp : ℕ), (ptrs ss sp).length = ss.length
  | [], _ => rfl
  | s :: ss, sp => by rw [ptrs, length_cons, length_cons, length_ptrs ss]

/-! ### The block of words -/

theorem length_bytesOf : ∀ ws : List ℕ, (bytesOf ws).length = 4 * ws.length
  | [] => rfl
  | w :: ws => by
    have := length_bytesOf ws
    simp only [bytesOf, flatMap_cons, length_append, length_cons,
      length_nil] at this ⊢
    omega

theorem bytesOf_lt (ws : List ℕ) : ∀ x ∈ bytesOf ws, x < 256 := by
  intro x hx
  simp only [bytesOf, mem_flatMap, mem_cons, not_mem_nil, or_false] at hx
  obtain ⟨w, _, hx⟩ := hx
  omega

theorem getD_bytesOf : ∀ (ws : List ℕ) (i m : ℕ), i < ws.length → m < 4 →
    (bytesOf ws).getD (4 * i + m) 0 = ws.getD i 0 / 256 ^ m % 256
  | [], i, _, hi, _ => by simp at hi
  | w :: ws, 0, m, _, hm => by
    simp only [bytesOf, flatMap_cons]
    interval_cases m <;> simp
  | w :: ws, i + 1, m, hi, hm => by
    have ih := getD_bytesOf ws i m (by simpa using hi) hm
    have hcons : bytesOf (w :: ws) =
        [w % 256, w / 256 % 256, w / 65536 % 256, w / 16777216 % 256] ++ bytesOf ws := rfl
    rw [hcons, getD_append_right _ _ _ _ (by simp; omega), getD_cons_succ, ← ih]
    congr 1
    simp only [length_cons, length_nil]
    omega

def needed (argv : List (List ℕ)) : ℕ := rooms argv + 4 * (argv.length + 4)

def stackImage (img : ℕ → ℕ) (argv : List (List ℕ)) (sz : ℕ) : ℕ → ℕ :=
  moved (argImage img argv sz) (sz - needed argv)
    (bytesOf (ustack argv.length (sz - rooms argv) (ptrs argv sz)))

variable {argv : List (List ℕ)}

theorem execArgs_run (h : Ready L items roots σ0 r sz img σ) (hargc : argv.length < MAXARG)
    (hstr : ∀ x ∈ argv, IsString x) :
    (needed argv ≤ PGSIZE → ∃ σ', execArgs r sz argv σ = (.ok (some (sz - needed argv)), σ') ∧
      Ready L items roots σ0 r sz (stackImage img argv sz) σ') ∧
    (PGSIZE < needed argv →
      (needed argv ≤ sz → ∃ σ', execArgs r sz argv σ = (.ok none, σ') ∧
        Built L items roots σ0 none r σ') ∧
      ∀ sp σ', execArgs r sz argv σ ≠ (.ok (some sp), σ')) := by
  have hlt := h.lt
  have htwo := h.two
  have hal := h.aligned
  have hmod := rooms_mod argv
  have hsz4 : sz % 4 = 0 := by simp only [PGSIZE] at hal; omega
  obtain ⟨hfit, hno⟩ := pushArgs_run argv 0 sz [] img σ h hsz4 (Nat.sub_le _ _) le_rfl
    (by omega) hstr
  rw [nil_append] at hfit
  set ws := ustack argv.length (sz - rooms argv) (ptrs argv sz) with hws
  have hlen : (bytesOf ws).length = 4 * (argv.length + 4) := by
    rw [length_bytesOf, hws, ustack]
    simp only [length_append, length_cons, length_nil, length_ptrs]
    omega
  have hroom : room (4 * (argv.length + 4)) = 4 * (argv.length + 4) := by simp only [room]; omega
  have hM : argv.length < 32 := hargc
  -- the last push is aligned already
  have hlast : rooms argv ≤ sz → (sz - rooms argv + WORD - (3 + argv.length + 1) * 4) % WORD =
      pushed (sz - rooms argv) (4 * (argv.length + 4)) := fun hle => by
    simp only [pushed, WORD, KERNBASE] at *
    omega
  rcases le_or_gt (rooms argv) PGSIZE with hr | hr
  · obtain ⟨σ1, hrun, hready⟩ := hfit (by simp only [PGSIZE] at *; omega)
    have hle : rooms argv ≤ sz := by simp only [PGSIZE] at *; omega
    have hexec : execArgs r sz argv σ = (copyout r (pushed (sz - rooms argv) (4 * (argv.length + 4)))
        (bytesOf ws) >>= fun ok =>
          pure (if ok then some (pushed (sz - rooms argv) (4 * (argv.length + 4))) else none)) σ1 := by
      rw [execArgs, bind_of_ok hrun, pushStack, hlast hle]
    obtain ⟨hfit', hno'⟩ := hready.push (bytesOf ws)
      (show (sz - rooms argv) % 4 = 0 by omega) (by simp only [PGSIZE] at *; omega)
        (Nat.sub_le _ _) (by omega)
      (by rw [hlen]; simp only [KERNBASE]; omega) (bytesOf_lt ws)
    rw [hlen, hroom] at hfit' hno'
    rw [hexec]
    refine ⟨fun hn => ?_, fun hn => ⟨fun hle' => ?_, fun sp σ' hx => ?_⟩⟩
    · obtain ⟨hpush, σ', hcopy, hready'⟩ := hfit' (by simp only [needed, PGSIZE] at *; omega)
      have hsub : sz - rooms argv - 4 * (argv.length + 4) = sz - needed argv := by
        rw [needed, Nat.sub_sub]
      rw [hsub] at hpush hready'
      exact ⟨σ', by rw [bind_of_ok hcopy, if_pos rfl, hpush, pure_apply], hready'⟩
    · obtain ⟨hfail, _⟩ := hno' (by simp only [needed, PGSIZE] at *; omega)
      obtain ⟨σ', hcopy, hb⟩ := hfail (by simp only [needed] at *; omega)
      exact ⟨σ', by rw [bind_of_ok hcopy, if_neg Bool.false_ne_true, pure_apply], hb⟩
    · obtain ⟨_, hnever⟩ := hno' (by simp only [needed, PGSIZE] at *; omega)
      obtain ⟨ok, σ2, hcopy, hrest⟩ := ok_of_bind hx
      cases ok with
      | true => exact hnever σ2 hcopy
      | false =>
        rw [if_neg Bool.false_ne_true, pure_apply] at hrest
        cases hrest
  · obtain ⟨hfail, hnever⟩ := hno (by omega)
    refine ⟨fun hn => by simp only [needed] at hn; omega, fun hn => ⟨fun hle => ?_, fun sp σ' hx => ?_⟩⟩
    · obtain ⟨σ', hrun, hb⟩ := hfail (by simp only [needed] at hle; omega)
      exact ⟨σ', by rw [execArgs, bind_of_ok hrun, pushStack, pure_apply], hb⟩
    · obtain ⟨o, σ1, hpush, hrest⟩ := ok_of_bind hx
      cases o with
      | none =>
        rw [pushStack, pure_apply] at hrest
        cases hrest
      | some o => exact hnever o σ1 hpush

/-! ### The commit -/

def UserWord (σ : Kmem) (r a w : ℕ) : Prop := ∀ m < 4, userByte σ r (a + m) = some (w / 256 ^ m % 256)

theorem Ready.commit (h : Ready L items roots σ0 r sz img σ) {old : ℕ} (hd : roots d = some old) :
    ∃ σ', freevm L (some old) σ = (.ok (), σ') ∧ ∀ a < sz, userByte σ' r a = some (img a) := by
  have hold : withTmp roots (some r) (some d) = some old := hd
  obtain ⟨σ', hrun, hfree, hmem⟩ := freevm_run h.built.own hold
  have hkeep : ∀ q, Belongs σ r q → σ'.mem q = σ.mem q := fun q hq => by
    refine hmem q fun hf => ?_
    rcases (hfree q).mp hf with hf | hb
    · exact h.built.own.not_free (d := none) rfl hq hf
    · exact h.built.own.not_belongs_two (Option.some_ne_none d) rfl hold hq hb
  refine ⟨σ', hrun, fun a ha => ?_⟩
  have hbyte := h.byte a ha
  have hent : entryOf σ' r (pdx a) (ptx a) = entryOf σ r (pdx a) (ptx a) :=
    entryOf_congr (hkeep r (.inl rfl)) fun t ht => hkeep t (.inr (.inl ⟨_, ht⟩))
  rw [userByte] at hbyte ⊢
  rw [hent]
  cases hw : entryOf σ r (pdx a) (ptx a) with
  | none =>
    rw [hw] at hbyte
    cases hbyte
  | some w =>
    rw [hw] at hbyte
    rw [Option.map_some, hkeep (pteAddr w) (.inr (.inr ⟨_, _, w, pdx_lt (ha.trans h.lt), hw, rfl⟩))]
    exact hbyte

theorem stackImage_word (hn : needed argv ≤ PGSIZE) (hsz : 2 * PGSIZE ≤ sz)
    (hbyte : ∀ a < sz, userByte σ r a = some (stackImage img argv sz a)) {i : ℕ}
    (hi : i < argv.length + 4) : UserWord σ r (sz - needed argv + 4 * i)
      ((ustack argv.length (sz - rooms argv) (ptrs argv sz)).getD i 0) := by
  have hlen : (ustack argv.length (sz - rooms argv) (ptrs argv sz)).length = argv.length + 4 := by
    rw [ustack]
    simp only [length_append, length_cons, length_nil, length_ptrs]
    omega
  intro m hm
  have hroom : 4 * i + m < 4 * (argv.length + 4) := by omega
  rw [hbyte _ (by simp only [needed, PGSIZE] at *; omega), stackImage, moved, if_pos]
  · rw [← getD_bytesOf _ i m (by omega) hm]
    congr 2
    omega
  · rw [length_bytesOf, hlen]
    omega

/-- What a program finds at `esp`: the fake return address, `argc`, the pointer to the vector, the
  vector with its 0, and behind every pointer of the vector a copy of its string. All is in the
  stack page, nothing overlaps. -/
structure Passed (σ : Kmem) (r sz esp : ℕ) (argv : List (List ℕ)) : Prop where
  aligned : esp % 4 = 0
  inPage : sz - PGSIZE ≤ esp
  ret : UserWord σ r esp 0xffffffff
  argc : UserWord σ r (esp + 4) argv.length
  vector : UserWord σ r (esp + 8) (esp + 12)
  last : UserWord σ r (esp + 12 + 4 * argv.length) 0
  strings : ∃ ps : ℕ → ℕ, ∀ i < argv.length, UserWord σ r (esp + 12 + 4 * i) (ps i) ∧
    esp + 12 + 4 * (argv.length + 1) ≤ ps i ∧ ps i + (argv.getD i []).length + 1 ≤ sz ∧
    (∀ k ≤ (argv.getD i []).length,
      userByte σ r (ps i + k) = some ((argv.getD i [] ++ [0]).getD k 0)) ∧
    ∀ i', i < i' → i' < argv.length → ps i' + (argv.getD i' []).length + 1 ≤ ps i

theorem ustack_head (argc sp : ℕ) (us : List ℕ) : (ustack argc sp us).getD 0 0 = 0xffffffff ∧
    (ustack argc sp us).getD 1 0 = argc ∧
      (ustack argc sp us).getD 2 0 = (sp + WORD - (argc + 1) * 4) % WORD := by
  rw [ustack]
  simp only [cons_append, getD_cons_zero, getD_cons_succ, and_self]

theorem ustack_vector (argc sp : ℕ) {us : List ℕ} {i : ℕ} (hi : i < us.length) :
    (ustack argc sp us).getD (3 + i) 0 = us.getD i 0 := by
  rw [ustack, getD_append _ _ _ _ (by simp; omega), getD_append_right _ _ _ _ (by simp)]
  simp

theorem ustack_last (argc sp : ℕ) (us : List ℕ) : (ustack argc sp us).getD (3 + us.length) 0 = 0 := by
  rw [ustack, getD_append_right _ _ _ _ (by simp; omega)]
  simp

theorem stackImage_above (hn : needed argv ≤ sz) (ha : sz - rooms argv ≤ a) :
    stackImage img argv sz a = argImage img argv sz a := by
  have hneed : needed argv = rooms argv + 4 * (argv.length + 4) := rfl
  have hulen : (bytesOf (ustack argv.length (sz - rooms argv) (ptrs argv sz))).length =
      4 * (argv.length + 4) := by
    rw [length_bytesOf, ustack]
    simp only [length_append, length_cons, length_nil, length_ptrs]
    omega
  rw [stackImage, moved, if_neg]
  rw [hulen]
  omega

theorem passed_of_image (hn : needed argv ≤ PGSIZE) (hsz : 2 * PGSIZE ≤ sz)
    (hal : sz % PGSIZE = 0) (hlt : sz < KERNBASE)
    (hbyte : ∀ a < sz, userByte σ r a = some (stackImage img argv sz a)) :
    Passed σ r sz (sz - needed argv) argv := by
  have hneed : needed argv = rooms argv + 4 * (argv.length + 4) := rfl
  have hmod := rooms_mod argv
  have hnz : needed argv ≤ sz := hn.trans (by simp only [PGSIZE] at hsz ⊢; omega)
  have hword : ∀ i < argv.length + 4, ∀ a w, a = sz - needed argv + 4 * i →
      (ustack argv.length (sz - rooms argv) (ptrs argv sz)).getD i 0 = w → UserWord σ r a w := by
    rintro i hi a w rfl rfl
    exact stackImage_word hn hsz hbyte hi
  have hlp := length_ptrs argv sz
  obtain ⟨hret, hcount, hvec⟩ := ustack_head argv.length (sz - rooms argv) (ptrs argv sz)
  refine ⟨?_, by omega, hword 0 (by omega) _ _ (by omega) hret,
    hword 1 (by omega) _ _ (by omega) hcount, hword 2 (by omega) _ _ (by omega) ?_, hword
      (3 + argv.length) (by omega) _ _ (by omega) ?_,
    fun i => (ptrs argv sz).getD i 0, fun i hi => ?_⟩
  · simp only [PGSIZE] at hal
    omega
  · rw [hvec]
    simp only [WORD, KERNBASE] at hlt ⊢
    omega
  · rw [← hlp]
    exact ustack_last _ _ _
  · obtain ⟨h1, h2, h3, h4⟩ := argImage_string argv img sz i (by omega) hi
    refine ⟨hword (3 + i) (by omega) _ _ (by omega) (ustack_vector _ _ (by rw [hlp]; exact hi)), ?_, h2,
      fun k hk => ?_, h4⟩
    · beta_reduce
      omega
    · beta_reduce
      rw [hbyte _ (by omega), stackImage_above hnz (by omega), h3 k hk]

/-- `exec` passes its arguments: where it succeeds the program finds them. Where they need more than a
  page but less than the image, `exec` fails and nothing has changed. -/
theorem exec_arguments (L : Layout) (items : ι → Option ℕ) (roots : δ → Option ℕ) (d : δ) (s : Exec)
    (hown : Own L s.mem items roots) (hd : roots d = some s.proc.pgdir) (hsep : L.Separate)
    (htop : KERNBASE + L.top * PGSIZE ≤ DEVSPACE) (path : List Char) (file : List ℕ)
    (hfile : ∀ x ∈ file, x < 256) (hlen : file.length < 2 ^ 32) (argv : List (List ℕ))
    (hargc : argv.length ≤ MAXARG - 1) (hstr : ∀ x ∈ argv, IsString x) :
    (∀ s', exec L path file argv s = (.ok true, s') →
      Passed s'.mem s'.proc.pgdir s'.proc.sz s'.proc.esp argv) ∧
    (∀ r sz s1, loading L file s = (.ok (some (r, sz)), s1) → PGSIZE < needed argv →
      needed argv ≤ sz → ∃ s', exec L path file argv s = (.ok false, s') ∧ s'.proc = s.proc ∧
        (∀ q, q ∈ s'.mem.freelist ↔ q ∈ s.mem.freelist) ∧
        ∀ q, q ∉ s.mem.freelist → s'.mem.mem q = s.mem.mem q) := by
  have hargc' : argv.length < MAXARG := by simp only [MAXARG] at *; omega
  obtain ⟨o, σ1, hload, hcase⟩ := execLoad_run hown hsep htop hfile hlen
  have hloading : loading L file s = (.ok o, { s with mem := σ1 }) := onExec_of_ok hload
  rcases hcase with ⟨rfl, _⟩ | ⟨elf, r, sz, rfl, _, hready⟩
  · refine ⟨fun s' hrun => ?_, fun r sz s1 hx => ?_⟩
    · rw [exec, bind_of_ok hloading, execLoaded, pure_apply] at hrun
      cases hrun
    · rw [hloading] at hx
      cases hx
  obtain ⟨hfit, hno⟩ := execArgs_run hready hargc' hstr
  have hexec : exec L path file argv s = (onExec (execArgs r sz argv) >>=
      execCommit L path ((readElf file).elim 0 Elfhdr.entry) r sz) { s with mem := σ1 } := by
    rw [exec, bind_of_ok hloading, execLoaded]
  rw [hexec]
  refine ⟨fun s' hrun => ?_, fun r' sz' s1 hx hbig hle => ?_⟩
  · rcases le_or_gt (needed argv) PGSIZE with hn | hn
    · obtain ⟨σ2, hargs, hready2⟩ := hfit hn
      obtain ⟨σ3, hfree, hbyte⟩ := hready2.commit hd
      rw [bind_of_ok (onExec_of_ok hargs), execCommit, bind_of_ok (get_apply _),
        bind_of_ok (modify_apply _ _), bind_of_ok (onExec_of_ok hfree), pure_apply] at hrun
      cases hrun
      exact passed_of_image hn hready.two hready.aligned hready.lt hbyte
    · obtain ⟨_, hnever⟩ := hno hn
      obtain ⟨o, s2, hargs, hcommit⟩ := ok_of_bind hrun
      cases o with
      | none =>
        rw [execCommit] at hcommit
        obtain ⟨_, s3, _, hpure⟩ := ok_of_bind hcommit
        rw [pure_apply] at hpure
        cases hpure
      | some sp =>
        have hfst : (execArgs r sz argv σ1).1 = .ok (some sp) := congrArg Prod.fst hargs
        exact (hnever sp _ (Prod.ext hfst rfl)).elim
  · rw [hloading] at hx
    cases hx
    obtain ⟨hfail, _⟩ := hno hbig
    obtain ⟨σ2, hargs, hb⟩ := hfail hle
    obtain ⟨σ3, hfree, hres⟩ := hb.freevm
    refine ⟨{ s with mem := σ3 }, ?_, rfl, fun q => ?_, hres.mem⟩
    · rw [bind_of_ok (onExec_of_ok hargs), execCommit, bind_of_ok (onExec_of_ok hfree), pure_apply]
    · have := hres.free q
      simpa using this.symm

/-- A program without segments is executed with one argument. -/
theorem exec_arguments_one : ∃ s',
    exec tinyLayout ['a'] ([0x7f, 0x45, 0x4c, 0x46] ++ replicate 48 0) [[65, 66]]
      bareExec = (.ok true, s') ∧
    Passed s'.mem s'.proc.pgdir s'.proc.sz s'.proc.esp [[65, 66]] := by
  have hok : (exec tinyLayout ['a'] ([0x7f, 0x45, 0x4c, 0x46] ++ replicate 48 0) [[65, 66]]
      bareExec).1.toOption = some true := by
    decide +kernel
  have hpass := (exec_arguments tinyLayout (fun _ : Empty => none) (fun _ : Unit => some 1) ()
    bareExec own_tiny rfl separate_tiny (by decide) ['a']
    ([0x7f, 0x45, 0x4c, 0x46] ++ replicate 48 0) (by decide) (by decide) [[65, 66]] (by decide)
    (by simp [IsString, KERNBASE])).1
  rcases hrun : exec tinyLayout ['a'] ([0x7f, 0x45, 0x4c, 0x46] ++ replicate 48 0) [[65, 66]]
    bareExec with ⟨e | b, s'⟩
  · rw [hrun] at hok
    cases hok
  · rw [hrun] at hok
    cases hok
    exact ⟨s', rfl, hpass s' hrun⟩

end Xv6.Vm

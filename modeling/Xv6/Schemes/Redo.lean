import Mathlib.Tactic

/-! scheme:redo | name:Redo log on a block device | used by:Log

  A disk is a map from block numbers to values, a program the list of one-block writes it issues. A
  redo log at `start` keeps a header block, which decodes to a list of home addresses, and one copy
  block per address. The scheme says what *recovery* makes of any disk (`redo`: copy every named log
  block home), and that each single write of a commit, and of recovery itself, moves between disks
  with a known recovered image.

      copies to the log --> header l --> copies home --> header []
      (image: old)          (image: new)  (image: new)   (image: new) -/

namespace Xv6.Schemes
open Function
open List
open Prod (fst snd)

variable {V : Type*}

/-- A disk image: the value of every block. -/
abbrev Image (V : Type*) := ℕ → V

/-- Play a list of one-block writes, first write first. -/
def play (d : Image V) (ws : List (ℕ × V)) : Image V :=
  ws.foldl (fun d w => update d w.1 w.2) d

@[simp] theorem play_nil (d : Image V) : play d [] = d := rfl

@[simp] theorem play_cons (d : Image V) (w : ℕ × V) (ws : List (ℕ × V)) :
    play d (w :: ws) = play (update d w.1 w.2) ws := rfl

theorem play_append (d : Image V) (ws vs : List (ℕ × V)) :
    play d (ws ++ vs) = play (play d ws) vs := foldl_append ..

/-- A block that no write names keeps its value. -/
theorem play_other : ∀ {ws : List (ℕ × V)} {d : Image V} {a : ℕ}, (∀ w ∈ ws, w.1 ≠ a) →
    play d ws a = d a
  | [], _, _, _ => rfl
  | w :: ws, d, a, h => by
    rw [play_cons, play_other (fun v hv => h v (mem_cons_of_mem _ hv))]
    exact update_of_ne (h w (mem_cons_self ..)).symm _ _

/-- Playing `ws` forgets what stood in the blocks it names. -/
theorem play_congr : ∀ {ws : List (ℕ × V)} {d e : Image V} {a : ℕ},
    ((∃ w ∈ ws, w.1 = a) ∨ d a = e a) → play d ws a = play e ws a
  | [], d, e, a, h => by
    rcases h with ⟨w, hw, _⟩ | h
    · simp at hw
    · exact h
  | w :: ws, d, e, a, h => by
    rw [play_cons, play_cons]
    refine play_congr ?_
    by_cases hwa : w.1 = a
    · right; subst hwa; simp
    · rcases h with ⟨v, hv, hva⟩ | h
      · rcases mem_cons.mp hv with rfl | hv
        · exact absurd hva hwa
        · exact .inl ⟨v, hv, hva⟩
      · right
        rw [update_of_ne (Ne.symm hwa), update_of_ne (Ne.symm hwa)]; exact h

/-- Playing part of `ws` first does not change what all of `ws` leaves. -/
theorem play_twice {ws vs : List (ℕ × V)} (d : Image V) (hsub : ∀ v ∈ vs, v ∈ ws) (a : ℕ) :
    play (play d vs) ws a = play d ws a := by
  refine play_congr ?_
  by_cases h : ∃ w ∈ ws, w.1 = a
  · exact .inl h
  · right
    exact play_other (fun v hv hva => h ⟨v, hsub v hv, hva⟩)

/-- Playing blocks with the values of `v` gives each of them its value of `v`. -/
theorem play_map {v : Image V} : ∀ {l : List ℕ} {a : ℕ} (d : Image V), a ∈ l →
    play d (l.map fun a => (a, v a)) a = v a
  | b :: l, a, d, ha => by
    rw [map_cons, play_cons]
    by_cases hl : a ∈ l
    · exact play_map _ hl
    · have hab : a = b := by simpa [hl] using ha
      subst hab
      rw [play_other, update_self]
      rintro w hw rfl
      obtain ⟨c, hc, rfl⟩ := mem_map.mp hw
      exact hl hc

theorem zip_map (v : Image V) : ∀ l : List ℕ, l.zip (l.map v) = l.map fun a => (a, v a)
  | [] => rfl
  | a :: l => by simp [zip_map v l]

/-- Writes cut short inside the middle part of a sequence are a prefix of the sequence. -/
theorem append_take_prefix {α : Type*} (a b c : List α) (k : ℕ) :
    ∃ k', a ++ b.take k = (a ++ (b ++ c)).take k' := by
  refine ⟨a.length + min k b.length, ?_⟩
  rw [take_length_add_append, take_append, Nat.sub_eq_zero_of_le (Nat.min_le_right ..)]
  simp

/-- Where the log lives and how its header block names home addresses. -/
structure Layout (V : Type*) where
  start : ℕ
  size : ℕ
  cap : ℕ
  cap_lt : cap < size
  bound : ℕ
  targets : V → List ℕ
  stamp : List ℕ → V → V
  targets_stamp : ∀ l v, l.length ≤ cap → (∀ a ∈ l, a < bound) → targets (stamp l v) = l

namespace Layout

variable (L : Layout V)

/-- The log area: `size` blocks, the header first; at most `cap` of the others hold copies. -/
def inLog (a : ℕ) : Prop := L.start ≤ a ∧ a < L.start + L.size

instance (a : ℕ) : Decidable (L.inLog a) := inferInstanceAs (Decidable (_ ∧ _))

/-- The writes that bring the copies named by `l` home, copy `i` being the `i`-th log block. -/
def homeFrom (d : Image V) : ℕ → List ℕ → List (ℕ × V)
  | _, [] => []
  | i, a :: l => (a, d (L.start + i + 1)) :: homeFrom d (i + 1) l

def home (d : Image V) : List (ℕ × V) := L.homeFrom d 0 (L.targets (d L.start))

/-- What recovery makes of disk `d`. -/
def redo (d : Image V) : Image V := play d (L.home d)

/-- The copy writes of a commit: value `i` goes to log block `i`. -/
def copyFrom : ℕ → List V → List (ℕ × V)
  | _, [] => []
  | i, v :: vs => (L.start + i + 1, v) :: copyFrom (i + 1) vs

/-- Addresses a commit may name. -/
def Fits (l : List ℕ) : Prop := l.length ≤ L.cap ∧ ∀ a ∈ l, a < L.bound ∧ ¬ L.inLog a

/-- Disk `d` recovers to `D` outside the log, and its header is one a commit may have written. -/
structure Recovers (d D : Image V) : Prop where
  fits : L.Fits (L.targets (d L.start))
  image : ∀ a, ¬ L.inLog a → L.redo d a = D a

variable {L}

/-- The header and the first `cap` blocks after it lie in the log area. -/
theorem inLog_add {i : ℕ} (hi : i ≤ L.cap) : L.inLog (L.start + i) :=
  ⟨by omega, by have := L.cap_lt; omega⟩

theorem start_inLog : L.inLog L.start := inLog_add (Nat.zero_le _)

theorem homeFrom_map_fst (d : Image V) : ∀ (l : List ℕ) (i : ℕ),
    (L.homeFrom d i l).map fst = l
  | [], _ => rfl
  | a :: l, i => by simp [homeFrom, homeFrom_map_fst d l (i + 1)]

variable {D d : Image V}

theorem fst_mem_of_mem_homeFrom {l : List ℕ} {i : ℕ} {w : ℕ × V} (hw : w ∈ L.homeFrom d i l)
    : w.1 ∈ l := by
  rw [← homeFrom_map_fst (L := L) d l i]; exact mem_map_of_mem hw

/-- Home writes only read the log blocks. -/
theorem homeFrom_congr {e : Image V} : ∀ {l : List ℕ} {i : ℕ},
    (∀ k, i ≤ k → k < i + l.length → d (L.start + k + 1) = e (L.start + k + 1)) →
    L.homeFrom d i l = L.homeFrom e i l
  | [], _, _ => rfl
  | a :: l, i, h => by
    simp only [length_cons] at h
    simp only [homeFrom]
    rw [h i le_rfl (by omega), homeFrom_congr (fun k h₁ h2 => h k (by omega) (by omega))]

theorem mem_copyFrom : ∀ {vs : List V} {i : ℕ} {w : ℕ × V}, w ∈ L.copyFrom i vs →
    L.start + i < w.1 ∧ w.1 ≤ L.start + i + vs.length
  | v :: vs, i, w, h => by
    simp only [length_cons]
    rcases mem_cons.mp h with rfl | h
    · exact ⟨by simp, by simp⟩
    · have := mem_copyFrom h
      omega

/-- Reading the copies back after they are written gives the values that were copied. -/
theorem homeFrom_play_copyFrom : ∀ (l : List ℕ) (vs : List V) (i : ℕ) (d : Image V),
    l.length = vs.length → L.homeFrom (play d (L.copyFrom i vs)) i l = l.zip vs
  | [], vs, i, d, h => by simp [homeFrom]
  | a :: l, [], i, d, h => by simp at h
  | a :: l, v :: vs, i, d, h => by
    simp only [copyFrom, play_cons, homeFrom, zip_cons_cons]
    rw [homeFrom_play_copyFrom l vs (i + 1) _ (by simpa using h)]
    congr 2
    rw [play_other]
    · simp
    · intro w hw
      have := mem_copyFrom hw
      omega

/-- With an empty header, recovery changes nothing. -/
theorem redo_of_clear (h : L.targets (d L.start) = []) : L.redo d = d := by
  simp [redo, home, h, homeFrom]

theorem Recovers.of_clear (h : L.targets (d L.start) = []) (hD : ∀ a, ¬ L.inLog a → d a = D a)
    : L.Recovers d D :=
  ⟨by simp [h, Fits], fun a ha => by rw [redo_of_clear h]; exact hD a ha⟩

/-! ### One write of a commit -/

/-- A write to a copy block while the header is empty. -/
theorem Recovers.copy (h : L.targets (d L.start) = []) (hR : L.Recovers d D) {a : ℕ}
    (h₁ : L.start < a) (h2 : a ≤ L.start + L.cap) (v : V) :
    L.targets (update d a v L.start) = [] ∧ L.Recovers (update d a v) D := by
  have hs : update d a v L.start = d L.start := update_of_ne (by omega) _ _
  refine ⟨by rw [hs]; exact h, Recovers.of_clear (by rw [hs]; exact h) (fun b hb => ?_)⟩
  have hba : b ≠ a := by
    rintro rfl; exact hb ⟨h₁.le, by have := L.cap_lt; omega⟩
  rw [update_of_ne hba, ← hR.image b hb, redo_of_clear h]

/-- Copies of a home write, taken from the disk's own log, do not move the recovered image. -/
theorem Recovers.install (hR : L.Recovers d D) {w : ℕ × V} (hw : w ∈ L.home d) :
    L.home (update d w.1 w.2) = L.home d ∧ L.Recovers (update d w.1 w.2) D := by
  have hout : ¬ L.inLog w.1 := (hR.fits.2 w.1 (fst_mem_of_mem_homeFrom hw)).2
  have hlog : ∀ b, L.inLog b → update d w.1 w.2 b = d b := by
    intro b hb
    exact update_of_ne (by rintro rfl; exact hout hb) _ _
  have hs : update d w.1 w.2 L.start = d L.start := hlog _ start_inLog
  have hh : L.home (update d w.1 w.2) = L.home d := by
    rw [home, hs]
    exact homeFrom_congr (fun k _ hk => hlog _ (inLog_add (i := k + 1) (by have := hR.fits.1; omega)))
  refine ⟨hh, ⟨by rw [hs]; exact hR.fits, fun a ha => ?_⟩⟩
  have h1 : play d [w] = update d w.1 w.2 := rfl
  rw [redo, hh, ← h1, play_twice d (by simpa using hw)]
  exact hR.image a ha

/-- Once every home block holds its copy, the header may be cleared. -/
theorem Recovers.clear (hR : L.Recovers d D) (hdone : ∀ a, L.redo d a = d a) {v : V}
    (hv : L.targets v = []) : L.Recovers (update d L.start v) D := by
  refine Recovers.of_clear (by simpa using hv) (fun a ha => ?_)
  have : a ≠ L.start := by rintro rfl; exact ha start_inLog
  rw [update_of_ne this, ← hR.image a ha, hdone]

/-! ### Runs of home writes -/

/-- Any part of the home writes leaves the recovered image and the home writes as they were. -/
theorem Recovers.installs : ∀ {ws : List (ℕ × V)} {d D : Image V}, L.Recovers d D →
    (∀ w ∈ ws, w ∈ L.home d) → L.home (play d ws) = L.home d ∧ L.Recovers (play d ws) D
  | [], _, _, hR, _ => ⟨rfl, hR⟩
  | w :: ws, d, D, hR, h => by
    obtain ⟨hh, hR'⟩ := hR.install (h w (mem_cons_self ..))
    have := Recovers.installs hR'
      (fun v hv => by rw [hh]; exact h v (mem_cons_of_mem _ hv))
    exact ⟨this.1.trans hh, this.2⟩

/-- After all home writes recovery would change nothing. -/
theorem redo_play_home (hR : L.Recovers d D) (a : ℕ) :
    L.redo (play d (L.home d)) a = play d (L.home d) a := by
  rw [redo, (hR.installs (fun _ h => h)).1, play_twice d (fun _ h => h)]

/-! ### The commit sequence -/

variable (L)

/-- The writes of one commit of `g` over header value `h`: log copies, header, home, cleared header. -/
def commitWrites (h : V) (g : List (ℕ × V)) : List (ℕ × V) :=
  L.copyFrom 0 (g.map snd) ++ ((L.start, L.stamp (g.map fst) h) ::
    (g ++ [(L.start, L.stamp [] (L.stamp (g.map fst) h))]))

/-- The writes of a sequence of commits, each over the header the one before left. -/
def commitsWrites : V → List (List (ℕ × V)) → List (ℕ × V)
  | _, [] => []
  | h, g :: gs => L.commitWrites h g ++ commitsWrites (L.stamp [] (L.stamp (g.map fst) h)) gs

/-- Number of non-empty headers among some writes: the commit points that reached the disk. -/
def commitPoints (ws : List (ℕ × V)) : ℕ :=
  ws.countP (fun w => w.1 == L.start && !(L.targets w.2).isEmpty)

variable {L}

/-- A group a commit may carry. -/
def Group (L : Layout V) (g : List (ℕ × V)) : Prop := g ≠ [] ∧ L.Fits (g.map fst)

theorem prefix_append {α : Type*} {P : List α → Prop} {a b : List α} (ha : ∀ k, P (a.take k))
    (hb : ∀ k, P (a ++ b.take k)) (k : ℕ) : P ((a ++ b).take k) := by
  rw [take_append]
  rcases Nat.le_total k a.length with h | h
  · rw [Nat.sub_eq_zero_of_le h, take_zero, append_nil]; exact ha k
  · rw [take_of_length_le h]; exact hb _

theorem commitPoints_append (ws vs : List (ℕ × V)) :
    L.commitPoints (ws ++ vs) = L.commitPoints ws + L.commitPoints vs := countP_append

theorem commitPoints_eq_zero {ws : List (ℕ × V)}
    (h : ∀ w ∈ ws, w.1 ≠ L.start ∨ L.targets w.2 = []) : L.commitPoints ws = 0 := by
  rw [commitPoints, countP_eq_zero]
  intro w hw
  rcases h w hw with h | h <;> simp [h]

theorem targets_stamp_nil (v : V) : L.targets (L.stamp [] v) = [] :=
  L.targets_stamp [] v (by simp) (by simp)

variable {g : List (ℕ × V)}

theorem Group.targets (hg : L.Group g) (h : V) :
    L.targets (L.stamp (g.map fst) h) = g.map fst :=
  L.targets_stamp _ _ hg.2.1 (fun a ha => (hg.2.2 a ha).1)

/-- Log copies: the header stays empty and the image stays `D`. -/
theorem Recovers.copies : ∀ {ws : List (ℕ × V)} {d D : Image V}, L.targets (d L.start) = [] →
    L.Recovers d D → (∀ w ∈ ws, L.start < w.1 ∧ w.1 ≤ L.start + L.cap) →
    L.targets (play d ws L.start) = [] ∧ L.Recovers (play d ws) D
  | [], _, _, hc, hR, _ => ⟨hc, hR⟩
  | w :: ws, d, D, hc, hR, h => by
    obtain ⟨hc', hR'⟩ := hR.copy hc (h w (mem_cons_self ..)).1
      (h w (mem_cons_self ..)).2 w.2
    rw [play_cons]
    exact Recovers.copies hc' hR' (fun v hv => h v (mem_cons_of_mem _ hv))

/-- The header write: from then on recovery brings the whole group home. -/
theorem Recovers.header (hg : L.Group g) (hc : L.targets (d L.start) = []) (hR : L.Recovers d D)
    (h : V) : L.home (update (play d (L.copyFrom 0 (g.map snd))) L.start
        (L.stamp (g.map fst) h)) = g ∧
      L.Recovers (update (play d (L.copyFrom 0 (g.map snd))) L.start
        (L.stamp (g.map fst) h)) (play D g) := by
  set c := play d (L.copyFrom 0 (g.map snd)) with hcdef
  set e := update c L.start (L.stamp (g.map fst) h) with hedef
  have hlen : (g.map snd).length ≤ L.cap := by simpa using hg.2.1
  have hes : L.targets (e L.start) = g.map fst := by
    rw [hedef, update_self]; exact hg.targets h
  have hhome : L.home e = g := by
    rw [home, hes, homeFrom_congr (e := c), hcdef,
      homeFrom_play_copyFrom _ _ _ _ (by simp), ← unzip_fst, ← unzip_snd, zip_unzip]
    intro k _ _
    exact update_of_ne (by omega) _ _
  refine ⟨hhome, ⟨by rw [hes]; exact hg.2, fun a ha => ?_⟩⟩
  rw [redo, hhome]
  refine play_congr (.inr ?_)
  have has : a ≠ L.start := by rintro rfl; exact ha start_inLog
  rw [hedef, update_of_ne has, hcdef, play_other, ← hR.image a ha, redo_of_clear hc]
  rintro w hw rfl
  have := mem_copyFrom hw
  exact ha ⟨by omega, by have := L.cap_lt; omega⟩

/-- The header one commit leaves. -/
theorem play_commitWrites_start (d : Image V) (h : V) (g : List (ℕ × V)) :
    play d (L.commitWrites h g) L.start = L.stamp [] (L.stamp (g.map fst) h) := by
  rw [commitWrites, play_append, play_cons, play_append]
  simp

/-- A sequence of commits, the last one over the header the others left. -/
theorem commitsWrites_concat : ∀ (gs : List (List (ℕ × V))) (d : Image V) (g : List (ℕ × V)),
    L.commitsWrites (d L.start) (gs ++ [g]) = L.commitsWrites (d L.start) gs ++
      L.commitWrites (play d (L.commitsWrites (d L.start) gs) L.start) g
  | [], d, g => by simp [commitsWrites]
  | g' :: gs, d, g => by
    have ih := commitsWrites_concat gs (play d (L.commitWrites (d L.start) g')) g
    rw [play_commitWrites_start] at ih
    rw [cons_append, commitsWrites, ih, commitsWrites, append_assoc, play_append]

/-- Every prefix of one commit's writes. -/
theorem commitWrites_prefix (hg : L.Group g) (hc : L.targets (d L.start) = [])
    (hR : L.Recovers d D) : (∀ k, L.commitPoints ((L.commitWrites (d L.start) g).take k) = 0 ∧
        L.Recovers (play d ((L.commitWrites (d L.start) g).take k)) D ∨
      L.commitPoints ((L.commitWrites (d L.start) g).take k) = 1 ∧
        L.Recovers (play d ((L.commitWrites (d L.start) g).take k)) (play D g)) ∧
    L.commitPoints (L.commitWrites (d L.start) g) = 1 ∧
    L.Recovers (play d (L.commitWrites (d L.start) g)) (play D g) := by
  set cs := L.copyFrom 0 (g.map snd) with hcs
  set hw : ℕ × V := (L.start, L.stamp (g.map fst) (d L.start)) with hhw
  set cw : ℕ × V := (L.start, L.stamp [] (L.stamp (g.map fst) (d L.start))) with hcw
  have hlen : (g.map snd).length ≤ L.cap := by simpa using hg.2.1
  have hcopy : ∀ w ∈ cs, L.start < w.1 ∧ w.1 ≤ L.start + L.cap := by
    intro w hw
    have := mem_copyFrom hw
    omega
  have hcs0 : ∀ vs, (∀ v ∈ vs, v ∈ cs) → L.commitPoints vs = 0 := by
    intro vs hvs
    exact commitPoints_eq_zero (fun w hw => .inl (by have := hcopy w (hvs w hw); omega))
  have hg0 : ∀ vs, (∀ v ∈ vs, v ∈ g) → L.commitPoints vs = 0 := by
    intro vs hvs
    refine commitPoints_eq_zero (fun w hw => .inl ?_)
    rintro hws
    exact (hg.2.2 w.1 (mem_map_of_mem (hvs w hw))).2 (hws ▸ start_inLog)
  have hpoint : L.commitPoints [hw] = 1 := by
    simp [commitPoints, hhw, hg.targets, hg.1]
  have hclear : L.commitPoints [cw] = 0 :=
    commitPoints_eq_zero (by simp [hcw, targets_stamp_nil])
  obtain ⟨hhome, hRh⟩ := hR.header hg hc (d L.start)
  have hsplit : L.commitWrites (d L.start) g = cs ++ ([hw] ++ (g ++ [cw])) := rfl
  -- the disk right after the header write, and what any part of the home writes makes of it
  set e := play d (cs ++ [hw]) with he
  have he' : e = update (play d cs) L.start (L.stamp (g.map fst) (d L.start)) := by
    rw [he, play_append]; rfl
  rw [← he'] at hhome hRh
  have hinst : ∀ vs, (∀ v ∈ vs, v ∈ g) → L.Recovers (play e vs) (play D g) := fun vs hvs =>
    (hRh.installs (fun v hv => by rw [hhome]; exact hvs v hv)).2
  have hfull : L.Recovers (play d (cs ++ ([hw] ++ (g ++ [cw])))) (play D g) := by
    rw [← append_assoc, play_append, ← he, play_append]
    refine (hinst g (fun _ h => h)).clear (fun a => ?_) (targets_stamp_nil _)
    have := redo_play_home hRh a
    rwa [hhome] at this
  have hcount : L.commitPoints (cs ++ ([hw] ++ (g ++ [cw]))) = 1 := by
    rw [commitPoints_append, commitPoints_append, commitPoints_append, hpoint, hclear,
      hcs0 cs (fun _ h => h), hg0 g (fun _ h => h)]
  rw [hsplit]
  refine ⟨?_, hcount, hfull⟩
  · -- cut inside the copies, at the header, inside the home writes, or at the clearing write
    let Q (ws : List (ℕ × V)) : Prop := L.commitPoints ws = 0 ∧ L.Recovers (play d ws) D ∨
      L.commitPoints ws = 1 ∧ L.Recovers (play d ws) (play D g)
    refine prefix_append (P := Q) (fun k => .inl ?_)
      (prefix_append (P := fun ws => Q (cs ++ ws)) (fun k => ?_)
      (prefix_append (P := fun ws => Q (cs ++ ([hw] ++ ws))) (fun k => .inr ?_)
        (fun k => .inr ?_)))
    · exact ⟨hcs0 _ (fun v hv => mem_of_mem_take hv),
        (hR.copies hc (fun w hw => hcopy w (mem_of_mem_take hw))).2⟩
    · rcases k with _ | k
      · exact .inl ⟨by simpa using hcs0 cs (fun _ h => h), by
          simpa using (hR.copies hc hcopy).2⟩
      · right
        simp only [take_succ_cons, take_nil]
        exact ⟨by rw [commitPoints_append, hpoint, hcs0 cs (fun _ h => h)],
          by rw [← he]; exact hRh⟩
    · rw [← append_assoc, play_append, ← he]
      exact ⟨by rw [commitPoints_append, commitPoints_append, hpoint, hcs0 cs (fun _ h => h),
        hg0 _ (fun v hv => mem_of_mem_take hv)], hinst _ (fun v hv => mem_of_mem_take hv)⟩
    · rcases k with _ | k
      · rw [take_zero, append_nil, ← append_assoc, play_append, ← he]
        exact ⟨by rw [commitPoints_append, commitPoints_append, hpoint, hcs0 cs (fun _ h => h),
          hg0 g (fun _ h => h)], hinst g (fun _ h => h)⟩
      · simp only [take_succ_cons, take_nil]
        exact ⟨hcount, hfull⟩

/-- Every prefix of a sequence of commits recovers to the disk after the commits whose header is
  among the writes, each applied in full; there are no more such headers than commits. -/
theorem commitsWrites_prefix : ∀ (gs : List (List (ℕ × V))) {d D : Image V},
    (∀ g ∈ gs, L.Group g) → L.targets (d L.start) = [] → L.Recovers d D → ∀ k,
    L.commitPoints ((L.commitsWrites (d L.start) gs).take k) ≤ gs.length ∧
    L.Recovers (play d ((L.commitsWrites (d L.start) gs).take k))
      ((gs.take (L.commitPoints ((L.commitsWrites (d L.start) gs).take k))).foldl play D)
  | [], d, D, _, _, hR, k => by simpa [commitsWrites, commitPoints] using hR
  | g :: gs, d, D, hgs, hc, hR, k => by
    obtain ⟨hpre, hcount, hfull⟩ := commitWrites_prefix (hgs g (mem_cons_self ..)) hc hR
    have hhead := play_commitWrites_start (L := L) d (d L.start) g
    rw [commitsWrites]
    refine prefix_append (P := fun ws => L.commitPoints ws ≤ (g :: gs).length ∧
      L.Recovers (play d ws) (((g :: gs).take (L.commitPoints ws)).foldl play D))
      (fun k => ?_) (fun k => ?_) k
    · rcases hpre k with ⟨h0, h⟩ | ⟨h1, h⟩
      · simpa [h0] using h
      · simpa [h1] using h
    · obtain ⟨hle, hrec⟩ := commitsWrites_prefix gs (d := play d (L.commitWrites (d L.start) g))
        (fun g' h' => hgs g' (mem_cons_of_mem _ h'))
        (by rw [hhead]; exact targets_stamp_nil _) hfull k
      rw [hhead] at hle hrec
      rw [play_append, commitPoints_append, hcount, add_comm, take_succ_cons,
        foldl_cons]
      exact ⟨by simpa using hle, hrec⟩

/-- Every commit that has been written in full has its header among the writes. -/
theorem commitPoints_commitsWrites : ∀ (gs : List (List (ℕ × V))) {d D : Image V},
    (∀ g ∈ gs, L.Group g) → L.targets (d L.start) = [] → L.Recovers d D →
    L.commitPoints (L.commitsWrites (d L.start) gs) = gs.length
  | [], _, _, _, _, _ => rfl
  | g :: gs, d, D, hgs, hc, hR => by
    obtain ⟨-, hcount, hfull⟩ := commitWrites_prefix (hgs g (mem_cons_self ..)) hc hR
    have hhead := play_commitWrites_start (L := L) d (d L.start) g
    have hrest := commitPoints_commitsWrites gs (d := play d (L.commitWrites (d L.start) g))
      (fun g' h' => hgs g' (mem_cons_of_mem _ h')) (by rw [hhead]; exact targets_stamp_nil _) hfull
    rw [hhead] at hrest
    rw [commitsWrites, commitPoints_append, hcount, hrest, length_cons, add_comm]

/-! ### Recovery -/

variable (L)

/-- The writes of one recovery of disk `d`. -/
def recoveryWrites (d : Image V) : List (ℕ × V) :=
  L.home d ++ [(L.start, L.stamp [] (d L.start))]

variable {L}

/-- Recovery stopped after any number of its writes leaves a disk with the same recovered image. -/
theorem Recovers.recovery_prefix (hR : L.Recovers d D) (k : ℕ) :
    L.Recovers (play d ((L.recoveryWrites d).take k)) D := by
  refine prefix_append (P := fun ws => L.Recovers (play d ws) D) (fun k => ?_) (fun k => ?_) k
  · exact (hR.installs (fun v hv => mem_of_mem_take hv)).2
  · have hall := (hR.installs (fun _ h => h)).2
    rcases k with _ | k
    · simpa using hall
    · simp only [take_succ_cons, take_nil, play_append]
      exact hall.clear (redo_play_home hR) (targets_stamp_nil _)

/-- A recovery that runs to its end leaves the image itself outside the log, and an empty header. -/
theorem Recovers.recovery_full (hR : L.Recovers d D) :
    (∀ a, ¬ L.inLog a → play d (L.recoveryWrites d) a = D a) ∧
      L.targets (play d (L.recoveryWrites d) L.start) = [] := by
  have hfull := hR.recovery_prefix (L.recoveryWrites d).length
  rw [take_length] at hfull
  have hclear : L.targets (play d (L.recoveryWrites d) L.start) = [] := by
    rw [recoveryWrites, play_append]; simp [targets_stamp_nil]
  refine ⟨fun a ha => ?_, hclear⟩
  rw [← hfull.image a ha, redo_of_clear hclear]

end Layout

end Xv6.Schemes

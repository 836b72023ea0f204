import Xv6.Proc.Tree

/-! @src proc.c | part:pids and what `wait` returns | scheme:machine

  The notes of a run, in order, say who forked whom, who exited, and what `wait` returned to whom.
  They are tied to the table by the pids, which are distinct as long as `nextpid` has not run
  through all positive `int`s. -/

namespace Xv6.Ptable
open Schemes
open Function
open List

/-- Every pid that `wait` has returned, to the process with pid `q`, is that of an exited process, had
  not been returned before, and `q` had forked it, or is the pid `r0` of init and the parent had
  exited. -/
def Sound (r0 : ℤ) (h : List Note) : Prop := ∀ h1 q r h2, h = h1 ++ .waited q r :: h2 → r ≠ -1 →
  .exited r ∈ h1 ∧ (∀ q', .waited q' r ∉ h1) ∧
    (.forked q r ∈ h1 ∨ q = r0 ∧ ∃ q', .forked q' r ∈ h1 ∧ .exited q' ∈ h1)

theorem sound_concat {r0 : ℤ} {h : List Note} (hs : Sound r0 h) {n : Note}
    (hn : ∀ q r, n = .waited q r → r ≠ -1 → .exited r ∈ h ∧ (∀ q', .waited q' r ∉ h) ∧
      (.forked q r ∈ h ∨ q = r0 ∧ ∃ q', .forked q' r ∈ h ∧ .exited q' ∈ h)) :
    Sound r0 (h ++ [n]) := by
  intro h1 q r h2 he hr
  rcases eq_nil_or_concat h2 with rfl | ⟨h3, m, rfl⟩
  · obtain ⟨rfl, hm⟩ := append_inj' he rfl
    exact hn q r (by simpa using hm) hr
  · rw [concat_eq_append, ← cons_append, ← append_assoc] at he
    obtain ⟨rfl, _⟩ := append_inj' he rfl
    exact hs h1 q r h3 rfl hr

/-- The process with pid `r` is a child of slot `p`, whose pid is `q`, by `fork`, or it was passed to
  init when its parent exited. -/
def Begot (h : List Note) (p : Slot) (q r : ℤ) : Prop :=
  .forked q r ∈ h ∨ p = initproc ∧ ∃ q', .forked q' r ∈ h ∧ .exited q' ∈ h

theorem Begot.append {h : List Note} {p : Slot} {q r : ℤ} (hb : Begot h p q r) (n : Note) :
    Begot (h ++ [n]) p q r := by
  rcases hb with hf | ⟨hp, x, hf, hx⟩
  · exact .inl (mem_append_left _ hf)
  · exact .inr ⟨hp, x, mem_append_left _ hf, mem_append_left _ hx⟩

/-- The pids in the table and the notes agree; `a` pids have been given out. -/
structure Records (t : Table) (next : ℤ) (a : ℕ) (h : List Note) : Prop where
  next : next = wrap (a + 1)
  pid : ∀ i, (t i).state ≠ .unused → 0 < (t i).pid ∧ (t i).pid ≤ a
  inj : ∀ i j, (t i).state ≠ .unused → (t j).state ≠ .unused → (t i).pid = (t j).pid → i = j
  begot : ∀ i p, (t i).state.live ∨ (t i).state = .zombie → (t i).parent = some p →
    Begot h p (t p).pid (t i).pid
  exited : ∀ i, (t i).state = .zombie → .exited (t i).pid ∈ h
  waited : ∀ q r : ℤ, .waited q r ∈ h → r ≤ a ∧ ∀ i, (t i).state ≠ .unused → (t i).pid ≠ r
  sound : Sound (t initproc).pid h

variable {t t' : Table} {next : ℤ} {a : ℕ} {h : List Note} {i p : Slot}

theorem Records.kept (hr : Records t next a h) (k : ∀ i, Kept (t i) (t' i)) :
    Records t' next a h := by
  have hun : ∀ i, (t' i).state ≠ .unused → (t i).state ≠ .unused := fun i hx hy =>
    hx (((k i).dead (.inl rfl)).mpr hy)
  have hz : ∀ i, (t' i).state = .zombie → (t i).state = .zombie := fun i =>
    ((k i).dead (.inr (.inr rfl))).mp
  have hpid : ∀ i, (t' i).pid = (t i).pid := fun i => (k i).pid
  refine ⟨hr.next, fun i hi => ?_, fun i j hi hj he => ?_, fun i p hi hp => ?_, fun i hi => ?_,
    fun q r hq => ?_, ?_⟩
  · rw [hpid]; exact hr.pid i (hun i hi)
  · rw [hpid, hpid] at he; exact hr.inj i j (hun i hi) (hun j hj) he
  · rw [hpid, hpid]
    exact hr.begot i p (hi.imp (k i).live.mp (hz i)) ((k i).parent ▸ hp)
  · rw [hpid]; exact hr.exited i (hz i hi)
  · obtain ⟨hle, hne⟩ := hr.waited q r hq
    exact ⟨hle, fun i hi => hpid i ▸ hne i (hun i hi)⟩
  · rw [hpid]; exact hr.sound

theorem Records.clear (hr : Records t next a h) (k : ∀ j, j ≠ i → Kept (t j) (t' j))
    (hs : (t' i).state = .unused) (hc : ∀ j p, (t j).parent = some p → p ≠ i)
    (hi : i ≠ initproc) : Records t' next a h := by
  have hne : ∀ j, (t' j).state ≠ .unused → j ≠ i := by rintro j hj rfl; exact hj hs
  have hun : ∀ j, (t' j).state ≠ .unused → (t j).state ≠ .unused := fun j hj hx =>
    hj (((k j (hne j hj)).dead (.inl rfl)).mpr hx)
  have hpid : ∀ j, j ≠ i → (t' j).pid = (t j).pid := fun j hj => (k j hj).pid
  refine ⟨hr.next, fun j hj => ?_, fun j l hj hl he => ?_, fun j p hj hp => ?_, fun j hj => ?_,
    fun q r hq => ?_, ?_⟩
  · rw [hpid j (hne j hj)]; exact hr.pid j (hun j hj)
  · rw [hpid j (hne j hj), hpid l (hne l hl)] at he
    exact hr.inj j l (hun j hj) (hun l hl) he
  · have hji : j ≠ i := by rintro rfl; rw [hs] at hj; simp [PState.live] at hj
    rw [(k j hji).parent] at hp
    rw [hpid j hji, hpid p (hc j p hp)]
    exact hr.begot j p (hj.imp (k j hji).live.mp ((k j hji).dead (.inr (.inr rfl))).mp) hp
  · have hji : j ≠ i := by rintro rfl; rw [hs] at hj; cases hj
    rw [hpid j hji]
    exact hr.exited j (((k j hji).dead (.inr (.inr rfl))).mp hj)
  · obtain ⟨hle, hx⟩ := hr.waited q r hq
    exact ⟨hle, fun j hj => hpid j (hne j hj) ▸ hx j (hun j hj)⟩
  · rw [hpid initproc hi.symm]; exact hr.sound

theorem Records.note (hr : Records t next a h) {n : Note} (hn : ∀ q r, n ≠ .waited q r) :
    Records t next a (h ++ [n]) where
  next := hr.next
  pid := hr.pid
  inj := hr.inj
  begot i p hi hp := (hr.begot i p hi hp).append n
  exited i hi := mem_append_left _ (hr.exited i hi)
  waited q r hq := by
    rcases mem_append.mp hq with hq | hq
    · exact hr.waited q r hq
    · exact absurd (mem_singleton.mp hq).symm (hn q r)
  sound := sound_concat hr.sound fun q r hx => absurd hx (hn q r)

theorem Records.returns (hr : Records t next a h) {q r : ℤ} (hle : r ≤ a)
    (hne : ∀ i, (t i).state ≠ .unused → (t i).pid ≠ r)
    (hs : r ≠ -1 → .exited r ∈ h ∧ (∀ q', .waited q' r ∉ h) ∧
      (.forked q r ∈ h ∨ q = (t initproc).pid ∧ ∃ q', .forked q' r ∈ h ∧ .exited q' ∈ h)) :
    Records t next a (h ++ [.waited q r]) where
  next := hr.next
  pid := hr.pid
  inj := hr.inj
  begot i p hi hp := (hr.begot i p hi hp).append _
  exited i hi := mem_append_left _ (hr.exited i hi)
  waited x y hx := by
    rcases mem_append.mp hx with hx | hx
    · exact hr.waited x y hx
    · simp only [mem_singleton, Note.waited.injEq] at hx
      rw [hx.2]
      exact ⟨hle, hne⟩
  sound := sound_concat hr.sound fun x y hx hy => by
    cases hx
    exact hs hy

theorem Records.exit (hr : Records t next a h) (hrun : (t p).state = .running) (hp : p ≠ initproc)
    (k : Left p t t') : Records t' next a (h ++ [.exited (t p).pid]) := by
  have hn := hr.note (n := .exited (t p).pid) (by simp)
  have hun : ∀ j, (t' j).state ≠ .unused → (t j).state ≠ .unused := fun j hj hx => by
    rcases eq_or_ne j p with rfl | hjp
    · rw [hrun] at hx; cases hx
    · exact hj ((k.dead hjp (.inl rfl)).mpr hx)
  refine ⟨hn.next, fun j hj => ?_, fun j l hj hl he => ?_, fun j q hj hq => ?_, fun j hj => ?_,
    fun q r hq => ?_, ?_⟩
  · rw [k.pid]; exact hn.pid j (hun j hj)
  · rw [k.pid, k.pid] at he
    exact hn.inj j l (hun j hj) (hun l hl) he
  · have hold : (t j).state.live ∨ (t j).state = .zombie := by
      rcases eq_or_ne j p with rfl | hjp
      · exact .inl (PState.live_of_running hrun)
      · rcases k.state j hjp with hs | ⟨hs, _⟩
        · rwa [hs] at hj
        · exact .inl (.inl hs)
    rw [k.pid, k.pid]
    rw [k.parent] at hq
    split_ifs at hq with hjp
    · cases hq
      rcases hr.begot j p hold hjp with hf | ⟨rfl, _⟩
      · exact .inr ⟨rfl, (t p).pid, mem_append_left _ hf, by simp⟩
      · exact absurd rfl hp
    · exact hn.begot j q hold hq
  · rw [k.pid]
    rcases eq_or_ne j p with rfl | hjp
    · simp
    · exact hn.exited j ((k.dead hjp (.inr (.inr rfl))).mp hj)
  · obtain ⟨hle, hne⟩ := hn.waited q r hq
    exact ⟨hle, fun j hj => k.pid j ▸ hne j (hun j hj)⟩
  · rw [k.pid]; exact hn.sound

theorem Records.alloc (hr : Records t next a h) (ha : a + 1 < 2 ^ 31) (hi : i ≠ initproc)
    (hc : ∀ j p, (t j).parent = some p → p ≠ i) :
    Records (update t i (embryo next (t i))) (wrap (next + 1)) (a + 1) h := by
  have hnext : next = a + 1 := hr.next.trans (wrap_of_nonneg (by omega) (by omega))
  have hself : (update t i (embryo next (t i)) i).pid = a + 1 := by
    rw [update_self]; exact hnext
  have hemb : (update t i (embryo next (t i)) i).state = .embryo := by
    rw [update_self]; rfl
  have hother : ∀ j, j ≠ i → update t i (embryo next (t i)) j = t j := fun j hj =>
    update_of_ne hj ..
  set t' := update t i (embryo next (t i)) with ht'
  refine ⟨by rw [hnext]; push_cast; rfl, fun j hj => ?_, fun j l hj hl he => ?_, fun j p hj hp => ?_,
    fun j hj => ?_, fun q r hq => ?_, ?_⟩
  · rcases eq_or_ne j i with rfl | hji
    · rw [hself]; push_cast; omega
    · rw [hother j hji] at hj ⊢
      have := hr.pid j hj
      push_cast
      omega
  · -- the new pid is above all the old ones
    have hlt : ∀ j, j ≠ i → (t' j).state ≠ .unused → (t' j).pid < a + 1 := fun j hji hj => by
      rw [hother j hji] at hj ⊢
      have := (hr.pid j hj).2
      omega
    rcases eq_or_ne j i with rfl | hji
    · by_contra hjl
      have := hlt l (Ne.symm hjl) hl
      omega
    · rcases eq_or_ne l i with rfl | hli
      · have := hlt j hji hj
        omega
      · rw [hother j hji] at hj he
        rw [hother l hli] at hl he
        exact hr.inj j l hj hl he
  · have hji : j ≠ i := by rintro rfl; rw [hemb] at hj; simp [PState.live] at hj
    rw [hother j hji] at hj hp ⊢
    rw [hother p (hc j p hp)]
    exact hr.begot j p hj hp
  · have hji : j ≠ i := by rintro rfl; rw [hemb] at hj; cases hj
    rw [hother j hji] at hj ⊢
    exact hr.exited j hj
  · obtain ⟨hle, hne⟩ := hr.waited q r hq
    refine ⟨by push_cast; omega, fun j hj => ?_⟩
    rcases eq_or_ne j i with rfl | hji
    · rw [hself]; omega
    · rw [hother j hji] at hj ⊢
      exact hne j hj
  · rw [hother initproc hi.symm]; exact hr.sound

theorem Records.adopt (hr : Records t next a h) (he : (t i).state = .embryo) :
    Records (update t i { t i with parent := some p }) next a h := by
  have hst : ∀ j, (update t i { t i with parent := some p } j).state = (t j).state ∧
      (update t i { t i with parent := some p } j).pid = (t j).pid := fun j => by
    rw [update_apply]
    split_ifs with hj
    · rw [hj]; exact ⟨rfl, rfl⟩
    · exact ⟨rfl, rfl⟩
  refine ⟨hr.next, ?_, ?_, fun j q hj hq => ?_, ?_, ?_, ?_⟩
  · simpa only [hst] using hr.pid
  · simpa only [hst] using hr.inj
  · simp only [hst] at hj ⊢
    have hji : j ≠ i := by rintro rfl; rw [he] at hj; simp [PState.live] at hj
    rw [update_of_ne hji] at hq
    exact hr.begot j q hj hq
  · simpa only [hst] using hr.exited
  · simpa only [hst] using hr.waited
  · rw [(hst initproc).2]; exact hr.sound

theorem Records.born (hr : Records t next a h) (he : (t i).state = .embryo)
    (hp : (t i).parent = some p) :
    Records (update t i { t i with state := .runnable }) next a
      (h ++ [.forked (t p).pid (t i).pid]) := by
  have hn := hr.note (n := .forked (t p).pid (t i).pid) (by simp)
  have hself : (update t i { t i with state := .runnable } i).state = .runnable := by
    rw [update_self]
  have hst : ∀ j, j ≠ i → update t i { t i with state := .runnable } j = t j := fun j hj =>
    update_of_ne hj ..
  have hpp : ∀ j, (update t i { t i with state := .runnable } j).pid = (t j).pid ∧
      (update t i { t i with state := .runnable } j).parent = (t j).parent := fun j => by
    rw [update_apply]
    split_ifs with hj
    · rw [hj]; exact ⟨rfl, rfl⟩
    · exact ⟨rfl, rfl⟩
  set t' := update t i { t i with state := .runnable } with ht'
  have hun : ∀ j, (t' j).state ≠ .unused → (t j).state ≠ .unused := fun j hj => by
    rcases eq_or_ne j i with rfl | hji
    · simp [he]
    · rwa [hst j hji] at hj
  refine ⟨hn.next, fun j hj => ?_, fun j l hj hl hx => ?_, fun j q hj hq => ?_, fun j hj => ?_,
    fun q r hq => ?_, ?_⟩
  · rw [(hpp j).1]; exact hn.pid j (hun j hj)
  · rw [(hpp j).1, (hpp l).1] at hx
    exact hn.inj j l (hun j hj) (hun l hl) hx
  · rw [(hpp j).2] at hq
    rw [(hpp j).1, (hpp q).1]
    rcases eq_or_ne j i with rfl | hji
    · rw [hp, Option.some.injEq] at hq
      exact .inl (by simp [hq])
    · rw [hst j hji] at hj
      exact hn.begot j q hj hq
  · have hji : j ≠ i := by rintro rfl; rw [hself] at hj; cases hj
    rw [hst j hji] at hj ⊢
    exact hn.exited j hj
  · obtain ⟨hle, hne⟩ := hn.waited q r hq
    exact ⟨hle, fun j hj => (hpp j).1 ▸ hne j (hun j hj)⟩
  · rw [(hpp initproc).1]; exact hn.sound

/-! ### Steps and runs -/

variable {C : Type} {s u : Sys C}

def Sys.Recorded (s : Sys C) : Prop := Records s.proc s.nextpid s.allocs s.hist

theorem Lineage.allocs_le (hl : Lineage s u) : s.allocs ≤ u.allocs := by
  cases hl with
  | same _ _ l | doze _ _ _ _ _ _ _ l | childless _ _ _ _ l | reap _ _ _ _ _ _ l | exit _ _ _ _ _ l
  | drop _ _ _ _ _ l | adopt _ _ _ _ l | born _ _ _ _ l => exact l.allocs.ge
  | alloc _ _ _ _ ha => omega

theorem recorded_lineage (hr : s.Recorded) (ht : Tree s) (hc : Core s) (hl : Lineage s u)
    (ha : u.allocs < 2 ^ 31) : u.Recorded := by
  -- nobody is a child of a slot that is not live
  have hdead : ∀ {i}, ¬ (s.proc i).state.live → (∀ j p, (s.proc j).parent = some p → p ≠ i) ∧
      i ≠ initproc := fun hd =>
    ⟨by rintro j p hj rfl; exact hd (ht.parent j p hj).1, by rintro rfl; exact hd ht.init.1⟩
  unfold Sys.Recorded at *
  cases hl with
  | same k g l hh =>
    rw [l.nextpid, l.allocs, hh]
    exact hr.kept fun i => (k i).toKept
  | @doze p hrun hz hcs hk k hp g l hh =>
    rw [l.nextpid, l.allocs, hh]
    refine hr.kept fun i => ?_
    rcases eq_or_ne i p with rfl | hip
    · rw [hp]; exact ⟨.inr ⟨PState.live_of_running hrun, .inl rfl⟩, rfl, rfl⟩
    · exact (k i hip).toKept
  | childless hrun hn k g l hh =>
    rw [l.nextpid, l.allocs, hh]
    refine (hr.kept fun i => (k i).toKept).returns (by omega) (fun i hi => ?_) (fun hx => absurd rfl hx)
    have := (hr.kept fun i => (k i).toKept).pid i hi
    omega
  | @reap p i hrun hi hz k hu g l hh =>
    obtain ⟨hno, hinit⟩ := hdead (i := i) (PState.not_live (.inr (.inr hz)))
    have huse : (s.proc i).state ≠ .unused := by simp [hz]
    have hclear : Records u.proc s.nextpid s.allocs s.hist :=
      hr.clear (fun j hj => (k j hj).toKept) (by rw [hu]; rfl) hno hinit
    rw [l.nextpid, l.allocs, hh]
    refine hclear.returns (hr.pid i huse).2 (fun j hj => ?_) fun _ => ?_
    · have hji : j ≠ i := by rintro rfl; rw [hu] at hj; exact hj rfl
      have hjuse : (s.proc j).state ≠ .unused := fun hx => hj (((k j hji).dead (.inl rfl)).mpr hx)
      rw [(k j hji).pid]
      exact fun hx => hji (hr.inj j i hjuse huse hx)
    · refine ⟨hr.exited i hz, fun q hq => (hr.waited q _ hq).2 i huse rfl, ?_⟩
      rw [(k initproc hinit.symm).pid]
      rcases hr.begot i p (.inr hz) hi with hf | ⟨rfl, hf⟩
      · exact .inl hf
      · exact .inr ⟨rfl, hf⟩
  | exit hrun hp hs k g l hh =>
    rw [l.nextpid, l.allocs, hh]
    exact hr.exit hrun hp k
  | @alloc i hi hu g hn hal hh =>
    obtain ⟨hno, hinit⟩ := hdead (i := i) (PState.not_live (.inl hi))
    rw [hu, hn, hal, hh]
    exact hr.alloc (hal ▸ ha) hinit hno
  | @drop p np hs k hu hp g l hh =>
    have hch : (s.thread p).stage.child = some np := by rcases hs with hs | hs <;> rw [hs] <;> rfl
    obtain ⟨hemb, _⟩ := hc.child p np hch
    obtain ⟨hno, hinit⟩ := hdead (i := np) (PState.not_live (.inr (.inl hemb)))
    rw [l.nextpid, l.allocs, hh]
    exact hr.clear (fun j hj => by rw [k j hj]; exact (Kin.refl _).toKept) hu hno hinit
  | @adopt p np hrun hs hu g l hh =>
    obtain ⟨hemb, _⟩ := hc.child p np (by rw [hs]; rfl)
    rw [hu, l.nextpid, l.allocs, hh]
    exact hr.adopt hemb
  | @born p np hrun hs hu g l hh =>
    obtain ⟨hemb, _⟩ := hc.child p np (by rw [hs]; rfl)
    rw [hu, l.nextpid, l.allocs, hh]
    exact hr.born hemb (ht.run p np hs)

theorem recorded_boot (policy : C → ℤ) : (boot policy).Recorded := by
  have hun : ∀ i, ((boot policy).proc i).state ≠ .unused → i = initproc := fun i hi => by
    by_contra hne
    simp [boot, hne, zeroProc] at hi
  have hpid : ((boot policy).proc initproc).pid = 1 := by simp [boot]
  have hrun : ((boot policy).proc initproc).state = .runnable := by simp [boot]
  refine ⟨(wrap_of_nonneg (x := 2) (by decide) (by decide)).symm, fun i hi => ?_,
    fun i j hi hj _ => ?_, fun i p hi hp => ?_, fun i hi => ?_, fun q r hq => ?_,
    fun h1 q r h2 he => ?_⟩
  · obtain rfl := hun i hi
    rw [hpid]
    exact ⟨by decide, le_rfl⟩
  · rw [hun i hi, hun j hj]
  · rcases eq_or_ne i initproc with rfl | hne
    · rw [(tree_boot policy).init.2] at hp; cases hp
    · rw [(tree_boot policy).unused i (by simp [boot, hne, zeroProc])] at hp; cases hp
  · obtain rfl := hun i (by simp [hi])
    rw [hrun] at hi; cases hi
  · cases hq
  · simp [boot] at he

theorem zombie_lineage (hl : Lineage s u) (hc : Core s) (hz : (s.proc i).state = .zombie) :
    ((u.proc i).state = .zombie ∧ (u.proc i).pid = (s.proc i).pid) ∨
      ∃ q, u.hist = s.hist ++ [.waited q (s.proc i).pid] := by
  have hkept : Kept (s.proc i) (u.proc i) →
      (u.proc i).state = .zombie ∧ (u.proc i).pid = (s.proc i).pid := fun k =>
    ⟨(k.dead (.inr (.inr rfl))).mpr hz, k.pid⟩
  have hne : ∀ {j x}, (s.proc j).state = x → x ≠ .zombie → i ≠ j := by
    rintro j x hj hx rfl; exact hx (hj.symm.trans hz)
  cases hl with
  | same k | childless _ _ k => exact .inl (hkept (k i).toKept)
  | doze hr _ _ _ k => exact .inl (hkept (k i (hne hr (by simp))).toKept)
  | @reap p j hr hj hjz k hu g l hh =>
    rcases eq_or_ne i j with rfl | hij
    · exact .inr ⟨_, hh⟩
    · exact .inl (hkept (k i hij).toKept)
  | exit hr _ _ k =>
    have hip := hne hr (by simp)
    exact .inl ⟨(k.dead hip (.inr (.inr rfl))).mpr hz, k.pid i⟩
  | alloc hj hu =>
    rw [hu, update_of_ne (hne hj (by simp))]
    exact .inl ⟨hz, rfl⟩
  | @drop p np hs k =>
    have hemb := (hc.child p np (by rcases hs with hs | hs <;> rw [hs] <;> rfl)).1
    rw [k i (hne hemb (by simp))]
    exact .inl ⟨hz, rfl⟩
  | @adopt p np _ hs hu | @born p np _ hs hu =>
    have hemb := (hc.child p np (by rw [hs]; rfl)).1
    rw [hu, update_of_ne (hne hemb (by simp))]
    exact .inl ⟨hz, rfl⟩

theorem childless_lineage (hl : Lineage s u) (hr : s.Recorded) (hp : (s.proc p).state ≠ .unused)
    (hh : u.hist = s.hist ++ [.waited (s.proc p).pid (-1)]) :
    (∀ i, (s.proc i).parent ≠ some p) ∨ (s.proc p).killed = true := by
  have hnote : ∀ {n : Note}, u.hist = s.hist ++ [n] → n = .waited (s.proc p).pid (-1) := fun hn => by
    simpa using hn.symm.trans hh
  have hno : u.hist ≠ s.hist := fun hx => by simp [hx] at hh
  cases hl with
  | same _ _ _ hs | doze _ _ _ _ _ _ _ _ hs | alloc _ _ _ _ _ hs | drop _ _ _ _ _ _ hs
  | adopt _ _ _ _ _ hs => exact absurd hs hno
  | @childless q hrun hn _ _ _ hs =>
    have hpid : (s.proc q).pid = (s.proc p).pid := by simpa using hnote hs
    obtain rfl := hr.inj q p (by simp [hrun]) hp hpid
    exact hn
  | @reap q i _ _ hz _ _ _ _ hs =>
    have hpid : (s.proc i).pid = -1 := by simpa using congrArg (fun | .waited _ r => r | _ => 0) (hnote hs)
    have := (hr.pid i (by simp [hz])).1
    omega
  | exit _ _ _ _ _ _ hs | born _ _ _ _ _ hs => exact absurd (hnote hs) (by simp)

variable [DecidableEq C] {e : Ev C}

theorem recorded_of_reach {G : Sys C → Ev C → Prop} {policy : C → ℤ}
    (h : Reach step G (boot policy) s) : (Core s ∧ Tree s) ∧ (s.allocs < 2 ^ 31 → s.Recorded) := by
  refine h.invariant (I := fun s => (Core s ∧ Tree s) ∧ (s.allocs < 2 ^ 31 → s.Recorded))
    ⟨⟨core_boot policy, tree_boot policy⟩, fun _ => recorded_boot policy⟩ ?_
  rintro s e u ⟨⟨hc, ht⟩, hr⟩ _ hs
  have he := (effect_of_step hs).2
  have hl := he.lineage hc
  exact ⟨⟨hc.effect he, ht.lineage hc hl⟩, fun ha =>
    recorded_lineage (hr (lt_of_le_of_lt hl.allocs_le ha)) ht hc hl ha⟩

/-- The process tree and what `wait` returns, with fewer than `2 ^ 31` allocations: parents are
  alive; pids are positive and distinct; `wait` returns pids of exited children, each once, to the
  parent or, after the parent's exit, to init; a zombie leaves the table only so; and -1 goes to a
  process without children or killed. -/
theorem process_tree (policy : C → ℤ) (s : Sys C)
    (h : Reach step (fun _ _ => True) (boot policy) s) (ha : s.allocs < 2 ^ 31) :
    (∀ i, i ≠ initproc → (s.proc i).state = .sleeping ∨ (s.proc i).state = .runnable ∨
        (s.proc i).state = .running ∨ (s.proc i).state = .zombie →
      ∃ p, (s.proc i).parent = some p ∧ (s.proc p).state ≠ .unused ∧ (s.proc p).state ≠ .zombie) ∧
    (∀ i, (s.proc i).state ≠ .unused → 0 < (s.proc i).pid) ∧
    (∀ i j, (s.proc i).state ≠ .unused → (s.proc j).state ≠ .unused →
      (s.proc i).pid = (s.proc j).pid → i = j) ∧
    (∀ h1 q r h2, s.hist = h1 ++ .waited q r :: h2 → r ≠ -1 →
      .exited r ∈ h1 ∧ (∀ q', .waited q' r ∉ h1) ∧
        (.forked q r ∈ h1 ∨
          q = (s.proc initproc).pid ∧ ∃ q', .forked q' r ∈ h1 ∧ .exited q' ∈ h1)) ∧
    (∀ e u, step s e = some u → ∀ i, (s.proc i).state = .zombie →
      ((u.proc i).state = .zombie ∧ (u.proc i).pid = (s.proc i).pid) ∨
        ∃ q, u.hist = s.hist ++ [.waited q (s.proc i).pid]) ∧
    (∀ e u p, step s e = some u → (s.proc p).state ≠ .unused →
      u.hist = s.hist ++ [.waited (s.proc p).pid (-1)] → (s.proc p).killed = false →
      ∀ i, (s.proc i).parent ≠ some p) := by
  obtain ⟨⟨hc, ht⟩, hr⟩ := recorded_of_reach h
  have hr := hr ha
  refine ⟨fun i hi hs => ?_, fun i hi => (hr.pid i hi).1, hr.inj, hr.sound, fun e u he i hz => ?_,
    fun e u p he hp hh hk => ?_⟩
  · have hs' : (s.proc i).state.live ∨ (s.proc i).state = .zombie := by
      simpa [PState.live, or_assoc] using hs
    obtain ⟨p, hp⟩ := ht.child i hi hs'
    have hl := (ht.parent i p hp).1
    exact ⟨p, hp, fun hx => PState.not_live (.inl hx) hl,
      fun hx => PState.not_live (.inr (.inr hx)) hl⟩
  · exact zombie_lineage ((effect_of_step he).2.lineage hc) hc hz
  · have hcl := childless_lineage ((effect_of_step he).2.lineage hc) hr hp hh
    exact hcl.resolve_right (by simp [hk])

/-- Init forks a child, waits for it, and gets its pid. -/
theorem process_tree_one_child : ∃ s : Sys Unit,
    Reach step (fun _ _ => True) (boot fun _ => 2) s ∧ s.allocs < 2 ^ 31 ∧
      s.hist = [.forked 1 2, .exited 2, .waited 1 2] ∧
      (∀ i, (s.proc i).state ≠ .unused → 0 < (s.proc i).pid) := by
  obtain ⟨s, hs, hobs⟩ := exists_reach (show (follow step (fun _ _ => True)
    (boot fun _ : Unit => 2) [.pass (), .resume (), .fork (), .kalloc () true, .copyuvm () true,
      .setParent (), .setRunnable (), .wait (), .post (), .pass (), .resume (), .exit (), .post (),
      .pass (), .resume ()]).map (fun s => (s.allocs, s.hist)) =
      some (2, [.forked 1 2, .exited 2, .waited 1 2]) by decide +kernel)
  rw [Prod.mk.injEq] at hobs
  have ha : s.allocs < 2 ^ 31 := by rw [hobs.1]; decide
  exact ⟨s, hs, ha, hobs.2, (process_tree _ s hs ha).2.1⟩

end Xv6.Ptable

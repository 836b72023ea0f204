import Xv6.Disk.Log

/-! @src log.c | part:commit and recovery as write sequences | scheme:prog, redo

  `commit` and `recover_from_log` refine the redo-log scheme: run over any cache that satisfies
  the cache invariant, the one-block writes they issue are exactly the scheme's `commitWrites` and
  `recoveryWrites`, or a prefix of them when the code stops on the way. -/

namespace Xv6.Disk
open Schemes Prog
open Function
open List hiding zip_map

variable {g : Geom} {s s' : Sys} {i j : Fin NBUF} {a c p q : ℕ}

/-! ### One block copied to another -/

structure Copied (g : Geom) (s : Sys) (p q : ℕ) (s' : Sys) : Prop where
  ok : CacheOk g s'
  idle : Idle s'
  view : ∀ c, view s' c = update (view s) q (view s p) c
  pinned : ∀ c, Pinned s' c → c ≠ q ∧ Pinned s c
  disk : s'.disk = update s.disk q (Disk.view s p)
  writes : s'.writes = s.writes ++ [(q, Disk.view s p)]
  log : s'.log = s.log

/-- Buffers `i` and `j`, and no others, are held; they stand for `p` and `q`, and readers see what
  they saw in `s`. -/
structure HoldsTwo (g : Geom) (s : Sys) (p q : ℕ) (i j : Fin NBUF) (s' : Sys) : Prop where
  ok : CacheOk g s'
  at1 : At s' i p
  at2 : At s' j q
  locked1 : (s'.buf i).locked = true
  locked2 : (s'.buf j).locked = true
  others : ∀ k, k ≠ i → k ≠ j → (s'.buf k).locked = false
  view : ∀ c, Disk.view s' c = Disk.view s c
  pinned : ∀ c, Pinned s' c ↔ Pinned s c
  disk : s'.disk = s.disk
  writes : s'.writes = s.writes
  log : s'.log = s.log

theorem HoldsTwo.symm (h : HoldsTwo g s p q i j s') : HoldsTwo g s q p j i s' :=
  ⟨h.ok, h.at2, h.at1, h.locked2, h.locked1, fun k hk hk' => h.others k hk' hk, h.view, h.pinned,
    h.disk, h.writes, h.log⟩

variable {β : Type} {R : β → Sys → Prop}

theorem bread_two {f : Fin NBUF → Fin NBUF → K β} {E : Sys → Prop} (h : CacheOk g s)
    (hidle : Idle s) (hpq : p ≠ q)
    (hE : ∀ s', s'.writes = s.writes → (g.disksize ≤ p ∨ g.disksize ≤ q ∨ ∃ c, Pinned s c) → E s')
    (hf : ∀ i j, Prog.Triple (HoldsTwo g s p q i j) (f i j) R E) :
    Prog.Triple (· = s) (do let i ← bread g ROOTDEV p; let j ← bread g ROOTDEV q; f i j) R E := by
  have hfull : ∀ k : Fin NBUF, (s.buf k).dirty = true → ∃ c, Pinned s c := fun k hk =>
    ⟨(s.buf k).blockno, k, ⟨h.pins k hk, rfl⟩, hk⟩
  refine Prog.Triple.bind ((bread_spec h p).conseq (fun _ hs => hs) (fun _ _ hq => hq) ?_)
    (fun i => Prog.Triple.of_forall fun s1 L1 => Prog.Triple.bind
      ((bread_spec L1.ok q).conseq (fun _ hs => hs) (fun _ _ hq => hq) ?_)
      (fun j => (hf i j).pre fun s2 L2 => ?_))
  · rintro s' ⟨hw, hb | ⟨k, _, hk⟩ | hb⟩
    · exact hE s' hw (.inl hb)
    · rw [hidle k] at hk; simp at hk
    · refine hE s' hw (.inr (.inr (hfull ⟨0, by decide⟩ ?_)))
      rcases hb ⟨0, by decide⟩ with hx | hx
      · rw [hidle] at hx; simp at hx
      · exact hx
  · rintro s' ⟨hw, hb | ⟨k, hk, hkl⟩ | hb⟩
    · exact hE s' (hw.trans L1.writes) (.inr (.inl hb))
    · -- only the first buffer is held, and it stands for the other block
      exfalso
      by_cases hki : k = i
      · exact hpq (L1.at_.2.symm.trans (hki ▸ hk.2))
      · rw [L1.others k hki, hidle k] at hkl; simp at hkl
    · obtain ⟨k, hki⟩ : ∃ k : Fin NBUF, k ≠ i := by
        by_cases hi0 : i = ⟨0, by decide⟩
        · exact ⟨⟨1, by decide⟩, by rw [hi0]; simp⟩
        · exact ⟨⟨0, by decide⟩, Ne.symm hi0⟩
      refine hE s' (hw.trans L1.writes) (.inr (.inr (hfull k ?_)))
      have := hb k
      rw [L1.others k hki, hidle k] at this
      simpa using this
  · have hji : j ≠ i := by
      rintro rfl
      have := L2.fresh
      rw [L1.locked] at this
      simp at this
    have hbi : s2.buf i = s1.buf i := L2.others i hji.symm
    refine ⟨L2.ok, ?_, L2.at_, by rw [hbi]; exact L1.locked, L2.locked, ?_, ?_, ?_, ?_, ?_, ?_⟩
    · unfold At; rw [hbi]; exact L1.at_
    · intro k hki hkj; rw [L2.others k hkj, L1.others k hki]; exact hidle k
    · intro c; rw [L2.view, L1.view]
    · intro c; rw [L2.pinned, L1.pinned]
    · rw [L2.disk, L1.disk]
    · rw [L2.writes, L1.writes]
    · rw [L2.log, L1.log]

theorem copy_held {rest : K β} {E : Sys → Prop} {t : Sys} (ht : CacheOk g t) (hidle : Idle t)
    (hpq : p ≠ q) (H : HoldsTwo g t p q i j s)
    (hrest : ∀ s', Copied g t p q s' → Prog.Triple (· = s') rest R E) : Prog.Triple (· = s)
      (do memmove j (s.buf i).data; bwrite g j; brelse i; brelse j; rest) R E := by
  have hij : i ≠ j := by rintro rfl; exact hpq (H.at1.2.symm.trans H.at2.2)
  have hv : view t p = (s.buf i).data := by rw [← H.view]; exact view_of_at H.ok H.at1
  have hsync : (s.buf i).dirty = true ∨ (s.buf i).data = s.disk p := by
    by_cases hp : Pinned s p
    · obtain ⟨k, hk, hd⟩ := hp
      exact .inl (H.ok.uniq k i p hk H.at1 ▸ hd)
    · right
      rw [← hv, H.disk]
      exact view_eq_disk ht (fun hx => hp ((H.pinned p).mpr hx)) (fun k _ => hidle k)
  obtain ⟨s1, e1, h1, b1, v1, p1, d1, w1, l1⟩ := memmove_spec H.ok H.at2 H.locked2 (s.buf i).data
  have hj1 : At s1 j q := by unfold At; rw [b1]; simpa [At] using H.at2
  obtain ⟨s2, e2, h2, b2, v2, p2, d2, w2, l2⟩ :=
    bwrite_spec h1 hj1 (by rw [b1]; simpa using H.locked2)
  have hbi2 : s2.buf i = s.buf i := by
    rw [b2, update_of_ne hij, b1, update_of_ne hij]
  have hi2 : At s2 i p := by unfold At; rw [hbi2]; exact H.at1
  have hd1j : (s1.buf j).data = (s.buf i).data := by rw [b1]; simp
  obtain ⟨s3, e3, h3, b3, v3, p3, d3, w3, l3⟩ :=
    brelse_spec h2 hi2 (by rw [hbi2]; exact H.locked1) (by
      rw [hbi2, d2, update_of_ne hpq, d1]; exact hsync)
  have hbj3 : s3.buf j = { s1.buf j with dirty := false, valid := true } := by
    rw [b3, update_of_ne hij.symm, b2, update_self]
  have hj3 : At s3 j q := by unfold At; rw [hbj3]; exact hj1
  obtain ⟨s4, e4, h4, b4, v4, p4, d4, w4, l4⟩ := brelse_spec h3 hj3 (by
    rw [hbj3, b1]; simpa using H.locked2) (.inr (by rw [hbj3, d3, d2]; simp))
  have hdone : Copied g t p q s4 := by
    refine ⟨h4, ?_, ?_, ?_, ?_, ?_, ?_⟩
    · intro k
      by_cases hkj : k = j
      · rw [b4, hkj]; simp
      · rw [b4, update_of_ne hkj, b3]
        by_cases hki : k = i
        · rw [hki]; simp
        · rw [update_of_ne hki, b2, update_of_ne hkj, b1,
            update_of_ne hkj]
          exact H.others k hki hkj
    · intro c; rw [v4, v3, v2, v1, hv, funext H.view]
    · intro c hc; rw [p4, p3, p2, p1, H.pinned] at hc; exact hc
    · rw [d4, d3, d2, d1, hd1j, hv, H.disk]
    · rw [w4, w3, w2, w1, hd1j, hv, H.writes]
    · rw [l4, l3, l2, l1, H.log]
  rintro _ rfl
  simp only [bind_apply, e1, e2, e3, e4]
  exact hrest s4 hdone s4 rfl

/-! ### The two copy loops -/

theorem writeLogFrom_spec : ∀ (l : List ℕ) (tail : ℕ) {s : Sys}, CacheOk g s → Idle s →
    (∀ a ∈ l, ¬ (layout g).inLog a) → tail + l.length ≤ (layout g).cap →
    Prog.Triple (· = s) (writeLogFrom g tail l)
      (fun _ s' => CacheOk g s' ∧ Idle s' ∧
        (∀ c, view s' c = play (view s) ((layout g).copyFrom tail (l.map (view s))) c) ∧
        (∀ c, Pinned s' c → Pinned s c) ∧
        s'.disk = play s.disk ((layout g).copyFrom tail (l.map (view s))) ∧
        s'.writes = s.writes ++ (layout g).copyFrom tail (l.map (view s)) ∧ s'.log = s.log)
      (fun s' => ∃ k, s'.writes =
        s.writes ++ ((layout g).copyFrom tail (l.map (view s))).take k)
  | [], tail, s, h, hidle, _, _ => by
    rintro _ rfl
    simpa [writeLogFrom, Layout.copyFrom] using And.intro h hidle
  | a :: l, tail, s, h, hidle, hout, hlen => by
    simp only [length_cons] at hlen
    have hlog : (layout g).inLog (g.logstart + tail + 1) :=
      Layout.inLog_add (L := layout g) (i := tail + 1) (by omega)
    have hne : g.logstart + tail + 1 ≠ a := by
      rintro rfl; exact hout _ (mem_cons_self ..) hlog
    refine bread_two h hidle hne (fun s' hw _ => ⟨0, by simpa using hw⟩)
      (fun i j => Prog.Triple.of_forall fun s1 H => ?_)
    rintro _ rfl
    refine copy_held h hidle hne.symm H.symm (fun s2 C => ?_) _ rfl
    have hmap : l.map (view s2) = l.map (view s) := by
      refine map_congr_left (fun b hb => ?_)
      rw [C.view, update_of_ne]
      rintro rfl; exact hout _ (mem_cons_of_mem _ hb) hlog
    have ih := writeLogFrom_spec l (tail + 1) C.ok C.idle
      (fun b hb => hout b (mem_cons_of_mem _ hb)) (by omega)
    rw [hmap, funext C.view, C.disk, C.writes, C.log] at ih
    refine ih.conseq (fun _ hs => hs) ?_ ?_
    · rintro _ s' ⟨h', i', v', p', d', w', l'⟩
      refine ⟨h', i', v', fun c hc => (C.pinned c (p' c hc)).2, d', ?_, l'⟩
      rw [w', append_assoc]; rfl
    · rintro s' ⟨k, hk⟩
      refine ⟨k + 1, ?_⟩
      rw [hk, append_assoc]; rfl

theorem installTransFrom_spec : ∀ (l : List ℕ) (tail : ℕ) {s : Sys}, CacheOk g s → Idle s →
    (∀ a ∈ l, a < g.disksize ∧ ¬ (layout g).inLog a) → tail + l.length ≤ (layout g).cap →
    Prog.Triple (· = s) (installTransFrom g tail l)
      (fun _ s' => CacheOk g s' ∧ Idle s' ∧
        (∀ c, view s' c = play (view s) ((layout g).homeFrom (view s) tail l) c) ∧
        (∀ c, Pinned s' c → c ∉ l ∧ Pinned s c) ∧
        s'.disk = play s.disk ((layout g).homeFrom (view s) tail l) ∧
        s'.writes = s.writes ++ (layout g).homeFrom (view s) tail l ∧ s'.log = s.log)
      (fun s' => (∃ k, s'.writes = s.writes ++ ((layout g).homeFrom (view s) tail l).take k) ∧
        ∃ c, Pinned s c)
  | [], tail, s, h, hidle, _, _ => by
    rintro _ rfl
    simpa [installTransFrom, Layout.homeFrom] using And.intro h hidle
  | a :: l, tail, s, h, hidle, hout, hlen => by
    simp only [length_cons] at hlen
    have hlog : (layout g).inLog (g.logstart + tail + 1) :=
      Layout.inLog_add (L := layout g) (i := tail + 1) (by omega)
    have hsize : g.logstart + tail + 1 < g.disksize := lt_of_lt_of_le hlog.2 g.log_le
    have ha := hout a (mem_cons_self ..)
    have hne : g.logstart + tail + 1 ≠ a := by rintro rfl; exact ha.2 hlog
    refine bread_two h hidle hne (fun s' hw hb => ⟨⟨0, by simpa using hw⟩, ?_⟩)
      (fun i j => Prog.Triple.of_forall fun s1 H => ?_)
    · rcases hb with hb | hb | hb
      · omega
      · omega
      · exact hb
    rintro _ rfl
    refine copy_held h hidle hne H (fun s2 C => ?_) _ rfl
    have hhome : (layout g).homeFrom (view s2) (tail + 1) l =
        (layout g).homeFrom (view s) (tail + 1) l := by
      refine Layout.homeFrom_congr (fun k _ hk => ?_)
      rw [C.view, update_of_ne]
      intro hka
      exact ha.2 (hka ▸ Layout.inLog_add (L := layout g) (i := k + 1) (by omega))
    have ih := installTransFrom_spec l (tail + 1) C.ok C.idle
      (fun b hb => hout b (mem_cons_of_mem _ hb)) (by omega)
    rw [hhome, funext C.view, C.disk, C.writes, C.log] at ih
    refine ih.conseq (fun _ hs => hs) ?_ ?_
    · rintro _ s' ⟨h', i', v', p', d', w', l'⟩
      refine ⟨h', i', v', fun c hc => ?_, d', ?_, l'⟩
      · obtain ⟨hcl, hp⟩ := p' c hc
        obtain ⟨hca, hp⟩ := C.pinned c hp
        exact ⟨by simp [hca, hcl], hp⟩
      · rw [w', append_assoc]; rfl
    · rintro s' ⟨⟨k, hk⟩, c, hc⟩
      refine ⟨⟨k + 1, ?_⟩, c, (C.pinned c hc).2⟩
      rw [hk, append_assoc]; rfl

/-! ### The header -/

theorem bread_head {f : Fin NBUF → K β} (h : CacheOk g s) (hidle : Idle s)
    (hf : ∀ i s1, Loaded g s g.logstart i s1 →
      Prog.Triple (· = s1) (f i) R (fun s' => s'.writes = s.writes ∧ ∃ c, Pinned s c)) :
    Prog.Triple (· = s) (do let i ← bread g ROOTDEV g.logstart; f i) R
      (fun s' => s'.writes = s.writes ∧ ∃ c, Pinned s c) := by
  have hsize : g.logstart < g.disksize :=
    lt_of_lt_of_le (Layout.start_inLog (L := layout g)).2 g.log_le
  refine Prog.Triple.bind ((bread_spec h g.logstart).conseq (fun _ hs => hs) (fun _ _ hq => hq) ?_)
    (fun i => Prog.Triple.of_forall (hf i))
  rintro s' ⟨hw, hb | ⟨k, _, hk⟩ | hb⟩
  · omega
  · rw [hidle k] at hk; simp at hk
  · refine ⟨hw, _, ⟨0, by decide⟩, ⟨h.pins _ ?_, rfl⟩, ?_⟩ <;>
      simpa [hidle ⟨0, by decide⟩] using hb ⟨0, by decide⟩

theorem writeHead_spec (h : CacheOk g s) (hidle : Idle s) :
    Prog.Triple (· = s) (writeHead g)
      (fun _ s' => CacheOk g s' ∧ Idle s' ∧
        (∀ c, view s' c = update (view s) g.logstart
          (headStamp s.log.lh (view s g.logstart)) c) ∧
        (∀ c, Pinned s' c → Pinned s c) ∧
        s'.disk = update s.disk g.logstart (headStamp s.log.lh (view s g.logstart)) ∧
        s'.writes = s.writes ++ [(g.logstart, headStamp s.log.lh (view s g.logstart))] ∧
        s'.log = s.log)
      (fun s' => s'.writes = s.writes ∧ ∃ c, Pinned s c) := by
  refine bread_head h hidle (fun i s1 L => ?_)
  have hv : (s1.buf i).data = view s g.logstart := by rw [← view_of_at L.ok L.at_, L.view]
  set d := headStamp s1.log.lh (s1.buf i).data with hd
  obtain ⟨s2, e2, h2, b2, v2, p2, d2, w2, l2⟩ := memmove_spec L.ok L.at_ L.locked d
  have hi2 : At s2 i g.logstart := by unfold At; rw [b2]; simpa [At] using L.at_
  obtain ⟨s3, e3, h3, b3, v3, p3, d3, w3, l3⟩ :=
    bwrite_spec h2 hi2 (by rw [b2]; simpa using L.locked)
  have hi3 : At s3 i g.logstart := by unfold At; rw [b3]; simpa [At] using hi2
  have hdat : (s2.buf i).data = d := by rw [b2]; simp
  obtain ⟨s4, e4, h4, b4, v4, p4, d4, w4, l4⟩ := brelse_spec h3 hi3
    (by rw [b3, b2]; simpa using L.locked) (.inr (by rw [b3, d3]; simp))
  rintro _ rfl
  simp only [bind_apply, get_apply, ← hd, e2, e3, e4]
  have hdv : d = headStamp s.log.lh (view s g.logstart) := by rw [hd, L.log, hv]
  refine ⟨h4, ?_, ?_, ?_, ?_, ?_, ?_⟩
  · intro k
    by_cases hk : k = i
    · rw [b4, hk]; simp
    · rw [b4, update_of_ne hk, b3, update_of_ne hk, b2,
        update_of_ne hk, L.others k hk]
      exact hidle k
  · intro c; rw [v4, v3, v2, funext L.view, hdv]
  · intro c hc; rw [p4, p3, p2, L.pinned] at hc; exact hc.2
  · rw [d4, d3, hdat, d2, L.disk, hdv]
  · rw [w4, w3, hdat, w2, L.writes, hdv]
  · rw [l4, l3, l2, L.log]

theorem CacheOk.with_log (h : CacheOk g s) (l : Log) : CacheOk g { s with log := l } :=
  ⟨h.mem, h.uniq, h.valid, h.range, h.refs, h.held, h.pins, h.clean⟩

theorem readHead_spec (h : CacheOk g s) (hidle : Idle s)
    (hn : headN (view s g.logstart) ≤ LOGSIZE) :
    Prog.Triple (· = s) (readHead g)
      (fun _ s' => CacheOk g s' ∧ Idle s' ∧ (∀ c, view s' c = view s c) ∧
        (∀ c, Pinned s' c → Pinned s c) ∧ s'.disk = s.disk ∧ s'.writes = s.writes ∧
        s'.log = { s.log with lh := headTargets (view s g.logstart) })
      (fun s' => s'.writes = s.writes ∧ ∃ c, Pinned s c) := by
  refine bread_head h hidle (fun i s1 L => ?_)
  have hv : (s1.buf i).data = view s g.logstart := by rw [← view_of_at L.ok L.at_, L.view]
  have hsync : (s1.buf i).dirty = true ∨ (s1.buf i).data = s1.disk g.logstart := by
    by_cases hp : Pinned s1 g.logstart
    · obtain ⟨k, hk, hd⟩ := hp
      exact .inl (L.ok.uniq k i _ hk L.at_ ▸ hd)
    · right
      rw [hv, L.disk]
      exact view_eq_disk h (fun hx => hp ((L.pinned _).mpr hx)) (fun k _ => hidle k)
  set l : Log := { s1.log with lh := headTargets (s1.buf i).data } with hl
  obtain ⟨s2, e2, h2, b2, v2, p2, d2, w2, l2⟩ :=
    brelse_spec (L.ok.with_log l) L.at_ L.locked hsync
  have e1 : setLh (headTargets (s1.buf i).data) s1 = (.ok (), { s1 with log := l }) := rfl
  have hle : ¬ (LOGSIZE : ℤ) < headN (s1.buf i).data := by rw [hv]; omega
  rintro _ rfl
  simp only [bind_apply, get_apply, if_neg hle, e1, e2]
  refine ⟨h2, ?_, fun c => (v2 c).trans (L.view c), fun c hc => (L.pinned c).mp ((p2 c).mp hc),
    d2.trans L.disk, w2.trans L.writes, ?_⟩
  · intro k
    by_cases hk : k = i
    · rw [b2, hk]; simp
    · rw [b2, update_of_ne hk]
      exact (congrArg Buf.locked (L.others k hk)).trans (hidle k)
  · rw [l2, ← hv]; simp [hl, L.log]

theorem clearHead_spec (h : CacheOk g s) (hidle : Idle s) (hp : ∀ c, ¬ Pinned s c) :
    Prog.Triple (· = s) (do setLh []; writeHead g)
      (fun _ s' => CacheOk g s' ∧ Idle s' ∧
        (∀ c, c ≠ g.logstart → view s' c = view s c) ∧ (∀ c, ¬ Pinned s' c) ∧
        s'.disk = update s.disk g.logstart (headStamp [] (view s g.logstart)) ∧
        s'.writes = s.writes ++ [(g.logstart, headStamp [] (view s g.logstart))] ∧
        s'.log = { s.log with lh := [] })
      (fun _ => False) := by
  refine Prog.Triple.modify_bind ((writeHead_spec (h.with_log { s.log with lh := [] }) hidle).conseq
    (fun _ hs => hs) ?_ ?_)
  · rintro _ s' ⟨h', i', v', p', d', w', l'⟩
    exact ⟨h', i', fun c hc => (v' c).trans (update_of_ne hc ..), fun c hc => hp c (p' c hc),
      d', w', l'⟩
  · rintro s' ⟨_, c, hc⟩
    exact hp c hc

/-! ### Whole calls -/

/-- The group a commit carries: every logged block with the value readers see. -/
def groupOf (s : Sys) : List (ℕ × Block) := s.log.lh.map fun a => (a, view s a)

def commitTrace (g : Geom) (s : Sys) : List (ℕ × Block) :=
  if s.log.lh = [] then [] else (layout g).commitWrites (view s g.logstart) (groupOf s)

theorem groupOf_fst (s : Sys) : (groupOf s).map Prod.fst = s.log.lh := by
  simp [groupOf, comp_def]

theorem groupOf_snd (s : Sys) : (groupOf s).map Prod.snd = s.log.lh.map (view s) := by
  simp [groupOf, comp_def]

theorem commit_spec (h : CacheOk g s) (hidle : Idle s) (hfit : (layout g).Fits s.log.lh)
    (hpin : ∀ c, Pinned s c → c ∈ s.log.lh) :
    Prog.Triple (· = s) (commit g)
      (fun _ s' => CacheOk g s' ∧ Idle s' ∧
        (∀ c, ¬ (layout g).inLog c → view s' c = view s c) ∧ (∀ c, ¬ Pinned s' c) ∧
        s'.disk = play s.disk (commitTrace g s) ∧ s'.writes = s.writes ++ commitTrace g s ∧
        s'.log = { s.log with lh := [] })
      (fun s' => ∃ k, s'.writes = s.writes ++ (commitTrace g s).take k) := by
  by_cases hl : s.log.lh = []
  · have hnp : ∀ c, ¬ Pinned s c := fun c hc => by simpa [hl] using hpin c hc
    have htrace : commitTrace g s = [] := if_pos hl
    refine Prog.Triple.get_bind ?_
    rw [if_neg (by simp [hl]), htrace]
    exact Prog.Triple.ok rfl ⟨h, hidle, fun _ _ => rfl, hnp, rfl, by simp, by rw [← hl]⟩
  have hpos : 0 < s.log.lh.length := length_pos_iff.mpr hl
  set copies := (layout g).copyFrom 0 (s.log.lh.map (view s)) with hcopies
  set head := headStamp s.log.lh (view s g.logstart) with hhead
  have htrace : commitTrace g s = copies ++ ([(g.logstart, head)] ++ (groupOf s ++
      [(g.logstart, headStamp [] head)])) := by
    rw [commitTrace, if_neg hl, Layout.commitWrites, groupOf_fst, groupOf_snd]; rfl
  have hcopy : ∀ w ∈ copies, g.logstart < w.1 ∧ (layout g).inLog w.1 := by
    intro w hw
    have hm : g.logstart + 0 < w.1 ∧ w.1 ≤ g.logstart + 0 + _ := Layout.mem_copyFrom hw
    have hc := hfit.1
    have hlt : (layout g).cap < g.nlog := (layout g).cap_lt
    simp only [length_map] at hm
    exact ⟨by omega, show g.logstart ≤ w.1 by omega, show w.1 < g.logstart + g.nlog by omega⟩
  have hgroup : ∀ w ∈ groupOf s, ¬ (layout g).inLog w.1 := by
    intro w hw
    refine (hfit.2 w.1 ?_).2
    rw [← groupOf_fst]; exact mem_map_of_mem hw
  have hstart : (layout g).inLog g.logstart := Layout.start_inLog (L := layout g)
  rw [htrace]
  refine Prog.Triple.get_bind ?_
  rw [if_pos hpos]
  -- the copies to the log
  refine Prog.Triple.bind ((Prog.Triple.get_bind (writeLogFrom_spec s.log.lh 0 h hidle
    (fun a ha => (hfit.2 a ha).2) (by simpa using hfit.1))).conseq (fun _ hs => hs)
    (fun _ _ hq => hq) ?_) (fun _ => Prog.Triple.of_forall ?_)
  · rintro s' ⟨k, hk⟩
    obtain ⟨k', hk'⟩ := append_take_prefix [] copies ([(g.logstart, head)] ++ (groupOf s ++
      [(g.logstart, headStamp [] head)])) k
    exact ⟨k', by rw [hk, ← nil_append (copies ++ _), ← hk']; rfl⟩
  rintro s1 ⟨h1, i1, v1, p1, d1, w1, l1⟩
  have hv1 : view s1 g.logstart = view s g.logstart := by
    rw [v1, play_other (fun w hw => by have := (hcopy w hw).1; omega)]
  -- the header
  refine Prog.Triple.bind ((writeHead_spec h1 i1).conseq (fun _ hs => hs)
    (fun _ _ hq => hq) ?_) (fun _ => Prog.Triple.of_forall ?_)
  · rintro s' ⟨hw, _⟩
    refine ⟨copies.length, ?_⟩
    rw [hw, w1, take_left']
    rfl
  rw [hv1, l1]
  rintro s2 ⟨h2, i2, v2, p2, d2, w2, l2⟩
  have hhome : (layout g).homeFrom (view s2) 0 s.log.lh = groupOf s := by
    rw [Layout.homeFrom_congr (e := play (view s) copies), hcopies,
      Layout.homeFrom_play_copyFrom _ _ _ _ (by simp), zip_map]
    · rfl
    · intro k _ _
      show view s2 (g.logstart + k + 1) = _
      rw [v2, update_of_ne (by omega), v1]
      rfl
  -- the copies home
  have hlog2 : s2.log.lh = s.log.lh := by rw [l2]
  refine Prog.Triple.bind ((Prog.Triple.get_bind (installTransFrom_spec s2.log.lh 0 h2 i2
    (by rw [hlog2]; exact hfit.2) (by rw [hlog2]; simpa using hfit.1))).conseq (fun _ hs => hs)
    (fun _ _ hq => hq) ?_) (fun _ => Prog.Triple.of_forall ?_)
  · rintro s' ⟨⟨k, hk⟩, _⟩
    rw [hlog2, hhome, w2, w1] at hk
    obtain ⟨k', hk'⟩ := append_take_prefix (copies ++ [(g.logstart, head)]) (groupOf s)
      [(g.logstart, headStamp [] head)] k
    refine ⟨k', ?_⟩
    rw [hk, ← append_assoc copies, ← hk']
    simp [hcopies, hhead]
  rw [hlog2, hhome]
  rintro s3 ⟨h3, i3, v3, p3, d3, w3, l3⟩
  have hp3 : ∀ c, ¬ Pinned s3 c := by
    intro c hc
    obtain ⟨hcl, hc⟩ := p3 c hc
    exact hcl (hpin c (p1 c (p2 c hc)))
  have hv3 : view s3 g.logstart = head := by
    rw [v3, play_other (fun w hw hws => hgroup w hw (hws ▸ hstart)), v2, update_self]
  -- the cleared header
  refine (clearHead_spec h3 i3 hp3).conseq (fun _ hs => hs) ?_ (fun _ hf => hf.elim)
  rw [hv3]
  rintro _ s' ⟨h4, i4, v4, p4, d4, w4, l4⟩
  refine ⟨h4, i4, fun c hc => ?_, p4, ?_, ?_, by rw [l4, l3, l2]⟩
  · have hcs : c ≠ g.logstart := by rintro rfl; exact hc hstart
    rw [v4 c hcs, v3]
    by_cases hcl : c ∈ s.log.lh
    · exact play_map _ hcl
    · rw [play_other, v2, update_of_ne hcs, v1, play_other]
      · rintro w hw rfl; exact hc (hcopy w hw).2
      · rintro w hw rfl; exact hcl (groupOf_fst s ▸ mem_map_of_mem hw)
  · rw [d4, d3, d2, d1, play_append, play_append, play_append]
    rfl
  · rw [w4, w3, w2, w1]
    simp [hcopies, hhead]

theorem recoverFromLog_spec (h : CacheOk g s) (hidle : Idle s) (hp : ∀ c, ¬ Pinned s c)
    (hfit : (layout g).Fits (headTargets (s.disk g.logstart))) :
    Prog.Triple (· = s) (recoverFromLog g)
      (fun _ s' => s'.disk = play s.disk ((layout g).recoveryWrites s.disk) ∧
        s'.writes = s.writes ++ (layout g).recoveryWrites s.disk)
      (fun _ => False) := by
  have hview : view s = s.disk := funext fun c => view_eq_disk h (hp c) (fun k _ => hidle k)
  have hn : headN (view s g.logstart) ≤ LOGSIZE := by
    have hlen : (headN (s.disk g.logstart)).toNat ≤ min LOGSIZE (g.nlog - 1) := by
      have := hfit.1
      rwa [headTargets, length_map, length_range] at this
    rw [hview]
    omega
  refine Prog.Triple.bind ((readHead_spec h hidle hn).conseq (fun _ hs => hs) (fun _ _ hq => hq) ?_)
    (fun _ => Prog.Triple.of_forall ?_)
  · rintro s' ⟨_, c, hc⟩
    exact hp c hc
  rw [hview]
  rintro s1 ⟨h1, i1, v1, p1, d1, w1, l1⟩
  have hlh : s1.log.lh = headTargets (s.disk g.logstart) := by rw [l1]
  refine Prog.Triple.bind ((Prog.Triple.get_bind (installTransFrom_spec s1.log.lh 0 h1 i1
    (by rw [hlh]; exact hfit.2) (by rw [hlh]; simpa using hfit.1))).conseq (fun _ hs => hs)
    (fun _ _ hq => hq) ?_) (fun _ => Prog.Triple.of_forall ?_)
  · rintro s' ⟨_, c, hc⟩
    exact hp c (p1 c hc)
  rw [funext v1, hlh]
  rintro s2 ⟨h2, i2, v2, p2, d2, w2, l2⟩
  have hv2 : view s2 g.logstart = s.disk g.logstart := by
    rw [v2]
    refine play_other (fun w hw hws => ?_)
    exact (hfit.2 w.1 (Layout.fst_mem_of_mem_homeFrom hw)).2 (hws ▸ Layout.start_inLog)
  refine (clearHead_spec h2 i2 (fun c hc => hp c (p1 c (p2 c hc).2))).post ?_
  rw [hv2]
  rintro _ s' ⟨_, _, _, _, d', w', _⟩
  constructor
  · rw [d', d2, d1, Layout.recoveryWrites, play_append]; rfl
  · rw [w', w2, w1, Layout.recoveryWrites, append_assoc]; rfl

end Xv6.Disk

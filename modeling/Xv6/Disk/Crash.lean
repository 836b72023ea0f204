import Xv6.Disk.Commit

/-! @src log.c, bio.c | part:crash atomicity | scheme:prog, redo

  Whole runs of the log. A run is a list of calls by any processes, as they complete; the machine
  may stop after any one-block write, and recovery after any of its own, any number of times.

      calls --> writes w1 w2 … w_k : crash --> recovery : crash --> … --> recovery
                                                           outside the log: commits 1 … j in full

  The abstract system (`Atomic`) knows no cache, no header and no absorption: it is the list of the
  groups committed so far and the writes of the group that is still open. -/

namespace Xv6.Disk
open Schemes Prog
open Function
open List (prefix_refl)
open List

/-! ### Runs of the code -/

/-- A file-system call seen by the log: reservation, a block read, a block changed and recorded by
  `log_write`, end of the call. -/
inductive Event where
  | beginOp
  | read (a : ℕ)
  | write (a : ℕ) (f : Block → Block)
  | endOp

variable (g : Geom)

def exec : Event → K Unit
  | .beginOp => beginOp
  | .read a => do
    let b ← bread g ROOTDEV a
    brelse b
  | .write a f => do
    let b ← bread g ROOTDEV a
    let s ← get
    memmove b (f (s.buf b).data)
    logWrite g b
    brelse b
  | .endOp => endOp g

def run : List Event → K Unit
  | [] => pure ()
  | e :: es => do
    exec g e
    run es

/-- The machine at boot: `binit` has linked the empty buffers, the log is all zeroes. -/
def boot (d : Image Block) : Sys where
  disk := d
  writes := []
  buf := fun _ => ⟨false, false, 0, 0, false, 0, fun _ => 0⟩
  lru := (finRange NBUF).reverse
  log := ⟨0, false, []⟩

def trace (d : Image Block) (es : List Event) : List (ℕ × Block) := (run g es (boot d)).2.writes

/-- The disk after recovery was started on `d` and stopped after `k` of its writes. -/
def interrupted (d : Image Block) (k : ℕ) : Image Block :=
  play d ((recoverFromLog g (boot d)).2.writes.take k)

/-! ### The abstract system -/

/-- The groups committed so far, the writes of the open group, and the calls in progress. -/
structure Atomic where
  committed : List (List (ℕ × Block))
  pending : List (ℕ × Block)
  outstanding : ℤ

namespace Atomic

def now (d : Image Block) (t : Atomic) : Image Block :=
  play (t.committed.foldl play d) t.pending

/-- The open group is committed when its last call ends, unless it is empty. -/
def step (d : Image Block) (t : Atomic) : Event → Atomic
  | .beginOp => { t with outstanding := t.outstanding + 1 }
  | .read _ => t
  | .write a f => { t with pending := t.pending ++ [(a, f (t.now d a))] }
  | .endOp =>
    if t.outstanding - 1 = 0 ∧ t.pending ≠ [] then ⟨t.committed ++ [t.pending], [], 0⟩
    else { t with outstanding := t.outstanding - 1 }

end Atomic

def commits (d : Image Block) (es : List Event) : List (List (ℕ × Block)) :=
  (es.foldl (Atomic.step d) ⟨[], [], 0⟩).committed

variable {g} {s s' : Sys} {i : Fin NBUF} {a : ℕ} {d : Image Block}

/-! ### The calls on an idle cache -/

theorem logWrite_spec (h : CacheOk g s) (hi : At s i a) (hl : (s.buf i).locked = true) :
    Prog.Triple (· = s) (logWrite g i)
      (fun _ s' => CacheOk g s' ∧ s'.buf = update s.buf i { s.buf i with dirty := true } ∧
        (∀ c, view s' c = view s c) ∧ (∀ c, Pinned s' c → c = a ∨ Pinned s c) ∧
        s'.disk = s.disk ∧ s'.writes = s.writes ∧
        s'.log = { s.log with lh := absorb s.log.lh a } ∧ s.log.full g.nlog = false)
      (fun s' => s'.writes = s.writes) := by
  refine Prog.Triple.get_bind ?_
  cases hfull : s.log.full g.nlog with
  | true => exact Prog.Triple.error rfl rfl
  | false =>
    rcases lt_or_ge s.log.outstanding 1 with hout | hout
    · rw [if_neg (by simp), if_pos hout]
      exact Prog.Triple.error rfl rfl
    rw [if_neg (by simp), if_neg (by omega), hi.2]
    obtain ⟨s', hs', hb, hd, hw, hlru, hlog⟩ : ∃ s', (do
        setLh (absorb s.log.lh a); setBuf i fun b => { b with dirty := true } : K Unit) s =
          (.ok (), s') ∧ s'.buf = update s.buf i { s.buf i with dirty := true } ∧
        s'.disk = s.disk ∧ s'.writes = s.writes ∧ s'.lru = s.lru ∧
        s'.log = { s.log with lh := absorb s.log.lh a } := ⟨_, rfl, rfl, rfl, rfl, rfl, rfl⟩
    obtain ⟨h', hview, hpin⟩ := h.touch hi hb hi.1 hi.2 (h.valid i hi.1) (h.refs i)
      (fun j => hlru ▸ h.mem j) (fun _ hx => by simp [hl] at hx) (fun _ _ => by rw [hd])
    refine Prog.Triple.ok hs' ⟨h', hb, fun c => ?_, fun c hc => ?_, hd, hw, hlog, rfl⟩
    · rw [hview, ← view_of_at h hi, update_eq_self]
    · rcases (hpin c).mp hc with ⟨hca, _⟩ | ⟨_, hp⟩
      · exact .inl hca
      · exact .inr hp

theorem Loaded.synced (hL : Loaded g s a i s') (h : CacheOk g s) (hidle : Idle s) :
    (s'.buf i).dirty = true ∨ (s'.buf i).data = s'.disk a := by
  rcases em (Pinned s' a) with ⟨k, hk, hd⟩ | hp
  · exact .inl (hL.ok.uniq k i _ hk hL.at_ ▸ hd)
  · right
    rw [← view_of_at hL.ok hL.at_, hL.view, hL.disk]
    exact view_eq_disk h (fun hx => hp ((hL.pinned _).mpr hx)) (fun k _ => hidle k)

theorem Loaded.idle {b : Buf} {t : Sys} (hL : Loaded g s a i s') (hidle : Idle s)
    (hb : t.buf = update s'.buf i b) (hl : b.locked = false) : Idle t := by
  intro k
  rcases eq_or_ne k i with rfl | hk
  · rw [hb]; simpa using hl
  · rw [hb, update_of_ne hk, hL.others k hk]; exact hidle k

theorem exec_read_spec (h : CacheOk g s) (hidle : Idle s) (a : ℕ) :
    Prog.Triple (· = s) (exec g (.read a))
      (fun _ s' => CacheOk g s' ∧ Idle s' ∧ (∀ c, view s' c = view s c) ∧
        (∀ c, Pinned s' c → Pinned s c) ∧ s'.disk = s.disk ∧ s'.writes = s.writes ∧
        s'.log = s.log)
      (fun s' => s'.writes = s.writes) := by
  refine Prog.Triple.bind ((bread_spec h a).conseq (fun _ hs => hs) (fun _ _ hq => hq)
    (fun _ he => he.1)) (fun i => Prog.Triple.of_forall fun s1 hL => ?_)
  obtain ⟨s2, e2, h2, b2, v2, p2, d2, w2, l2⟩ :=
    brelse_spec hL.ok hL.at_ hL.locked (hL.synced h hidle)
  exact Prog.Triple.ok e2 ⟨h2, hL.idle hidle b2 rfl, fun c => (v2 c).trans (hL.view c),
    fun c hc => (hL.pinned c).mp ((p2 c).mp hc), d2.trans hL.disk, w2.trans hL.writes,
    l2.trans hL.log⟩

theorem exec_write_spec (h : CacheOk g s) (hidle : Idle s) (a : ℕ) (f : Block → Block) :
    Prog.Triple (· = s) (exec g (.write a f))
      (fun _ s' => CacheOk g s' ∧ Idle s' ∧
        (∀ c, view s' c = update (view s) a (f (view s a)) c) ∧
        (∀ c, Pinned s' c → c = a ∨ Pinned s c) ∧ s'.disk = s.disk ∧ s'.writes = s.writes ∧
        s'.log = { s.log with lh := absorb s.log.lh a } ∧ s.log.full g.nlog = false ∧
        a < g.disksize)
      (fun s' => s'.writes = s.writes) := by
  refine Prog.Triple.bind ((bread_spec h a).conseq (fun _ hs => hs) (fun _ _ hq => hq)
    (fun _ he => he.1)) (fun i => Prog.Triple.of_forall fun s1 hL => ?_)
  have hv : (s1.buf i).data = view s a := by rw [← view_of_at hL.ok hL.at_, hL.view]
  refine Prog.Triple.get_bind ?_
  rw [hv]
  obtain ⟨s2, e2, h2, b2, v2, p2, d2, w2, l2⟩ :=
    memmove_spec hL.ok hL.at_ hL.locked (f (view s a))
  have hi2 : At s2 i a := by unfold At; rw [b2]; simpa [At] using hL.at_
  have hl2 : (s2.buf i).locked = true := by rw [b2]; simpa using hL.locked
  refine Prog.Triple.ok_bind e2 ?_
  refine Prog.Triple.bind ((logWrite_spec h2 hi2 hl2).conseq (fun _ hs => hs) (fun _ _ hq => hq)
    (fun s' he => ?_)) (fun _ => Prog.Triple.of_forall ?_)
  · rw [he, w2, hL.writes]
  rintro s3 ⟨h3, b3, v3, p3, d3, w3, l3, hfull⟩
  have hi3 : At s3 i a := by unfold At; rw [b3]; simpa [At] using hi2
  obtain ⟨s4, e4, h4, b4, v4, p4, d4, w4, l4⟩ := brelse_spec h3 hi3
    (by rw [b3]; simpa using hl2) (.inl (by rw [b3]; simp))
  refine Prog.Triple.ok e4 ⟨h4, ?_, fun c => ?_, fun c hc => ?_, ?_, ?_, ?_, ?_, ?_⟩
  · rw [b3, b2, update_idem, update_idem] at b4
    exact hL.idle hidle b4 rfl
  · rw [v4, v3, v2, funext hL.view]
  · rcases p3 c ((p4 c).mp hc) with hca | hp
    · exact .inl hca
    · exact .inr ((hL.pinned c).mp ((p2 c).mp hp))
  · rw [d4, d3, d2, hL.disk]
  · rw [w4, w3, w2, hL.writes]
  · rw [l4, l3, l2, hL.log]
  · rw [← hfull, l2, hL.log]
  · exact hL.ok.range i a hL.at_

/-! ### The invariant between calls -/

/-- The groups `gs` written by the code make the same disks as the first groups of `cs`. -/
structure Matches (g : Geom) (d : Image Block) (cs gs : List (List (ℕ × Block))) : Prop where
  group : ∀ gr ∈ gs, (layout g).Group gr
  length : gs.length ≤ cs.length
  image : ∀ j ≤ gs.length, (gs.take j).foldl play d = (cs.take j).foldl play d

/-- Between two calls the code's state represents the abstract state `t`. -/
structure Inv (g : Geom) (d : Image Block) (t : Atomic) (s : Sys) : Prop where
  ok : CacheOk g s
  idle : Idle s
  committing : s.log.committing = false
  outstanding : s.log.outstanding = t.outstanding
  logged : ∀ a, a ∈ s.log.lh ↔ a ∈ t.pending.map Prod.fst
  fits : (layout g).Fits s.log.lh
  pins : ∀ c, Pinned s c → c ∈ s.log.lh
  disk : s.disk = play d s.writes
  view : ∀ a, ¬ (layout g).inLog a → Disk.view s a = t.now d a
  groups : ∃ gs, Matches g d t.committed gs ∧ gs.length = t.committed.length ∧
    s.writes = (layout g).commitsWrites (d g.logstart) gs

def Cut (g : Geom) (d : Image Block) (cs : List (List (ℕ × Block))) (ws : List (ℕ × Block)) :
    Prop :=
  ∃ gs k, Matches g d cs gs ∧ ws = ((layout g).commitsWrites (d g.logstart) gs).take k

variable {t : Atomic} {cs cs' : List (List (ℕ × Block))} {ws : List (ℕ × Block)}

theorem Cut.mono (h : Cut g d cs ws) (hcs : cs <+: cs') : Cut g d cs' ws := by
  obtain ⟨gs, k, hm, hws⟩ := h
  obtain ⟨rest, rfl⟩ := hcs
  refine ⟨gs, k, ⟨hm.group, ?_, fun j hj => ?_⟩, hws⟩
  · rw [length_append]; exact hm.length.trans (Nat.le_add_right ..)
  · rw [hm.image j hj, take_append_of_le_length (hj.trans hm.length)]

theorem Inv.cut (h : Inv g d t s) : Cut g d t.committed s.writes := by
  obtain ⟨gs, hm, _, hws⟩ := h.groups
  exact ⟨gs, _, hm, by rw [hws, take_length]⟩

theorem Atomic.committed_step (t : Atomic) (e : Event) :
    t.committed <+: (t.step d e).committed := by
  cases e with
  | beginOp | read a | write a f => exact prefix_refl _
  | endOp =>
    rw [Atomic.step]
    split_ifs
    · exact List.prefix_append ..
    · exact prefix_refl _

theorem Atomic.committed_steps : ∀ (es : List Event) (t : Atomic),
    t.committed <+: (es.foldl (Atomic.step d) t).committed
  | [], _ => prefix_refl _
  | e :: es, t => (t.committed_step e).trans (committed_steps es (t.step d e))

theorem inv_boot (g : Geom) (d : Image Block) : Inv g d ⟨[], [], 0⟩ (boot d) := by
  have hno : ∀ i a, ¬ At (boot d) i a := fun i a h => by simpa [boot, ROOTDEV] using h.1
  refine ⟨⟨?_, ?_, ?_, ?_, ?_, ?_, ?_, ?_⟩, fun _ => rfl, rfl, rfl, fun a => by simp [boot], ?_, ?_,
    rfl, fun a _ => view_of_not_at (fun i => hno i a), [], ⟨by simp, le_rfl, by simp⟩, rfl, rfl⟩
  · intro i; simp [boot]
  · intro i j a h; exact absurd h (hno i a)
  · intro i h; simp [boot, ROOTDEV] at h
  · intro i a h; exact absurd h (hno i a)
  · intro i; rfl
  · intro i h; simp [boot] at h
  · intro i h; simp [boot] at h
  · intro i a h; exact absurd h (hno i a)
  · exact ⟨Nat.zero_le _, by simp [boot]⟩
  · rintro c ⟨i, hi, _⟩; exact absurd hi (hno i c)

/-! ### What one call does to it -/

theorem Inv.read (h : Inv g d t s) (a : ℕ) : Prog.Triple (· = s) (exec g (.read a))
    (fun _ s' => Inv g d t s') (fun s' => s'.writes = s.writes) := by
  refine (exec_read_spec h.ok h.idle a).post ?_
  rintro _ s' ⟨hok, hidle, hv, hp, hd, hw, hl⟩
  refine ⟨hok, hidle, ?_, ?_, ?_, ?_, ?_, ?_, ?_, ?_⟩
  · rw [hl]; exact h.committing
  · rw [hl]; exact h.outstanding
  · rw [hl]; exact h.logged
  · rw [hl]; exact h.fits
  · intro c hc; rw [hl]; exact h.pins c (hp c hc)
  · rw [hd, hw]; exact h.disk
  · intro a ha; rw [hv]; exact h.view a ha
  · rw [hw]; exact h.groups

theorem fits_absorb {l : Log} (hl : (layout g).Fits l.lh) (hfull : l.full g.nlog = false)
    (ha : a < g.disksize) (hout : ¬ (layout g).inLog a) : (layout g).Fits (absorb l.lh a) := by
  refine ⟨?_, fun b hb => ?_⟩
  · have hroom : ¬ (l.lh.length ≥ LOGSIZE ∨ (l.lh.length : ℤ) ≥ g.nlog - 1) := by
      simpa [Log.full] using hfull
    have hlen : (absorb l.lh a).length ≤ l.lh.length + 1 := by
      unfold absorb; split_ifs <;> simp
    show _ ≤ min LOGSIZE (g.nlog - 1)
    omega
  · rcases mem_absorb.mp hb with hb | rfl
    · exact hl.2 b hb
    · exact ⟨ha, hout⟩

theorem Atomic.now_write (t : Atomic) (a : ℕ) (f : Block → Block) :
    (t.step d (.write a f)).now d = update (t.now d) a (f (t.now d a)) := by
  simp only [Atomic.step, Atomic.now, play_append, play_cons, play_nil]

theorem Inv.write (h : Inv g d t s) (hout : ¬ (layout g).inLog a) (f : Block → Block) :
    Prog.Triple (· = s) (exec g (.write a f)) (fun _ s' => Inv g d (t.step d (.write a f)) s')
      (fun s' => s'.writes = s.writes) := by
  refine (exec_write_spec h.ok h.idle a f).post ?_
  rintro _ s' ⟨hok, hidle, hv, hp, hd, hw, hl, hfull, ha⟩
  refine ⟨hok, hidle, ?_, ?_, ?_, ?_, ?_, ?_, ?_, ?_⟩
  · rw [hl]; exact h.committing
  · rw [hl]; exact h.outstanding
  · intro b
    rw [hl, mem_absorb, h.logged]
    simp [Atomic.step]
  · rw [hl]; exact fits_absorb h.fits hfull ha hout
  · intro c hc
    rw [hl, mem_absorb]
    rcases hp c hc with hca | hc
    · exact .inr hca
    · exact .inl (h.pins c hc)
  · rw [hd, hw]; exact h.disk
  · intro c hc
    rw [hv, h.view a hout, Atomic.now_write]
    rcases eq_or_ne c a with rfl | hca
    · simp
    · rw [update_of_ne hca, update_of_ne hca]
      exact h.view c hc
  · rw [hw]; exact h.groups

theorem Inv.beginOp (h : Inv g d t s) : Prog.Triple (· = s) (exec g .beginOp)
    (fun _ s' => Inv g d (t.step d .beginOp) s') (fun s' => s'.writes = s.writes) := by
  refine Prog.Triple.get_bind ?_
  split_ifs
  · refine Prog.Triple.ok rfl ⟨h.ok.with_log _, h.idle, h.committing, ?_, h.logged, h.fits, h.pins,
      h.disk, h.view, h.groups⟩
    exact congrArg (· + 1) h.outstanding
  · exact Prog.Triple.error rfl rfl

theorem Inv.head (h : Inv g d t s) : Disk.view s g.logstart = play d s.writes g.logstart := by
  rw [← h.disk]
  refine view_eq_disk h.ok (fun hp => ?_) (fun k _ => h.idle k)
  exact (h.fits.2 _ (h.pins _ hp)).2 (Layout.start_inLog (L := layout g))

theorem Inv.play_group (h : Inv g d t s) :
    play (t.committed.foldl play d) (groupOf s) = t.now d := by
  ext1 c
  rcases em (c ∈ s.log.lh) with hc | hc
  · rw [groupOf, play_map _ hc]
    exact h.view c (h.fits.2 c hc).2
  · rw [Atomic.now, play_other, play_other]
    · rintro w hw rfl
      exact hc ((h.logged _).mpr (mem_map_of_mem hw))
    · rintro w hw rfl
      exact hc (groupOf_fst s ▸ mem_map_of_mem hw)

theorem Inv.matches_concat (h : Inv g d t s) (hne : s.log.lh ≠ []) :
    ∃ gs, Matches g d (t.committed ++ [t.pending]) gs ∧
      gs.length = (t.committed ++ [t.pending]).length ∧
      s.writes ++ commitTrace g s = (layout g).commitsWrites (d g.logstart) gs := by
  obtain ⟨gs, hm, hlen, hw⟩ := h.groups
  refine ⟨gs ++ [groupOf s], ⟨?_, ?_, ?_⟩, ?_, ?_⟩
  · intro gr hgr
    rcases mem_append.mp hgr with hgr | hgr
    · exact hm.group gr hgr
    · rw [mem_singleton.mp hgr]
      exact ⟨by simpa [groupOf] using hne, by rw [groupOf_fst]; exact h.fits⟩
  · simp [hlen]
  · intro j hj
    rcases lt_or_ge gs.length j with hlt | hle
    · have hall := hm.image gs.length le_rfl
      rw [take_length, hlen, take_length] at hall
      rw [take_of_length_le (by simpa using hlt),
        take_of_length_le (by simpa [← hlen] using hlt), foldl_append,
        foldl_append, hall]
      exact h.play_group
    · rw [take_append_of_le_length hle, take_append_of_le_length (hlen ▸ hle)]
      exact hm.image j hle
  · simp [hlen]
  · have hcat := Layout.commitsWrites_concat (L := layout g) gs d (groupOf s)
    rw [commitTrace, if_neg hne, h.head, hw]
    exact hcat.symm

theorem Inv.pending_nil (h : Inv g d t s) : t.pending = [] ↔ s.log.lh = [] := by
  rw [← map_eq_nil_iff (f := Prod.fst), eq_nil_iff_forall_not_mem,
    eq_nil_iff_forall_not_mem]
  exact forall_congr' fun a => not_congr (h.logged a).symm

theorem Inv.endOp_empty (h : Inv g d t s) (hlast : t.outstanding - 1 = 0) (hlh : s.log.lh = []) :
    t.step d .endOp = ⟨t.committed, [], 0⟩ ∧ commitTrace g s = [] := by
  have hp := h.pending_nil.mpr hlh
  refine ⟨?_, if_pos hlh⟩
  rw [Atomic.step, if_neg (fun hx => hx.2 hp), hlast, hp]

theorem Inv.endOp_full (h : Inv g d t s) (hlast : t.outstanding - 1 = 0) (hlh : s.log.lh ≠ []) :
    t.step d .endOp = ⟨t.committed ++ [t.pending], [], 0⟩ :=
  if_pos ⟨hlast, fun hp => hlh (h.pending_nil.mp hp)⟩

theorem Inv.cut_commit (h : Inv g d t s) (hlast : t.outstanding - 1 = 0) (k : ℕ) :
    Cut g d (t.step d .endOp).committed (s.writes ++ (commitTrace g s).take k) := by
  rcases eq_or_ne s.log.lh [] with hlh | hlh
  · obtain ⟨hstep, htrace⟩ := h.endOp_empty hlast hlh
    rw [hstep, htrace, take_nil, append_nil]
    exact h.cut
  · obtain ⟨gs, hm, _, hw⟩ := h.matches_concat hlh
    rw [h.endOp_full hlast hlh]
    exact ⟨gs, s.writes.length + k, hm, by rw [← hw, take_length_add_append]⟩

theorem Inv.committed (h : Inv g d t s) (hlast : t.outstanding - 1 = 0) (hok : CacheOk g s')
    (hidle : Idle s') (hv : ∀ c, ¬ (layout g).inLog c → Disk.view s' c = Disk.view s c)
    (hp : ∀ c, ¬ Pinned s' c) (hd : s'.disk = play s.disk (commitTrace g s))
    (hw : s'.writes = s.writes ++ commitTrace g s) :
    Inv g d (t.step d .endOp) { s' with log := ⟨0, false, []⟩ } := by
  have hdisk : s'.disk = play d s'.writes := by rw [hd, hw, play_append, h.disk]
  have hfits : (layout g).Fits [] := ⟨Nat.zero_le _, by simp⟩
  rcases eq_or_ne s.log.lh [] with hlh | hlh
  · obtain ⟨hstep, htrace⟩ := h.endOp_empty hlast hlh
    rw [hstep]
    refine ⟨hok.with_log _, hidle, rfl, rfl, by simp, hfits, fun c hc => absurd hc (hp c), hdisk,
      fun c hc => ?_, ?_⟩
    · refine (hv c hc).trans ((h.view c hc).trans ?_)
      rw [Atomic.now, Atomic.now, h.pending_nil.mpr hlh]
    · show ∃ gs, _ ∧ _ ∧ s'.writes = _
      rw [hw, htrace, append_nil]
      exact h.groups
  · obtain ⟨gs, hm, hlen, hgw⟩ := h.matches_concat hlh
    rw [h.endOp_full hlast hlh]
    refine ⟨hok.with_log _, hidle, rfl, rfl, by simp, hfits, fun c hc => absurd hc (hp c), hdisk,
      fun c hc => ?_, gs, hm, hlen, hw.trans hgw⟩
    refine (hv c hc).trans ((h.view c hc).trans ?_)
    rw [Atomic.now, Atomic.now, foldl_append]
    rfl

theorem Inv.endOp (h : Inv g d t s) : Prog.Triple (· = s) (exec g .endOp)
    (fun _ s' => Inv g d (t.step d .endOp) s')
    (fun s' => Cut g d (t.step d .endOp).committed s'.writes) := by
  have hout : s.log.outstanding - 1 = t.outstanding - 1 := congrArg (· - 1) h.outstanding
  refine Prog.Triple.modify_bind (Prog.Triple.get_bind ?_)
  rw [if_neg (by simp [h.committing])]
  rcases eq_or_ne (s.log.outstanding - 1) 0 with hlast | hlast
  · have hlast' := hout.symm.trans hlast
    rw [if_pos hlast]
    refine Prog.Triple.modify_bind (Prog.Triple.bind ((commit_spec (h.ok.with_log
      ⟨s.log.outstanding - 1, true, s.log.lh⟩) h.idle h.fits h.pins).conseq (fun _ hs => hs)
      (fun _ _ hq => hq) ?_) (fun _ => Prog.Triple.of_forall ?_))
    · rintro s' ⟨k, hk⟩
      rw [hk]
      exact h.cut_commit hlast' k
    · rintro s' ⟨hok, hidle, hv, hp, hd, hw, hl⟩
      have hinv := h.committed hlast' hok hidle hv hp hd hw
      have hlog : (⟨s'.log.outstanding, false, s'.log.lh⟩ : Log) = ⟨0, false, []⟩ := by
        rw [hl, ← hlast]
      rw [← hlog] at hinv
      exact Prog.Triple.ok rfl hinv
  · rw [if_neg hlast]
    have hstep : t.step d .endOp = { t with outstanding := t.outstanding - 1 } :=
      if_neg (fun hx => hlast (hout.trans hx.1))
    rw [hstep]
    exact Prog.Triple.ok rfl ⟨h.ok.with_log _, h.idle, h.committing, hout, h.logged, h.fits, h.pins,
      h.disk, h.view, h.groups⟩

theorem Inv.exec (h : Inv g d t s) {e : Event}
    (hout : ∀ a f, e = .write a f → ¬ (layout g).inLog a) :
    Prog.Triple (· = s) (exec g e) (fun _ s' => Inv g d (t.step d e) s')
      (fun s' => Cut g d (t.step d e).committed s'.writes) := by
  have hcut : ∀ s' : Sys, s'.writes = s.writes → Cut g d (t.step d e).committed s'.writes :=
    fun s' hw => hw ▸ h.cut.mono (t.committed_step e)
  cases e with
  | beginOp => exact h.beginOp.conseq (fun _ hs => hs) (fun _ _ hq => hq) hcut
  | read a => exact (h.read a).conseq (fun _ hs => hs) (fun _ _ hq => hq) hcut
  | write a f => exact (h.write (hout a f rfl) f).conseq (fun _ hs => hs) (fun _ _ hq => hq) hcut
  | endOp => exact h.endOp

/-! ### Whole runs -/

theorem Inv.run : ∀ (es : List Event) {t : Atomic} {s : Sys}, Inv g d t s →
    (∀ a f, .write a f ∈ es → ¬ (layout g).inLog a) →
    Prog.Triple (· = s) (run g es)
      (fun _ s' => Inv g d (es.foldl (Atomic.step d) t) s')
      (fun s' => Cut g d (es.foldl (Atomic.step d) t).committed s'.writes)
  | [], _, _, h, _ => Prog.Triple.ok rfl h
  | e :: es, t, s, h, hout => by
    refine Prog.Triple.bind ((h.exec (e := e) fun a f he => hout a f (he ▸ mem_cons_self ..))
      |>.conseq (fun _ hs => hs) (fun _ _ hq => hq) ?_) (fun _ => Prog.Triple.of_forall ?_)
    · exact fun s' hc => hc.mono (Atomic.committed_steps es _)
    · exact fun s' h' => Inv.run es h' (fun a f hm => hout a f (mem_cons_of_mem _ hm))

theorem recover_boot {D : Image Block} (hR : (layout g).Recovers d D) :
    ∃ s', recoverFromLog g (boot d) = (.ok (), s') ∧
      s'.disk = play d ((layout g).recoveryWrites d) ∧
      s'.writes = (layout g).recoveryWrites d := by
  have h := inv_boot g d
  obtain ⟨_, s', hs', hd, hw⟩ := (recoverFromLog_spec h.ok h.idle
    (fun c hc => by simpa [boot] using h.pins c hc) hR.fits).returns
  exact ⟨s', hs', hd, by simpa [boot] using hw⟩

theorem recovers_interrupted {D : Image Block} : ∀ (ks : List ℕ) {d : Image Block},
    (layout g).Recovers d D → (layout g).Recovers (ks.foldl (interrupted g) d) D
  | [], _, hR => hR
  | k :: ks, d, hR => by
    obtain ⟨s', hs', _, hw⟩ := recover_boot hR
    refine recovers_interrupted ks ?_
    rw [interrupted, hs', hw]
    exact hR.recovery_prefix k

/-- Crash atomicity: run any calls from a disk with an empty log header, stop after any `k` writes,
  and let recovery be stopped after `ks` of its own writes. Recovery then completes and leaves,
  outside the log, exactly the commits whose non-empty header is among the `k` writes; a run that
  does not panic has written the header of every commit. -/
theorem crash_atomic (g : Geom) (d : Image Block) (hd : headN (d g.logstart) = 0)
    (es : List Event) (hes : ∀ a f, .write a f ∈ es → ¬ (layout g).inLog a) (k : ℕ) (ks : List ℕ) :
    ((run g es (boot d)).1 = .ok () →
      (layout g).commitPoints (trace g d es) = (commits d es).length) ∧
    ∃ s', recoverFromLog g (boot (ks.foldl (interrupted g) (play d ((trace g d es).take k)))) =
        (.ok (), s') ∧
      ∀ a, ¬ (layout g).inLog a → s'.disk a =
        ((commits d es).take ((layout g).commitPoints ((trace g d es).take k))).foldl play d a := by
  have hclear : (layout g).targets (d (layout g).start) = [] := by
    show headTargets (d g.logstart) = []
    simp [headTargets, hd]
  have hrun := Inv.run es (inv_boot g d) hes (boot d) rfl
  constructor
  · intro hok
    rw [trace]
    rcases hr : run g es (boot d) with ⟨_ | _, s'⟩ <;> rw [hr] at hrun hok <;> cases hok
    obtain ⟨gs, hm, hlen, hws⟩ := hrun.groups
    have hall := Layout.commitPoints_commitsWrites (L := layout g) gs hm.group hclear
      (Layout.Recovers.of_clear hclear fun _ _ => rfl)
    rw [hws]
    exact hall.trans hlen
  obtain ⟨gs, n, hm, hws⟩ : Cut g d (commits d es) (trace g d es) := by
    rw [trace]
    rcases hr : run g es (boot d) with ⟨_ | _, s'⟩ <;> rw [hr] at hrun
    · exact hrun
    · exact hrun.cut
  obtain ⟨hle, hrec⟩ := Layout.commitsWrites_prefix (L := layout g) gs hm.group hclear
    (Layout.Recovers.of_clear hclear fun _ _ => rfl) (min k n)
  have hcut : (trace g d es).take k =
      ((layout g).commitsWrites (d (layout g).start) gs).take (min k n) := by
    rw [hws, take_take]; rfl
  rw [← hcut] at hle hrec
  have hend := recovers_interrupted ks hrec
  obtain ⟨s', hs', hdisk, _⟩ := recover_boot hend
  refine ⟨s', hs', fun a ha => ?_⟩
  rw [hdisk, hend.recovery_full.1 a ha, hm.image _ hle]

def smallGeom : Geom where
  imgSize := 5120
  logstart := 2
  nlog := 4
  imgSize_lt := by decide
  nlog_pos := by decide
  log_le := by decide

/-- One call that fills block 7 with ones, on a zeroed disk; the machine stops after two writes and
  recovery is stopped once after its first. -/
theorem crash_atomic_small :
    headN ((fun _ _ => 0 : Image Block) smallGeom.logstart) = 0 ∧
    commits (fun _ _ => 0) [.beginOp, .write 7 (fun _ _ => 1), .endOp] = [[(7, fun _ => 1)]] ∧
    ∃ s', recoverFromLog smallGeom (boot ([1].foldl (interrupted smallGeom) (play (fun _ _ => 0)
        ((trace smallGeom (fun _ _ => 0) [.beginOp, .write 7 (fun _ _ => 1), .endOp]).take 2)))) =
        (.ok (), s') ∧
      ∀ a, ¬ (layout smallGeom).inLog a → s'.disk a =
        ((commits (fun _ _ => 0) [.beginOp, .write 7 (fun _ _ => 1), .endOp]).take
          ((layout smallGeom).commitPoints ((trace smallGeom (fun _ _ => 0)
            [.beginOp, .write 7 (fun _ _ => 1), .endOp]).take 2))).foldl play (fun _ _ => 0) a := by
  have hd : headN ((fun _ _ => 0 : Image Block) smallGeom.logstart) = 0 := by decide
  refine ⟨hd, by simp [commits, Atomic.step], (crash_atomic smallGeom _ hd _ ?_ 2 [1]).2⟩
  intro a f hm
  have ha : a = 7 := by simp at hm; exact hm.1
  subst ha
  decide

end Xv6.Disk

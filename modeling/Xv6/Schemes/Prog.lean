import Mathlib.Tactic

/-! scheme:prog | name:Stateful code that may stop | used by:Log, Fs

  Kernel code is embedded as a function from the state to a result and the state it leaves. A
  panic (or a wait nobody will end) *stops* the computation but keeps the state reached, so that
  what a crash leaves behind can be spoken about. A triple has two ends: `Q` for a return and `E`
  for a stop. -/

namespace Xv6.Schemes

/-- Code over state `σ`: returns `α` or stops with `ε`; the final state is kept either way. -/
def Prog (σ ε α : Type) := σ → Except ε α × σ

namespace Prog

variable {σ ε α β : Type}

instance : Monad (Prog σ ε) where
  pure a := fun s => (.ok a, s)
  bind m f := fun s =>
    match m s with
    | (.ok a, s') => f a s'
    | (.error e, s') => (.error e, s')

def get : Prog σ ε σ := fun s => (.ok s, s)

def modify (f : σ → σ) : Prog σ ε Unit := fun s => (.ok (), f s)

def stop (e : ε) : Prog σ ε α := fun s => (.error e, s)

@[simp] theorem pure_apply (a : α) (s : σ) : (pure a : Prog σ ε α) s = (.ok a, s) := rfl

@[simp] theorem get_apply (s : σ) : (get : Prog σ ε σ) s = (.ok s, s) := rfl

@[simp] theorem modify_apply (f : σ → σ) (s : σ) :
    (modify f : Prog σ ε Unit) s = (.ok (), f s) := rfl

@[simp] theorem stop_apply (e : ε) (s : σ) : (stop e : Prog σ ε α) s = (.error e, s) := rfl

theorem bind_apply (m : Prog σ ε α) (f : α → Prog σ ε β) (s : σ) :
    (m >>= f) s = match m s with
      | (.ok a, s') => f a s'
      | (.error e, s') => (.error e, s') := rfl

variable {f : α → Prog σ ε β} {s' : σ} {a : α}

/-- The rest runs from where the first part returned. -/
theorem bind_of_ok {m : Prog σ ε α} {s : σ} (h : m s = (.ok a, s')) : (m >>= f) s = f a s' := by
  rw [bind_apply, h]

/-- Where a sequence returns, both its parts do. -/
theorem ok_of_bind {m : Prog σ ε α} {s : σ} {b : β} (h : (m >>= f) s = (.ok b, s'))
    : ∃ a s1, m s = (.ok a, s1) ∧ f a s1 = (.ok b, s') := by
  rw [bind_apply] at h
  rcases hm : m s with ⟨e | a, s1⟩
  · rw [hm] at h
    cases h
  · rw [hm] at h
    exact ⟨a, s1, rfl, h⟩

/-- From `P`, `m` returns into `Q` or stops in `E`. -/
def Triple (P : σ → Prop) (m : Prog σ ε α) (Q : α → σ → Prop) (E : σ → Prop) : Prop :=
  ∀ s, P s → match m s with
    | (.ok a, s') => Q a s'
    | (.error _, s') => E s'

variable {P P' : σ → Prop} {Q Q' : α → σ → Prop} {E E' : σ → Prop} {m : Prog σ ε α}

theorem Triple.bind {R : β → σ → Prop} (hm : Triple P m Q E) (hf : ∀ a, Triple (Q a) (f a) R E)
    : Triple P (m >>= f) R E := by
  intro s hs
  have h := hm s hs
  show match (match m s with
    | (.ok a, s') => f a s'
    | (.error e, s') => (.error e, s')) with
    | (.ok a, s') => R a s'
    | (.error _, s') => E s'
  rcases hms : m s with ⟨_ | a, s'⟩
  · rw [hms] at h; exact h
  · rw [hms] at h; exact hf a s' h

theorem Triple.conseq (hm : Triple P m Q E) (hP : ∀ s, P' s → P s) (hQ : ∀ a s, Q a s → Q' a s)
    (hE : ∀ s, E s → E' s) : Triple P' m Q' E' := by
  intro s hs
  have h := hm s (hP s hs)
  rcases hms : m s with ⟨_ | a, s'⟩
  · rw [hms] at h; exact hE s' h
  · rw [hms] at h; exact hQ a s' h

theorem Triple.pre (hm : Triple P m Q E) (hP : ∀ s, P' s → P s) : Triple P' m Q E :=
  hm.conseq hP (fun _ _ h => h) (fun _ h => h)

theorem Triple.post (hm : Triple P m Q E) (hQ : ∀ a s, Q a s → Q' a s) : Triple P m Q' E :=
  hm.conseq (fun _ h => h) hQ (fun _ h => h)

/-- A triple may be proved state by state. -/
theorem Triple.of_forall (h : ∀ s, P s → Triple (· = s) m Q E) : Triple P m Q E :=
  fun s hs => h s hs s rfl

theorem Triple.ok {s : σ} (h : m s = (.ok a, s')) (hq : Q a s') : Triple (· = s) m Q E := by
  intro t ht
  rw [ht, h]
  exact hq

theorem Triple.error {s : σ} {e : ε} (h : m s = (.error e, s')) (he : E s') :
    Triple (· = s) m Q E := by
  intro t ht
  rw [ht, h]
  exact he

theorem Triple.ok_bind {s : σ} {n : Prog σ ε β} {b : β} {f : β → Prog σ ε α}
    (h : n s = (.ok b, s')) (hf : Triple (· = s') (f b) Q E) : Triple (· = s) (n >>= f) Q E := by
  intro t ht
  rw [ht, bind_apply, h]
  exact hf s' rfl

theorem Triple.get_bind {s : σ} {f : σ → Prog σ ε α} (h : Triple (· = s) (f s) Q E) :
    Triple (· = s) (get >>= f) Q E := Triple.ok_bind rfl h

theorem Triple.modify_bind {s : σ} {f : σ → σ} {n : Unit → Prog σ ε α}
    (h : Triple (· = f s) (n ()) Q E) : Triple (· = s) (modify f >>= n) Q E := Triple.ok_bind rfl h

/-- Code that cannot stop returns. -/
theorem Triple.returns {s : σ} (h : Triple (· = s) m Q (fun _ => False)) :
    ∃ a s', m s = (.ok a, s') ∧ Q a s' := by
  have h := h s rfl
  rcases hms : m s with ⟨_ | a, s'⟩
  · rw [hms] at h; exact h.elim
  · rw [hms] at h; exact ⟨a, s', rfl, h⟩

/-! ### Code that stops in known ways -/

/-- From `s`, the code returns into `Q` or stops with an error in `E`. -/
def Ends (E : ε → Prop) (s : σ) (m : Prog σ ε α) (Q : α → σ → Prop) : Prop :=
  match m s with
  | (.ok a, s') => Q a s'
  | (.error e, _) => E e

variable {F F' : ε → Prop} {s : σ}

theorem Ends.ok (h : m s = (.ok a, s')) (hq : Q a s') : Ends F s m Q := by
  rw [Ends, h]
  exact hq

theorem Ends.bind {R : β → σ → Prop} (h : Ends F s m Q) (hf : ∀ a s', Q a s' → Ends F s' (f a) R)
    : Ends F s (m >>= f) R := by
  rw [Ends] at h ⊢
  rw [bind_apply]
  rcases hms : m s with ⟨err | a, s'⟩
  · rw [hms] at h
    exact h
  · rw [hms] at h
    exact hf a s' h

theorem Ends.ok_bind {n : Prog σ ε β} {b : β} {f : β → Prog σ ε α} (h : n s = (.ok b, s'))
    (hf : Ends F s' (f b) Q) : Ends F s (n >>= f) Q := by
  rw [Ends, bind_apply, h]
  exact hf

theorem Ends.mono (h : Ends F s m Q) (hF : ∀ e, F e → F' e) (hq : ∀ a s', Q a s' → Q' a s') :
    Ends F' s m Q' := by
  rw [Ends] at h ⊢
  rcases hms : m s with ⟨err | a, s'⟩
  · rw [hms] at h
    exact hF err h
  · rw [hms] at h
    exact hq a s' h

theorem Ends.and (h : Ends F s m Q) (h' : Ends F' s m Q') :
    Ends F s m fun a s' => Q a s' ∧ Q' a s' := by
  rw [Ends] at h h' ⊢
  rcases hms : m s with ⟨err | a, s'⟩
  · rw [hms] at h
    exact h
  · rw [hms] at h h'
    exact ⟨h, h'⟩

/-- A run that is known to have succeeded. -/
theorem Ends.of_ok (h : Ends F s m Q) (hm : (m s).1.toOption = some a) :
    ∃ s', m s = (.ok a, s') ∧ Q a s' := by
  rw [Ends] at h
  rcases hms : m s with ⟨err | b, s'⟩
  · rw [hms] at hm
    exact absurd hm nofun
  · rw [hms] at h hm
    obtain rfl := Option.some.inj hm
    exact ⟨s', rfl, h⟩

/-- What holds after a run that has ended. -/
theorem Ends.of_run (h : Ends F s m Q) (hm : m s = (.ok a, s')) : Q a s' := by
  rw [Ends, hm] at h
  exact h

theorem Ends.post (h : Ends F s m Q) (hq : ∀ a s', Q a s' → Q' a s') : Ends F s m Q' :=
  h.mono (fun _ he => he) hq

end Prog

end Xv6.Schemes

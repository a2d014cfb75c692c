import Mathlib.Data.List.Induction
import TypeFlow.Fault
/-!
# Runs of computations that may stop

What `Run` computations do to a state, step by step. `run_bind_eq_ok` and `run_bind_eq_error` take
a sequence apart by its outcome. `Run.Yields` and `Run.Follows` are put together step by step: one
run that ends well, and two of which the second ends well if the first does. A list of answers is
one of results only if every answer is a result (`mem_of_mapM_eq_ok`, `exists_of_mapM_eq_ok`).
-/

namespace TypeFlow

namespace Run

section Answer

variable {α β : Type} {x : Except Fault α} {f : α → Except Fault β}

theorem bind_eq_ok {b : β} : (x >>= f) = .ok b ↔ ∃ a, x = .ok a ∧ f a = .ok b := by
  cases x
  · exact ⟨nofun, nofun⟩
  · exact ⟨fun h => ⟨_, rfl, h⟩, fun ⟨_, ha, h⟩ => by cases ha; exact h⟩

theorem bind_eq_error {fault : Fault} :
    (x >>= f) = .error fault ↔ x = .error fault ∨ ∃ a, x = .ok a ∧ f a = .error fault := by
  cases x with
  | error fault' =>
    constructor
    · intro h
      cases h
      exact Or.inl rfl
    · rintro (h | ⟨a, ha, -⟩)
      · cases h
        rfl
      · cases ha
  | ok a =>
    constructor
    · exact fun h => Or.inr ⟨a, rfl, h⟩
    · rintro (h | ⟨b, hb, h⟩)
      · cases h
      · cases hb
        exact h

theorem ok_bind (a : α) (f : α → Except Fault β) : ((.ok a : Except Fault α) >>= f) = f a := rfl

theorem error_bind (fault : Fault) (f : α → Except Fault β) :
    ((.error fault : Except Fault α) >>= f) = .error fault := rfl

theorem pure_eq_ok {a b : α} : (pure a : Except Fault α) = .ok b ↔ a = b :=
  ⟨fun h => Except.ok.inj h, fun h => h ▸ rfl⟩

end Answer

variable {σ α β : Type} {s s' : σ}

/-- Outcomes with states are equal part by part. -/
@[simp] theorem outcome_eq {x y : Except Fault α} :
    @Eq (Id (Except Fault α × σ)) (x, s) (y, s') ↔ x = y ∧ s = s' :=
  Iff.of_eq (Prod.mk.injEq x s y s')

@[simp] theorem run_pure (a : α) : (pure a : Run σ α).run s = (.ok a, s) := rfl

@[simp] theorem run_throw (fault : Fault) : (throw fault : Run σ α).run s = (.error fault, s) := rfl

@[simp] theorem run_get : (get : Run σ σ).run s = (.ok s, s) := rfl

@[simp] theorem run_set (t : σ) : (set t : Run σ PUnit).run s = (.ok ⟨⟩, t) := rfl

@[simp] theorem run_modify (f : σ → σ) : (modify f : Run σ PUnit).run s = (.ok ⟨⟩, f s) := rfl

theorem run_bind (x : Run σ α) (f : α → Run σ β) : (x >>= f).run s =
    match x.run s with
    | (.ok a, t) => (f a).run t
    | (.error fault, t) => (.error fault, t) := by
  change (ExceptT.bind x f).run s = _
  simp only [ExceptT.bind, ExceptT.run, ExceptT.mk]
  change (match x s with | (a, t) => ExceptT.bindCont f a t) = _
  rcases x s with ⟨a | a, t⟩ <;> rfl

theorem run_bind_of_ok {x : Run σ α} {f : α → Run σ β} {a : α} (h : x.run s = (.ok a, s')) :
    (x >>= f).run s = (f a).run s' := by
  rw [run_bind, h]

theorem run_bind_of_error {x : Run σ α} {f : α → Run σ β} {fault : Fault}
    (h : x.run s = (.error fault, s')) : (x >>= f).run s = (.error fault, s') := by
  rw [run_bind, h]

theorem run_bind_eq_ok {x : Run σ α} {f : α → Run σ β} {b : β} :
    (x >>= f).run s = (.ok b, s') ↔ ∃ a t, x.run s = (.ok a, t) ∧ (f a).run t = (.ok b, s') := by
  rw [run_bind]
  rcases x.run s with ⟨_ | a, t⟩ <;> simp [and_assoc]

theorem run_bind_eq_error {x : Run σ α} {f : α → Run σ β} {fault : Fault} :
    (x >>= f).run s = (.error fault, s') ↔ x.run s = (.error fault, s') ∨
      ∃ a t, x.run s = (.ok a, t) ∧ (f a).run t = (.error fault, s') := by
  rw [run_bind]
  rcases x.run s with ⟨_ | a, t⟩ <;> simp [and_assoc]

theorem run_ofExcept (x : Except Fault α) : (Run.ofExcept x : Run σ α).run s = (x, s) := by
  cases x <;> rfl

/-! ## Runs that end well -/

section Yields

variable {γ : Type} {x : Run σ α} {Q Q' : α → σ → Prop} {R : β → σ → Prop}

/-- A run ends well, with an answer and a state as told. -/
def Yields (x : Run σ α) (s : σ) (Q : α → σ → Prop) : Prop :=
  ∃ a t, x.run s = (.ok a, t) ∧ Q a t

theorem yields_pure {a : α} (h : Q a s) : Yields (pure a) s Q := ⟨a, s, run_pure a, h⟩

theorem Yields.mono (h : Yields x s Q) (hQ : ∀ a t, Q a t → Q' a t) : Yields x s Q' := by
  obtain ⟨a, t, hrun, ha⟩ := h
  exact ⟨a, t, hrun, hQ a t ha⟩

theorem Yields.bind {f : α → Run σ β} (hx : Yields x s Q)
    (hf : ∀ a t, Q a t → Yields (f a) t R) : Yields (x >>= f) s R := by
  obtain ⟨a, t, hrun, ha⟩ := hx
  obtain ⟨b, u, hrun', hb⟩ := hf a t ha
  exact ⟨b, u, (run_bind_of_ok hrun).trans hrun', hb⟩

theorem yields_get_bind {f : σ → Run σ β} (h : Yields (f s) s R) : Yields (get >>= f) s R := by
  obtain ⟨b, t, hrun, hb⟩ := h
  exact ⟨b, t, (run_bind_of_ok run_get).trans hrun, hb⟩

theorem yields_lift_bind {x : StateM σ α} {f : α → Run σ β}
    (h : Yields (f (x.run s).1) (x.run s).2 R) : Yields ((liftM x : Run σ α) >>= f) s R := by
  obtain ⟨b, t, hrun, hb⟩ := h
  have hlift : (liftM x : Run σ α).run s = (.ok (x.run s).1, (x.run s).2) := rfl
  exact ⟨b, t, (run_bind_of_ok hlift).trans hrun, hb⟩

theorem yields_ofExcept_bind {a : Except Fault α} {b : α} {f : α → Run σ β} (ha : a = .ok b)
    (h : Yields (f b) s R) : Yields (Run.ofExcept a >>= f) s R := by
  obtain ⟨c, t, hrun, hc⟩ := h
  have hok : (Run.ofExcept a : Run σ α).run s = (.ok b, s) := by rw [run_ofExcept, ha]
  exact ⟨c, t, (run_bind_of_ok hok).trans hrun, hc⟩

/-- A run through a list ends well if each of its steps does, after those before it. -/
theorem yields_foldlM {step : α → γ → Run σ α} {Q : List γ → α → σ → Prop} {a : α} {xs : List γ}
    (hstep : ∀ ys x zs, xs = ys ++ x :: zs → ∀ b t, Q ys b t →
      Yields (step b x) t (Q (ys ++ [x]))) (h : Q [] a s) : Yields (xs.foldlM step a) s (Q xs) := by
  induction xs using List.reverseRecOn with
  | nil => exact yields_pure h
  | append_singleton xs x ih =>
    rw [List.foldlM_append]
    refine (ih fun ys y zs hsplit => hstep ys y (zs ++ [x]) (by simp [hsplit])).bind
      fun b t hb => ?_
    rw [List.foldlM_cons]
    exact (hstep xs x [] rfl b t hb).bind fun _ _ hc => yields_pure hc

end Yields

/-- What every step of a list preserves, the steps one after the other preserve. -/
theorem invariant_forM {I : σ → Prop} {f : α → Run σ Unit} : ∀ {xs : List α} {s : σ},
    (∀ x ∈ xs, ∀ s s', I s → (f x).run s = (.ok (), s') → I s') → I s →
      (xs.forM f).run s = (.ok (), s') → I s'
  | [], s, _, hs, h => by
    obtain ⟨-, rfl⟩ := outcome_eq.1 h
    exact hs
  | x :: xs, s, hf, hs, h => by
    obtain ⟨hx, hxs⟩ := List.forall_mem_cons.1 hf
    rw [List.forM_eq_forM, List.forM_cons] at h
    obtain ⟨_, t, ht, hrest⟩ := run_bind_eq_ok.1 h
    exact invariant_forM hxs (hx s t hs ht) hrest

/-! ## Runs side by side -/

section Follows

variable {α' β' γ : Type} {x : Run σ α} {y : Run σ α'} {t : σ} {R : α → σ → α' → σ → Prop}
  {R' : β → σ → β' → σ → Prop}

/-- Where the one run ends well the other one does, too, and their ends are related as told. -/
def Follows (x : Run σ α) (s : σ) (y : Run σ α') (t : σ) (R : α → σ → α' → σ → Prop) : Prop :=
  ∀ a s', x.run s = (.ok a, s') → ∃ b t', y.run t = (.ok b, t') ∧ R a s' b t'

theorem follows_pure {a : α} {b : α'} (h : R a s b t) : Follows (pure a) s (pure b) t R := by
  intro a' s' hrun
  obtain ⟨ha, rfl⟩ := outcome_eq.1 hrun
  cases ha
  exact ⟨b, t, run_pure b, h⟩

theorem Follows.bind {f : α → Run σ β} {f' : α' → Run σ β'} (h : Follows x s y t R)
    (hf : ∀ a s' b t', R a s' b t' → Follows (f a) s' (f' b) t' R') :
    Follows (x >>= f) s (y >>= f') t R' := by
  intro c s'' hrun
  obtain ⟨a, s', hx, hrest⟩ := run_bind_eq_ok.1 hrun
  obtain ⟨b, t', hy, hab⟩ := h a s' hx
  obtain ⟨d, t'', hrest', hcd⟩ := hf a s' b t' hab c s'' hrest
  exact ⟨d, t'', (run_bind_of_ok hy).trans hrest', hcd⟩

theorem follows_get_bind {f : σ → Run σ β} {f' : σ → Run σ β'}
    (h : Follows (f s) s (f' t) t R') : Follows (get >>= f) s (get >>= f') t R' := by
  intro c s' hrun
  rw [run_bind_of_ok run_get] at hrun ⊢
  exact h c s' hrun

theorem follows_ofExcept_bind {a b : Except Fault γ} {f : γ → Run σ β} {f' : γ → Run σ β'}
    (hab : b = a) (h : ∀ c, a = .ok c → Follows (f c) s (f' c) t R') :
    Follows (Run.ofExcept a >>= f) s (Run.ofExcept b >>= f') t R' := by
  subst hab
  intro d s' hrun
  obtain ⟨c, u, hc, hrest⟩ := run_bind_eq_ok.1 hrun
  rw [run_ofExcept] at hc
  obtain ⟨hok, rfl⟩ := outcome_eq.1 hc
  obtain ⟨e, t', hrest', hde⟩ := h c hok d s' hrest
  refine ⟨e, t', (run_bind_of_ok ?_).trans hrest', hde⟩
  rw [run_ofExcept, hok]

theorem follows_lift_bind {m : StateM σ α} {m' : StateM σ α'} {f : α → Run σ β}
    {f' : α' → Run σ β'}
    (h : Follows (f (m.run s).1) (m.run s).2 (f' (m'.run t).1) (m'.run t).2 R') :
    Follows ((liftM m : Run σ α) >>= f) s ((liftM m' : Run σ α') >>= f') t R' := by
  have hlift : (liftM m : Run σ α).run s = (.ok (m.run s).1, (m.run s).2) := rfl
  have hlift' : (liftM m' : Run σ α').run t = (.ok (m'.run t).1, (m'.run t).2) := rfl
  intro c s' hrun
  rw [run_bind_of_ok hlift] at hrun
  obtain ⟨d, t', hrun', hcd⟩ := h c s' hrun
  exact ⟨d, t', (run_bind_of_ok hlift').trans hrun', hcd⟩

/-- Two runs through one list stay related if each of their steps does. -/
theorem follows_foldlM {step : α → γ → Run σ α} {step' : α' → γ → Run σ α'} :
    ∀ {xs : List γ} {a : α} {b : α'} {s t : σ},
      (∀ x ∈ xs, ∀ a s b t, R a s b t → Follows (step a x) s (step' b x) t R) → R a s b t →
        Follows (xs.foldlM step a) s (xs.foldlM step' b) t R
  | [], _, _, _, _, _, h => follows_pure h
  | x :: xs, a, b, s, t, hstep, h => by
    obtain ⟨hx, hxs⟩ := List.forall_mem_cons.1 hstep
    rw [List.foldlM_cons, List.foldlM_cons]
    exact (hx a s b t h).bind fun _ _ _ _ h' => follows_foldlM hxs h'

end Follows

end Run

/-! ## Lists of answers -/

theorem mem_of_mapM_eq_ok {α β : Type} {f : α → Except Fault β} : ∀ {xs : List α} {ys : List β},
    xs.mapM f = .ok ys → ∀ y ∈ ys, ∃ x ∈ xs, f x = .ok y
  | [], ys, h, y, hy => by
    obtain rfl : [] = ys := by simpa using Run.pure_eq_ok.1 h
    cases hy
  | x :: xs, ys, h, y, hy => by
    rw [List.mapM_cons] at h
    obtain ⟨z, hz, h⟩ := Run.bind_eq_ok.1 h
    obtain ⟨zs, hzs, h⟩ := Run.bind_eq_ok.1 h
    obtain rfl := Run.pure_eq_ok.1 h
    rcases List.mem_cons.1 hy with rfl | hy
    · exact ⟨x, by simp, hz⟩
    · obtain ⟨x', hx', hy⟩ := mem_of_mapM_eq_ok hzs y hy
      exact ⟨x', by simp [hx'], hy⟩

theorem Run.mapM_congr {α β : Type} {f f' : α → Except Fault β} {xs : List α}
    (hf : ∀ x ∈ xs, f x = f' x) : xs.mapM f = xs.mapM f' := by
  induction xs with
  | nil => rfl
  | cons x xs ih =>
    obtain ⟨hx, hxs⟩ := List.forall_mem_cons.1 hf
    rw [List.mapM_cons, List.mapM_cons, hx, ih hxs]

theorem exists_of_mapM_eq_ok {α β : Type} {f : α → Except Fault β} {xs : List α} {ys : List β}
    (h : xs.mapM f = .ok ys) : ∀ x ∈ xs, ∃ y ∈ ys, f x = .ok y := by
  induction xs generalizing ys with
  | nil => simp
  | cons x xs ih =>
    rw [List.mapM_cons] at h
    obtain ⟨y, hy, h⟩ := Run.bind_eq_ok.1 h
    obtain ⟨zs, hzs, h⟩ := Run.bind_eq_ok.1 h
    obtain rfl := Run.pure_eq_ok.1 h
    refine List.forall_mem_cons.2 ⟨⟨y, List.mem_cons_self, hy⟩, fun x' hx' => ?_⟩
    obtain ⟨z, hz, hfz⟩ := ih hzs x' hx'
    exact ⟨z, List.mem_cons_of_mem _ hz, hfz⟩

theorem exists_of_mapM_eq_error {α β : Type} {f : α → Except Fault β} {xs : List α}
    {fault : Fault} (h : xs.mapM f = .error fault) : ∃ x ∈ xs, f x = .error fault := by
  induction xs with
  | nil => cases h
  | cons x xs ih =>
    rw [List.mapM_cons] at h
    rcases Run.bind_eq_error.1 h with h | ⟨qs, -, h⟩
    · exact ⟨x, List.mem_cons_self, h⟩
    · rcases Run.bind_eq_error.1 h with h | ⟨qss, -, h⟩
      · obtain ⟨y, hy, hfy⟩ := ih h
        exact ⟨y, List.mem_cons_of_mem _ hy, hfy⟩
      · cases h

end TypeFlow

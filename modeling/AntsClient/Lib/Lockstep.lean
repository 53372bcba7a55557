namespace AntsClient.Lib.Lockstep

variable {ε σ τ α β γ δ : Type}

/-- Both computations succeed with results and states in `Q`, or fail with the same error and states
in `E`. -/
def Lockstep (E : σ → τ → Prop) (Q : α → β → σ → τ → Prop) (x : EStateM ε σ α) (y : EStateM ε τ β)
    (s : σ) (t : τ) : Prop :=
  match x s, y t with
  | .ok a s', .ok b t' => Q a b s' t'
  | .error err s', .error err' t' => err = err' ∧ E s' t'
  | _, _ => False

variable {E : σ → τ → Prop} {P : α → β → σ → τ → Prop} {Q : γ → δ → σ → τ → Prop}
  {x : EStateM ε σ α} {y : EStateM ε τ β} {f : α → EStateM ε σ γ} {g : β → EStateM ε τ δ}
  {s : σ} {t : τ}

theorem lockstep_cases (h : Lockstep E P x y s t) :
    (∃ a b s' t', x s = .ok a s' ∧ y t = .ok b t' ∧ P a b s' t') ∨
    ∃ err s' t', x s = .error err s' ∧ y t = .error err t' ∧ E s' t' := by
  unfold Lockstep at h
  cases hx : x s with
  | ok a s' =>
    cases hy : y t with
    | ok b t' =>
      rw [hx, hy] at h
      exact .inl ⟨a, b, s', t', rfl, rfl, h⟩
    | error err t' =>
      rw [hx, hy] at h
      exact h.elim
  | error err s' =>
    cases hy : y t with
    | ok b t' =>
      rw [hx, hy] at h
      exact h.elim
    | error err' t' =>
      rw [hx, hy] at h
      obtain ⟨rfl, h⟩ := h
      exact .inr ⟨err, s', t', rfl, rfl, h⟩

/-- Computations in lockstep go on in lockstep. -/
theorem Lockstep.bind (hx : Lockstep E P x y s t)
    (hf : ∀ a b s' t', P a b s' t' → Lockstep E Q (f a) (g b) s' t') :
    Lockstep E Q (x >>= f) (y >>= g) s t := by
  unfold Lockstep
  simp only [Bind.bind, EStateM.bind]
  obtain ⟨a, b, s', t', hx, hy, h⟩ | ⟨err, s', t', hx, hy, h⟩ := lockstep_cases hx
  · rw [hx, hy]
    exact hf a b s' t' h
  · rw [hx, hy]
    exact ⟨rfl, h⟩

theorem Lockstep.map_right {h : β → δ} {R : α → δ → σ → τ → Prop} (hx : Lockstep E P x y s t)
    (hR : ∀ a b s' t', P a b s' t' → R a (h b) s' t') : Lockstep E R x (h <$> y) s t := by
  unfold Lockstep
  simp only [Functor.map, EStateM.map]
  obtain ⟨a, b, s', t', hx, hy, hP⟩ | ⟨err, s', t', hx, hy, hE⟩ := lockstep_cases hx
  · rw [hx, hy]
    exact hR a b s' t' hP
  · rw [hx, hy]
    exact ⟨rfl, hE⟩

end AntsClient.Lib.Lockstep

namespace AntsClient.Lib.Outcome

variable {ε σ α β : Type}

/-- The result of `x` from `s`, `none` for a failure, and the state it leaves stand in the relation
`Q`. -/
def Ends (x : EStateM ε σ α) (s : σ) (Q : Option α → σ → Prop) : Prop :=
  match x s with
  | .ok a s' => Q (some a) s'
  | .error _ s' => Q none s'

def after : EStateM.Result ε σ α → σ
  | .ok _ s => s
  | .error _ s => s

def succeeded : EStateM.Result ε σ α → Bool
  | .ok _ _ => true
  | .error _ _ => false

variable {x : EStateM ε σ α} {f : α → EStateM ε σ β} {s s' : σ} {a : α} {P : Option α → σ → Prop}
  {Q : Option β → σ → Prop}

theorem set_bind {f : PUnit → EStateM ε σ β} : (set s' >>= f) s = f ⟨⟩ s' := rfl

theorem ends_pure (h : P (some a) s) : Ends (pure a : EStateM ε σ α) s P := h

theorem ends_throw {err : ε} (h : P none s) : Ends (throw err : EStateM ε σ α) s P := h

theorem ends_throw_bind {err : ε} (h : Q none s) : Ends ((throw err : EStateM ε σ α) >>= f) s Q := h

/-- What holds after `x`, and then after `f`, holds after both. -/
theorem Ends.bind (hx : Ends x s P) (herror : ∀ s', P none s' → Q none s')
    (hok : ∀ a s', P (some a) s' → Ends (f a) s' Q) :
    Ends (x >>= f) s Q := by
  unfold Ends at hx ⊢
  simp only [Bind.bind, EStateM.bind]
  cases h : x s with
  | ok a s' =>
    rw [h] at hx
    exact hok a s' hx
  | error err s' =>
    rw [h] at hx
    exact herror s' hx

theorem Ends.get_bind {f : σ → EStateM ε σ β} (h : Ends (f s) s Q) : Ends (get >>= f) s Q := h

theorem Ends.modify_bind {g : σ → σ} {f : PUnit → EStateM ε σ β} (h : Ends (f ⟨⟩) (g s) Q) :
    Ends (modify g >>= f) s Q := h

theorem Ends.set_bind {f : PUnit → EStateM ε σ β} (h : Ends (f ⟨⟩) s' Q) : Ends (set s' >>= f) s Q := h

theorem Ends.mono {P' : Option α → σ → Prop} (h : Ends x s P) (hP : ∀ r s', P r s' → P' r s') :
    Ends x s P' := by
  unfold Ends at h ⊢
  cases hx : x s with
  | ok a s' =>
    rw [hx] at h
    exact hP _ _ h
  | error err s' =>
    rw [hx] at h
    exact hP _ _ h

theorem Ends.of_forall (h : ∀ r s', P r s') : Ends x s P := by
  unfold Ends
  cases x s with
  | ok a s' => exact h _ _
  | error err s' => exact h _ _

theorem Ends.of_ok (h : Ends x s P) (hx : x s = .ok a s') : P (some a) s' := by
  rw [Ends, hx] at h
  exact h

theorem Ends.after {R : σ → Prop} (h : Ends x s fun _ s' => R s') : R (after (x s)) := by
  unfold Ends at h
  cases hx : x s with
  | ok a s' =>
    rw [hx] at h
    exact h
  | error err s' =>
    rw [hx] at h
    exact h

end AntsClient.Lib.Outcome

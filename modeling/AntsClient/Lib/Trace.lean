import Mathlib.Tactic

namespace AntsClient.Lib.Trace

variable {ε E α β : Type}

/-- Computations that record events and may fail; what was recorded before stays. -/
abbrev TraceM (ε E : Type) := EStateM ε (List E)

def record (e : E) : TraceM ε E Unit := modify (· ++ [e])

def orThrow : Except ε α → TraceM ε E α
  | .ok a => pure a
  | .error err => throw err

def outcome : EStateM.Result ε (List E) α → Option α × List E
  | .ok a trace => (some a, trace)
  | .error _ trace => (none, trace)

def traceOf (x : TraceM ε E α) : List E := (outcome (x [])).2

/-- Whatever was recorded before, `x` adds events that stand in the relation `T` to its
result. -/
def Traces (x : TraceM ε E α) (T : Option α → List E → Prop) : Prop :=
  ∀ before, ∃ new, (outcome (x before)).2 = before ++ new ∧ T (outcome (x before)).1 new

variable {x : TraceM ε E α} {f : α → TraceM ε E β} {T : Option α → List E → Prop} {U : Option β → List E → Prop}
  {a : α} {err : ε} {y : Except ε α}

theorem traces_pure (h : T (some a) []) : Traces (pure a : TraceM ε E α) T :=
  fun before => ⟨[], (List.append_nil before).symm, h⟩

theorem traces_throw (h : T none []) : Traces (throw err : TraceM ε E α) T :=
  fun before => ⟨[], (List.append_nil before).symm, h⟩

theorem traces_throw_bind (h : U none []) : Traces ((throw err : TraceM ε E α) >>= f) U :=
  fun before => ⟨[], (List.append_nil before).symm, h⟩

theorem traces_orThrow (herror : T none []) (hok : ∀ a, y = .ok a → T (some a) []) :
    Traces (orThrow y : TraceM ε E α) T := by
  cases y with
  | ok a => exact traces_pure (hok a rfl)
  | error err => exact traces_throw herror

theorem traces_orThrow_bind (herror : U none []) (hok : ∀ a, y = .ok a → Traces (f a) U) :
    Traces (orThrow y >>= f) U := by
  cases y with
  | ok a => exact hok a rfl
  | error err => exact traces_throw_bind herror

theorem orThrow_ok_bind : (orThrow (.ok a) >>= f : TraceM ε E β) = f a := rfl

theorem traces_record_bind {e : E} {f : Unit → TraceM ε E β} (h : Traces (f ()) fun b new => U b (e :: new)) :
    Traces (record e >>= f) U := by
  intro before
  obtain ⟨new, hnew, hU⟩ := h (before ++ [e])
  exact ⟨e :: new, hnew.trans (List.append_assoc ..), hU⟩

/-- The events of the first part are handed on to the rest. -/
theorem Traces.bind (hx : Traces x T) (hfail : ∀ new, T none new → U none new)
    (hf : ∀ a new, T (some a) new → Traces (f a) fun b new' => U b (new ++ new')) : Traces (x >>= f) U := by
  intro before
  obtain ⟨new, hnew, hT⟩ := hx before
  simp only [Bind.bind, EStateM.bind]
  cases hres : x before with
  | error err after =>
    rw [hres] at hnew hT
    exact ⟨new, hnew, hfail new hT⟩
  | ok a after =>
    rw [hres] at hnew hT
    obtain ⟨new', hnew', hU⟩ := hf a new hT after
    refine ⟨new ++ new', hnew'.trans ?_, hU⟩
    rw [show after = before ++ new from hnew, List.append_assoc]

theorem Traces.mono {T' : Option α → List E → Prop} (h : Traces x T)
    (hT : ∀ r new, T r new → T' r new) : Traces x T' := by
  intro before
  obtain ⟨new, hnew, h⟩ := h before
  exact ⟨new, hnew, hT _ _ h⟩

theorem Traces.of_traceOf (h : Traces x T) : ∃ r, T r (traceOf x) := by
  obtain ⟨new, hnew, hT⟩ := h []
  rw [traceOf, hnew]
  exact ⟨_, hT⟩

end AntsClient.Lib.Trace

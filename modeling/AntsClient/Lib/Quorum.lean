import Mathlib.Tactic

namespace AntsClient.Lib.Quorum

variable {α : Type*} {l : List α} {A B bad : α → Bool}

theorem countP_add_countP_le (h : ∀ x ∈ l, A x → B x → bad x) :
    l.countP A + l.countP B ≤ l.length + l.countP bad := by
  induction l with
  | nil => simp
  | cons x l ih =>
    obtain ⟨hx, hl⟩ := List.forall_mem_cons.mp h
    have := ih hl
    simp only [List.countP_cons, List.length_cons]
    cases hA : A x <;> cases hB : B x <;> cases hbad : bad x <;> simp_all <;> omega

/-- Two quorums of two thirds have a member in common that is not bad, if fewer than
a third of all members are. -/
theorem exists_common (hA : 2 * l.length ≤ 3 * l.countP A) (hB : 2 * l.length ≤ 3 * l.countP B)
    (hbad : 3 * l.countP bad < l.length) : ∃ x ∈ l, A x ∧ B x ∧ ¬bad x := by
  by_contra hall
  push Not at hall
  have := countP_add_countP_le hall
  omega

/-- So has any one quorum by itself. -/
theorem exists_member (hA : 2 * l.length ≤ 3 * l.countP A) (hbad : 3 * l.countP bad < l.length) :
    ∃ x ∈ l, A x ∧ ¬bad x := by
  obtain ⟨x, hx, hAx, -, hb⟩ := exists_common hA hA hbad
  exact ⟨x, hx, hAx, hb⟩

end AntsClient.Lib.Quorum

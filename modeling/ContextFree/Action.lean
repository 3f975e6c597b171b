import ContextFree.Symbol

/-!
# Actions that may run out of symbols

Handing out symbols changes a state and may fail. What an action did before it failed stays done.
The lemmas say what the steps of an action do to a state.
-/

namespace ContextFree

/-- An action on a state of type `σ` that may run out of symbols. -/
abbrev Action (σ : Type) : Type → Type :=
  EStateM OutOfSymbols σ

/-- What an action comes to: an answer or the failure, and the state after it. -/
abbrev Outcome (σ α : Type) : Type :=
  EStateM.Result OutOfSymbols σ α

namespace Action

variable {σ α β : Type}

theorem pure_apply (a : α) (s : σ) : (pure a : Action σ α) s = .ok a s :=
  rfl

theorem get_apply (s : σ) : (get : Action σ σ) s = .ok s s :=
  rfl

theorem modify_apply (f : σ → σ) (s : σ) : (modify f : Action σ PUnit) s = .ok ⟨⟩ (f s) :=
  rfl

theorem bind_apply (m : Action σ α) (f : α → Action σ β) (s : σ) :
    (m >>= f) s =
      match m s with
      | .ok a s' => f a s'
      | .error e s' => .error e s' := by
  simp only [bind, EStateM.bind]
  cases m s <;> rfl

/-- Two actions in a row succeed if the first one does and then the second one. -/
theorem bind_eq_ok_iff {m : Action σ α} {f : α → Action σ β} {s s'' : σ} {b : β} :
    (m >>= f) s = .ok b s'' ↔ ∃ a s', m s = .ok a s' ∧ f a s' = .ok b s'' := by
  rw [bind_apply]
  constructor
  · intro h
    split at h
    next a s' hm => exact ⟨a, s', hm, h⟩
    · cases h
  · rintro ⟨a, s', hm, hf⟩
    rw [hm]
    exact hf

/-- Two actions in a row fail if the first one does, or if the second one does after it. -/
theorem bind_eq_error_iff {m : Action σ α} {f : α → Action σ β} {s s'' : σ} {e : OutOfSymbols} :
    (m >>= f) s = .error e s'' ↔
      m s = .error e s'' ∨ ∃ a s', m s = .ok a s' ∧ f a s' = .error e s'' := by
  rw [bind_apply]
  constructor
  · intro h
    split at h
    next a s' hm => exact .inr ⟨a, s', hm, h⟩
    next hm =>
      cases h
      exact .inl hm
  · rintro (hm | ⟨a, s', hm, hf⟩)
    · rw [hm]
    · rw [hm]
      exact hf

/-- An action whose only answer is put into a list. -/
theorem singleton_eq_ok_iff {m : Action σ α} {s s' : σ} {answers : List α} :
    (do return [← m] : Action σ (List α)) s = .ok answers s' ↔
      ∃ a, answers = [a] ∧ m s = .ok a s' := by
  simp only [bind_eq_ok_iff, pure_apply, EStateM.Result.ok.injEq]
  constructor
  · rintro ⟨a, _, hm, rfl, rfl⟩
    exact ⟨a, rfl, hm⟩
  · rintro ⟨a, rfl, hm⟩
    exact ⟨a, s', hm, rfl, rfl⟩

end Action

end ContextFree

/-!
# Computations that may fail

A chain of computations has a result exactly when every link of it has one. Runs and readings are taken apart
with these equivalences, and no proof opens the monad.
-/

namespace Offside

variable {α β ε : Type}

theorem ok_bind (value : α) (next : α → Except ε β) : (Except.ok value >>= next) = next value := rfl

theorem bind_eq_ok {first : Except ε α} {next : α → Except ε β} {result : β} :
    (first >>= next) = .ok result ↔ ∃ value, first = .ok value ∧ next value = .ok result := by
  constructor
  · intro h
    cases hfirst : first with
    | error e => rw [hfirst] at h; exact nomatch h
    | ok value => exact ⟨value, rfl, by rw [hfirst] at h; exact h⟩
  · rintro ⟨value, rfl, h⟩
    exact h

/-- A chain fails at its first link or behind it. -/
theorem bind_eq_error {first : Except ε α} {next : α → Except ε β} {e : ε} :
    (first >>= next) = .error e ↔ first = .error e ∨ ∃ value, first = .ok value ∧ next value = .error e := by
  constructor
  · intro h
    cases hfirst : first with
    | error e' => rw [hfirst] at h; exact .inl (congrArg Except.error (Except.error.inj h))
    | ok value => exact .inr ⟨value, rfl, by rw [hfirst] at h; exact h⟩
  · rintro (rfl | ⟨value, rfl, h⟩)
    · rfl
    · exact h

theorem pure_eq_ok {value result : α} : (pure value : Except ε α) = .ok result ↔ value = result :=
  Except.ok.injEq value result ▸ Iff.rfl

theorem map_eq_ok {first : Except ε α} {f : α → β} {result : β} :
    first.map f = .ok result ↔ ∃ value, first = .ok value ∧ f value = result := by
  constructor
  · intro h
    cases hfirst : first with
    | error e => rw [hfirst] at h; exact nomatch h
    | ok value => exact ⟨value, rfl, by rw [hfirst] at h; exact Except.ok.inj h⟩
  · rintro ⟨value, rfl, rfl⟩
    rfl

theorem exists_eq_ok {attempt : Except ε α} (h : attempt.isOk = true) : ∃ value, attempt = .ok value :=
  match attempt, h with
  | .ok value, _ => ⟨value, rfl⟩

instance decidableEqExcept [DecidableEq ε] [DecidableEq α] : DecidableEq (Except ε α)
  | .ok a, .ok b => decidable_of_iff (a = b) (Except.ok.injEq a b ▸ Iff.rfl)
  | .error e, .error e' => decidable_of_iff (e = e') (Except.error.injEq e e' ▸ Iff.rfl)
  | .ok _, .error _ => isFalse nofun
  | .error _, .ok _ => isFalse nofun

end Offside

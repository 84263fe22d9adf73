/-!
# Outcomes of stages

A stage of the toolchain gives a result or an error.  What it gives is handed on with `map`,
which keeps the errors, or with `mapError`, which keeps the results.  The lemmas here say
where an outcome comes from that was handed on in one of these ways.  Outcomes can be compared, so a
stage can be run on a given input and its outcome decided.
-/

namespace WireLambda

variable {ε ε' α β : Type}

/-- Outcomes are compared by what they give. -/
instance decidableEqOutcome [DecidableEq ε] [DecidableEq α] : DecidableEq (Except ε α)
  | .error d, .error e => decidable_of_iff (d = e) ⟨congrArg Except.error, Except.error.inj⟩
  | .ok a, .ok b => decidable_of_iff (a = b) ⟨congrArg Except.ok, Except.ok.inj⟩
  | .error _, .ok _ => isFalse (by intro h; cases h)
  | .ok _, .error _ => isFalse (by intro h; cases h)

theorem isOk_iff {r : Except ε α} : r.isOk = true ↔ ∃ a, r = .ok a := by
  cases r with
  | error e =>
    constructor
    · intro h
      cases h
    · intro h
      rcases h with ⟨a, ha⟩
      cases ha
  | ok a => exact iff_of_true rfl ⟨a, rfl⟩

theorem map_eq_ok_iff {f : α → β} {r : Except ε α} {b : β} :
    r.map f = .ok b ↔ ∃ a, r = .ok a ∧ f a = b := by
  cases r with
  | error e =>
    constructor
    · intro h
      cases h
    · intro h
      rcases h with ⟨a, ha, -⟩
      cases ha
  | ok a =>
    constructor
    · intro h
      exact ⟨a, rfl, Except.ok.inj h⟩
    · intro h
      rcases h with ⟨a', ha, rfl⟩
      rw [Except.ok.inj ha]
      rfl

theorem map_eq_error_iff {f : α → β} {r : Except ε α} {e : ε} :
    r.map f = .error e ↔ r = .error e := by
  cases r with
  | error d =>
    constructor
    · intro h
      exact congrArg Except.error (Except.error.inj h)
    · intro h
      exact congrArg Except.error (Except.error.inj h)
  | ok a =>
    constructor
    · intro h
      cases h
    · intro h
      cases h

theorem mapError_eq_ok_iff {f : ε → ε'} {r : Except ε α} {a : α} :
    r.mapError f = .ok a ↔ r = .ok a := by
  cases r with
  | error d =>
    constructor
    · intro h
      cases h
    · intro h
      cases h
  | ok b =>
    constructor
    · intro h
      exact congrArg Except.ok (Except.ok.inj h)
    · intro h
      exact congrArg Except.ok (Except.ok.inj h)

theorem mapError_eq_error_iff {f : ε → ε'} {r : Except ε α} {e : ε'} :
    r.mapError f = .error e ↔ ∃ d, r = .error d ∧ f d = e := by
  cases r with
  | error d =>
    constructor
    · intro h
      exact ⟨d, rfl, Except.error.inj h⟩
    · intro h
      rcases h with ⟨d', hd, rfl⟩
      rw [Except.error.inj hd]
      rfl
  | ok a =>
    constructor
    · intro h
      cases h
    · intro h
      rcases h with ⟨d, hd, -⟩
      cases hd

end WireLambda

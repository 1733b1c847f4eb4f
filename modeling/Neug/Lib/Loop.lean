import Mathlib

/-! Loops that end when a step finds nothing to do. -/
namespace Neug.Lib

variable {σ : Type} (step : σ → Option σ)

def runLoop : ℕ → σ → Option σ
  | 0, _ => none
  | fuel + 1, st =>
    match step st with
    | none => some st
    | some st' => runLoop fuel st'

variable {step} {P : σ → Prop} {st st' : σ} {fuel : ℕ}

theorem runLoop_keeps (hkeep : ∀ st st', P st → step st = some st' → P st') (hst : P st)
    (h : runLoop step fuel st = some st') : P st' ∧ step st' = none := by
  induction fuel generalizing st with
  | zero => cases h
  | succ fuel ih =>
    rw [runLoop] at h
    cases hstep : step st with
    | none =>
      rw [hstep] at h
      cases h
      exact ⟨hst, hstep⟩
    | some next =>
      rw [hstep] at h
      exact ih (hkeep st next hst hstep) h

theorem runLoop_returns (hkeep : ∀ st st', P st → step st = some st' → P st') (measure : σ → ℕ)
    (hlower : ∀ st st', P st → step st = some st' → measure st' < measure st) (hst : P st)
    (hfuel : measure st < fuel) : ∃ st', runLoop step fuel st = some st' := by
  induction fuel generalizing st with
  | zero => exact absurd hfuel (Nat.not_lt_zero _)
  | succ fuel ih =>
    rw [runLoop]
    cases hstep : step st with
    | none => exact ⟨st, rfl⟩
    | some next =>
      have hless := hlower st next hst hstep
      apply ih (hkeep st next hst hstep)
      omega

end Neug.Lib

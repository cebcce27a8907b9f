import Mathlib.Data.List.Basic

set_option autoImplicit false

/-! # Runs of step functions

A step function gives the state that follows a state, or none where a run ends. What holds of the
start and is kept by each step holds at every moment of a run (`Steps.after_induction`). -/

namespace SliceLint

namespace Steps

variable {σ : Type} {step : σ → Option σ}

/-- The state after some steps, if the run gets that far. -/
def after (step : σ → Option σ) : Nat → σ → Option σ
  | 0, s => some s
  | n + 1, s => (step s).bind (after step n)

theorem after_succ {s t : σ} (h : step s = some t) (n : Nat) :
    after step (n + 1) s = after step n t := by
  rw [after, h, Option.bind_some]

theorem after_add (m n : Nat) (s : σ) :
    after step (m + n) s = (after step m s).bind (after step n) := by
  induction m generalizing s with
  | zero =>
      rw [Nat.zero_add]
      rfl
  | succ m ih =>
      rw [Nat.add_right_comm, after, after, Option.bind_assoc]
      congr 1
      funext t
      exact ih t

/-- A run that got to a state goes on from there. -/
theorem after_add_of_eq {m : Nat} {s t : σ} (h : after step m s = some t) (n : Nat) :
    after step (m + n) s = after step n t := by
  rw [after_add, h, Option.bind_some]

/-- Nothing follows the end of a run. -/
theorem after_eq_none {m n : Nat} {s t : σ} (h : after step m s = some t) (hend : step t = none)
    (hlt : m < n) : after step n s = none := by
  obtain ⟨k, rfl⟩ := Nat.exists_eq_add_of_lt hlt
  rw [Nat.add_assoc, after_add_of_eq h, after, hend, Option.bind_none]

theorem after_induction {P : σ → Prop} (hstep : ∀ s t, step s = some t → P s → P t) {n : Nat}
    {s t : σ} (h : after step n s = some t) (hs : P s) : P t := by
  induction n generalizing s with
  | zero =>
      obtain rfl := Option.some.inj h
      exact hs
  | succ n ih =>
      obtain ⟨next, hnext, hrest⟩ := Option.bind_eq_some_iff.1 h
      exact ih hrest (hstep s next hnext hs)

end Steps

end SliceLint

import Hydrogen.Lib.Machine

/-!
# Specifications and simulation

A specification is an initial state and a relation of allowed steps, over any type of states. `Simulates C N R` says that
a machine, by steps permitted by `C`, does only what the specification `N` allows: from states related by `R`, a step of
the machine is matched by a step of `N` or by none. Then every state the machine reaches is related to one the
specification reaches (`Simulates.reachable`), which has the invariants of the specification
(`Spec.Reachable.invariant`).
-/

/-- An initial state and the allowed steps. -/
structure Spec (τ : Type) where
  init : τ
  next : τ → τ → Prop

namespace Spec

variable {τ : Type} (N : Spec τ)

/-- The states the specification reaches. -/
inductive Reachable : τ → Prop
  | init : Reachable N.init
  | next {x y : τ} : Reachable x → N.next x y → Reachable y

variable {N}

/-- What holds initially and is kept by every allowed step. -/
theorem Reachable.invariant {P : τ → Prop} (h0 : P N.init) (hs : ∀ x y, P x → N.next x y → P y) {x : τ}
    (h : N.Reachable x) : P x := by
  induction h with
  | init => exact h0
  | next _ hn ih => exact hs _ _ ih hn

end Spec

namespace Machine

variable {σ α τ : Type} (M : Machine σ α) (C : σ → α → Prop) (N : Spec τ) (R : σ → τ → Prop)

/-- Every permitted step from related states is matched by an allowed step or by none. -/
structure Simulates : Prop where
  init : R M.init N.init
  step : ∀ s a t x, M.ReachableIf C s → R s x → C s a → M.step s a = some t → ∃ y, (y = x ∨ N.next x y) ∧ R t y

variable {M C N R}

/-- **The rule of simulation.** -/
theorem Simulates.reachable (h : M.Simulates C N R) {s : σ} (hs : M.ReachableIf C s) :
    ∃ x, N.Reachable x ∧ R s x := by
  induction hs with
  | init => exact ⟨N.init, .init, h.init⟩
  | step hs hc hst ih =>
    obtain ⟨x, hx, hr⟩ := ih
    obtain ⟨y, hy, hr'⟩ := h.step _ _ _ x hs hr hc hst
    rcases hy with rfl | hy
    · exact ⟨y, hx, hr'⟩
    · exact ⟨y, hx.next hy, hr'⟩

end Machine

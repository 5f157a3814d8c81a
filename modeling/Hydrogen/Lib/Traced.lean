import Mathlib.Data.List.Basic

/-!
# Programs that leave a trace

A program with effects that others see, which may end early: by an exception, or by what must not happen. What it comes
to is the list of its effects, in order, and the way it ended. Effects made before an early end stay made.
-/

/-- How a program came to its end, if it did. -/
inductive TracedOutcome (χ α : Type) where
  | value (a : α)
  | left (e : χ)
  | outOfFuel
  deriving DecidableEq

/-- The effects of a program and its outcome. -/
structure Traced (ε χ α : Type) where
  effects : List ε
  outcome : TracedOutcome χ α
  deriving DecidableEq

namespace Traced

variable {ε χ α β : Type}

protected def bind (x : Traced ε χ α) (f : α → Traced ε χ β) : Traced ε χ β :=
  match x.outcome with
  | .value a => ⟨x.effects ++ (f a).effects, (f a).outcome⟩
  | .left e => ⟨x.effects, .left e⟩
  | .outOfFuel => ⟨x.effects, .outOfFuel⟩

instance : Monad (Traced ε χ) where
  pure := fun a => ⟨[], .value a⟩
  bind := Traced.bind

/-- One effect after the other. -/
def emit (es : List ε) : Traced ε χ Unit := ⟨es, .value ()⟩

/-- An early end. -/
def leave (e : χ) : Traced ε χ α := ⟨[], .left e⟩

@[simp] theorem pure_eq (a : α) : (pure a : Traced ε χ α) = ⟨[], .value a⟩ := rfl

@[simp] theorem value_bind (es : List ε) (a : α) (f : α → Traced ε χ β) :
    (⟨es, .value a⟩ : Traced ε χ α) >>= f = ⟨es ++ (f a).effects, (f a).outcome⟩ := rfl

@[simp] theorem left_bind (es : List ε) (e : χ) (f : α → Traced ε χ β) :
    (⟨es, .left e⟩ : Traced ε χ α) >>= f = ⟨es, .left e⟩ := rfl

@[simp] theorem outOfFuel_bind (es : List ε) (f : α → Traced ε χ β) :
    (⟨es, .outOfFuel⟩ : Traced ε χ α) >>= f = ⟨es, .outOfFuel⟩ := rfl

end Traced

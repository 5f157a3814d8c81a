import Mathlib.Logic.Relation

/-!
# Machines whose labels resolve every choice

A machine is an initial state and a partial step function: the label of a step says which of the enabled transitions
is taken, so an interleaving of several threads is a list of labels. `ReachableIf C` are the states reached by steps
that are only taken where `C` holds; `Reachable` puts no condition. An invariant of the steps holds in every state
reached (`ReachableIf.invariant`), and a run of explicit labels is a way to reach its last state (`exists_reachableIf`).
-/

/-- An initial state and a labelled partial step function. -/
structure Machine (σ α : Type) where
  init : σ
  step : σ → α → Option σ

namespace Machine

variable {σ α : Type} (M : Machine σ α)

/-- The states reached by steps taken where `C` holds of the state before the step and the label. -/
inductive ReachableIf (C : σ → α → Prop) : σ → Prop
  | init : ReachableIf C M.init
  | step {s t : σ} {a : α} : ReachableIf C s → C s a → M.step s a = some t → ReachableIf C t

/-- The states reached by any steps. -/
def Reachable (s : σ) : Prop := M.ReachableIf (fun _ _ => True) s

variable {M}

/-- **The invariant rule**: what holds initially and is kept by every permitted step holds in every state reached. -/
theorem ReachableIf.invariant {C : σ → α → Prop} {I : σ → Prop} (h0 : I M.init)
    (hs : ∀ s a t, I s → C s a → M.step s a = some t → I t) {s : σ} (h : M.ReachableIf C s) : I s := by
  induction h with
  | init => exact h0
  | step _ hc hst ih => exact hs _ _ _ ih hc hst

theorem ReachableIf.mono {C D : σ → α → Prop} (hcd : ∀ s a, C s a → D s a) {s : σ} (h : M.ReachableIf C s) :
    M.ReachableIf D s := by
  induction h with
  | init => exact .init
  | step _ hc hst ih => exact .step ih (hcd _ _ hc) hst

theorem Reachable.invariant {I : σ → Prop} (h0 : I M.init) (hs : ∀ s a t, I s → M.step s a = some t → I t) {s : σ}
    (h : M.Reachable s) : I s :=
  ReachableIf.invariant h0 (fun s a t hi _ hst => hs s a t hi hst) h

variable (M) (C : σ → α → Prop) [∀ s a, Decidable (C s a)]

/-- The run of a list of labels, as far as `C` permits. -/
def exec : σ → List α → Option σ
  | s, [] => some s
  | s, a :: as => if C s a then (M.step s a).bind fun t => exec t as else none

variable {M} {C}

theorem reachableIf_exec : ∀ {as : List α} {s t : σ}, M.ReachableIf C s → M.exec C s as = some t → M.ReachableIf C t
  | [], _, _, h, he => by cases he; exact h
  | a :: as, s, t, h, he => by
    unfold exec at he
    split at he
    · rename_i hc
      obtain ⟨u, hu, he⟩ := Option.bind_eq_some_iff.mp he
      exact reachableIf_exec (.step h hc hu) he
    · cases he

variable (M) (C)

/-- What is observed at the end of an explicit run is observed in a state reached. -/
theorem exists_reachableIf {β : Type} (as : List α) (f : σ → β) (b : β) (h : (M.exec C M.init as).map f = some b) :
    ∃ s, M.ReachableIf C s ∧ f s = b := by
  obtain ⟨s, hs, hf⟩ := Option.map_eq_some_iff.mp h
  exact ⟨s, reachableIf_exec .init hs, hf⟩

end Machine

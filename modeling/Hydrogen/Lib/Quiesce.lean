import Hydrogen.Lib.Machine
import Mathlib.Order.WellFounded

/-!
# Runs that come to rest

`Quiesces C Q s` says of the runs of a machine from `s` by steps permitted by `C` that none of them is endless, and that
one that cannot go on has ended where `Q` holds: whatever order the steps are taken in, the machine comes to rest in `Q`.
No fairness is assumed.

The rule `quiesces_of_wf` derives it from an invariant under which every permitted step goes down in a well-founded
order, and under which a state without a permitted step is one of `Q`.
-/

namespace Machine

variable {σ α : Type} (M : Machine σ α) (C : σ → α → Prop)

/-- A permitted step. -/
def Next (s t : σ) : Prop := ∃ a, C s a ∧ M.step s a = some t

/-- The states of the permitted runs from `s`. -/
def Continues (s t : σ) : Prop := Relation.ReflTransGen (M.Next C) s t

/-- There is no permitted step. -/
def Stuck (s : σ) : Prop := ∀ a, C s a → M.step s a = none

/-- Every permitted run from `s` is finite, and one that cannot go on has reached `Q`. -/
structure Quiesces (Q : σ → Prop) (s : σ) : Prop where
  ends : ¬∃ run : Nat → σ, run 0 = s ∧ ∀ n, M.Next C (run n) (run (n + 1))
  final : ∀ t, M.Continues C s t → M.Stuck C t → Q t

variable {M C}

theorem Continues.invariant {I : σ → Prop} (hs : ∀ s a t, I s → C s a → M.step s a = some t → I t) {s t : σ}
    (h : M.Continues C s t) (hi : I s) : I t := by
  induction h with
  | refl => exact hi
  | tail _ hn ih =>
    obtain ⟨a, hc, hst⟩ := hn
    exact hs _ _ _ ih hc hst

/-- **The rule of coming to rest.** -/
theorem quiesces_of_wf {τ : Type} {r : τ → τ → Prop} (hwf : WellFounded r) (m : σ → τ) {I Q : σ → Prop}
    (hs : ∀ s a t, I s → C s a → M.step s a = some t → I t ∧ r (m t) (m s))
    (hf : ∀ s, I s → M.Stuck C s → Q s) {s : σ} (hi : I s) : M.Quiesces C Q s := by
  have hinv : ∀ s a t, I s → C s a → M.step s a = some t → I t := fun s a t h hc hst => (hs s a t h hc hst).1
  constructor
  · rintro ⟨run, hrun, hnext⟩
    have hall : ∀ n, I (run n) := by
      intro n
      induction n with
      | zero => rw [hrun]; exact hi
      | succ n ih =>
        obtain ⟨a, hc, hst⟩ := hnext n
        exact hinv _ _ _ ih hc hst
    refine (wellFounded_iff_isEmpty_descending_chain.mp hwf).false ⟨fun n => m (run n), fun n => ?_⟩
    obtain ⟨a, hc, hst⟩ := hnext n
    exact (hs _ _ _ (hall n) hc hst).2
  · intro t ht hstuck
    exact hf t (ht.invariant hinv hi) hstuck

/-- A machine that comes to rest does so somewhere. -/
theorem Quiesces.exists_final {Q : σ → Prop} {s : σ} (h : M.Quiesces C Q s) : ∃ t, M.Continues C s t ∧ Q t := by
  by_contra hnone
  -- where `Q` never holds, every state reached has a step, and the choices make an endless run
  have hgo : ∀ t : { t // M.Continues C s t }, ∃ u : { t // M.Continues C s t }, M.Next C t.1 u.1 := by
    rintro ⟨t, ht⟩
    have hmore : ¬M.Stuck C t := fun hstuck => hnone ⟨t, ht, h.final t ht hstuck⟩
    obtain ⟨a, hmore⟩ := not_forall.mp hmore
    obtain ⟨hc, hst⟩ := Classical.not_imp.mp hmore
    obtain ⟨u, hu⟩ := Option.ne_none_iff_exists'.mp hst
    exact ⟨⟨u, ht.tail ⟨a, hc, hu⟩⟩, a, hc, hu⟩
  choose f hfn using hgo
  let run : Nat → { t // M.Continues C s t } := Nat.rec ⟨s, .refl⟩ fun _ => f
  exact h.ends ⟨fun n => (run n).1, rfl, fun n => hfn (run n)⟩

end Machine

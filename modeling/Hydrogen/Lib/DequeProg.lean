import Mathlib.Data.List.Basic

/-!
# Programs over a shared deque

A `Prog ρ ε α` is a thread that reads the size of a deque of `ρ`, pops and pushes at its back, and ends with an `α`
or a fault `ε`. It has two meanings:

* alone, on a deque nobody else touches (`run`);
* operation by operation (`step`), so that other threads can push at the back between two operations.

`Sat p Q q` is the rule of pre- and postconditions for the second: whatever the others push before each operation, `p`
never faults, never blocks, and ends in an `a` and a deque `q'` with `Q x a q'`, where `x` is all that the others
pushed. It is kept by the others' pushes (`Sat.env`) and by the program's steps (`Sat.step`), and gives the result of
the program alone (`Sat.run`).
-/

/-- A thread's program over a deque. -/
inductive Prog (ρ ε α : Type) where
  | ret (a : α)
  | fault (e : ε)
  | size (k : Nat → Prog ρ ε α)
  | popBack (k : ρ → Prog ρ ε α)
  | pushBack (r : ρ) (k : Prog ρ ε α)

/-- How a program ends when it runs alone. -/
inductive Outcome (ρ ε α : Type) where
  | done (a : α) (q : List ρ)
  | fault (e : ε)
  | blocked
  deriving DecidableEq

namespace Outcome

variable {ρ ε α β : Type}

/-- Continue with the result, if there is one. -/
def bind : Outcome ρ ε α → (α → List ρ → Outcome ρ ε β) → Outcome ρ ε β
  | .done a q, f => f a q
  | .fault e, _ => .fault e
  | .blocked, _ => .blocked

@[simp] theorem bind_done (a : α) (q : List ρ) (f : α → List ρ → Outcome ρ ε β) : (done a q).bind f = f a q := rfl

end Outcome

namespace Prog

variable {ρ ε α β : Type}

/-- Sequencing. -/
def bind : Prog ρ ε α → (α → Prog ρ ε β) → Prog ρ ε β
  | .ret a, f => f a
  | .fault e, _ => .fault e
  | .size k, f => .size fun n => (k n).bind f
  | .popBack k, f => .popBack fun r => (k r).bind f
  | .pushBack r k, f => .pushBack r (k.bind f)

instance : Monad (Prog ρ ε) where
  pure := .ret
  bind := bind

/-- The number of elements. -/
def getSize : Prog ρ ε Nat := .size .ret

/-- Take the element at the back; waits while there is none. -/
def waitPopBack : Prog ρ ε ρ := .popBack .ret

/-- Put elements at the back, one by one. -/
def pushAll : List ρ → Prog ρ ε Unit
  | [] => .ret ()
  | r :: rs => .pushBack r (pushAll rs)

/-! ## Alone -/

/-- The run of a program alone. -/
def run : Prog ρ ε α → List ρ → Outcome ρ ε α
  | .ret a, q => .done a q
  | .fault e, _ => .fault e
  | .size k, q => (k q.length).run q
  | .popBack k, q =>
    match q.getLast? with
    | none => .blocked
    | some r => (k r).run q.dropLast
  | .pushBack r k, q => k.run (q ++ [r])

@[simp] theorem run_pure (a : α) (q : List ρ) : (pure a : Prog ρ ε α).run q = .done a q := rfl

@[simp] theorem run_fault (e : ε) (q : List ρ) : (fault e : Prog ρ ε α).run q = .fault e := rfl

@[simp] theorem run_bind : ∀ (p : Prog ρ ε α) (f : α → Prog ρ ε β) (q : List ρ),
    (p >>= f).run q = (p.run q).bind fun a q' => (f a).run q'
  | .ret _, _, _ => rfl
  | .fault _, _, _ => rfl
  | .size k, f, q => run_bind (k q.length) f q
  | .popBack k, f, q => by
    show (Prog.popBack fun r => (k r).bind f).run q = _
    simp only [run]
    cases q.getLast? with
    | none => rfl
    | some r => exact run_bind (k r) f q.dropLast
  | .pushBack r k, f, q => run_bind k f (q ++ [r])

@[simp] theorem run_getSize (q : List ρ) : (getSize : Prog ρ ε Nat).run q = .done q.length q := rfl

@[simp] theorem run_waitPopBack (q : List ρ) (r : ρ) :
    (waitPopBack : Prog ρ ε ρ).run (q ++ [r]) = .done r q := by
  simp [waitPopBack, run]

@[simp] theorem run_pushAll : ∀ (rs q : List ρ), (pushAll rs : Prog ρ ε Unit).run q = .done () (q ++ rs)
  | [], q => by simp [pushAll, run]
  | r :: rs, q => by
    show (pushAll rs : Prog ρ ε Unit).run (q ++ [r]) = _
    rw [run_pushAll rs, List.append_assoc, List.singleton_append]

/-! ## Among other threads -/

/-- The next operation of a program. -/
def step : Prog ρ ε α → List ρ → Option (Prog ρ ε α × List ρ)
  | .ret _, _ => none
  | .fault _, _ => none
  | .size k, q => some (k q.length, q)
  | .popBack k, q => q.getLast?.map fun r => (k r, q.dropLast)
  | .pushBack r k, q => some (k, q ++ [r])

/-- The program ends well, with `Q`, whatever the others push at the back before each of its operations. -/
def Sat : Prog ρ ε α → (List ρ → α → List ρ → Prop) → List ρ → Prop
  | .ret a, Q, q => ∀ x, Q x a (q ++ x)
  | .fault _, _, _ => False
  | .size k, Q, q => ∀ x, (k (q ++ x).length).Sat (fun y => Q (x ++ y)) (q ++ x)
  | .popBack k, Q, q => ∀ x, ∃ q' r, q ++ x = q' ++ [r] ∧ (k r).Sat (fun y => Q (x ++ y)) q'
  | .pushBack r k, Q, q => ∀ x, k.Sat (fun y => Q (x ++ y)) (q ++ x ++ [r])

/-- Others' pushes keep `Sat`. -/
theorem Sat.env {p : Prog ρ ε α} {Q : List ρ → α → List ρ → Prop} {q : List ρ} (h : p.Sat Q q) (x : List ρ) :
    p.Sat (fun y => Q (x ++ y)) (q ++ x) := by
  cases p with
  | ret a => intro y; rw [List.append_assoc]; exact h (x ++ y)
  | fault e => exact h
  | size k => intro y; simpa only [List.append_assoc] using h (x ++ y)
  | popBack k =>
    intro y
    obtain ⟨q', r, he, hs⟩ := h (x ++ y)
    exact ⟨q', r, by rw [List.append_assoc]; exact he, by simpa only [List.append_assoc] using hs⟩
  | pushBack r k => intro y; simpa only [List.append_assoc] using h (x ++ y)

/-- The program's own operations keep `Sat`. -/
theorem Sat.step {p p' : Prog ρ ε α} {Q : List ρ → α → List ρ → Prop} {q q' : List ρ} (h : p.Sat Q q)
    (hs : p.step q = some (p', q')) : p'.Sat Q q' := by
  cases p with
  | ret a => cases hs
  | fault e => cases hs
  | size k =>
    cases hs
    simpa using h []
  | popBack k =>
    obtain ⟨q₀, r, he, hk⟩ := h []
    simp only [List.append_nil] at he
    subst he
    simp only [Prog.step, List.getLast?_append, List.getLast?_singleton, Option.some_or, Option.map_some,
      List.dropLast_concat, Option.some.injEq, Prod.mk.injEq] at hs
    obtain ⟨rfl, rfl⟩ := hs
    simpa using hk
  | pushBack r k =>
    cases hs
    simpa using h []

theorem Sat.mono : ∀ {p : Prog ρ ε α} {Q Q' : List ρ → α → List ρ → Prop} {q : List ρ}, p.Sat Q q →
    (∀ x a q', Q x a q' → Q' x a q') → p.Sat Q' q
  | .ret _, _, _, _, h, hq => fun x => hq _ _ _ (h x)
  | .fault _, _, _, _, h, _ => h
  | .size _, _, _, _, h, hq => fun x => (h x).mono fun _ _ _ => hq _ _ _
  | .popBack _, _, _, _, h, hq => fun x => by
    obtain ⟨q', r, he, hk⟩ := h x
    exact ⟨q', r, he, hk.mono fun _ _ _ => hq _ _ _⟩
  | .pushBack _ _, _, _, _, h, hq => fun x => (h x).mono fun _ _ _ => hq _ _ _

/-- **The rule of sequencing.** -/
theorem Sat.bind : ∀ {p : Prog ρ ε α} {f : α → Prog ρ ε β} {Q : List ρ → β → List ρ → Prop} {q : List ρ},
    p.Sat (fun x a q' => (f a).Sat (fun y => Q (x ++ y)) q') q → (p >>= f).Sat Q q
  | .ret a, f, Q, q, h => by
    show (f a).Sat Q q
    simpa using h []
  | .fault _, _, _, _, h => h
  | .size _, _, _, _, h => fun x => Sat.bind ((h x).mono fun _ _ _ hs => by simpa only [List.append_assoc] using hs)
  | .popBack _, _, _, _, h => fun x => by
    obtain ⟨q', r, he, hk⟩ := h x
    exact ⟨q', r, he, Sat.bind (hk.mono fun _ _ _ hs => by simpa only [List.append_assoc] using hs)⟩
  | .pushBack _ _, _, _, _, h => fun x =>
    Sat.bind ((h x).mono fun _ _ _ hs => by simpa only [List.append_assoc] using hs)

theorem Sat.pure {a : α} {Q : List ρ → α → List ρ → Prop} {q : List ρ} (h : ∀ x, Q x a (q ++ x)) :
    (pure a : Prog ρ ε α).Sat Q q := h

theorem sat_getSize {q : List ρ} :
    (getSize : Prog ρ ε Nat).Sat (fun x n q' => ∃ y z, x = y ++ z ∧ n = (q ++ y).length ∧ q' = q ++ x) q :=
  fun x y => ⟨x, y, rfl, rfl, by rw [List.append_assoc]⟩

theorem sat_waitPopBack {q : List ρ} (h : q ≠ []) :
    (waitPopBack : Prog ρ ε ρ).Sat (fun x r q' => ∃ y z w, x = y ++ z ∧ q ++ y = w ++ [r] ∧ q' = w ++ z) q := by
  intro x
  have hx : q ++ x ≠ [] := fun e => h (List.append_eq_nil_iff.mp e).1
  refine ⟨(q ++ x).dropLast, (q ++ x).getLast hx, (List.dropLast_append_getLast hx).symm, fun y => ?_⟩
  exact ⟨x, y, _, rfl, (List.dropLast_append_getLast hx).symm, rfl⟩

theorem sat_pushAll : ∀ (rs q : List ρ),
    (pushAll rs : Prog ρ ε Unit).Sat (fun x _ q' => q'.Perm (q ++ rs ++ x)) q
  | [], q => fun x => by simp
  | r :: rs, q => fun x => by
    refine (sat_pushAll rs (q ++ x ++ [r])).mono fun y _ q' h => h.trans ?_
    have : (x ++ ([r] ++ rs)).Perm ([r] ++ rs ++ x) := List.perm_append_comm
    simpa using (this.append_right y).append_left q

/-- A program that ends well has ended or has a next operation. -/
theorem Sat.progress {p : Prog ρ ε α} {Q : List ρ → α → List ρ → Prop} {q : List ρ} (h : p.Sat Q q) :
    (∃ a, p = .ret a) ∨ ∃ p' q', p.step q = some (p', q') := by
  cases p with
  | ret a => exact .inl ⟨a, rfl⟩
  | fault e => exact absurd h id
  | size k => exact .inr ⟨_, _, rfl⟩
  | popBack k =>
    obtain ⟨q', r, he, -⟩ := h []
    rw [List.append_nil] at he
    exact .inr ⟨k r, q', by simp [Prog.step, he]⟩
  | pushBack r k => exact .inr ⟨_, _, rfl⟩

/-- **The rule of conjunction.** -/
theorem Sat.and : ∀ {p : Prog ρ ε α} {Q Q' : List ρ → α → List ρ → Prop} {q : List ρ}, p.Sat Q q → p.Sat Q' q →
    p.Sat (fun x a q' => Q x a q' ∧ Q' x a q') q
  | .ret _, _, _, _, h, h' => fun x => ⟨h x, h' x⟩
  | .fault _, _, _, _, h, _ => h
  | .size _, _, _, _, h, h' => fun x => (h x).and (h' x)
  | .popBack _, _, _, _, h, h' => fun x => by
    obtain ⟨q₁, r₁, he, hk⟩ := h x
    obtain ⟨q₂, r₂, he', hk'⟩ := h' x
    rw [he] at he'
    obtain ⟨rfl, hr⟩ := List.append_inj' he' rfl
    cases hr
    exact ⟨q₁, r₁, he, hk.and hk'⟩
  | .pushBack _ _, _, _, _, h, h' => fun x => (h x).and (h' x)

/-- A program that is right among other threads is right alone. -/
theorem Sat.run : ∀ {p : Prog ρ ε α} {Q : List ρ → α → List ρ → Prop} {q : List ρ}, p.Sat Q q →
    ∃ a q', p.run q = .done a q' ∧ Q [] a q'
  | .ret a, Q, q, h => ⟨a, q, rfl, by simpa using h []⟩
  | .fault _, _, _, h => absurd h id
  | .size k, Q, q, h => by simpa [Prog.run] using (h []).run
  | .popBack k, Q, q, h => by
    obtain ⟨q', r, he, hk⟩ := h []
    simp only [List.append_nil] at he
    subst he
    obtain ⟨a, q₁, h1, h2⟩ := hk.run
    exact ⟨a, q₁, by simpa [Prog.run] using h1, h2⟩
  | .pushBack r k, Q, q, h => by simpa [Prog.run] using (h []).run

end Prog

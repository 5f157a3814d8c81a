import Hydrogen.Lib.Quiesce
import Mathlib.Data.List.Basic

/-!
# The ready queue, section by section

The ready queue is a `concurrent_deque`: handlers push at its front, release the mutex and then call `notify_one`;
`schedLoop` waits in `wait_not_empty`, looks at the pool, locks the queue for `ManagedMode` and removes the jobs that
were chosen. That the queue is not empty is found out in one section and used in a later one. Nobody else removes jobs
and nobody else waits, so this is safe: `ManagedMode` reads one state of the queue, with a job in it, what is removed is
there, and `schedLoop` does not sleep while there is a job (`schedLoop_wakes`).

A step is a section under the mutex, a `notify_one` or a wake-up without cause. The search of `removeJobFromReadyQ` is
taken into the section of its `erase`.
-/

namespace Hydrogen

namespace ReadyQueue

variable {α : Type}

/-! ## The code -/

/-- Where a handler is. -/
inductive PushPc where
  /-- about to push, or done -/
  | outside
  /-- it has pushed and released the mutex; about to call `notify_one` -/
  | toNotify
  deriving DecidableEq

/-- Where `schedLoop` is. -/
inductive LoopPc (α : Type) where
  /-- about to call `wait_not_empty` -/
  | entering
  /-- in `cv.wait` -/
  | waiting
  /-- woken, and has not got the mutex back -/
  | woken
  /-- out of `wait_not_empty`, about to look at the size of the pool -/
  | looking
  /-- about to lock the queue -/
  | locking
  /-- in `ManagedMode`, holding the mutex, with what it reads -/
  | managing (rq : List α)
  /-- in `serviceAllocations`, with the jobs to be removed -/
  | servicing (todo : List α)
  deriving DecidableEq

/-- The queue, the handlers and `schedLoop`. -/
structure Shared (α : Type) where
  deq : List α
  handlers : List PushPc
  loop : LoopPc α

/-- `schedLoop` holds the mutex. -/
def LoopPc.locks : LoopPc α → Bool
  | managing _ => true
  | _ => false

/-- `schedLoop` is in `wait_not_empty`. -/
def LoopPc.inWait : LoopPc α → Bool
  | entering | waiting | woken => true
  | _ => false

/-- Which thread takes the next step. -/
inductive Act (α : Type) where
  /-- a handler pushes a job -/
  | push (t : Nat) (x : α)
  /-- a handler calls `notify_one` -/
  | notifyOne (t : Nat)
  /-- a wake-up without cause -/
  | wake
  /-- `schedLoop` tests whether the queue is empty -/
  | test
  /-- `schedLoop` looks whether the pool has a resource -/
  | look (resource : Bool)
  | lock
  /-- `ManagedMode` has chosen these jobs, and `schedLoop` unlocks the queue -/
  | unlock (chosen : List α)
  /-- `schedLoop` removes the next job, or is done -/
  | remove

/-- One step. -/
def Shared.step [DecidableEq α] (s : Shared α) : Act α → Option (Shared α)
  | .push t x =>
    if s.handlers[t]? = some .outside ∧ s.loop.locks = false then
      some { s with deq := x :: s.deq, handlers := s.handlers.set t .toNotify }
    else none
  | .notifyOne t =>
    if s.handlers[t]? = some .toNotify then
      some { s with handlers := s.handlers.set t .outside, loop := if s.loop = .waiting then .woken else s.loop }
    else none
  | .wake => if s.loop = .waiting then some { s with loop := .woken } else none
  | .test =>
    if s.loop = .entering ∨ s.loop = .woken then some { s with loop := if s.deq = [] then .waiting else .looking }
    else none
  | .look resource =>
    if s.loop = .looking then some { s with loop := if resource then .locking else .entering } else none
  | .lock => if s.loop = .locking then some { s with loop := .managing s.deq } else none
  | .unlock chosen =>
    match s.loop with
    | .managing rq => if chosen.Nodup ∧ chosen ⊆ rq then some { s with loop := .servicing chosen } else none
    | _ => none
  | .remove =>
    match s.loop with
    | .servicing [] => some { s with loop := .entering }
    | .servicing (x :: todo) => some { s with deq := s.deq.erase x, loop := .servicing todo }
    | _ => none

/-- The queue with so many handlers. -/
def machine (α : Type) [DecidableEq α] (n : Nat) : Machine (Shared α) (Act α) where
  init := ⟨[], List.replicate n .outside, .entering⟩
  step := fun s a => s.step a

/-! ## The invariant -/

variable {s s' : Shared α}

/-- What `schedLoop` knows about the queue where it is. -/
def Safe (s : Shared α) : Prop :=
  match s.loop with
  | .waiting => s.deq ≠ [] → .toNotify ∈ s.handlers
  | .looking | .locking => s.deq ≠ []
  | .managing rq => rq = s.deq ∧ rq ≠ []
  | .servicing todo => todo.Nodup ∧ todo ⊆ s.deq
  | .entering | .woken => True

/-- A push brings its own notification, and takes nothing away. -/
theorem safe_push {t : Nat} {x : α} (h : Safe s) (ht : s.handlers[t]? = some .outside) (hlock : s.loop.locks = false) :
    Safe { s with deq := x :: s.deq, handlers := s.handlers.set t .toNotify } := by
  obtain ⟨hlt, -⟩ := List.getElem?_eq_some_iff.mp ht
  obtain ⟨deq, handlers, loop⟩ := s
  cases loop with
  | waiting => exact fun _ => List.mem_set hlt _
  | managing rq => cases hlock
  | servicing todo => exact ⟨h.1, List.subset_cons_of_subset x h.2⟩
  | looking => exact List.cons_ne_nil _ _
  | locking => exact List.cons_ne_nil _ _
  | entering => trivial
  | woken => trivial

/-! ## What a step can do -/

variable [DecidableEq α]

/-- The steps, with what they need. -/
inductive Step (s : Shared α) : Shared α → Prop where
  | push {t : Nat} {x : α} : s.handlers[t]? = some .outside → s.loop.locks = false →
      Step s { s with deq := x :: s.deq, handlers := s.handlers.set t .toNotify }
  | notify {t : Nat} : s.handlers[t]? = some .toNotify →
      Step s { s with handlers := s.handlers.set t .outside, loop := if s.loop = .waiting then .woken else s.loop }
  | wake : s.loop = .waiting → Step s { s with loop := .woken }
  | sleep : s.deq = [] → Step s { s with loop := .waiting }
  | pass : s.deq ≠ [] → Step s { s with loop := .looking }
  | go : s.loop = .looking → Step s { s with loop := .locking }
  | again : Step s { s with loop := .entering }
  | lock : s.loop = .locking → Step s { s with loop := .managing s.deq }
  | unlock {rq chosen : List α} : s.loop = .managing rq → chosen.Nodup → chosen ⊆ rq →
      Step s { s with loop := .servicing chosen }
  | remove {x : α} {todo : List α} : s.loop = .servicing (x :: todo) →
      Step s { s with deq := s.deq.erase x, loop := .servicing todo }

/-- Every step is one of these. -/
theorem step_cases {a : Act α} (h : s.step a = some s') : Step s s' := by
  cases a with
  | push t x =>
    simp only [Shared.step, Option.ite_none_right_eq_some, Option.some.injEq] at h
    obtain ⟨⟨ht, hlock⟩, rfl⟩ := h
    exact .push ht hlock
  | notifyOne t =>
    simp only [Shared.step, Option.ite_none_right_eq_some, Option.some.injEq] at h
    obtain ⟨ht, rfl⟩ := h
    exact .notify ht
  | wake =>
    simp only [Shared.step, Option.ite_none_right_eq_some, Option.some.injEq] at h
    obtain ⟨hloop, rfl⟩ := h
    exact .wake hloop
  | test =>
    simp only [Shared.step, Option.ite_none_right_eq_some, Option.some.injEq] at h
    obtain ⟨-, rfl⟩ := h
    split
    · exact .sleep ‹_›
    · exact .pass ‹_›
  | look resource =>
    simp only [Shared.step, Option.ite_none_right_eq_some, Option.some.injEq] at h
    obtain ⟨hloop, rfl⟩ := h
    cases resource with
    | true => exact .go hloop
    | false => exact .again
  | lock =>
    simp only [Shared.step, Option.ite_none_right_eq_some, Option.some.injEq] at h
    obtain ⟨hloop, rfl⟩ := h
    exact .lock hloop
  | unlock chosen =>
    simp only [Shared.step] at h
    split at h
    · rename_i rq hloop
      simp only [Option.ite_none_right_eq_some, Option.some.injEq] at h
      obtain ⟨⟨hnd, hsub⟩, rfl⟩ := h
      exact .unlock hloop hnd hsub
    · cases h
  | remove =>
    simp only [Shared.step] at h
    split at h
    · cases h
      exact .again
    · rename_i hloop
      cases h
      exact .remove hloop
    · cases h

/-- **Every step keeps the invariant.** -/
theorem safe_step (h : Safe s) (hstep : Step s s') : Safe s' := by
  cases hstep with
  | push ht hlock => exact safe_push h ht hlock
  | @notify t ht =>
    obtain ⟨deq, handlers, loop⟩ := s
    cases loop with
    | waiting => trivial
    | _ => exact h
  | wake _ => trivial
  | sleep hnil => exact fun hne => absurd hnil hne
  | pass hne => exact hne
  | go hloop =>
    rw [Safe, hloop] at h
    exact h
  | again => trivial
  | lock hloop =>
    rw [Safe, hloop] at h
    exact ⟨rfl, h⟩
  | unlock hloop hnd hsub =>
    rw [Safe, hloop] at h
    obtain ⟨rfl, -⟩ := h
    exact ⟨hnd, hsub⟩
  | @remove x todo hloop =>
    rw [Safe, hloop] at h
    obtain ⟨hnd, hsub⟩ := h
    obtain ⟨hx, hnd⟩ := List.nodup_cons.mp hnd
    refine ⟨hnd, fun y hy => ?_⟩
    have hne : y ≠ x := fun he => hx (he ▸ hy)
    exact (List.mem_erase_of_ne hne).mpr (hsub (List.mem_cons_of_mem _ hy))

theorem safe_init (n : Nat) : Safe (machine α n).init := trivial

theorem reachable_safe {n : Nat} (h : (machine α n).Reachable s) : Safe s :=
  h.invariant (safe_init n) fun _ _ _ hi hst => safe_step hi (step_cases hst)

/-! ## Waking up -/

/-- Nothing but notifications and the tests of `wait_not_empty`. -/
def Settling (_ : Shared α) : Act α → Prop
  | .notifyOne _ | .test => True
  | _ => False

/-- The tests that are due. -/
def LoopPc.due : LoopPc α → Nat
  | entering | woken => 1
  | _ => 0

/-- The notifications still to be issued and the tests that are due. -/
def Shared.left (s : Shared α) : Nat := 2 * s.handlers.count .toNotify + s.loop.due

/-- `schedLoop` is in `wait_not_empty`, or out of it, and the queue is `q`. -/
structure Settled (q : List α) (s : Shared α) : Prop where
  safe : Safe s
  deq : s.deq = q
  loop : s.loop.inWait = true ∨ s.loop = .looking

theorem settling_step {q : List α} {a : Act α} (hq : q ≠ []) (h : Settled q s) (ha : Settling s a)
    (hs : s.step a = some s') : Settled q s' ∧ s'.left < s.left := by
  have hsafe := safe_step h.safe (step_cases hs)
  cases a with
  | notifyOne t =>
    simp only [Shared.step, Option.ite_none_right_eq_some, Option.some.injEq] at hs
    obtain ⟨ht, rfl⟩ := hs
    obtain ⟨hlt, hget⟩ := List.getElem?_eq_some_iff.mp ht
    have hpos : 0 < s.handlers.count .toNotify := List.count_pos_iff.mpr (List.mem_of_getElem? ht)
    have hcount : (s.handlers.set t .outside).count .toNotify + 1 = s.handlers.count .toNotify := by
      rw [List.count_set hlt, hget]
      simp
      omega
    refine ⟨⟨hsafe, h.deq, ?_⟩, ?_⟩
    · dsimp only
      split
      · exact .inl rfl
      · exact h.loop
    · show 2 * (s.handlers.set t .outside).count .toNotify + _ < 2 * s.handlers.count .toNotify + s.loop.due
      have hdue : LoopPc.due (if s.loop = .waiting then .woken else s.loop) ≤ s.loop.due + 1 := by
        split
        · exact Nat.le_add_left 1 _
        · exact Nat.le_succ _
      dsimp only at hdue ⊢
      omega
  | test =>
    simp only [Shared.step, Option.ite_none_right_eq_some, Option.some.injEq] at hs
    obtain ⟨hloop, rfl⟩ := hs
    have hne : s.deq ≠ [] := by rw [h.deq]; exact hq
    rw [if_neg hne] at hsafe ⊢
    refine ⟨⟨hsafe, h.deq, .inr rfl⟩, ?_⟩
    have hdue : s.loop.due = 1 := by rcases hloop with hloop | hloop <;> rw [hloop] <;> rfl
    show 2 * s.handlers.count .toNotify + 0 < 2 * s.handlers.count .toNotify + s.loop.due
    omega
  | _ => cases ha

/-- Where no notification and no test is left, `wait_not_empty` has returned. -/
theorem looking_of_stuck {n : Nat} {q : List α} (hq : q ≠ []) (h : Settled q s)
    (hstuck : (machine α n).Stuck Settling s) : s.loop = .looking ∧ s.deq = q := by
  refine ⟨h.loop.resolve_left fun hwait => ?_, h.deq⟩
  have htest : s.step .test = none := hstuck .test trivial
  have hnotify : ∀ t, s.step (.notifyOne t) = none := fun t => hstuck (.notifyOne t) trivial
  have hsafe := h.safe
  cases hloop : s.loop with
  | entering => simp [Shared.step, hloop] at htest
  | woken => simp [Shared.step, hloop] at htest
  | waiting =>
    rw [Safe, hloop] at hsafe
    obtain ⟨t, ht⟩ := List.mem_iff_getElem?.mp (hsafe (by rw [h.deq]; exact hq))
    have hnone := hnotify t
    simp [Shared.step, ht] at hnone
  | _ =>
    rw [hloop] at hwait
    cases hwait

/-- **`schedLoop` and its queue**, with any number of handlers, in whatever order the sections, notifications and
wake-ups fall: `ManagedMode` reads one state of the queue, with a job in it; a job that is to be removed is there; and
from `wait_not_empty`, while there is a job, the notifications still to come and the tests that follow end, with
`schedLoop` out of it and the queue as it was. -/
theorem schedLoop_wakes (n : Nat) (s : Shared α) (h : (machine α n).Reachable s) :
    (∀ rq, s.loop = .managing rq → rq = s.deq ∧ rq ≠ []) ∧
      (∀ x todo, s.loop = .servicing (x :: todo) → x ∈ s.deq) ∧
      (s.loop.inWait = true → s.deq ≠ [] →
        (machine α n).Quiesces Settling (fun t => t.loop = .looking ∧ t.deq = s.deq) s) := by
  have hsafe := reachable_safe h
  refine ⟨fun rq hloop => ?_, fun x todo hloop => ?_, fun hwait hne => ?_⟩
  · rw [Safe, hloop] at hsafe
    exact hsafe
  · rw [Safe, hloop] at hsafe
    exact hsafe.2 List.mem_cons_self
  · exact Machine.quiesces_of_wf Nat.lt_wfRel.wf Shared.left (I := Settled s.deq)
      (fun _ _ _ hi ha hst => settling_step hne hi ha hst) (fun _ hi hstuck => looking_of_stuck hne hi hstuck)
      ⟨hsafe, rfl, .inl hwait⟩

/-- `schedLoop` sleeps, and a handler has pushed and not yet notified. -/
theorem schedLoop_wakes_one : ∃ s, (machine Nat 1).Reachable s ∧ s.loop = .waiting ∧ s.deq = [7] ∧
    (machine Nat 1).Quiesces Settling (fun t => t.loop = .looking ∧ t.deq = s.deq) s := by
  obtain ⟨s, hr, hs⟩ := (machine Nat 1).exists_reachableIf (fun _ _ => True) [.test, .push 0 7]
    (fun s => (s.loop, s.deq)) (.waiting, [7]) rfl
  obtain ⟨hloop, hdeq⟩ := Prod.mk.inj hs
  exact ⟨s, hr, hloop, hdeq, (schedLoop_wakes 1 s hr).2.2 (by rw [hloop]; rfl) (by rw [hdeq]; decide)⟩

end ReadyQueue

end Hydrogen

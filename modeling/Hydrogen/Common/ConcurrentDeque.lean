import Hydrogen.Lib.Machine
import Mathlib.Data.List.Perm.Basic

/-!
# The concurrent deque

`concurrent_deque` is a deque behind a mutex, with a condition variable for those who wait for an element. A push
releases the mutex before it calls `notify_one`, so that between the two any thread may take the element; a thread that
was woken looks at the deque again, and may find it empty. A step here is a section under the mutex, a `notify_one`, or
a wake-up without cause.

Whenever a thread waits, every element is matched by a notification that is still to come or by a thread that was
notified and has not got the mutex back (`no_missed_wakeup`). No element is lost or popped twice (`conserved`).
-/

namespace Hydrogen

namespace ConcurrentDeque

variable {α : Type}

/-! ## The code -/

/-- The two ends. -/
inductive End where
  | front
  | back
  deriving DecidableEq

/-- The element at an end, and the rest. -/
def End.pop : End → List α → Option (α × List α)
  | _, [] => none
  | front, x :: deq => some (x, deq)
  | back, x :: deq => some ((x :: deq).getLast (List.cons_ne_nil x deq), (x :: deq).dropLast)

/-- `push_front` and `push_back`. -/
def End.push : End → α → List α → List α
  | front, x, deq => x :: deq
  | back, x, deq => deq ++ [x]

/-- Where a thread is. -/
inductive Pc where
  /-- between two calls -/
  | idle
  /-- it has pushed and released the mutex; about to call `notify_one` -/
  | toNotify
  /-- in `cv.wait`, to pop at an end -/
  | waiting (e : End)
  /-- woken by a notification, and has not got the mutex back -/
  | notified (e : End)
  /-- woken without one, and has not got the mutex back -/
  | awake (e : End)
  deriving DecidableEq

def Pc.isToNotify : Pc → Bool
  | toNotify => true
  | _ => false

def Pc.isWaiting : Pc → Bool
  | waiting _ => true
  | _ => false

def Pc.isNotified : Pc → Bool
  | notified _ => true
  | _ => false

/-- The deque and the threads that use it. -/
structure Shared (α : Type) where
  deq : List α
  threads : List Pc
  /-- history: the elements pushed -/
  pushed : List α
  /-- history: the elements popped -/
  popped : List α
  deriving DecidableEq

namespace Shared

/-- The notifications still to be issued. -/
def toNotify (s : Shared α) : Nat := s.threads.countP Pc.isToNotify

/-- The threads waiting on the condition variable. -/
def waiting (s : Shared α) : Nat := s.threads.countP Pc.isWaiting

/-- The notified threads that have not got the mutex back. -/
def notified (s : Shared α) : Nat := s.threads.countP Pc.isNotified

/-- A thread moves. -/
def move (s : Shared α) (t : Nat) (pc : Pc) : Shared α := { s with threads := s.threads.set t pc }

/-- The section of `push_front` and `push_back`. -/
def push (e : End) (t : Nat) (x : α) (s : Shared α) : Shared α :=
  { s.move t .toNotify with deq := e.push x s.deq, pushed := x :: s.pushed }

/-- `cv.notify_one()`: it wakes one of the threads that wait, if there is one. -/
def notifyOne (t : Nat) (woken : Option Nat) (s : Shared α) : Option (Shared α) :=
  match woken with
  | none => if s.waiting = 0 then some (s.move t .idle) else none
  | some w =>
    match s.threads[w]? with
    | some (.waiting e) => some ((s.move t .idle).move w (.notified e))
    | _ => none

/-- The section of `try_pop_front` and `try_pop_back`. -/
def tryPop (e : End) (t : Nat) (s : Shared α) : Shared α :=
  match e.pop s.deq with
  | none => s
  | some (x, deq) => { s.move t .idle with deq, popped := x :: s.popped }

/-- A section of `wait_pop_front` and `wait_pop_back`, from the test of the loop on: it waits or pops. -/
def waitPop (e : End) (t : Nat) (s : Shared α) : Shared α :=
  match e.pop s.deq with
  | none => s.move t (.waiting e)
  | some (x, deq) => { s.move t .idle with deq, popped := x :: s.popped }

end Shared

/-- The next step of a thread. -/
inductive Act (α : Type) where
  | push (e : End) (x : α)
  | tryPop (e : End)
  | waitPop (e : End)
  | notifyOne (woken : Option Nat)
  | wake
  | reacquire

/-- A step of thread `t`. -/
def Shared.step (s : Shared α) (t : Nat) (a : Act α) : Option (Shared α) :=
  match a, s.threads[t]? with
  | .push e x, some .idle => some (s.push e t x)
  | .tryPop e, some .idle => some (s.tryPop e t)
  | .waitPop e, some .idle => some (s.waitPop e t)
  | .notifyOne woken, some .toNotify => s.notifyOne t woken
  | .wake, some (.waiting e) => some (s.move t (.awake e))
  | .reacquire, some (.notified e) => some (s.waitPop e t)
  | .reacquire, some (.awake e) => some (s.waitPop e t)
  | _, _ => none

/-- So many threads that use one deque. -/
def machine (α : Type) (n : Nat) : Machine (Shared α) (Nat × Act α) where
  init := ⟨[], List.replicate n .idle, [], []⟩
  step := fun s a => s.step a.1 a.2

/-! ## What a step can do -/

/-- The steps, with what they need. -/
inductive Step (s : Shared α) : Shared α → Prop where
  | push {t : Nat} {x : α} {deq : List α} : s.threads[t]? = some .idle → deq.Perm (x :: s.deq) →
      Step s { s.move t .toNotify with deq, pushed := x :: s.pushed }
  | pop {t : Nat} {pc : Pc} {x : α} {deq : List α} : s.threads[t]? = some pc → pc.isWaiting = false →
      pc.isToNotify = false → s.deq.Perm (x :: deq) → Step s { s.move t .idle with deq, popped := x :: s.popped }
  | fail : Step s s
  | wait {t : Nat} {e : End} : s.deq = [] → Step s (s.move t (.waiting e))
  | notify {t w : Nat} {e : End} : s.threads[t]? = some .toNotify → s.threads[w]? = some (.waiting e) →
      Step s ((s.move t .idle).move w (.notified e))
  | notifyNobody {t : Nat} : s.threads[t]? = some .toNotify → s.waiting = 0 → Step s (s.move t .idle)
  | wake {t : Nat} {e : End} : s.threads[t]? = some (.waiting e) → Step s (s.move t (.awake e))

theorem End.perm_of_pop {e : End} {deq rest : List α} {x : α} (h : e.pop deq = some (x, rest)) :
    deq.Perm (x :: rest) := by
  cases deq with
  | nil => cases e <;> cases h
  | cons y deq =>
    cases e with
    | front =>
      cases h
      exact List.Perm.refl _
    | back =>
      cases h
      have hsplit := List.dropLast_append_getLast (List.cons_ne_nil y deq)
      exact (List.Perm.of_eq hsplit.symm).trans (List.perm_append_singleton _ _)

theorem End.nil_of_pop {e : End} {deq : List α} (h : e.pop deq = none) : deq = [] := by
  cases deq with
  | nil => rfl
  | cons x deq => cases e <;> cases h

theorem End.perm_push (e : End) (x : α) (deq : List α) : (e.push x deq).Perm (x :: deq) := by
  cases e with
  | front => exact List.Perm.refl _
  | back => exact List.perm_append_singleton x deq

theorem step_tryPop {s : Shared α} (e : End) {t : Nat} (ht : s.threads[t]? = some .idle) : Step s (s.tryPop e t) := by
  unfold Shared.tryPop
  split
  · exact .fail
  · rename_i hpop
    exact .pop ht rfl rfl (End.perm_of_pop hpop)

theorem step_waitPop {s : Shared α} (e : End) {t : Nat} {pc : Pc} (ht : s.threads[t]? = some pc)
    (hw : pc.isWaiting = false) (hn : pc.isToNotify = false) : Step s (s.waitPop e t) := by
  unfold Shared.waitPop
  split
  · rename_i hpop
    exact .wait (End.nil_of_pop hpop)
  · rename_i hpop
    exact .pop ht hw hn (End.perm_of_pop hpop)

theorem step_notifyOne {s s' : Shared α} {t : Nat} {woken : Option Nat} (ht : s.threads[t]? = some .toNotify)
    (h : s.notifyOne t woken = some s') : Step s s' := by
  unfold Shared.notifyOne at h
  split at h
  · split at h
    · rename_i hnone
      cases h
      exact .notifyNobody ht hnone
    · cases h
  · split at h
    · rename_i hw
      cases h
      exact .notify ht hw
    · cases h

/-- Every step is one of these. -/
theorem step_cases {s s' : Shared α} {t : Nat} {a : Act α} (h : s.step t a = some s') : Step s s' := by
  unfold Shared.step at h
  split at h
  · rename_i e x ht
    cases h
    exact .push ht (e.perm_push x s.deq)
  · rename_i e ht
    cases h
    exact step_tryPop e ht
  · rename_i e ht
    cases h
    exact step_waitPop e ht rfl rfl
  · rename_i ht
    exact step_notifyOne ht h
  · rename_i ht
    cases h
    exact .wake ht
  · rename_i e ht
    cases h
    exact step_waitPop e ht rfl rfl
  · rename_i e ht
    cases h
    exact step_waitPop e ht rfl rfl
  · cases h

/-! ## No missed wake-up -/

/-- The count of threads of a kind when one moves. -/
theorem countP_set_add {threads : List Pc} {t : Nat} {pc : Pc} (p : Pc → Bool) (pc' : Pc) (h : threads[t]? = some pc) :
    (threads.set t pc').countP p + (p pc).toNat = threads.countP p + (p pc').toNat := by
  obtain ⟨hlt, rfl⟩ := List.getElem?_eq_some_iff.mp h
  have hset := List.countP_set (p := p) (a := pc') hlt
  have hpos : p threads[t] = true → 0 < threads.countP p := fun hp =>
    List.countP_pos_iff.mpr ⟨_, List.getElem_mem hlt, hp⟩
  have hite : ∀ b : Bool, (if b = true then 1 else 0) = b.toNat := fun b => by cases b <;> rfl
  rw [hite, hite] at hset
  cases hp : p threads[t] with
  | false =>
    rw [hp, Bool.toNat_false] at hset
    rw [Bool.toNat_false]
    omega
  | true =>
    have := hpos hp
    rw [hp, Bool.toNat_true] at hset
    rw [Bool.toNat_true]
    omega

/-- All three counts. -/
theorem counts_move {s : Shared α} {t : Nat} {pc : Pc} (pc' : Pc) (h : s.threads[t]? = some pc) :
    (s.move t pc').waiting + pc.isWaiting.toNat = s.waiting + pc'.isWaiting.toNat ∧
      (s.move t pc').toNotify + pc.isToNotify.toNat = s.toNotify + pc'.isToNotify.toNat ∧
      (s.move t pc').notified + pc.isNotified.toNat = s.notified + pc'.isNotified.toNat :=
  ⟨countP_set_add _ _ h, countP_set_add _ _ h, countP_set_add _ _ h⟩

/-- **The invariant**: while a thread waits, the elements are covered. -/
def Covered (s : Shared α) : Prop := 0 < s.waiting → s.deq.length ≤ s.toNotify + s.notified

/-- A thread moves, but not to wait, and adds no more elements than notifications. -/
theorem Covered.move {s s' : Shared α} (h : Covered s) {t : Nat} {pc pc' : Pc} (ht : s.threads[t]? = some pc)
    (hthreads : s'.threads = s.threads.set t pc') (hpc : pc'.isWaiting = false)
    (hlen : s'.deq.length + (pc.isToNotify.toNat + pc.isNotified.toNat) ≤
      s.deq.length + (pc'.isToNotify.toNat + pc'.isNotified.toNat)) : Covered s' := by
  obtain ⟨hw, hi, hn⟩ := counts_move pc' ht
  rw [hpc, Bool.toNat_false] at hw
  have hwaiting : s'.waiting = (s.move t pc').waiting := congrArg (List.countP Pc.isWaiting) hthreads
  have htoNotify : s'.toNotify = (s.move t pc').toNotify := congrArg (List.countP Pc.isToNotify) hthreads
  have hnotified : s'.notified = (s.move t pc').notified := congrArg (List.countP Pc.isNotified) hthreads
  intro hpos
  have hold := h (by omega)
  omega

/-- **Every step keeps it.** A push brings its own notification; a notification that wakes a thread becomes that thread,
and one that wakes nobody finds nobody waiting; a thread that gets the mutex back takes an element or finds none. -/
theorem covered_step {s s' : Shared α} (h : Covered s) (hstep : Step s s') : Covered s' := by
  cases hstep with
  | @push t x deq ht hdeq =>
    refine h.move ht rfl rfl ?_
    show deq.length + 0 ≤ (x :: s.deq).length
    exact Nat.le_of_eq hdeq.length_eq
  | @pop t pc x deq ht _ hpi hdeq =>
    refine h.move ht rfl rfl ?_
    have hlen := hdeq.length_eq
    have hone := Bool.toNat_le pc.isNotified
    rw [List.length_cons] at hlen
    rw [hpi]
    show deq.length + (0 + pc.isNotified.toNat) ≤ s.deq.length + 0
    omega
  | fail => exact h
  | wait hnil =>
    intro _
    show s.deq.length ≤ _
    rw [hnil]
    exact Nat.zero_le _
  | @notify t w e ht hwait =>
    have hne : t ≠ w := by
      rintro rfl
      rw [ht] at hwait
      cases hwait
    have hwait' : (s.move t .idle).threads[w]? = some (.waiting e) := (List.getElem?_set_ne hne).trans hwait
    obtain ⟨hw, hi, hn⟩ := counts_move .idle ht
    obtain ⟨hw', hi', hn'⟩ := counts_move (.notified e) hwait'
    simp only [Pc.isWaiting, Pc.isToNotify, Pc.isNotified, Bool.toNat_false, Bool.toNat_true] at hw hi hn hw' hi' hn'
    intro hpos
    have hold := h (by omega)
    show s.deq.length ≤ _
    omega
  | notifyNobody ht hnone =>
    obtain ⟨hw, -, -⟩ := counts_move .idle ht
    simp only [Pc.isWaiting, Bool.toNat_false] at hw
    intro hpos
    omega
  | wake ht => exact h.move ht rfl rfl (Nat.le_refl _)

theorem covered_init (n : Nat) : Covered (machine α n).init := fun _ => Nat.zero_le _

/-- **No wake-up is missed.** However many threads push, pop and wait, in whatever order their sections, notifications
and wake-ups fall: while some thread waits, there are at most as many elements as notifications to come and notified
threads that have not got the mutex back. -/
theorem no_missed_wakeup (n : Nat) {s : Shared α} (hreach : (machine α n).Reachable s) {t : Nat} {e : End}
    (hwait : s.threads[t]? = some (.waiting e)) : s.deq.length ≤ s.toNotify + s.notified := by
  have hcovered : Covered s :=
    hreach.invariant (covered_init n) fun _ _ _ hs hstep => covered_step hs (step_cases hstep)
  exact hcovered (List.countP_pos_iff.mpr ⟨_, List.mem_of_getElem? hwait, rfl⟩)

/-- A consumer waits; a producer has pushed and not yet notified. -/
theorem no_missed_wakeup_two : ∃ s : Shared Nat, s.threads = [.waiting .front, .toNotify] ∧ s.deq = [7] ∧
    s.deq.length ≤ s.toNotify + s.notified := by
  obtain ⟨s, hreach, hs⟩ := (machine Nat 2).exists_reachableIf (fun _ _ => True)
    [(0, .waitPop .front), (1, .push .back 7)] (fun s => (s.threads, s.deq)) ([.waiting .front, .toNotify], [7]) rfl
  obtain ⟨hthreads, hdeq⟩ := Prod.mk.inj hs
  exact ⟨s, hthreads, hdeq, no_missed_wakeup 2 hreach (t := 0) (by rw [hthreads]; rfl)⟩

/-! ## No lost element -/

/-- **Nothing is lost or duplicated**: what was pushed is what was popped and what is there. -/
theorem conserved (n : Nat) {s : Shared α} (hreach : (machine α n).Reachable s) :
    s.pushed.Perm (s.popped ++ s.deq) := by
  refine Machine.Reachable.invariant (I := fun s => s.pushed.Perm (s.popped ++ s.deq)) (List.Perm.refl [])
    (fun s _ s' hs hstep => ?_) hreach
  cases step_cases hstep with
  | @push t x deq _ hdeq =>
    have hmore : (x :: s.pushed).Perm (s.popped ++ x :: s.deq) := (hs.cons x).trans List.perm_middle.symm
    exact hmore.trans (hdeq.symm.append_left _)
  | @pop t pc x deq _ _ _ hdeq =>
    have hsplit : s.pushed.Perm (s.popped ++ x :: deq) := hs.trans (hdeq.append_left _)
    exact hsplit.trans List.perm_middle
  | _ => exact hs

end ConcurrentDeque

end Hydrogen

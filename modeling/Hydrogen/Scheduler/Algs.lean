import Hydrogen.Lib.DequeProg
import Hydrogen.Lib.StdAlgorithm
import Hydrogen.Scheduler.Allocations

/-!
# The scheduling algorithms

The algorithms of `algs.cpp` and the functions of the scheduler they call, as programs over the resource pool: each
read of the pool's size, each `wait_pop_back` and each `push_back` is one operation. The ready queue is an argument,
front first: `schedLoop` holds its lock while an algorithm runs.
-/

namespace Hydrogen

open StdAlgorithm

/-- What a C++ program must not do. -/
inductive Fault where
  /-- a null pointer is dereferenced -/
  | nullDereference
  /-- the end of a range is dereferenced -/
  | endDereference
  /-- more iterations than the bound of the model -/
  | loopBound
  deriving DecidableEq

/-- A program of the scheduler thread. -/
abbrev SchedProg := Prog Resource Fault

/-! ## Taking and returning resources -/

/-- The loop of `allocate`: at most `maxRes` more resources, as long as there are any. -/
def allocateLoop : Nat → List Resource → SchedProg (List Resource)
  | 0, acc => pure acc
  | maxRes + 1, acc => do
    if (← Prog.getSize) > 0 then
      let r ← Prog.waitPopBack
      allocateLoop maxRes (acc ++ [r])
    else pure acc

/-- `allocate`. -/
def allocate (maxRes minRes : Nat) : SchedProg (List Resource) := do
  if (← Prog.getSize) ≥ minRes then allocateLoop maxRes []
  else pure []

/-- `Allocations::returnResources`: every resource back to the pool, pair by pair. -/
def returnResources (a : Allocations) : SchedProg Unit := Prog.pushAll a.resources

/-! ## First come, first served -/

/-- The loop the three variants share: give each job of the window in turn up to `maxOf` and at least `minOf`
resources, and stop at the first that gets none. -/
def fcfsLoop (maxOf minOf : Job → Nat) : List Job → Allocations → SchedProg Allocations
  | [], a => pure a
  | j :: js, a => do
    let resourceList ← allocate (maxOf j) (minOf j)
    if resourceList.length > 0 then fcfsLoop maxOf minOf js (a.addJobResourcePair j resourceList)
    else pure a

/-- An algorithm of the table: a program for a ready queue and a window. -/
abbrev Alg := List Job → Nat → SchedProg Allocations

/-- `FCFSMin`. -/
def fcfsMin : Alg := fun rq window => fcfsLoop Job.min Job.min (rq.take window) .empty

/-- `FCFSAsManyAsPos`. -/
def fcfsAsManyAsPos : Alg := fun rq window => fcfsLoop Job.max Job.min (rq.take window) .empty

/-- `FCFSMax`. -/
def fcfsMax : Alg := fun rq window => fcfsLoop Job.max Job.max (rq.take window) .empty

/-! ## By priority and by time -/

def sortByPriority (i j : Job) : Bool := i.priority < j.priority

def sortByTime (fp : Arith) (i j : Job) : Bool := (i.minCost fp).lt (j.minCost fp)

def sortByMin (i j : Job) : Bool := i.min < j.min

/-- The loop `Priority` and `SJTF` share. `elem` is the slot `next` found; the pointer in it is dereferenced before the
slot is compared with the end of the live part (`inside`). -/
def pickLoop (next : List (Option Job) → Nat → Option Nat) (demand : Job → Nat) (inside : Nat → Nat → Bool) :
    Nat → List (Option Job) → Nat → Nat → Allocations → SchedProg Allocations
  | 0, _, _, _, _ => .fault .loopBound
  | fuel + 1, jobWindow, nend, elem, alloc =>
    match jobWindow[elem]? with
    | none => .fault .endDereference
    | some none => pure alloc
    | some (some j) => do
      if demand j < (← Prog.getSize) ∧ inside elem nend = true then
        let resourceList ← allocate j.max j.max
        let removed := remove jobWindow nend elem
        match next removed.1 removed.2 with
        | none => .fault .nullDereference
        | some elem' =>
          pickLoop next demand inside fuel removed.1 removed.2 elem' (alloc.addJobResourcePair j resourceList)
      else pure alloc

/-- Sort the window, find the first element and start the loop. -/
def pick (sorted : List Job) (next : List (Option Job) → Nat → Option Nat) (demand : Job → Nat)
    (inside : Nat → Nat → Bool) : SchedProg Allocations :=
  let jobWindow := sorted.map some
  match next jobWindow jobWindow.length with
  | none => .fault .nullDereference
  | some elem => pickLoop next demand inside (jobWindow.length + 1) jobWindow jobWindow.length elem .empty

section Sorted

variable (fp : Arith) (sort : StdSort Job)

/-- `Priority`. -/
def priority : Alg := fun rq window =>
  pick (sort.sort sortByPriority (rq.take window)) (maxElement sortByPriority) Job.max (fun elem nend => elem ≠ nend)

/-- `SJTF`. -/
def sjtf : Alg := fun rq window =>
  if rq.length = 0 then pure .empty
  else pick (sort.sort (sortByTime fp) (rq.take window)) (minElement sortByMin) Job.min (fun elem nend => elem < nend)

/-! ## Managed mode -/

/-- The algorithms `main` registers before `ManagedMode`, in order. -/
def algVec : List Alg := [fcfsMax, fcfsMin, fcfsAsManyAsPos, sjtf fp sort, priority sort]

/-- `schedule`: null without free resources or waiting jobs. -/
def schedule (alg : Alg) (rq : List Job) (window : Nat) : SchedProg (Option Allocations) := do
  if (← Prog.getSize) > 0 ∧ rq.length > 0 then return some (← alg rq window)
  else return none

/-- The trial schedules: run each algorithm and return what it took. -/
def trials (rq : List Job) (window : Nat) : List Alg → SchedProg (List Allocations)
  | [] => pure []
  | alg :: algs => do
    match ← schedule alg rq window with
    | none => .fault .nullDereference
    | some a =>
      returnResources a
      return a :: (← trials rq window algs)

/-- The scheduler's `strat`, of which `score` knows two values. -/
inductive Strategy where
  | completionTime
  | fairness
  deriving DecidableEq

/-- The score of `noJobs` jobs that take `makespan`: the length of the queue for each, and their number divided by the
makespan. It is a `float`, and is stored as an `int`. -/
def scoreOf (qConst noJobs : Nat) (makespan : ExtRat) : Int :=
  fp.toInt (fp.addf (fp.float (qConst * noJobs : Nat)) (fp.divf (fp.float noJobs) makespan))

/-- `score`, for a ready queue of `readyQSize` jobs. -/
def score (strat : Strategy) (readyQSize : Nat) (a : Allocations) : Allocations :=
  match strat with
  | .completionTime =>
    if a.noJobs = 0 ∨ (a.makespan fp).le (.fin 0) = true then a.setScore 0
    else
      let qConst := if readyQSize > 0 then readyQSize else 1
      a.setScore (scoreOf fp qConst a.noJobs (a.makespan fp))
  | .fairness => a.setScore (fp.toInt a.totalPriorities)

/-- The loop of `selectMaxScore`: the best so far is replaced by whatever does not score less. The scores are compared
as `float`s. -/
def selectLoop : List Allocations → Allocations → Allocations
  | [], best => best
  | a :: as, best => selectLoop as (if (fp.float best.score).le (fp.float a.score) then a else best)

/-- `selectMaxScore`; none if there is no candidate. -/
def selectMaxScore : List Allocations → Option Allocations
  | [] => none
  | a :: as => some (selectLoop fp (a :: as) a)

/-- `ManagedMode`. -/
def managedMode (strat : Strategy) : Alg := fun rq window => do
  let allocations ← trials rq window (algVec fp sort)
  match selectMaxScore fp (allocations.map (score fp strat rq.length)) with
  | none => .fault .nullDereference
  | some mChoice => pure mChoice

end Sorted

end Hydrogen

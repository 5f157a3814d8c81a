import Hydrogen.Common.Job

/-!
# Allocations

What a scheduling algorithm returns: pairs of a waiting job and the resources it is to have, and a score.
-/

namespace Hydrogen

/-- `Allocations`. -/
structure Allocations where
  jobs : List JobResPair
  score : Int
  deriving DecidableEq

namespace Allocations

/-- The constructor. -/
def empty : Allocations := ⟨[], 0⟩

def addJobResourcePair (a : Allocations) (j : Job) (r : List Resource) : Allocations :=
  { a with jobs := a.jobs ++ [(j, r)] }

/-- The jobs, in the order they were added. -/
def jobList (a : Allocations) : List Job := a.jobs.map Prod.fst

/-- All resources, in the order they were taken. -/
def resources (a : Allocations) : List Resource := a.jobs.flatMap Prod.snd

@[simp] theorem jobList_empty : empty.jobList = [] := rfl

@[simp] theorem resources_empty : empty.resources = [] := rfl

@[simp] theorem jobList_add (a : Allocations) (j : Job) (r : List Resource) :
    (a.addJobResourcePair j r).jobList = a.jobList ++ [j] := by
  simp [jobList, addJobResourcePair]

@[simp] theorem resources_add (a : Allocations) (j : Job) (r : List Resource) :
    (a.addJobResourcePair j r).resources = a.resources ++ r := by
  simp [resources, addJobResourcePair]

variable (fp : Arith)

/-- `makespan`: the sum of the costs. -/
def makespan (a : Allocations) : ExtRat := a.jobs.foldl (fun sum p => fp.addf sum (p.cost fp)) (.fin 0)

/-- `totalPriorities`. -/
def totalPriorities (_ : Allocations) : ExtRat := .fin 1

/-- `noJobs`: the jobs that did get a resource. -/
def noJobs (a : Allocations) : Nat := (a.jobs.filter fun p => 0 < p.2.length).length

/-- `setScore`. -/
def setScore (a : Allocations) (x : Int) : Allocations := { a with score := x }

@[simp] theorem jobs_setScore (a : Allocations) (x : Int) : (a.setScore x).jobs = a.jobs := rfl

/-- `getJLOMetric`: the sum of the misses if there is one, else the sum of the slacks. -/
def getJLOMetric (a : Allocations) : ExtRat :=
  let sums := a.jobs.foldl (fun (s : ExtRat × ExtRat) p =>
    let jlo := p.1.getJlo fp p.2.length
    if jlo.lt (.fin 0) then (fp.addd s.1 jlo, s.2) else (s.1, fp.addd s.2 jlo)) (.fin 0, .fin 0)
  if sums.1.lt (.fin 0) then sums.1 else sums.2

end Allocations

end Hydrogen

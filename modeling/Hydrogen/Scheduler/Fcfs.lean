import Hydrogen.Scheduler.Lifecycle

/-!
# First come, first served

`concurrentHandler` pushes a job at the front of the ready queue and the three FCFS algorithms go through the queue from
the front. So the queue has the newest job first (`reachable_newestFirst`), an FCFS algorithm serves a first part of it
(`jobList_fcfs`), and whenever it serves a job at all while another waits, the newest one is served before the others:
first come is first served only where there is nothing to decide (`fcfs_firstCome_iff`).
-/

namespace Hydrogen

/-- The three algorithms. -/
inductive Fcfs where
  | min
  | asManyAsPos
  | max
  deriving DecidableEq

namespace Fcfs

/-- The algorithm of the table. -/
def alg : Fcfs → Alg
  | min => fcfsMin
  | asManyAsPos => fcfsAsManyAsPos
  | max => fcfsMax

/-- The resources it gives a job at most. -/
def most : Fcfs → Job → Nat
  | min => Job.min
  | asManyAsPos => Job.max
  | max => Job.max

/-- The resources it must find for a job. -/
def demand : Fcfs → Job → Nat
  | min => Job.min
  | asManyAsPos => Job.min
  | max => Job.max

theorem alg_eq (v : Fcfs) (rq : List Job) (w : Nat) : v.alg rq w = fcfsLoop v.most v.demand (rq.take w) .empty := by
  cases v <;> rfl

theorem one_le_most (v : Fcfs) (j : Job) : 1 ≤ v.most j := by
  cases v with
  | min => exact j.one_le_min
  | asManyAsPos => exact j.one_le_min.trans j.min_le_max
  | max => exact j.one_le_min.trans j.min_le_max

theorem one_le_demand (v : Fcfs) (j : Job) : 1 ≤ v.demand j := by
  cases v with
  | min => exact j.one_le_min
  | asManyAsPos => exact j.one_le_min
  | max => exact j.one_le_min.trans j.min_le_max

end Fcfs

/-! ## Whom the loop serves -/

/-- The jobs served are the first ones. -/
theorem fcfsGrants_first (maxOf minOf : Job → Nat) : ∀ (js : List Job) (q : List Resource),
    (fcfsGrants maxOf minOf js q).1.map Prod.fst <+: js
  | [], _ => List.nil_prefix
  | j :: js, q => by
    unfold fcfsGrants
    split
    · exact (List.prefix_cons_inj j).mpr (fcfsGrants_first maxOf minOf js _)
    · exact List.nil_prefix

/-- The allocation of an FCFS algorithm on a pool. -/
def Fcfs.allocation (v : Fcfs) (rq : List Job) (w : Nat) (pool : List Resource) : Allocations :=
  ⟨(fcfsGrants v.most v.demand (rq.take w) pool).1, 0⟩

theorem run_fcfs (v : Fcfs) (rq : List Job) (w : Nat) (pool : List Resource) :
    (v.alg rq w).run pool = .done (v.allocation rq w pool) (fcfsGrants v.most v.demand (rq.take w) pool).2 := by
  rw [v.alg_eq, run_fcfsLoop]
  rfl

theorem jobList_fcfs (v : Fcfs) (rq : List Job) (w : Nat) (pool : List Resource) :
    (v.allocation rq w pool).jobList <+: rq := by
  have htake := List.take_prefix w rq
  exact (fcfsGrants_first _ _ _ _).trans htake

/-- The front job is served if the window and the pool allow it. -/
theorem front_served_iff (v : Fcfs) (j : Job) (rq : List Job) (w : Nat) (pool : List Resource) :
    (v.allocation (j :: rq) w pool).jobList ≠ [] ↔ w ≠ 0 ∧ v.demand j ≤ pool.length := by
  have h1 := v.one_le_most j
  have h2 := v.one_le_demand j
  cases w with
  | zero => simp [Fcfs.allocation, Allocations.jobList, fcfsGrants]
  | succ w =>
    simp only [Fcfs.allocation, Allocations.jobList, List.take_succ_cons, fcfsGrants, length_taken]
    by_cases hd : v.demand j ≤ pool.length
    · have hpos : 0 < Nat.min (v.most j) pool.length := Nat.lt_min.mpr ⟨h1, by omega⟩
      simp [hd, hpos]
    · simp [hd]

/-! ## The order of the ready queue -/

/-- The ready queue has the newest job first. -/
def NewestFirst (s : State) : Prop := s.readyQ.Sublist s.issued.reverse

theorem step_newestFirst {cfg : Config} {s t : State} {a : Act} (h : NewestFirst s) (hs : s.step cfg a = some t) :
    NewestFirst t := by
  unfold NewestFirst at h ⊢
  rcases step_readyQ hs with ⟨hq, hi⟩ | ⟨j, hq, hi⟩ | ⟨jid, hq, hi⟩
  · rw [hq, hi]
    exact h
  · rw [hq, hi, List.reverse_append]
    exact h.cons_cons j
  · rw [hq, hi]
    exact List.eraseP_sublist.trans h

theorem reachable_newestFirst {cfg : Config} {s : State} (h : (system cfg).Reachable s) : NewestFirst s := by
  refine h.invariant (I := NewestFirst) ?_ fun _ _ _ hn hst => step_newestFirst hn hst
  exact List.nil_sublist []

/-! ## Who comes first -/

/-- Job `a` was pushed on the ready queue before `b`. -/
def State.Before (s : State) (a b : Job) : Prop := [a, b].Sublist s.issued

/-- The algorithm returns an allocation, and of two waiting jobs it serves the later one only after the earlier one. -/
def Fcfs.FirstCome (v : Fcfs) (s : State) (w : Nat) (pool : List Resource) : Prop :=
  ∃ alloc pool', (v.alg s.readyQ w).run pool = .done alloc pool' ∧
    ∀ a b, a ∈ s.readyQ → b ∈ s.readyQ → s.Before a b → b ∈ alloc.jobList → [a, b].Sublist alloc.jobList

theorem Fcfs.firstCome_iff (v : Fcfs) (s : State) (w : Nat) (pool : List Resource) :
    v.FirstCome s w pool ↔ ∀ a b, a ∈ s.readyQ → b ∈ s.readyQ → s.Before a b →
      b ∈ (v.allocation s.readyQ w pool).jobList → [a, b].Sublist (v.allocation s.readyQ w pool).jobList := by
  unfold Fcfs.FirstCome
  rw [run_fcfs]
  constructor
  · rintro ⟨alloc, pool', he, h⟩
    cases he
    exact h
  · exact fun h => ⟨_, _, rfl, h⟩

/-- Two jobs wait and the front one is served: it is the newest, and served first. -/
theorem not_firstCome {s : State} {v : Fcfs} {w : Nat} {pool : List Resource} {b a : Job} {rq : List Job}
    (hq : s.readyQ = b :: a :: rq) (hnd : s.readyQ.Nodup) (hnew : NewestFirst s) (hw : w ≠ 0)
    (hd : v.demand b ≤ pool.length) : ¬v.FirstCome s w pool := by
  rw [Fcfs.firstCome_iff]
  intro hfirst
  unfold NewestFirst at hnew
  rw [hq] at hnd hnew hfirst
  have hbefore : s.Before a b := by
    have h1 : [b, a].Sublist s.issued.reverse := (List.sublist_append_left [b, a] rq).trans hnew
    have h2 := h1.reverse
    rw [List.reverse_reverse] at h2
    exact h2
  have hpre := jobList_fcfs v (b :: a :: rq) w pool
  have hne := (front_served_iff v b (a :: rq) w pool).mpr ⟨hw, hd⟩
  have hb : b ∈ (v.allocation (b :: a :: rq) w pool).jobList := by
    obtain ⟨x, xs, hx⟩ := List.exists_cons_of_ne_nil hne
    rw [hx] at hpre ⊢
    obtain rfl := (List.cons_prefix_cons.mp hpre).1
    exact List.mem_cons_self
  have hab := (hfirst a b (List.mem_cons_of_mem _ List.mem_cons_self) List.mem_cons_self hbefore hb).trans hpre.sublist
  -- the later job stands in front of the other one
  exact StdAlgorithm.not_pair_sublist hnd (List.sublist_append_left [b, a] rq) hab

/-- **First come is first served** if and only if at most one job waits, or none is served: the window is empty or the
pool has too few resources for the job at the front. -/
theorem fcfs_firstCome_iff (cfg : Config) (s : State) (h : (system cfg).Reachable s) (v : Fcfs) (w : Nat)
    (pool : List Resource) :
    v.FirstCome s w pool ↔ s.readyQ.length ≤ 1 ∨ w = 0 ∨ ∀ j ∈ s.readyQ.head?, pool.length < v.demand j := by
  have hl := reachable_life h
  constructor
  · intro hfirst
    by_contra hnot
    push Not at hnot
    obtain ⟨hlen, hw, b, hb, hd⟩ := hnot
    obtain ⟨b', a, rq, hq⟩ : ∃ b a rq, s.readyQ = b :: a :: rq := by
      match s.readyQ, hlen with
      | b :: a :: rq, _ => exact ⟨b, a, rq, rfl⟩
    rw [hq] at hb
    cases hb
    exact not_firstCome hq hl.readyQ_nodup (reachable_newestFirst h) hw hd hfirst
  · rw [Fcfs.firstCome_iff]
    rintro (hlen | hnone) a b ha hb hab hserved
    · -- two jobs in an order are two jobs
      exfalso
      have hone : a = b := by
        match s.readyQ, hlen, ha, hb with
        | [j], _, ha, hb => rw [List.mem_singleton.mp ha, List.mem_singleton.mp hb]
      have hnd := hab.nodup hl.issued_nodup
      rw [hone] at hnd
      exact (List.nodup_cons.mp hnd).1 List.mem_cons_self
    · exfalso
      obtain ⟨j, rq, hq⟩ := List.exists_cons_of_ne_nil (List.ne_nil_of_mem hb)
      rw [hq] at hnone hserved
      obtain ⟨hw, hd⟩ := (front_served_iff v j rq w pool).mp (List.ne_nil_of_mem hserved)
      rcases hnone with h0 | hfew
      · exact hw h0
      · have := hfew j rfl
        omega

/-- One job waits, and one resource is free. -/
theorem fcfs_firstCome_single : ∃ s, (system localConfig).Reachable s ∧ s.readyQ.length = 1 ∧
    Fcfs.min.FirstCome s window [firstResource] := by
  obtain ⟨s, hr, hs⟩ := Machine.exists_reachableIf (system localConfig) (fun _ _ => True)
    (serve (targetRequest 100 200) 0) (fun s => s.readyQ.length) 1 (by decide +kernel)
  exact ⟨s, hr, hs, (fcfs_firstCome_iff localConfig s hr .min window [firstResource]).mpr (.inl hs.le)⟩

/-- Two jobs wait and one resource is free: the second gets it. -/
theorem fcfs_newest_served : ¬∀ (cfg : Config) (s : State), (system cfg).Reachable s → ∀ (v : Fcfs)
    (pool : List Resource), v.FirstCome s window pool := by
  intro h
  obtain ⟨s, hr, hs⟩ := Machine.exists_reachableIf (system localConfig) (fun _ _ => True)
    (serve (targetRequest 100 200) 0 ++ serve (targetRequest 100 200) 0) (fun s => s.readyQ)
    [Job.ofRequest (targetRequest 100 200) 2, Job.ofRequest (targetRequest 100 200) 1] (by decide +kernel)
  exact not_firstCome hs (reachable_life hr).readyQ_nodup (reachable_newestFirst hr) (by decide) (by decide)
    (h localConfig s hr .min [firstResource])

end Hydrogen

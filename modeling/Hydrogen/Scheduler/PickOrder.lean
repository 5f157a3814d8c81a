import Mathlib.Data.Prod.Lex
import Hydrogen.Scheduler.Grants

/-!
# The order in which the window loops pick

`pickOrder` takes the jobs of a window out one by one, the first best one each time. `Priority` and `SJTF` walk along
that order as long as the pool has more than the next job demands (`greedyGrants_eq_walk`), so they serve a first part
of it. The order has better jobs first and leaves equally good ones as it found them (`pickOrder_pairwise`): after
sorting by time, picking by least demand gives the order of demand and time (`takenBy_sjtf`, `greedy_order`).
-/

namespace Hydrogen

open StdAlgorithm

/-- The jobs in the order they are picked. -/
def pickOrder (better : Job → Job → Bool) : Nat → List Job → List Job
  | 0, _ => []
  | n + 1, live =>
    match live[bestIdx better live]? with
    | none => []
    | some j => j :: pickOrder better n (live.eraseIdx (bestIdx better live))

/-- The jobs of an order that are served on a pool, with their resources, and the pool that is left. -/
def walk (demand : Job → Nat) : List Job → List Resource → List JobResPair × List Resource
  | [], q => ([], q)
  | j :: js, q =>
    if demand j < q.length then
      let r := walk demand js (left j.max j.max q)
      ((j, taken j.max j.max q) :: r.1, r.2)
    else ([], q)

variable {better : Job → Job → Bool} {demand : Job → Nat}

/-- **The loop walks along the order.** -/
theorem greedyGrants_eq_walk : ∀ (n : Nat) (live : List Job) (q : List Resource),
    greedyGrants better demand n live q = walk demand (pickOrder better n live) q
  | 0, live, q => rfl
  | n + 1, live, q => by
    unfold greedyGrants pickOrder
    cases live[bestIdx better live]? with
    | none => rfl
    | some j => simp only [walk, greedyGrants_eq_walk n]

/-! ## The order -/

/-- What one pick takes and leaves. -/
theorem pickOrder_succ (hb : StrictWeak better) {n : Nat} {live : List Job} (hn : live.length = n + 1) :
    ∃ j, live[bestIdx better live]? = some j ∧ bestIdx better live < live.length ∧
      pickOrder better (n + 1) live = j :: pickOrder better n (live.eraseIdx (bestIdx better live)) ∧
      (live.eraseIdx (bestIdx better live)).length = n := by
  have hl : live ≠ [] := List.ne_nil_of_length_eq_add_one hn
  obtain ⟨j, hj, hlt, -, -⟩ := bestIdx_spec hb hl
  refine ⟨j, hj, hlt, ?_, ?_⟩
  · rw [pickOrder, hj]
  · rw [List.length_eraseIdx_of_lt hlt]
    omega

/-- Every job of the window is picked once. -/
theorem pickOrder_perm (hb : StrictWeak better) : ∀ (n : Nat) (live : List Job), live.length = n →
    (pickOrder better n live).Perm live
  | 0, live, hn => by
    rw [List.eq_nil_of_length_eq_zero hn]
    exact .refl _
  | n + 1, live, hn => by
    obtain ⟨j, hj, hlt, hpick, hlen⟩ := pickOrder_succ hb hn
    obtain ⟨_, rfl⟩ := List.getElem?_eq_some_iff.mp hj
    rw [hpick]
    exact ((pickOrder_perm hb n _ hlen).cons _).trans (List.getElem_cons_eraseIdx_perm hlt)

/-- **Better jobs come first**, and jobs of which none is better stay in their order. -/
theorem pickOrder_pairwise (hb : StrictWeak better) {R : Job → Job → Prop} : ∀ (n : Nat) (live : List Job),
    live.length = n → live.Pairwise R →
    (pickOrder better n live).Pairwise fun x y => better y x = false ∧ (better x y = false → R x y)
  | 0, _, _, _ => .nil
  | n + 1, live, hn, hR => by
    have hl : live ≠ [] := List.ne_nil_of_length_eq_add_one hn
    obtain ⟨j, hj, -, hpick, hlen⟩ := pickOrder_succ hb hn
    obtain ⟨j', hj', -, hbest, hfirst⟩ := bestIdx_spec hb hl
    cases hj.symm.trans hj'
    rw [hpick]
    refine List.pairwise_cons.mpr ⟨fun y hy => ?_, ?_⟩
    · obtain ⟨k, hk, hky⟩ := List.mem_eraseIdx_iff_getElem?.mp ((pickOrder_perm hb n _ hlen).mem_iff.mp hy)
      have hkl : k < live.length := (List.getElem?_eq_some_iff.mp hky).1
      refine ⟨hbest k hkl y hky, fun hyj => ?_⟩
      -- a job before the best one is worse, so `y` stands behind it
      have hlt : bestIdx better live < k := by
        rcases Nat.lt_or_gt_of_ne hk with h | h
        · rw [hfirst k h y hky] at hyj
          cases hyj
        · exact h
      obtain ⟨hi, rfl⟩ := List.getElem?_eq_some_iff.mp hj
      obtain ⟨_, rfl⟩ := List.getElem?_eq_some_iff.mp hky
      exact List.pairwise_iff_getElem.mp hR _ _ hi hkl hlt
    · exact pickOrder_pairwise hb n _ hlen (hR.sublist (List.eraseIdx_sublist _ _))

/-- The order is the stable one. -/
theorem pickOrder_eq_mergeSort (hb : StrictWeak better) {live : List Job} (hnd : live.Nodup) :
    pickOrder better live.length live = live.mergeSort fun x y => !better y x := by
  refine eq_mergeSort hb hnd (pickOrder_perm hb _ live rfl) ?_
  exact pickOrder_pairwise hb _ live rfl (List.pairwise_of_forall_sublist fun h => h)

/-! ## Walking along it -/

/-- The jobs served are the first ones. -/
theorem walk_first : ∀ (js : List Job) (q : List Resource), (walk demand js q).1.map Prod.fst <+: js
  | [], _ => List.nil_prefix
  | j :: js, q => by
    unfold walk
    split
    · exact (List.prefix_cons_inj j).mpr (walk_first js _)
    · exact List.nil_prefix

/-! ## The two algorithms -/

section Orders

variable (fp : Arith) (sort : StdSort Job) (rq : List Job) (window : Nat)

/-- The order in which `Priority` picks. -/
def priorityOrder : List Job :=
  let sorted := sort.sort sortByPriority (rq.take window)
  pickOrder higherPriority sorted.length sorted

/-- The order in which `SJTF` picks. -/
def sjtfOrder : List Job :=
  let sorted := sort.sort (sortByTime fp) (rq.take window)
  pickOrder sortByMin sorted.length sorted

theorem priorityOrder_perm : (priorityOrder sort rq window).Perm (rq.take window) :=
  (pickOrder_perm strictWeak_higherPriority _ _ rfl).trans (sort.perm _ _)

theorem sjtfOrder_perm : (sjtfOrder fp sort rq window).Perm (rq.take window) :=
  (pickOrder_perm strictWeak_sortByMin _ _ rfl).trans (sort.perm _ _)

theorem priorityOrder_pairwise : (priorityOrder sort rq window).Pairwise fun i j => j.priority ≤ i.priority := by
  have hsorted := sort.sorted sortByPriority (rq.take window) (StrictWeak.ofKey Job.priority)
  refine (pickOrder_pairwise strictWeak_higherPriority _ _ rfl hsorted).imp fun {i j} h => ?_
  have hij : sortByPriority i j = false := h.1
  simpa [sortByPriority] using hij

/-- What `SJTF` orders by: the least demand, and then the time on it. -/
def sizeKey (j : Job) : ℕ ×ₗ WithBot (WithTop ℚ) := toLex (j.min, (j.minCost fp).toOrder)

/-- In `float` these two take the same time. -/
example : let i := Job.ofRequest ({ msgEmpty with predictedTimeMillis := 16777216 }) 1
    let j := Job.ofRequest ({ msgEmpty with predictedTimeMillis := 16777217 }) 2
    sizeKey .exact i < sizeKey .exact j ∧ sizeKey .ieee i = sizeKey .ieee j := by decide +kernel

theorem sjtfOrder_pairwise : (sjtfOrder fp sort rq window).Pairwise fun i j => sizeKey fp i ≤ sizeKey fp j := by
  have hsorted := sort.sorted (sortByTime fp) (rq.take window) strictWeak_sortByTime
  refine (pickOrder_pairwise strictWeak_sortByMin _ _ rfl hsorted).imp fun {i j} h => ?_
  obtain ⟨hmin, htie⟩ := h
  have hle : i.min ≤ j.min := by simpa [sortByMin] using hmin
  rw [sizeKey, sizeKey, Prod.Lex.toLex_le_toLex]
  rcases Nat.lt_or_eq_of_le hle with hlt | heq
  · exact .inl hlt
  · have hnot : sortByMin i j = false := by simp [sortByMin, heq]
    have htime : sortByTime fp j i = false := htie hnot
    rw [sortByTime, ExtRat.lt_eq_decide (j.minCost_ne_nan fp) (i.minCost_ne_nan fp), decide_eq_false_iff_not,
      not_lt] at htime
    exact .inr ⟨heq, htime⟩

variable {fp rq window} (hnd : rq.Nodup) (hrq : rq ≠ []) (hw : 1 ≤ window)
include hnd hrq hw

/-- `Priority` alone. -/
theorem run_priority (q : List Resource) : (priority sort rq window).run q =
    .done ⟨(walk Job.max (priorityOrder sort rq window) q).1, 0⟩ (walk Job.max (priorityOrder sort rq window) q).2 := by
  rw [priority_eq_greedy sort hnd hrq hw, run_greedy, greedyGrants_eq_walk]
  rfl

/-- `SJTF` alone. -/
theorem run_sjtf (q : List Resource) : (sjtf fp sort rq window).run q =
    .done ⟨(walk Job.min (sjtfOrder fp sort rq window) q).1, 0⟩ (walk Job.min (sjtfOrder fp sort rq window) q).2 := by
  rw [sjtf_eq_greedy sort hnd hrq hw, run_greedy, greedyGrants_eq_walk]
  rfl

end Orders

/-! ## Taken in order -/

/-- The allocation has distinct jobs of the window, in the order `R`, and none that was left out comes before one that
was taken. -/
def Allocations.TakenBy (R : Job → Job → Prop) (window : List Job) (a : Allocations) : Prop :=
  a.jobList.Nodup ∧ (∀ j ∈ a.jobList, j ∈ window) ∧ a.jobList.Pairwise R ∧
    ∀ j ∈ window, j ∉ a.jobList → ∀ i ∈ a.jobList, R i j

/-- A first part of an ordered window. -/
theorem takenBy_of_first {R : Job → Job → Prop} {window order : List Job} {a : Allocations} (hperm : order.Perm window)
    (hnd : window.Nodup) (hR : order.Pairwise R) (hfirst : a.jobList <+: order) : a.TakenBy R window := by
  obtain ⟨rest, rfl⟩ := hfirst
  obtain ⟨hleft, -, hcross⟩ := List.pairwise_append.mp hR
  refine ⟨?_, fun j hj => hperm.mem_iff.mp (List.mem_append_left _ hj), hleft, fun j hj hout i hi => ?_⟩
  · exact (List.nodup_append.mp (hperm.nodup_iff.mpr hnd)).1
  · have hrest : j ∈ rest := (List.mem_append.mp (hperm.mem_iff.mpr hj)).resolve_left hout
    exact hcross i hi j hrest

/-- `SJTF` takes jobs by rising demand and time, as the times are rounded. -/
theorem takenBy_sjtf (fp : Arith) (sort : StdSort Job) {rq : List Job} {window : Nat} (hnd : rq.Nodup) (hrq : rq ≠ [])
    (hw : 1 ≤ window) (pool : List Resource) : ∃ a pool', (sjtf fp sort rq window).run pool = .done a pool' ∧
      a.TakenBy (fun i j => sizeKey fp i ≤ sizeKey fp j) (rq.take window) :=
  ⟨_, _, run_sjtf sort hnd hrq hw pool, takenBy_of_first (sjtfOrder_perm fp sort rq window)
    (hnd.sublist (List.take_sublist _ _)) (sjtfOrder_pairwise fp sort rq window) (walk_first _ _)⟩

/-- The least demand, and then the exact time on it. -/
def exactKey (j : Job) : ℕ ×ₗ ℚ := toLex (j.min, j.predictedTimeMillis / j.min)

theorem sizeKey_exact_le {i j : Job} : sizeKey .exact i ≤ sizeKey .exact j ↔ exactKey i ≤ exactKey j := by
  simp only [sizeKey, exactKey, Job.minCost_exact, ExtRat.toOrder, Prod.Lex.toLex_le_toLex, WithBot.coe_le_coe,
    WithTop.coe_le_coe]

/-- **Greedy order**: both loops end; `Priority` takes jobs of the window by falling priority, `SJTF`, with exact times,
by rising demand and time, and neither leaves out a job that comes before one it took. -/
theorem greedy_order (sort : StdSort Job) (rq : List Job) (window : Nat) (hnd : rq.Nodup) (hrq : rq ≠ [])
    (hw : 1 ≤ window) (pool : List Resource) :
    (∃ a pool', (priority sort rq window).run pool = .done a pool' ∧
      a.TakenBy (fun i j => j.priority ≤ i.priority) (rq.take window)) ∧
    ∃ a pool', (sjtf .exact sort rq window).run pool = .done a pool' ∧
      a.TakenBy (fun i j => exactKey i ≤ exactKey j) (rq.take window) := by
  have hwindow : (rq.take window).Nodup := hnd.sublist (List.take_sublist _ _)
  refine ⟨⟨_, _, run_priority sort hnd hrq hw pool, ?_⟩, ?_⟩
  · exact takenBy_of_first (priorityOrder_perm sort rq window) hwindow (priorityOrder_pairwise sort rq window)
      (walk_first _ _)
  · simpa only [sizeKey_exact_le] using takenBy_sjtf .exact sort hnd hrq hw pool

/-- A request of a client, whose number is its priority. -/
def clientRequest (clientId : BitVec 32) : Msg := { msgEmpty with clientId }

/-- Resources of the local dispatcher. -/
def localDfes (n : Nat) : List Resource := (List.range n).map fun i => ⟨i + 1, 8111, "localhost", "DFE"⟩

/-- Three jobs on five resources. -/
theorem greedy_order_three :
    (∃ a pool', (priority .insertion [Job.ofRequest (clientRequest 1) 3, Job.ofRequest (clientRequest 7) 2,
        Job.ofRequest (clientRequest 4) 1] 5).run (localDfes 5) = .done a pool' ∧
      a.TakenBy (fun i j => j.priority ≤ i.priority) [Job.ofRequest (clientRequest 1) 3,
        Job.ofRequest (clientRequest 7) 2, Job.ofRequest (clientRequest 4) 1]) :=
  (greedy_order .insertion [Job.ofRequest (clientRequest 1) 3, Job.ofRequest (clientRequest 7) 2,
    Job.ofRequest (clientRequest 4) 1] 5 (by decide) (by decide) (by decide) (localDfes 5)).1

end Hydrogen

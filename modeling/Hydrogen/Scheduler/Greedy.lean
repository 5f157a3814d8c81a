import Hydrogen.Scheduler.Algs

/-!
# The window loops without their slots

`Priority` and `SJTF` keep their window in a deque of pointers that `std::remove` edits in place. `greedy` is the same
loop over the list of the jobs that are left: take the best one, give it its maximum, drop it, go on. The two are the
same program (`pickLoop_eq_greedy`), operation for operation, so what is proved of `greedy` holds of the source's loops
alone and among other threads.
-/

namespace Hydrogen

open StdAlgorithm

/-- The position of the first best job. -/
def bestIdx (better : Job → Job → Bool) (live : List Job) : Nat :=
  (extremeElement better (live.map some) live.length).getD 0

/-- The loop over the jobs that are left. The last look at the pool, with no job left, is the source's: it compares
the stale job's demand before it sees that the window is used up. -/
def greedy (better : Job → Job → Bool) (demand : Job → Nat) : Nat → List Job → Allocations → SchedProg Allocations
  | 0, _, a => Prog.getSize >>= fun _ => pure a
  | n + 1, live, a =>
    match live[bestIdx better live]? with
    | none => pure a
    | some j => do
      if demand j < (← Prog.getSize) then
        let resourceList ← allocate j.max j.max
        greedy better demand n (live.eraseIdx (bestIdx better live)) (a.addJobResourcePair j resourceList)
      else pure a

variable {better : Job → Job → Bool} {demand : Job → Nat}

/-- The best job of a window that is not empty. -/
theorem bestIdx_spec (hb : StrictWeak better) {live : List Job} (hl : live ≠ []) :
    BestOf better live live.length (bestIdx better live) := by
  obtain ⟨e, he, hbest⟩ := extremeElement_spec hb (s := live.map some) (by simp) rfl hl
  rw [bestIdx, he]
  exact hbest

theorem extremeElement_slots (hb : StrictWeak better) {live : List Job} (hl : live ≠ []) (t : List (Option Job)) :
    extremeElement better (live.map some ++ t) live.length = some (bestIdx better live) := by
  have hpos : 0 < live.length := List.length_pos_iff.mpr hl
  obtain ⟨e, he, -⟩ := extremeElement_spec hb (s := live.map some) (by simp) rfl hl
  rw [bestIdx, he, Option.getD_some, ← he]
  apply extremeFrom_congr (by omega)
  intro j hj
  exact List.getElem?_append_left (by simp; omega)

section Loop

variable {inside : Nat → Nat → Bool} (hb : StrictWeak better) (hin : ∀ e n, e < n → inside e n = true)
  (hin0 : inside 0 0 = false)
include hb hin hin0

/-- **The slots do not matter**: the loop over slots is the loop over the jobs that are left. -/
theorem pickLoop_eq_greedy : ∀ (n fuel : Nat) (live : List Job) (t : List (Option Job)) (elem : Nat) (a : Allocations),
    live.length = n → n < fuel → live.Nodup → (live = [] → ∃ j t', t = some j :: t') →
    extremeElement better (live.map some ++ t) live.length = some elem →
    pickLoop (extremeElement better) demand inside fuel (live.map some ++ t) live.length elem a =
      greedy better demand n live a
  | 0, fuel + 1, live, t, elem, a, hn, _, _, ht, he => by
    obtain rfl := List.eq_nil_of_length_eq_zero hn
    obtain ⟨j, t', rfl⟩ := ht rfl
    obtain rfl : 0 = elem := Option.some.inj he
    -- the stale job's demand is compared, then the end of the window stops the loop
    simp [pickLoop, greedy, hin0]
  | n + 1, fuel + 1, live, t, elem, a, hn, hf, hnd, _, he => by
    have hl : live ≠ [] := fun h => by simp [h] at hn
    rw [extremeElement_slots hb hl] at he
    obtain rfl := Option.some.inj he
    obtain ⟨j, hj, hlt, -, -⟩ := bestIdx_spec hb hl
    obtain ⟨hole, hrem, hhole⟩ := remove_spec (t := t) hnd hlt
    have hslot : (live.map some ++ t)[bestIdx better live]? = some (some j) := by
      rw [List.getElem?_append_left (by simpa using hlt), List.getElem?_map, hj]
      rfl
    have hlen : (live.eraseIdx (bestIdx better live)).length = live.length - 1 := List.length_eraseIdx_of_lt hlt
    have htail : live.eraseIdx (bestIdx better live) = [] → ∃ j t', hole :: t = some j :: t' := fun h => by
      rw [h, List.length_nil] at hlen
      exact ⟨j, t, by rw [hhole (by omega), hj]⟩
    have hnext : ∃ e, extremeElement better ((live.eraseIdx (bestIdx better live)).map some ++ hole :: t)
        (live.eraseIdx (bestIdx better live)).length = some e := by
      by_cases h : live.eraseIdx (bestIdx better live) = []
      · rw [h]; exact ⟨0, rfl⟩
      · exact ⟨_, extremeElement_slots hb h _⟩
    obtain ⟨e, hnext⟩ := hnext
    have hrec : ∀ a', pickLoop (extremeElement better) demand inside fuel
        ((live.eraseIdx (bestIdx better live)).map some ++ hole :: t) (live.length - 1) e a' =
        greedy better demand n (live.eraseIdx (bestIdx better live)) a' := fun a' => by
      have := pickLoop_eq_greedy n fuel _ _ e a' (by omega) (by omega) (hnd.eraseIdx _) htail hnext
      rwa [hlen] at this
    rw [hlen] at hnext
    simp only [pickLoop, greedy, hslot, hj, hrem, hnext, hin _ _ hlt, and_true, hrec]

theorem pick_eq_greedy {sorted : List Job} (hnd : sorted.Nodup) (hs : sorted ≠ []) :
    pick sorted (extremeElement better) demand inside = greedy better demand sorted.length sorted .empty := by
  have he := extremeElement_slots hb hs []
  have := @pickLoop_eq_greedy better demand inside hb hin hin0 _ (sorted.length + 1) _ _ _ .empty rfl (by omega) hnd
    (fun h => absurd h hs) he
  rw [List.append_nil] at he this
  simp only [pick, List.length_map, he, this]

end Loop

/-! ## The two algorithms -/

/-- `Priority` prefers the higher priority. -/
def higherPriority (x y : Job) : Bool := sortByPriority y x

theorem strictWeak_higherPriority : StrictWeak higherPriority := (StrictWeak.ofKey Job.priority).flip

theorem strictWeak_sortByMin : StrictWeak sortByMin := StrictWeak.ofKey Job.min

theorem strictWeak_sortByTime {fp : Arith} : StrictWeak (sortByTime fp) := by
  have hkey : sortByTime fp = fun i j => decide ((i.minCost fp).toOrder < (j.minCost fp).toOrder) := by
    funext i j
    exact ExtRat.lt_eq_decide (i.minCost_ne_nan fp) (j.minCost_ne_nan fp)
  rw [hkey]
  exact StrictWeak.ofKey fun j : Job => (j.minCost fp).toOrder

variable {fp : Arith} (sort : StdSort Job) {rq : List Job} {window : Nat}

theorem window_nodup (hrq : rq.Nodup) (lt : Job → Job → Bool) : (sort.sort lt (rq.take window)).Nodup :=
  (sort.perm _ _).nodup_iff.mpr (hrq.sublist (List.take_sublist _ _))

theorem window_ne_nil (hrq : rq ≠ []) (hw : 1 ≤ window) (lt : Job → Job → Bool) :
    sort.sort lt (rq.take window) ≠ [] := by
  intro h
  have := (sort.perm lt (rq.take window)).length_eq
  rw [h, List.length_nil, List.length_take] at this
  have := List.length_pos_iff.mpr hrq
  omega

theorem priority_eq_greedy (hnd : rq.Nodup) (hrq : rq ≠ []) (hw : 1 ≤ window) :
    priority sort rq window = greedy higherPriority Job.max (sort.sort sortByPriority (rq.take window)).length
      (sort.sort sortByPriority (rq.take window)) .empty :=
  pick_eq_greedy strictWeak_higherPriority (fun e n h => by simp; omega) (by simp) (window_nodup sort hnd _)
    (window_ne_nil sort hrq hw _)

theorem sjtf_eq_greedy (hnd : rq.Nodup) (hrq : rq ≠ []) (hw : 1 ≤ window) :
    sjtf fp sort rq window = greedy sortByMin Job.min (sort.sort (sortByTime fp) (rq.take window)).length
      (sort.sort (sortByTime fp) (rq.take window)) .empty := by
  have h0 : ¬rq.length = 0 := fun h => hrq (List.eq_nil_of_length_eq_zero h)
  simp only [sjtf, if_neg h0]
  exact pick_eq_greedy strictWeak_sortByMin (fun e n h => by simpa using h) (by simp) (window_nodup sort hnd _)
    (window_ne_nil sort hrq hw _)

end Hydrogen

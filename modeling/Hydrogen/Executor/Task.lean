import Hydrogen.Lib.StdAlgorithm
import Hydrogen.Executor.PerfModel

/-!
# Choosing an implementation

`Task::SelectImplementation` predicts the time of every model in the task's list, leaving out null pointers, takes the
index of the least prediction and uses it in the list with the null pointers; the time it returns is the last one
predicted. The result is right if and only if that last time is the least and the index hits a model with the
implementation of a cheapest one (`selectImplementation_cheapest_iff`).
-/

namespace Hydrogen

open StdAlgorithm

/-- `Task`: the models may be null pointers; those that are not can be queried. -/
structure Task where
  name : String
  performanceModels : List (Option (PerfModel ℚ))
  fitted : ∀ p, some p ∈ performanceModels → p.Fitted

namespace Task

/-- The prediction for one model, with the waiting time for the shared devices. -/
def predict (dataSize wt : BitVec 64) (p : PerfModel ℚ) : Option ℚ := do
  let predictedTime ← p.queryModel dataSize.toNat
  pure (if p.imp.type = "SHARED_DFE" then predictedTime + wt.toNat else predictedTime)

/-- The loop over the models: `values` and `predicted_time`. -/
def queryLoop (dataSize wt : BitVec 64) : List (Option (PerfModel ℚ)) → List ℚ → ℚ → Option (List ℚ × ℚ)
  | [], values, predictedTime => some (values, predictedTime)
  | none :: ps, values, predictedTime => queryLoop dataSize wt ps values predictedTime
  | some p :: ps, values, _ => do
    let t ← predict dataSize wt p
    queryLoop dataSize wt ps (values ++ [t]) t

/-- `SelectImplementation`; none if a null pointer or the end of the list is dereferenced. -/
def selectImplementation (t : Task) (dataSize wt : BitVec 64) : Option (Implementation × ℚ) := do
  let (values, predictedTime) ← queryLoop dataSize wt t.performanceModels [] (-1)
  let index ← minElement (fun x y => decide (x < y)) (values.map some) values.length
  let head ← t.performanceModels[index]?
  let p ← head
  pure (p.imp, predictedTime)

/-! ## What it computes -/

/-- The time of an implementation, waiting for the shared devices included. -/
def cost (dataSize wt : BitVec 64) (p : PerfModel ℚ) : ℚ :=
  if p.imp.type = "SHARED_DFE" then p.value dataSize.toNat + wt.toNat else p.value dataSize.toNat

/-- The models that are there. -/
def live (ps : List (Option (PerfModel ℚ))) : List (PerfModel ℚ) := ps.filterMap id

variable {dataSize wt : BitVec 64}

theorem predict_eq {p : PerfModel ℚ} (h : p.Fitted) : predict dataSize wt p = some (cost dataSize wt p) := by
  rw [predict, PerfModel.queryModel_eq h, cost]
  rfl

/-- The loop has the costs of the models that are there, and the last of them. -/
theorem queryLoop_eq : ∀ (ps : List (Option (PerfModel ℚ))) (values : List ℚ) (t : ℚ), (∀ p, some p ∈ ps → p.Fitted) →
    queryLoop dataSize wt ps values t = some (values ++ (live ps).map (cost dataSize wt),
      ((live ps).map (cost dataSize wt)).getLastD t)
  | [], values, t, _ => by
    rw [queryLoop, live, List.filterMap_nil, List.map_nil, List.append_nil]
    rfl
  | none :: ps, values, t, h => by
    rw [queryLoop, queryLoop_eq ps values t fun p hp => h p (List.mem_cons_of_mem _ hp)]
    rfl
  | some p :: ps, values, t, h => by
    have hlive : live (some p :: ps) = p :: live ps := rfl
    rw [queryLoop, predict_eq (h p List.mem_cons_self), hlive, List.map_cons, List.getLastD_cons]
    show queryLoop dataSize wt ps (values ++ [cost dataSize wt p]) (cost dataSize wt p) = _
    rw [queryLoop_eq ps _ _ fun p hp => h p (List.mem_cons_of_mem _ hp), List.append_assoc]
    rfl

theorem mem_live {ps : List (Option (PerfModel ℚ))} {p : PerfModel ℚ} : p ∈ live ps ↔ some p ∈ ps := by
  simp [live]

/-- A model that is there stands behind as many of its kind as its index says. -/
theorem split_of_live : ∀ {ps : List (Option (PerfModel ℚ))} {e : Nat} {p : PerfModel ℚ}, (live ps)[e]? = some p →
    ∃ before after, ps = before ++ some p :: after ∧ (live before).length = e
  | [], e, p, h => by cases h
  | none :: ps, e, p, h => by
    obtain ⟨before, after, rfl, hlen⟩ := @split_of_live ps e p h
    exact ⟨none :: before, after, rfl, hlen⟩
  | some q :: ps, 0, p, h => by
    cases h
    exact ⟨[], ps, rfl, rfl⟩
  | some q :: ps, e + 1, p, h => by
    obtain ⟨before, after, rfl, hlen⟩ := @split_of_live ps e p h
    exact ⟨some q :: before, after, rfl, congrArg Nat.succ hlen⟩

/-! ## The cheapest implementation -/

/-- A model that is there and costs no more than any other. -/
def Cheapest (dataSize wt : BitVec 64) (ps : List (Option (PerfModel ℚ))) (p : PerfModel ℚ) : Prop :=
  some p ∈ ps ∧ ∀ q, some q ∈ ps → cost dataSize wt p ≤ cost dataSize wt q

/-- The list has a first cheapest model here. -/
structure FirstCheapest (dataSize wt : BitVec 64) (ps before : List (Option (PerfModel ℚ))) (p : PerfModel ℚ)
    (after : List (Option (PerfModel ℚ))) : Prop where
  split : ps = before ++ some p :: after
  before_gt : ∀ q, some q ∈ before → cost dataSize wt p < cost dataSize wt q
  after_ge : ∀ q, some q ∈ after → cost dataSize wt p ≤ cost dataSize wt q

/-- The call returns the time of a cheapest model, and its implementation. -/
def SelectsCheapest (t : Task) (dataSize wt : BitVec 64) : Prop :=
  ∃ imp time, t.selectImplementation dataSize wt = some (imp, time) ∧
    (∃ p, Cheapest dataSize wt t.performanceModels p ∧ time = cost dataSize wt p) ∧
    ∃ p, Cheapest dataSize wt t.performanceModels p ∧ imp = p.imp

section First

variable {ps before after : List (Option (PerfModel ℚ))} {p : PerfModel ℚ}

theorem live_append (before after : List (Option (PerfModel ℚ))) : live (before ++ after) = live before ++ live after :=
  List.filterMap_append

theorem FirstCheapest.live_eq (h : FirstCheapest dataSize wt ps before p after) :
    live ps = live before ++ p :: live after := by
  rw [h.split, live_append]
  rfl

theorem FirstCheapest.cheapest (h : FirstCheapest dataSize wt ps before p after) : Cheapest dataSize wt ps p := by
  rw [Cheapest, h.split]
  refine ⟨List.mem_append_right _ List.mem_cons_self, fun q hq => ?_⟩
  rcases List.mem_append.mp hq with hq | hq
  · exact (h.before_gt q hq).le
  · rcases List.mem_cons.mp hq with hq | hq
    · rw [Option.some.inj hq]
    · exact h.after_ge q hq

/-- The first cheapest model has the least of the costs, and all costs before it are higher. -/
theorem FirstCheapest.bestOf (h : FirstCheapest dataSize wt ps before p after) :
    BestOf (fun x y : ℚ => decide (x < y)) ((live ps).map (cost dataSize wt)) ((live ps).map (cost dataSize wt)).length
      (live before).length := by
  have hat : ((live ps).map (cost dataSize wt))[(live before).length]? = some (cost dataSize wt p) := by
    rw [h.live_eq, List.getElem?_map, List.getElem?_append_right (Nat.le_refl _), Nat.sub_self]
    rfl
  refine ⟨_, hat, (List.getElem?_eq_some_iff.mp hat).1, fun j _ x hx => ?_, fun j hj x hx => ?_⟩
  · obtain ⟨q, hq, rfl⟩ := List.mem_map.mp (List.mem_of_getElem? hx)
    simpa using h.cheapest.2 q (mem_live.mp hq)
  · rw [h.live_eq, List.map_append, List.getElem?_append_left (by simpa using hj)] at hx
    obtain ⟨q, hq, rfl⟩ := List.mem_map.mp (List.mem_of_getElem? hx)
    simpa using h.before_gt q (mem_live.mp hq)

/-- **The result** in terms of the first cheapest model and the last one. -/
theorem selectImplementation_eq (t : Task) (h : FirstCheapest dataSize wt t.performanceModels before p after)
    {l : PerfModel ℚ} (hl : (live t.performanceModels).getLast? = some l) :
    t.selectImplementation dataSize wt = (t.performanceModels[(live before).length]?).bind fun head =>
      head.map fun q => (q.imp, cost dataSize wt l) := by
  have hne : (live t.performanceModels).map (cost dataSize wt) ≠ [] := by
    rw [h.live_eq]
    simp
  have hloop := @queryLoop_eq dataSize wt t.performanceModels [] (-1) t.fitted
  rw [List.nil_append, List.getLastD_eq_getLast?, List.getLast?_map, hl] at hloop
  obtain ⟨e, he, hbest⟩ := @extremeElement_spec _ _ (StrictWeak.ofKey fun x : ℚ => x)
    (((live t.performanceModels).map (cost dataSize wt)).map some) _ _ (List.take_of_length_le (by simp)) rfl hne
  obtain rfl := hbest.unique h.bestOf
  unfold selectImplementation
  rw [hloop]
  show (minElement _ _ _).bind _ = _
  rw [minElement, he, Option.bind_some]
  cases t.performanceModels[(live before).length]? with
  | none => rfl
  | some head => cases head <;> rfl

/-- Where there is a model there is a first cheapest one. -/
theorem exists_firstCheapest (dataSize wt : BitVec 64) (hne : live ps ≠ []) :
    ∃ before p after, FirstCheapest dataSize wt ps before p after := by
  have hne' : (live ps).map (cost dataSize wt) ≠ [] := by simpa using hne
  obtain ⟨e, -, y, hy, -, hall, hfirst⟩ := @extremeElement_spec _ _ (StrictWeak.ofKey fun x : ℚ => x)
    (((live ps).map (cost dataSize wt)).map some) _ _ (List.take_of_length_le (by simp)) rfl hne'
  rw [List.getElem?_map] at hy
  obtain ⟨p, hp, rfl⟩ := Option.map_eq_some_iff.mp hy
  obtain ⟨before, after, rfl, rfl⟩ := split_of_live hp
  have hlive : live (before ++ some p :: after) = live before ++ p :: live after := live_append _ _
  rw [hlive, List.map_append] at hall hfirst
  refine ⟨before, p, after, rfl, fun q hq => ?_, fun q hq => ?_⟩
  · obtain ⟨j, hj, hget⟩ := List.getElem_of_mem (List.mem_map_of_mem (f := cost dataSize wt) (mem_live.mpr hq))
    have hlt := hfirst j (by simpa using hj) (cost dataSize wt q) (by
      rw [List.getElem?_append_left hj, List.getElem?_eq_getElem hj, hget])
    simpa using hlt
  · have hmem : cost dataSize wt q ∈ (live before).map (cost dataSize wt) ++ (p :: live after).map (cost dataSize wt) :=
      List.mem_append_right _ (List.mem_map_of_mem (List.mem_cons_of_mem _ (mem_live.mpr hq)))
    obtain ⟨j, hj, hget⟩ := List.getElem_of_mem hmem
    have hle := hall j hj (cost dataSize wt q) (by rw [List.getElem?_eq_getElem hj, hget])
    simpa using hle

/-- Without null pointers the index is that of the first cheapest model. -/
theorem selectImplementation_noNull (t : Task) (hne : live t.performanceModels ≠ [])
    (hnull : none ∉ t.performanceModels) (dataSize wt : BitVec 64) :
    ∃ p time, some p ∈ t.performanceModels ∧ t.selectImplementation dataSize wt = some (p.imp, time) := by
  obtain ⟨before, p, after, hfirst⟩ := exists_firstCheapest dataSize wt hne
  have hlen : (live before).length = before.length := by
    refine List.filterMap_length_eq_length.mpr fun o ho => ?_
    cases o with
    | none => exact absurd (hfirst.split ▸ List.mem_append_left _ ho) hnull
    | some q => rfl
  have hat : t.performanceModels[(live before).length]? = some (some p) := by
    rw [hfirst.split, hlen, List.getElem?_append_right (Nat.le_refl _), Nat.sub_self]
    rfl
  have hsel := selectImplementation_eq t hfirst (List.getLast?_eq_some_getLast hne)
  rw [hat] at hsel
  exact ⟨p, _, hfirst.cheapest.1, hsel⟩

end First

/-- **The cheapest implementation is selected** if and only if the last model that is there is a cheapest one, and the
list has, at the number of models before the first cheapest one, a model with the implementation of a cheapest one. -/
theorem selectImplementation_cheapest_iff (t : Task) (hne : ∃ p, some p ∈ t.performanceModels)
    (dataSize wt : BitVec 64) : t.SelectsCheapest dataSize wt ↔
      (∀ l, (live t.performanceModels).getLast? = some l → Cheapest dataSize wt t.performanceModels l) ∧
      ∃ before p after q c, FirstCheapest dataSize wt t.performanceModels before p after ∧
        t.performanceModels[(live before).length]? = some (some q) ∧ Cheapest dataSize wt t.performanceModels c ∧
        q.imp = c.imp := by
  have hlive : live t.performanceModels ≠ [] := by
    obtain ⟨p, hp⟩ := hne
    exact List.ne_nil_of_mem (mem_live.mpr hp)
  obtain ⟨l, hl⟩ : ∃ l, (live t.performanceModels).getLast? = some l := ⟨_, List.getLast?_eq_some_getLast hlive⟩
  have hmem : some l ∈ t.performanceModels := mem_live.mp (List.mem_of_getLast? hl)
  constructor
  · rintro ⟨imp, time, hsel, ⟨c, hc, htime⟩, ⟨d, hd, himp⟩⟩
    obtain ⟨before, p, after, hfirst⟩ := exists_firstCheapest dataSize wt hlive
    rw [selectImplementation_eq t hfirst hl] at hsel
    obtain ⟨head, hhead, hq⟩ := Option.bind_eq_some_iff.mp hsel
    obtain ⟨q, rfl, hpair⟩ := Option.map_eq_some_iff.mp hq
    obtain ⟨rfl, rfl⟩ := Prod.mk.inj hpair
    refine ⟨fun l' hl' => ?_, before, p, after, q, d, hfirst, hhead, hd, himp⟩
    cases hl.symm.trans hl'
    exact ⟨hmem, fun q' hq' => htime ▸ hc.2 q' hq'⟩
  · rintro ⟨hlast, before, p, after, q, c, hfirst, hhead, hc, himp⟩
    refine ⟨q.imp, cost dataSize wt l, ?_, ⟨l, hlast l hl, rfl⟩, c, hc, himp⟩
    rw [selectImplementation_eq t hfirst hl, hhead]
    rfl

/-- The implementation of the moving average on the shared devices, -/
def mavDfe : Implementation := ⟨"MAV", "mavDFE", "MOVING_AVERAGE", "", "", "SHARED_DFE"⟩

/-- and on the CPU. -/
def mavCpu : Implementation := ⟨"MAV", "mavCPU", "MOVING_AVERAGE", "", "", "CPU"⟩

/-- A model with two weights, as the executor loads them. -/
def mavModel (imp : Implementation) (w0 w1 : ℚ) : PerfModel ℚ := ⟨4 / 10 ^ 18, 100, 2, 0, 1, [], [w0, w1], [], imp⟩

theorem fitted_mavModel (imp : Implementation) (w0 w1 : ℚ) : (mavModel imp w0 w1).Fitted :=
  ⟨Nat.le_refl 2, Nat.le_refl 2⟩

/-- The task of the executor: the model of the shared devices first. -/
def mavTask (dfe cpu : ℚ) : Task where
  name := "MOVING_AVERAGE"
  performanceModels := [some (mavModel mavDfe dfe 0), some (mavModel mavCpu cpu 0)]
  fitted := by
    intro p hp
    simp only [List.mem_cons, Option.some.injEq, List.not_mem_nil, or_false] at hp
    rcases hp with rfl | rfl
    · exact fitted_mavModel ..
    · exact fitted_mavModel ..

/-- The CPU is cheaper. -/
theorem selectImplementation_cheapest_cpu : (mavTask 5 1).SelectsCheapest 1000 0 := by
  have hcheaper : cost 1000 0 (mavModel mavCpu 1 0) < cost 1000 0 (mavModel mavDfe 5 0) := by decide +kernel
  have hcheapest : Cheapest 1000 0 (mavTask 5 1).performanceModels (mavModel mavCpu 1 0) := by
    refine ⟨List.mem_cons_of_mem _ List.mem_cons_self, fun q hq => ?_⟩
    simp only [mavTask, List.mem_cons, Option.some.injEq, List.not_mem_nil, or_false] at hq
    rcases hq with rfl | rfl
    · exact hcheaper.le
    · exact le_refl _
  refine (selectImplementation_cheapest_iff (mavTask 5 1) ⟨_, List.mem_cons_self⟩ 1000 0).mpr
    ⟨fun l hl => ?_, [some (mavModel mavDfe 5 0)], mavModel mavCpu 1 0, [], mavModel mavCpu 1 0, mavModel mavCpu 1 0,
      ?_, rfl, hcheapest, rfl⟩
  · obtain rfl : mavModel mavCpu 1 0 = l := Option.some.inj hl
    exact hcheapest
  · refine ⟨rfl, fun q hq => ?_, fun q hq => (by cases hq)⟩
    obtain rfl := Option.some.inj (List.mem_singleton.mp hq)
    exact hcheaper

/-- The devices are cheaper: they are selected, with the time of the CPU. -/
theorem selectImplementation_wrong_time : ¬∀ (t : Task), (∃ p, some p ∈ t.performanceModels) →
    ∀ dataSize wt, t.SelectsCheapest dataSize wt := by
  intro h
  obtain ⟨imp, time, hsel, ⟨p, hp, htime⟩, -⟩ := h (mavTask 1 5) ⟨_, List.mem_cons_self⟩ 1000 0
  have hknown : (mavTask 1 5).selectImplementation 1000 0 = some (mavDfe, 5) := by decide +kernel
  rw [hknown] at hsel
  cases hsel
  have hle := hp.2 (mavModel mavDfe 1 0) List.mem_cons_self
  rw [← htime] at hle
  exact absurd hle (by decide +kernel)

end Task

end Hydrogen

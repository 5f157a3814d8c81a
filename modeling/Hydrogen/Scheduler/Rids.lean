import Mathlib.Tactic.IntervalCases
import Hydrogen.Scheduler.Resources

/-!
# The resource list as bits

`runJob` tells the dispatcher which resources a job has by setting one bit for each id from 1 to 4; the dispatcher
counts the bits and lists their indices. Ids are never given out twice, so they pass 4 after three resources have been
provisioned besides the first, and an id above 4 sets no bit: the list survives the trip just when it has none
(`rids_survive_iff`).
-/

namespace Hydrogen

/-! ## Bits -/

theorem getLsbD_ridBit (n i : Nat) : (ridBit n).getLsbD i = true ↔ i < 4 ∧ n = i + 1 := by
  by_cases hi : i < 8
  · rcases n with _ | _ | _ | _ | _ | n
    all_goals interval_cases i <;> simp [ridBit]
  · have hout : (ridBit n).getLsbD i = false := BitVec.getLsbD_of_ge _ _ (by omega)
    rw [hout]
    constructor
    · intro h; cases h
    · rintro ⟨h, -⟩; omega

theorem getLsbD_foldl_ridBit (i : Nat) : ∀ (res : List Resource) (packed : BitVec 8),
    (res.foldl (fun packed r => packed ||| ridBit r.rid) packed).getLsbD i = true ↔
      packed.getLsbD i = true ∨ i < 4 ∧ i + 1 ∈ rids res
  | [], packed => by simp
  | r :: res, packed => by
    rw [List.foldl_cons, getLsbD_foldl_ridBit i res, BitVec.getLsbD_or, Bool.or_eq_true, getLsbD_ridBit, rids_cons,
      List.mem_cons]
    constructor
    · rintro ((h | ⟨h, he⟩) | ⟨h, hm⟩)
      · exact .inl h
      · exact .inr ⟨h, .inl he.symm⟩
      · exact .inr ⟨h, .inr hm⟩
    · rintro (h | ⟨h, he | hm⟩)
      · exact .inl (.inl h)
      · exact .inl (.inr ⟨h, he.symm⟩)
      · exact .inr ⟨h, hm⟩

/-- **The bits set** are those of the ids up to 4. -/
theorem getLsbD_packedRids (res : List Resource) (i : Nat) :
    (packedRids res).getLsbD i = true ↔ i < 4 ∧ i + 1 ∈ rids res := by
  rw [packedRids, getLsbD_foldl_ridBit]
  simp

theorem mem_dfeIds (t : Thread) (i : Nat) : i ∈ dfeIds t.request ↔ i < 4 ∧ i + 1 ∈ rids t.res := by
  rw [dfeIds, List.mem_filter, List.mem_range]
  show i < 4 ∧ (packedRids t.res).getLsbD i = true ↔ _
  rw [getLsbD_packedRids]
  constructor
  · exact fun h => h.2
  · exact fun h => ⟨h.1, h⟩

/-! ## The trip -/

/-- The dispatcher counts as many devices as the job has resources and reads the ids, less one, off the bits. -/
def Thread.RidsSurvive (t : Thread) : Prop :=
  t.request.nDfes = t.res.length ∧ ∀ i, i ∈ dfeIds t.request ↔ ∃ r ∈ t.res, i + 1 = r.rid

theorem mem_rids {rs : List Resource} {i : Nat} : i ∈ rids rs ↔ ∃ r ∈ rs, i = r.rid := by
  rw [rids, List.mem_map]
  constructor
  · rintro ⟨r, hr, rfl⟩; exact ⟨r, hr, rfl⟩
  · rintro ⟨r, hr, rfl⟩; exact ⟨r, hr, rfl⟩

/-- Distinct ids from 1 to 4 are all counted. -/
theorem nDfes_eq_length {t : Thread} (hnd : (rids t.res).Nodup) (hid : ∀ i ∈ rids t.res, 1 ≤ i ∧ i ≤ 4) :
    t.request.nDfes = t.res.length := by
  have hperm : ((dfeIds t.request).map (· + 1)).Perm (rids t.res) := by
    refine (List.perm_ext_iff_of_nodup ?_ hnd).mpr fun i => ?_
    · exact (List.nodup_range.filter _).map fun a b h => Nat.succ.inj h
    · rw [List.mem_map]
      constructor
      · rintro ⟨k, hk, rfl⟩
        exact ((mem_dfeIds t k).mp hk).2
      · intro hi
        have h14 := hid i hi
        have hpred : i - 1 + 1 = i := by omega
        exact ⟨i - 1, (mem_dfeIds t _).mpr ⟨by omega, by rw [hpred]; exact hi⟩, hpred⟩
  have hlen := hperm.length_eq
  rw [List.length_map, rids, List.length_map] at hlen
  exact hlen

/-- **Resource ids survive the trip** to the dispatcher if and only if none of them is above 4. -/
theorem rids_survive_iff (cfg : Config) (s : State) (h : (system cfg).Reachable s) (t : Thread) (ht : t ∈ s.threads) :
    t.RidsSurvive ↔ ∀ r ∈ t.res, r.rid ≤ 4 := by
  obtain ⟨c, hd⟩ := reachable_distinct h
  obtain ⟨hnd, hpos⟩ := hd.threads t ht
  constructor
  · rintro ⟨-, hset⟩ r hr
    have h1 := (hpos r.rid (List.mem_map_of_mem hr)).1
    have hpred : r.rid - 1 + 1 = r.rid := by omega
    have := ((mem_dfeIds t _).mp ((hset (r.rid - 1)).mpr ⟨r, hr, hpred⟩)).1
    omega
  · intro hle
    refine ⟨nDfes_eq_length hnd fun i hi => ?_, fun i => ?_⟩
    · obtain ⟨r, hr, rfl⟩ := mem_rids.mp hi
      exact ⟨(hpos _ hi).1, hle r hr⟩
    · rw [mem_dfeIds, mem_rids]
      constructor
      · exact fun hi => hi.2
      · rintro ⟨r, hr, he⟩
        have := hle r hr
        exact ⟨by omega, r, hr, he⟩

/-- The first job runs on the first resource. -/
theorem rids_survive_first : ∃ s, (system localConfig).Reachable s ∧ ∃ t ∈ s.threads, rids t.res = [1] ∧
    t.RidsSurvive := by
  obtain ⟨s, hr, hs⟩ := Machine.exists_reachableIf (system localConfig) (fun _ _ => True)
    (serve (targetRequest 100 200) 24 ++ [.dispatch, .dispatch]) (fun s => s.threads.map fun t => rids t.res) [[1]]
    (by decide +kernel)
  obtain ⟨t, ht, hres⟩ := List.mem_map.mp (hs ▸ List.mem_singleton.mpr rfl : [1] ∈ s.threads.map fun t => rids t.res)
  refine ⟨s, hr, t, ht, hres, (rids_survive_iff localConfig s hr t ht).mpr fun r hmem => ?_⟩
  have hrid : r.rid ∈ rids t.res := List.mem_map_of_mem hmem
  rw [hres, List.mem_singleton] at hrid
  omega

/-- Five late jobs in a row: each is given the resource provisioned for the one before, and the fifth runs on resource
5, of which the dispatcher hears nothing. -/
theorem rids_lost_fifth : ¬∀ (cfg : Config) (s : State), (system cfg).Reachable s → ∀ t ∈ s.threads, t.RidsSurvive := by
  intro h
  obtain ⟨s, hr, hs⟩ := Machine.exists_reachableIf (system localConfig) (fun _ _ => True)
    ((List.replicate 5 (serve (targetRequest 1000 0) 24)).flatten ++ [.dispatch, .dispatch])
    (fun s => s.threads.map fun t => (t.request.nDfes, t.res.length)) [(0, 1)] (by decide +kernel)
  obtain ⟨t, ht, hres⟩ := List.mem_map.mp
    (hs ▸ List.mem_singleton.mpr rfl : (0, 1) ∈ s.threads.map fun t => (t.request.nDfes, t.res.length))
  obtain ⟨hzero, hone⟩ := Prod.mk.inj hres
  have hcount := (h localConfig s hr t ht).1
  rw [hzero, hone] at hcount
  cases hcount

end Hydrogen

import Mathlib.Algebra.Ring.Int.Defs
import Hydrogen.Lib.Exec
import Hydrogen.Lib.WordDiv

/-!
# The moving average on the CPU

`DispatcherServer::movingAverage_cpu`, loop by loop, with every access of `data` and `out` checked. The indices and
bounds are `size_t`, so `n - size` wraps around, and `out[i] /= size` converts the sum to `size_t` before it divides.
For `1 ≤ size ≤ n` the function ends and its result is known (`movingAverageCpu_eq`); for every other size the first
window already faults (`movingAverageCpu_ne_done`). The result is the moving average if and only if the unsigned
division is exact for every window, which it is when no sum is negative (`movingAverage_correct_iff`).
-/

namespace Hydrogen

open Exec

/-! ## The code -/

/-- `out[i] += data[i + j]`, and `j++`. -/
def addAt (data : List (BitVec 32)) (i : BitVec 64) (s : BitVec 64 × List (BitVec 32)) :
    Exec (BitVec 64 × List (BitVec 32)) := do
  let x ← load data (i + s.1)
  let sum ← load s.2 i
  let out ← store s.2 i (sum + x)
  pure (s.1 + 1, out)

/-- The loop over `j`. -/
def addWindow (fuel : Nat) (size : BitVec 64) (data : List (BitVec 32)) (i : BitVec 64) (out : List (BitVec 32)) :
    Exec (BitVec 64 × List (BitVec 32)) :=
  loop (fun s => s.1 < size) (addAt data i) fuel (0, out)

/-- `x / size` for an `int` and a `size_t`, stored in an `int`. -/
def divideBySize (x : BitVec 32) (size : BitVec 64) : Exec (BitVec 32) :=
  if size = 0 then fault .divideByZero else pure ((x.signExtend 64 / size).setWidth 32)

/-- The body of the first loop. -/
def averageAt (fuel : Nat) (size : BitVec 64) (data : List (BitVec 32)) (s : BitVec 64 × List (BitVec 32)) :
    Exec (BitVec 64 × List (BitVec 32)) := do
  let out ← store s.2 s.1 0
  let w ← addWindow fuel size data s.1 out
  let sum ← load w.2 s.1
  let q ← divideBySize sum size
  let out ← store w.2 s.1 q
  pure (s.1 + 1, out)

/-- The body of the second loop. -/
def clearAt (s : BitVec 64 × List (BitVec 32)) : Exec (BitVec 64 × List (BitVec 32)) := do
  let out ← store s.2 s.1 0
  pure (s.1 + 1, out)

/-- `movingAverage_cpu`. -/
def movingAverageCpu (fuel : Nat) (n size : BitVec 64) (data out : List (BitVec 32)) : Exec (List (BitVec 32)) := do
  let s ← loop (fun s => s.1 ≤ n - size) (averageAt fuel size data) fuel (0, out)
  let s ← loop (fun s => s.1 < n) clearAt fuel (n - size + 1, s.2)
  rotate s.2 (n - 1) n

/-! ## What it computes -/

/-- The sum of a window, as the accumulator has it. -/
def windowSum (data : List (BitVec 32)) (i size : Nat) : BitVec 32 :=
  ((data.drop i).take size).foldl (· + ·) 0

theorem windowSum_zero (data : List (BitVec 32)) (i : Nat) : windowSum data i 0 = 0 := rfl

theorem windowSum_succ {data : List (BitVec 32)} {i k : Nat} (h : i + k < data.length) :
    windowSum data i (k + 1) = windowSum data i k + data[i + k] := by
  have hget : (data.drop i)[k]? = some data[i + k] := by
    rw [List.getElem?_drop, List.getElem?_eq_getElem h]
  rw [windowSum, List.take_add_one, hget, Option.toList_some, List.foldl_append]
  rfl

/-- The entry of a window. -/
def windowEntry (data : List (BitVec 32)) (size : BitVec 64) (i : Nat) : BitVec 32 :=
  ((windowSum data i size.toNat).signExtend 64 / size).setWidth 32

/-- The entries of all windows, and zeroes where none starts. -/
def windowEntries (data : List (BitVec 32)) (size : BitVec 64) : List (BitVec 32) :=
  (List.range (data.length - size.toNat + 1)).map (windowEntry data size) ++ List.replicate (size.toNat - 1) 0

/-! ## Enough fuel -/

theorem addWindow_mono {fuel fuel' : Nat} (hle : fuel ≤ fuel') {size i : BitVec 64} {data out : List (BitVec 32)}
    {t : BitVec 64 × List (BitVec 32)} (h : addWindow fuel size data i out = done t) :
    addWindow fuel' size data i out = done t :=
  loop_mono (fun _ _ h => h) hle h

theorem averageAt_mono {fuel fuel' : Nat} (hle : fuel ≤ fuel') {size : BitVec 64} {data : List (BitVec 32)}
    (s t : BitVec 64 × List (BitVec 32)) (h : averageAt fuel size data s = done t) :
    averageAt fuel' size data s = done t := by
  obtain ⟨out, hstore, h⟩ := bind_eq_done.mp h
  obtain ⟨w, hwindow, h⟩ := bind_eq_done.mp h
  exact bind_eq_done.mpr ⟨out, hstore, bind_eq_done.mpr ⟨w, addWindow_mono hle hwindow, h⟩⟩

/-- A call that returns does so with more fuel too. -/
theorem movingAverageCpu_mono {fuel fuel' : Nat} (hle : fuel ≤ fuel') {n size : BitVec 64}
    {data out t : List (BitVec 32)} (h : movingAverageCpu fuel n size data out = done t) :
    movingAverageCpu fuel' n size data out = done t := by
  obtain ⟨s, hfirst, h⟩ := bind_eq_done.mp h
  obtain ⟨s', hsecond, h⟩ := bind_eq_done.mp h
  refine bind_eq_done.mpr ⟨s, loop_mono (averageAt_mono hle) hle hfirst, ?_⟩
  exact bind_eq_done.mpr ⟨s', loop_mono (fun _ _ h => h) hle hsecond, h⟩

theorem length_windowEntries {data : List (BitVec 32)} {size : BitVec 64} (hpos : 1 ≤ size.toNat)
    (hle : size.toNat ≤ data.length) : (windowEntries data size).length = data.length := by
  rw [windowEntries, List.length_append, List.length_map, List.length_range, List.length_replicate]
  omega

section Spec

variable {fuel : Nat} {n size : BitVec 64} {data out : List (BitVec 32)}

/-- An index below the length of an array. -/
theorem toNat_ofNat_of_lt {k : Nat} (h : k < 2 ^ 64) : (BitVec.ofNat 64 k).toNat = k := by
  rw [BitVec.toNat_ofNat, Nat.mod_eq_of_lt h]

theorem ofNat_succ (k : Nat) : BitVec.ofNat 64 k + 1 = BitVec.ofNat 64 (k + 1) := by
  apply BitVec.eq_of_toNat_eq
  simp [BitVec.toNat_add]

/-- The inner loop adds a window. -/
theorem addWindow_eq {i : Nat} (hi : i + size.toNat ≤ data.length) (hlen : data.length < 2 ^ 64)
    (hout : i < out.length) (hfuel : size.toNat < fuel) :
    addWindow fuel size data (BitVec.ofNat 64 i) (out.set i 0) =
      done (size, out.set i (windowSum data i size.toNat)) := by
  have hidx : (BitVec.ofNat 64 i).toNat = i := toNat_ofNat_of_lt (by omega)
  have hrun : addWindow fuel size data (BitVec.ofNat 64 i) (out.set i (windowSum data i 0)) =
      done (BitVec.ofNat 64 (0 + size.toNat), out.set i (windowSum data i (0 + size.toNat))) := by
    refine loop_counted (fun k => (BitVec.ofNat 64 k, out.set i (windowSum data i k))) size.toNat 0 fuel
      (fun k _ hk => ?_) (fun k _ hk => ?_) ?_ hfuel
    · rw [decide_eq_true_eq, BitVec.lt_def, toNat_ofNat_of_lt (by omega)]
      omega
    · have hadd : (BitVec.ofNat 64 i + BitVec.ofNat 64 k).toNat = i + k := by
        rw [← BitVec.ofNat_add, toNat_ofNat_of_lt (by omega)]
      have hlt : i + k < data.length := by omega
      have hset : i < (out.set i (windowSum data i k)).length := by rw [List.length_set]; omega
      unfold addAt
      rw [load_of_lt (by rw [hadd]; exact hlt), done_bind, load_of_lt (by rw [hidx]; exact hset), done_bind,
        store_of_lt (by rw [hidx]; exact hset), done_bind]
      simp only [hadd, hidx, List.getElem_set_self, List.set_set, windowSum_succ hlt, ofNat_succ, pure_eq]
    · simp
  rwa [Nat.zero_add, BitVec.ofNat_toNat, BitVec.setWidth_eq, windowSum_zero] at hrun

/-- A window in place of its first entry. -/
theorem averageAt_eq {i : Nat} (hi : i + size.toNat ≤ data.length) (hlen : data.length < 2 ^ 64)
    (hout : i < out.length) (hpos : 1 ≤ size.toNat) (hfuel : size.toNat < fuel) :
    averageAt fuel size data (BitVec.ofNat 64 i, out) =
      done (BitVec.ofNat 64 (i + 1), out.set i (windowEntry data size i)) := by
  have hidx : (BitVec.ofNat 64 i).toNat = i := toNat_ofNat_of_lt (by omega)
  have hset : ∀ x, i < (out.set i x).length := fun x => by rwa [List.length_set]
  have hsize : size ≠ 0 := by
    rintro rfl
    exact absurd hpos (by decide)
  unfold averageAt
  dsimp only
  rw [store_of_lt (by rwa [hidx]), done_bind, hidx, addWindow_eq hi hlen hout hfuel, done_bind,
    load_of_lt (by rw [hidx]; exact hset _), done_bind, divideBySize, if_neg hsize, pure_eq, done_bind,
    store_of_lt (by rw [hidx]; exact hset _), done_bind]
  simp only [hidx, List.getElem_set_self, List.set_set, ofNat_succ, pure_eq]
  rfl

/-- Replacing the next entry. -/
theorem set_map_range_append {α : Type} (f : Nat → α) {out : List α} {i : Nat} (hi : i < out.length) :
    ((List.range i).map f ++ out.drop i).set i (f i) = (List.range (i + 1)).map f ++ out.drop (i + 1) := by
  have hlen : ((List.range i).map f).length = i := by simp
  rw [List.set_append_right _ _ (by omega), hlen, Nat.sub_self, List.drop_eq_getElem_cons hi, List.set_cons_zero,
    List.range_succ, List.map_append, List.append_assoc]
  rfl

/-- The first loop. -/
theorem averages_eq (hn : n.toNat = data.length) (hout : out.length = data.length) (hpos : 1 ≤ size.toNat)
    (hle : size.toNat ≤ n.toNat) (hfuel : n.toNat < fuel) :
    loop (fun s => s.1 ≤ n - size) (averageAt fuel size data) fuel (0, out) =
      done (n - size + 1, (List.range (data.length - size.toNat + 1)).map (windowEntry data size) ++
        out.drop (data.length - size.toNat + 1)) := by
  have hlt := n.isLt
  have hsub : (n - size).toNat = data.length - size.toNat := by rw [BitVec.toNat_sub_of_le hle, hn]
  have hlast : BitVec.ofNat 64 (0 + (data.length - size.toNat + 1)) = n - size + 1 := by
    rw [Nat.zero_add, ← ofNat_succ, ← hsub, BitVec.ofNat_toNat, BitVec.setWidth_eq]
  rw [← hlast]
  refine (loop_counted (fun k => (BitVec.ofNat 64 k, (List.range k).map (windowEntry data size) ++ out.drop k))
    (data.length - size.toNat + 1) 0 fuel (fun k _ hk => ?_) (fun k _ hk => ?_) ?_ (by omega)).trans ?_
  · rw [decide_eq_true_eq, BitVec.le_def, toNat_ofNat_of_lt (by omega), hsub]
    omega
  · have hlen : k < ((List.range k).map (windowEntry data size) ++ out.drop k).length := by
      rw [List.length_append, List.length_map, List.length_range, List.length_drop]
      omega
    rw [averageAt_eq (by omega) (by omega) hlen hpos (by omega), set_map_range_append _ (by omega)]
  · rw [decide_eq_false_iff_not, BitVec.le_def, toNat_ofNat_of_lt (by omega), hsub]
    omega
  · rw [Nat.zero_add]

/-- The second loop clears what is left. -/
theorem clears_eq {start : List (BitVec 32)} (hn : n.toNat = start.length + out.length) (hfuel : out.length < fuel) :
    loop (fun s => s.1 < n) clearAt fuel (BitVec.ofNat 64 start.length, start ++ out) =
      done (n, start ++ List.replicate out.length 0) := by
  have hlt := n.isLt
  have hend : BitVec.ofNat 64 (start.length + out.length) = n := by
    rw [← hn, BitVec.ofNat_toNat, BitVec.setWidth_eq]
  refine (loop_counted (fun k => (BitVec.ofNat 64 (start.length + k), start ++ (List.replicate k 0 ++ out.drop k)))
    out.length 0 fuel (fun k _ hk => ?_) (fun k _ hk => ?_) ?_ hfuel).trans ?_
  · rw [decide_eq_true_eq, BitVec.lt_def, toNat_ofNat_of_lt (by omega)]
    omega
  · have hidx : (BitVec.ofNat 64 (start.length + k)).toNat = start.length + k := toNat_ofNat_of_lt (by omega)
    unfold clearAt
    rw [store_of_lt (by rw [hidx]; simp; omega), done_bind, hidx]
    rw [List.set_append_right _ _ (by omega), Nat.add_sub_cancel_left, List.set_append_right _ _ (by simp),
      List.length_replicate, Nat.sub_self, List.drop_eq_getElem_cons (by omega), List.set_cons_zero, ofNat_succ,
      List.replicate_succ', List.append_assoc]
    rfl
  · rw [Nat.zero_add, hend]
    simp
  · rw [Nat.zero_add, hend, List.drop_length, List.append_nil]

/-- **The moving average** of a size it is defined for. -/
theorem movingAverageCpu_eq (hn : n.toNat = data.length) (hout : out.length = data.length) (hpos : 1 ≤ size.toNat)
    (hle : size.toNat ≤ n.toNat) (hfuel : n.toNat < fuel) :
    movingAverageCpu fuel n size data out = done ((windowEntries data size).rotateRight 1) := by
  have hsub : (n - size).toNat = data.length - size.toNat := by rw [BitVec.toNat_sub_of_le hle, hn]
  have hlen := length_windowEntries hpos (hn ▸ hle)
  have hstart : n - size + 1 = BitVec.ofNat 64 ((List.range (data.length - size.toNat + 1)).map
      (windowEntry data size)).length := by
    rw [List.length_map, List.length_range, ← ofNat_succ, ← hsub, BitVec.ofNat_toNat, BitVec.setWidth_eq]
  have hdrop : (out.drop (data.length - size.toNat + 1)).length = size.toNat - 1 := by
    rw [List.length_drop]
    omega
  have hparts : n.toNat = ((List.range (data.length - size.toNat + 1)).map (windowEntry data size)).length +
      (out.drop (data.length - size.toNat + 1)).length := by
    rw [List.length_map, List.length_range, hdrop]
    omega
  unfold movingAverageCpu
  rw [averages_eq hn hout hpos hle hfuel, done_bind]
  dsimp only
  rw [hstart, clears_eq hparts (by omega), done_bind, hdrop]
  have hne : windowEntries data size ≠ [] := List.ne_nil_of_length_pos (by omega)
  exact rotate_last (hn.trans hlen.symm) hne

/-! ## What it does not compute -/

/-- A window that leaves the data faults. -/
theorem addWindow_ne_done {i : BitVec 64} (hi : i = 0) (hsize : data.length < size.toNat)
    (t : BitVec 64 × List (BitVec 32)) : addWindow fuel size data i out ≠ done t := by
  subst hi
  refine loop_ne_done (I := fun s => s.1.toNat ≤ data.length) (fun s hs => ?_) (fun s t hs hb => ?_) fuel t
    (Nat.zero_le _)
  · rw [decide_eq_true_eq, BitVec.lt_def]
    omega
  · obtain ⟨x, hx, hb⟩ := bind_eq_done.mp hb
    have hindex : (0 : BitVec 64) + s.1 = s.1 := BitVec.zero_add _
    rw [hindex] at hx
    have hlt : s.1.toNat < data.length := (List.getElem?_eq_some_iff.mp (load_eq_done.mp hx)).1
    obtain ⟨sum, -, hb⟩ := bind_eq_done.mp hb
    obtain ⟨out', -, hb⟩ := bind_eq_done.mp hb
    cases hb
    have := size.isLt
    have hone : (1 : BitVec 64).toNat = 1 := rfl
    rw [BitVec.toNat_add, hone, Nat.mod_eq_of_lt (by omega)]
    omega

/-- **For any other size** the first window faults. -/
theorem movingAverageCpu_ne_done (hn : n.toNat = data.length) (hout : out.length = data.length)
    (h : ¬(1 ≤ size.toNat ∧ size.toNat ≤ n.toNat)) (t : List (BitVec 32)) :
    movingAverageCpu fuel n size data out ≠ done t := by
  intro hrun
  obtain ⟨s, hloop, -⟩ := bind_eq_done.mp hrun
  cases fuel with
  | zero => cases hloop
  | succ fuel =>
    have hfirst : (0 : BitVec 64) ≤ n - size := Nat.zero_le (n - size).toNat
    rw [loop, if_pos (decide_eq_true hfirst)] at hloop
    obtain ⟨s, hbody, -⟩ := bind_eq_done.mp hloop
    obtain ⟨out', hstore, hbody⟩ := bind_eq_done.mp hbody
    obtain ⟨w, hwin, hbody⟩ := bind_eq_done.mp hbody
    obtain ⟨sum, -, hbody⟩ := bind_eq_done.mp hbody
    obtain ⟨q, hdiv, -⟩ := bind_eq_done.mp hbody
    by_cases hsize : data.length < size.toNat
    · exact addWindow_ne_done rfl hsize w hwin
    · have hzero : size = 0 := by
        have hnat : size.toNat = 0 := by omega
        exact BitVec.eq_of_toNat_eq hnat
      rw [divideBySize, if_pos hzero] at hdiv
      cases hdiv

end Spec

/-- What it returns has the length of the data. -/
theorem length_of_movingAverageCpu {fuel : Nat} {n size : BitVec 64} {data out t : List (BitVec 32)}
    (hn : n.toNat = data.length) (hout : out.length = data.length)
    (h : movingAverageCpu fuel n size data out = done t) : t.length = data.length := by
  by_cases hsize : 1 ≤ size.toNat ∧ size.toNat ≤ n.toNat
  · have hmore := movingAverageCpu_mono (Nat.le_add_right fuel (n.toNat + 1)) h
    rw [movingAverageCpu_eq hn hout hsize.1 hsize.2 (by omega)] at hmore
    cases hmore
    rw [rotateRight_one, List.length_append, List.length_drop, List.length_take, length_windowEntries hsize.1 (by omega)]
    omega
  · exact absurd h (movingAverageCpu_ne_done hn hout hsize t)

/-! ## The moving average -/

/-- The sum of the integers of a window. -/
def intSum (data : List (BitVec 32)) (i size : Nat) : Int := (((data.drop i).take size).map BitVec.toInt).sum

/-- The sums a window goes through are `int`s. -/
def SumsFit (data : List (BitVec 32)) (size : Nat) : Prop :=
  ∀ i k, i + size ≤ data.length → k ≤ size → -2 ^ 31 ≤ intSum data i k ∧ intSum data i k < 2 ^ 31

/-- The averages of all windows, truncated toward zero, and zeroes where none starts. -/
def averages (data : List (BitVec 32)) (size : Nat) : List Int :=
  (List.range (data.length - size + 1)).map (fun i => (intSum data i size).tdiv size) ++ List.replicate (size - 1) 0

/-- `mavg_threept_exp`. -/
def mavgThreeptExp (n : Nat) (a : List (BitVec 32)) : List (BitVec 32) :=
  (List.range n).map fun i =>
    if i = 0 then (a.getD 0 0 + a.getD 1 0).sdiv 3
    else if i = n - 1 then (a.getD (n - 1) 0 + a.getD (n - 2) 0).sdiv 3
    else (a.getD (i - 1) 0 + a.getD i 0 + a.getD (i + 1) 0).sdiv 3

/-- `mavg_check`. -/
def mavgCheck (n : Nat) (out exp : List (BitVec 32)) : Bool :=
  (List.range' 1 (n - 2)).all fun i => out[i]? == exp[i]?

/-- The call returns, with the averages rotated right by one, and for three points with what the tests expect. -/
def MovingAverageCorrect (n size : BitVec 64) (data out : List (BitVec 32)) : Prop :=
  ∃ fuel out', movingAverageCpu fuel n size data out = done out' ∧
    out'.map BitVec.toInt = (averages data size.toNat).rotateRight 1 ∧
    (size = 3 → mavgCheck data.length out' (mavgThreeptExp data.length data) = true)

section Correct

variable {size : BitVec 64} {data : List (BitVec 32)}

theorem toInt_foldl_add : ∀ (xs : List (BitVec 32)) (acc : BitVec 32),
    (xs.foldl (· + ·) acc).toInt = (acc.toInt + (xs.map BitVec.toInt).sum).bmod (2 ^ 32)
  | [], acc => by
    rw [List.foldl_nil, List.map_nil, List.sum_nil, Int.add_zero, BitVec.toInt_bmod_cancel]
  | x :: xs, acc => by
    rw [List.foldl_cons, toInt_foldl_add xs, BitVec.toInt_add, Int.bmod_add_bmod, List.map_cons, List.sum_cons,
      Int.add_assoc]

/-- The accumulator has the sum of the integers. -/
theorem toInt_windowSum {w : Nat} (hfit : SumsFit data w) {i : Nat} (hi : i + w ≤ data.length) :
    (windowSum data i w).toInt = intSum data i w := by
  obtain ⟨h1, h2⟩ := hfit i w hi (Nat.le_refl _)
  unfold windowSum
  rw [toInt_foldl_add]
  show (0 + intSum data i w).bmod (2 ^ 32) = _
  rw [Int.zero_add]
  exact Int.bmod_eq_of_le (by omega) (by omega)

/-- Every entry is an average if and only if every division is exact. -/
theorem windowEntries_eq_iff (hfit : SumsFit data size.toNat) (hmem : 4 * data.length < 2 ^ 64)
    (hpos : 1 ≤ size.toNat) (hle : size.toNat ≤ data.length) :
    (windowEntries data size).map BitVec.toInt = averages data size.toNat ↔
      ∀ i, i + size.toNat ≤ data.length → WordDiv.Exact size.toNat (intSum data i size.toNat) := by
  have hzero : (List.replicate (size.toNat - 1) (0 : BitVec 32)).map BitVec.toInt =
      List.replicate (size.toNat - 1) 0 := by
    rw [List.map_replicate]
    rfl
  rw [windowEntries, averages, List.map_append, hzero, List.append_left_inj, List.map_map, List.map_inj_left]
  constructor
  · intro h i hi
    have hentry := h i (List.mem_range.mpr (by omega))
    rw [← toInt_windowSum hfit hi] at hentry ⊢
    exact (WordDiv.toInt_udiv_iff hpos (by omega)).mp hentry
  · intro h i hi
    have hi : i + size.toNat ≤ data.length := by
      have := List.mem_range.mp hi
      omega
    have hexact := h i hi
    rw [← toInt_windowSum hfit hi] at hexact ⊢
    exact (WordDiv.toInt_udiv_iff hpos (by omega)).mpr hexact

/-- What the tests expect between the ends. -/
theorem threept_entry (hfit : SumsFit data 3) {i : Nat} (h1 : 1 ≤ i) (h2 : i + 1 < data.length) :
    ∃ x, (mavgThreeptExp data.length data)[i]? = some x ∧ x.toInt = (intSum data (i - 1) 3).tdiv 3 := by
  have hsum : windowSum data (i - 1) 3 = data.getD (i - 1) 0 + data.getD i 0 + data.getD (i + 1) 0 := by
    have hi : i - 1 + 1 = i := by omega
    have hi' : i - 1 + 2 = i + 1 := by omega
    have hlt : i - 1 < data.length := by omega
    have hlt' : i < data.length := by omega
    rw [windowSum_succ (by omega), windowSum_succ (by omega), windowSum_succ (by omega), windowSum_zero]
    simp only [Nat.add_zero, hi, hi', List.getD_eq_getElem?_getD, List.getElem?_eq_getElem hlt,
      List.getElem?_eq_getElem hlt', List.getElem?_eq_getElem h2, Option.getD_some]
    congr 2
    exact BitVec.zero_add _
  have hint := toInt_windowSum hfit (show i - 1 + 3 ≤ data.length by omega)
  refine ⟨(windowSum data (i - 1) 3).sdiv 3, ?_, ?_⟩
  · have hne : i ≠ 0 := by omega
    have hne' : i ≠ data.length - 1 := by omega
    rw [mavgThreeptExp, List.getElem?_map, List.getElem?_range (by omega), Option.map_some, if_neg hne, if_neg hne',
      hsum]
  · rw [BitVec.toInt_sdiv_of_ne_or_ne _ _ (.inr (by decide)), hint]
    rfl

/-- Averages are what the tests expect. -/
theorem mavgCheck_of_averages (hfit : SumsFit data 3) (hlen : 3 ≤ data.length) {out' : List (BitVec 32)}
    (h : out'.map BitVec.toInt = (averages data 3).rotateRight 1) :
    mavgCheck data.length out' (mavgThreeptExp data.length data) = true := by
  refine List.all_eq_true.mpr fun i hi => ?_
  obtain ⟨h1, h2⟩ : 1 ≤ i ∧ i + 1 < data.length := by
    rw [List.mem_range'_1] at hi
    omega
  obtain ⟨x, hx, hval⟩ := threept_entry hfit h1 h2
  have havg : (averages data 3).length = data.length := by
    rw [averages, List.length_append, List.length_map, List.length_range, List.length_replicate]
    omega
  have hentry : (averages data 3)[i - 1]? = some ((intSum data (i - 1) 3).tdiv 3) := by
    rw [averages, List.getElem?_append_left (by simp; omega), List.getElem?_map, List.getElem?_range (by omega)]
    rfl
  have hout : (out'[i]?).map BitVec.toInt = some x.toInt := by
    rw [← List.getElem?_map, h, getElem?_rotateRight_one h1 (by omega), hentry, hval]
  obtain ⟨y, hy, hxy⟩ := Option.map_eq_some_iff.mp hout
  rw [hx, hy, BitVec.eq_of_toInt_eq hxy]
  exact beq_self_eq_true _

end Correct

/-- **The moving average is correct** if and only if the unsigned division is exact for every window: its sum is not
negative, or the size is a power of two up to 2^32 and divides it, or the size is 2^32 - 1 and the sum below -1. -/
theorem movingAverage_correct_iff (n size : BitVec 64) (data out : List (BitVec 32)) (hn : n.toNat = data.length)
    (hmem : 4 * data.length < 2 ^ 64) (hout : out.length = data.length) (hpos : 1 ≤ size.toNat)
    (hle : size.toNat ≤ n.toNat) (hfit : SumsFit data size.toNat) :
    MovingAverageCorrect n size data out ↔
      ∀ i, i + size.toNat ≤ data.length → WordDiv.Exact size.toNat (intSum data i size.toNat) := by
  have hrun := fun fuel => @movingAverageCpu_eq fuel n size data out hn hout hpos hle
  have hlen : ((windowEntries data size).map BitVec.toInt).length = (averages data size.toNat).length := by
    simp [windowEntries, averages]
  rw [← windowEntries_eq_iff hfit hmem hpos (by omega), ← rotateRight_one_inj hlen, ← map_rotateRight_one]
  constructor
  · rintro ⟨fuel, out', hdone, havg, -⟩
    have hmore := movingAverageCpu_mono (Nat.le_add_right fuel (n.toNat + 1)) hdone
    rw [hrun _ (by omega)] at hmore
    cases hmore
    exact havg
  · intro havg
    refine ⟨n.toNat + 1, _, hrun _ (Nat.lt_succ_self _), havg, fun hsize => ?_⟩
    subst hsize
    exact mavgCheck_of_averages hfit (hn ▸ hle) havg

/-- One window of three. -/
theorem sumsFit_three {a b c : BitVec 32} (h0 : -2 ^ 31 ≤ a.toInt + (b.toInt + c.toInt))
    (h1 : a.toInt + (b.toInt + c.toInt) < 2 ^ 31) (h2 : -2 ^ 31 ≤ a.toInt + b.toInt) (h3 : a.toInt + b.toInt < 2 ^ 31) :
    SumsFit [a, b, c] 3 := by
  have hlow := BitVec.le_toInt a
  have hhigh := @BitVec.toInt_lt 32 a
  intro i k hi hk
  have hi0 : i = 0 := by
    simp only [List.length_cons, List.length_nil] at hi
    omega
  subst hi0
  rcases k with _ | _ | _ | _ | k
  · simp [intSum]
  · simpa [intSum] using ⟨hlow, hhigh⟩
  · simpa [intSum] using ⟨h2, h3⟩
  · simpa [intSum] using ⟨h0, h1⟩
  · omega

/-- Three positive numbers. -/
theorem movingAverage_correct_three : MovingAverageCorrect 3 3 [1, 2, 3] [0, 0, 0] := by
  refine (movingAverage_correct_iff 3 3 [1, 2, 3] [0, 0, 0] rfl (by decide) rfl (by decide) (by decide)
    (sumsFit_three (by decide) (by decide) (by decide) (by decide))).mpr fun i hi => ?_
  obtain rfl : i = 0 := Nat.le_zero.mp (Nat.le_of_add_le_add_right (b := 3) hi)
  exact .inl (by decide +kernel)

/-- Three times -3: the average is -3, and the call has 1431655762. -/
theorem movingAverage_negative_wrong : ¬∀ (n size : BitVec 64) (data out : List (BitVec 32)), n.toNat = data.length →
    4 * data.length < 2 ^ 64 → out.length = data.length → 1 ≤ size.toNat → size.toNat ≤ n.toNat →
    SumsFit data size.toNat → MovingAverageCorrect n size data out := by
  intro h
  obtain ⟨fuel, out', hrun, havg, -⟩ := h 3 3 [-3, -3, -3] [0, 0, 0] rfl (by decide) rfl (by decide) (by decide)
    (sumsFit_three (by decide) (by decide) (by decide) (by decide))
  have hmore := movingAverageCpu_mono (Nat.le_add_left fuel 4) hrun
  have hknown : movingAverageCpu (4 + fuel) 3 3 [-3, -3, -3] [0, 0, 0] = done [0, 1431655762, 0] :=
    movingAverageCpu_mono (Nat.le_add_right 4 fuel) (by decide +kernel)
  rw [hknown] at hmore
  cases hmore
  exact absurd havg (by decide +kernel)

end Hydrogen

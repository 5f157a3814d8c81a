import Mathlib.Data.List.Basic

/-!
# Programs that may fault or not end

`Exec` is what a piece of C++ code comes to: a value, a fault, or no end within the bound on its loops. The arrays are
lists, indexed by `size_t` as `BitVec 64`; every access is checked (`load`, `store`). A loop tests its condition once
for each unit of fuel: a loop whose states are known ends in the last of them (`loop_counted`), and one that keeps an
invariant under which it goes on never ends well (`loop_ne_done`). More fuel does not change an outcome (`loop_mono`). A
loop whose number of rounds is fixed when it starts needs none (`forLoop`).
-/

/-- What must not happen. -/
inductive MemFault where
  /-- an array is accessed outside its bounds -/
  | outOfBounds
  /-- a division by zero -/
  | divideByZero
  /-- an algorithm is called on a range that is none -/
  | badRange
  /-- a null pointer is dereferenced -/
  | nullPointer
  deriving DecidableEq

/-- The outcome of a program. -/
inductive Exec (α : Type) where
  | done (a : α)
  | fault (e : MemFault)
  | outOfFuel
  deriving DecidableEq

namespace Exec

variable {α β σ : Type}

protected def bind : Exec α → (α → Exec β) → Exec β
  | done a, f => f a
  | fault e, _ => fault e
  | outOfFuel, _ => outOfFuel

instance : Monad Exec where
  pure := done
  bind := Exec.bind

@[simp] theorem pure_eq (a : α) : (pure a : Exec α) = done a := rfl

@[simp] theorem done_bind (a : α) (f : α → Exec β) : done a >>= f = f a := rfl

@[simp] theorem fault_bind (e : MemFault) (f : α → Exec β) : fault e >>= f = fault e := rfl

@[simp] theorem outOfFuel_bind (f : α → Exec β) : outOfFuel >>= f = outOfFuel := rfl

/-- A sequence ends if both parts do. -/
theorem bind_eq_done {x : Exec α} {f : α → Exec β} {b : β} : x >>= f = done b ↔ ∃ a, x = done a ∧ f a = done b := by
  cases x with
  | done a => simp
  | fault e => simp
  | outOfFuel => simp

/-- `*p`, for a pointer that may be null. -/
def deref : Option α → Exec α
  | some a => done a
  | none => fault .nullPointer

/-! ## Arrays -/

/-- `xs[i]`. -/
def load (xs : List α) (i : BitVec 64) : Exec α :=
  match xs[i.toNat]? with
  | some x => done x
  | none => fault .outOfBounds

/-- `xs[i] = x`. -/
def store (xs : List α) (i : BitVec 64) (x : α) : Exec (List α) :=
  if i.toNat < xs.length then done (xs.set i.toNat x) else fault .outOfBounds

/-- `std::rotate(&xs[0], &xs[middle], &xs[last])`. -/
def rotate (xs : List α) (middle last : BitVec 64) : Exec (List α) :=
  if middle.toNat ≤ last.toNat ∧ last.toNat ≤ xs.length then
    done ((xs.take last.toNat).drop middle.toNat ++ xs.take middle.toNat ++ xs.drop last.toNat)
  else fault .badRange

/-- `memcpy(dst, src, count)`. -/
def memcpy (dst src : List α) (count : BitVec 64) : Exec (List α) :=
  if count.toNat ≤ src.length ∧ count.toNat ≤ dst.length then done (src.take count.toNat ++ dst.drop count.toNat)
  else fault .outOfBounds

/-- A whole array into one of its size. -/
theorem memcpy_all {dst src : List α} {count : BitVec 64} (hsrc : count.toNat = src.length)
    (hdst : dst.length = src.length) : memcpy dst src count = done src := by
  rw [memcpy, hsrc, hdst, if_pos ⟨Nat.le_refl _, Nat.le_refl _⟩, List.take_length, ← hdst, List.drop_length,
    List.append_nil]

theorem load_eq_done {xs : List α} {i : BitVec 64} {x : α} : load xs i = done x ↔ xs[i.toNat]? = some x := by
  unfold load
  cases xs[i.toNat]? with
  | none => simp
  | some y => simp

theorem load_of_lt {xs : List α} {i : BitVec 64} (h : i.toNat < xs.length) : load xs i = done xs[i.toNat] :=
  load_eq_done.mpr (List.getElem?_eq_getElem h)

theorem store_of_lt {xs : List α} {i : BitVec 64} (h : i.toNat < xs.length) (x : α) :
    store xs i x = done (xs.set i.toNat x) :=
  if_pos h

/-- A rotation by one: the last element comes first. -/
theorem rotateRight_one (xs : List α) : xs.rotateRight 1 = xs.drop (xs.length - 1) ++ xs.take (xs.length - 1) := by
  rw [List.rotateRight]
  by_cases hle : xs.length ≤ 1
  · have hlen : xs.length - 1 = 0 := by omega
    rw [if_pos hle, hlen, List.drop_zero, List.take_zero, List.append_nil]
  · rw [if_neg hle, Nat.mod_eq_of_lt (by omega)]

theorem map_rotateRight_one (f : α → β) (xs : List α) : (xs.rotateRight 1).map f = (xs.map f).rotateRight 1 := by
  rw [rotateRight_one, rotateRight_one, List.map_append, List.map_drop, List.map_take, List.length_map]

theorem rotateRight_one_inj {xs ys : List α} (hlen : xs.length = ys.length) :
    xs.rotateRight 1 = ys.rotateRight 1 ↔ xs = ys := by
  constructor
  · intro h
    rw [rotateRight_one, rotateRight_one, hlen] at h
    obtain ⟨hd, ht⟩ := List.append_inj h (by rw [List.length_drop, List.length_drop, hlen])
    rw [← List.take_append_drop (ys.length - 1) xs, hd, ht, List.take_append_drop]
  · rintro rfl
    rfl

/-- The others follow in order. -/
theorem getElem?_rotateRight_one {xs : List α} {i : Nat} (h1 : 1 ≤ i) (h2 : i < xs.length) :
    (xs.rotateRight 1)[i]? = xs[i - 1]? := by
  have hlen : (xs.drop (xs.length - 1)).length = 1 := by
    rw [List.length_drop]
    omega
  rw [rotateRight_one, List.getElem?_append_right (by omega), hlen, List.getElem?_take_of_lt (by omega)]

theorem rotate_last {xs : List α} {n : BitVec 64} (hn : n.toNat = xs.length) (h : xs ≠ []) :
    rotate xs (n - 1) n = done (xs.rotateRight 1) := by
  have hpos : 0 < xs.length := List.length_pos_iff.mpr h
  have hone : (1 : BitVec 64).toNat = 1 := rfl
  have hsub : (n - 1).toNat = xs.length - 1 := by
    rw [BitVec.toNat_sub_of_le (by rw [BitVec.le_def, hone]; omega), hn, hone]
  rw [rotate, hsub, hn, if_pos ⟨Nat.sub_le _ _, Nat.le_refl _⟩, List.take_length, List.drop_length, List.append_nil,
    rotateRight_one]

/-- `xs[i]`, for an index that is counted up from zero. -/
def index (xs : List α) (i : Nat) : Exec α :=
  match xs[i]? with
  | some x => done x
  | none => fault .outOfBounds

/-- `xs[i] = x`, for such an index. -/
def assign (xs : List α) (i : Nat) (x : α) : Exec (List α) :=
  if i < xs.length then done (xs.set i x) else fault .outOfBounds

theorem index_eq_done {xs : List α} {i : Nat} {x : α} (h : xs[i]? = some x) : index xs i = done x := by
  rw [index, h]

/-! ## Loops -/

/-- `while (cond) body`, for so many tests at most. -/
def loop (cond : σ → Bool) (body : σ → Exec σ) : Nat → σ → Exec σ
  | 0, _ => outOfFuel
  | fuel + 1, s => if cond s then body s >>= loop cond body fuel else done s

variable {cond : σ → Bool} {body : σ → Exec σ}

/-- **A counted loop**: it goes through the states it is said to go through. -/
theorem loop_counted (f : Nat → σ) : ∀ (m k fuel : Nat), (∀ i, k ≤ i → i < k + m → cond (f i) = true) →
    (∀ i, k ≤ i → i < k + m → body (f i) = done (f (i + 1))) → cond (f (k + m)) = false → m < fuel →
    loop cond body fuel (f k) = done (f (k + m))
  | 0, k, fuel + 1, _, _, hend, _ => by
    rw [Nat.add_zero] at hend ⊢
    rw [loop, hend]
    rfl
  | m + 1, k, fuel + 1, hcond, hbody, hend, hfuel => by
    have hk : k + (m + 1) = k + 1 + m := by omega
    rw [loop, hcond k (Nat.le_refl _) (by omega), if_pos rfl, hbody k (Nat.le_refl _) (by omega), done_bind, hk]
    rw [hk] at hend
    exact loop_counted f m (k + 1) fuel (fun i h1 h2 => hcond i (by omega) (by omega))
      (fun i h1 h2 => hbody i (by omega) (by omega)) hend (by omega)

/-- **More fuel**, for the loop and within its body, leaves a loop that ended as it is. -/
theorem loop_mono {body' : σ → Exec σ} (hbody : ∀ s t, body s = done t → body' s = done t) :
    ∀ {fuel fuel' : Nat}, fuel ≤ fuel' → ∀ {s t : σ}, loop cond body fuel s = done t → loop cond body' fuel' s = done t
  | 0, _, _, _, _, h => by cases h
  | fuel + 1, fuel' + 1, hle, s, t, h => by
    unfold loop at h ⊢
    split
    · rename_i hc
      rw [if_pos hc] at h
      obtain ⟨s', hb, hl⟩ := bind_eq_done.mp h
      rw [hbody s s' hb, done_bind]
      exact loop_mono hbody (Nat.le_of_succ_le_succ hle) hl
    · rename_i hc
      rwa [if_neg hc] at h

/-- **A loop that cannot stop** under an invariant never ends well. -/
theorem loop_ne_done {I : σ → Prop} (hcond : ∀ s, I s → cond s = true) (hbody : ∀ s t, I s → body s = done t → I t) :
    ∀ (fuel : Nat) {s : σ} (t : σ), I s → loop cond body fuel s ≠ done t
  | 0, _, _, _ => by
    intro h
    cases h
  | fuel + 1, s, t, hs => by
    rw [loop, hcond s hs, if_pos rfl]
    intro h
    obtain ⟨s', hb, hl⟩ := bind_eq_done.mp h
    exact loop_ne_done hcond hbody fuel t (hbody s s' hs hb) hl

/-- What holds before a loop and is kept by its body holds after it, where its condition does not. -/
theorem loop_invariant {I : σ → Prop} (hbody : ∀ s t, I s → cond s = true → body s = done t → I t) :
    ∀ (fuel : Nat) {s t : σ}, I s → loop cond body fuel s = done t → I t ∧ cond t = false
  | 0, _, _, _, h => by cases h
  | fuel + 1, s, t, hs, h => by
    unfold loop at h
    split at h
    · rename_i hc
      obtain ⟨s', hb, hl⟩ := bind_eq_done.mp h
      exact loop_invariant hbody fuel (hbody s s' hs hc hb) hl
    · rename_i hc
      cases h
      exact ⟨hs, Bool.eq_false_iff.mpr hc⟩

/-- `for (i = 0; i < n; i++) body`. -/
def forLoop (body : Nat → σ → Exec σ) : Nat → σ → Exec σ
  | 0, s => done s
  | n + 1, s => forLoop body n s >>= body n

variable {rounds : Nat → σ → Exec σ}

/-- It goes through the states it is said to go through. -/
theorem forLoop_counted (g : Nat → σ) : ∀ n : Nat, (∀ i < n, rounds i (g i) = done (g (i + 1))) →
    forLoop rounds n (g 0) = done (g n)
  | 0, _ => rfl
  | n + 1, h => by
    rw [forLoop, forLoop_counted g n fun i hi => h i (Nat.lt_succ_of_lt hi), done_bind]
    exact h n (Nat.lt_succ_self n)

/-- A fault in the first round. -/
theorem forLoop_fault {e : MemFault} {s : σ} (h : rounds 0 s = fault e) : ∀ n : Nat, 0 < n →
    forLoop rounds n s = fault e
  | 1, _ => h
  | n + 2, _ => by
    rw [forLoop, forLoop_fault h (n + 1) (Nat.succ_pos n)]
    rfl

end Exec

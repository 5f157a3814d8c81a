import Mathlib.Algebra.Ring.Nat
import Mathlib.Data.List.Basic

/-!
# Numbers as bytes, least significant first

`ofNat k n` writes the low `k` bytes of `n`, `toNat` reads bytes back, and `read k off` reads a field of `k` bytes at an
offset. A packed record is a list of fields, each with its width (`encode`), and every field is read back at the sum of
the widths before it (`read_encode`). A zeroed block into which the fields are written one behind the other is such a
record (`write_encode`). An array is a record of fields of one width (`readWords_encodeWords`).
-/

namespace LittleEndian

/-- The number in the bytes. -/
def toNat : List UInt8 → Nat
  | [] => 0
  | b :: bs => b.toNat + 256 * toNat bs

/-- The low `k` bytes of a number. -/
def ofNat : Nat → Nat → List UInt8
  | 0, _ => []
  | k + 1, n => UInt8.ofNat n :: ofNat k (n / 256)

/-- The field of `k` bytes at `off`. -/
def read (k off : Nat) (bs : List UInt8) : Nat := toNat ((bs.drop off).take k)

@[simp] theorem length_ofNat : ∀ k n : Nat, (ofNat k n).length = k
  | 0, _ => rfl
  | k + 1, n => by rw [ofNat, List.length_cons, length_ofNat k]

/-- **Round trip**: the low bytes of a number are the number up to a power of 256. -/
theorem toNat_ofNat : ∀ k n : Nat, toNat (ofNat k n) = n % 256 ^ k
  | 0, n => by rw [ofNat, toNat, Nat.pow_zero, Nat.mod_one]
  | k + 1, n => by
    have hdigit : (UInt8.ofNat n).toNat = n % 256 := UInt8.toNat_ofNat'
    rw [ofNat, toNat, hdigit, toNat_ofNat k, Nat.pow_succ', Nat.mod_mul]

theorem toNat_replicate_zero : ∀ n : Nat, toNat (List.replicate n 0) = 0
  | 0 => rfl
  | n + 1 => by rw [List.replicate_succ, toNat, toNat_replicate_zero n]; rfl

/-- A field of a zeroed block. -/
theorem read_replicate_zero (k off n : Nat) : read k off (List.replicate n 0) = 0 := by
  rw [read, List.drop_replicate, List.take_replicate, toNat_replicate_zero]

/-- A field is in every part that reaches behind it. -/
theorem read_take {k off n : Nat} {bs : List UInt8} (hn : off + k ≤ n) (hbs : off + k ≤ bs.length)
    (rest : List UInt8) : read k off (bs.take n ++ rest) = read k off bs := by
  have hlen : off + k ≤ (bs.take n).length := by
    rw [List.length_take]
    exact Nat.le_min.mpr ⟨hn, hbs⟩
  rw [read, List.drop_append_of_le_length (by omega),
    List.take_append_of_le_length (by rw [List.length_drop]; omega), List.drop_take, List.take_take,
    Nat.min_eq_left (by omega), read]

theorem read_append_right {k off : Nat} {bs : List UInt8} (h : bs.length ≤ off) (rest : List UInt8) :
    read k off (bs ++ rest) = read k (off - bs.length) rest := by
  have hdrop : (bs ++ rest).drop off = rest.drop (off - bs.length) := by
    rw [List.drop_append, List.drop_eq_nil_of_le h, List.nil_append]
  rw [read, read, hdrop]

/-- A field at the front. -/
theorem read_ofNat_append (k n : Nat) (rest : List UInt8) : read k 0 (ofNat k n ++ rest) = n % 256 ^ k := by
  have htake : (ofNat k n ++ rest).take k = ofNat k n := List.take_left' (length_ofNat k n)
  rw [read, List.drop_zero, htake, toNat_ofNat]

/-! ## Packed records -/

/-- Fields, each a width and a value, one after the other. -/
def encode (fields : List (Nat × Nat)) : List UInt8 := fields.flatMap fun f => ofNat f.1 f.2

@[simp] theorem length_encode : ∀ fields : List (Nat × Nat), (encode fields).length = (fields.map Prod.fst).sum
  | [] => rfl
  | f :: fields => by
    show (ofNat f.1 f.2 ++ encode fields).length = _
    rw [List.length_append, length_ofNat, length_encode fields, List.map_cons, List.sum_cons]

/-- **Every field is read back** behind the fields before it. -/
theorem read_encode (before after : List (Nat × Nat)) (k n : Nat) (rest : List UInt8) :
    read k (before.map Prod.fst).sum (encode (before ++ (k, n) :: after) ++ rest) = n % 256 ^ k := by
  have hsplit : encode (before ++ (k, n) :: after) ++ rest =
      encode before ++ (ofNat k n ++ (encode after ++ rest)) := by
    simp [encode]
  have hlen := length_encode before
  rw [hsplit, read_append_right (by omega), hlen, Nat.sub_self, read_ofNat_append]

/-- The bytes with the low `k` bytes of `n` written at `off`. -/
def write (k off n : Nat) (bs : List UInt8) : List UInt8 := bs.take off ++ ofNat k n ++ bs.drop (off + k)

/-- **A block that is filled from the front**: the next field is written behind the ones that are there. -/
theorem write_encode {fields : List (Nat × Nat)} {off : Nat} (k n room : Nat) (hoff : (fields.map Prod.fst).sum = off) :
    write k off n (encode fields ++ List.replicate room 0) =
      encode (fields ++ [(k, n)]) ++ List.replicate (room - k) 0 := by
  have hlen : (encode fields).length = off := (length_encode fields).trans hoff
  have hdrop : (encode fields ++ List.replicate room 0).drop (off + k) = List.replicate (room - k) 0 := by
    rw [← hlen, List.drop_append, List.drop_eq_nil_of_le (by omega), List.nil_append, List.drop_replicate,
      Nat.add_sub_cancel_left]
  rw [write, List.take_left' hlen, hdrop]
  simp [encode]

/-! ## Arrays -/

/-- Numbers of `k` bytes one after the other. -/
def encodeWords (k : Nat) (ns : List Nat) : List UInt8 := encode (ns.map fun n => (k, n))

/-- `count` numbers of `k` bytes. -/
def readWords (k count : Nat) (bs : List UInt8) : List Nat := (List.range count).map fun i => read k (k * i) bs

@[simp] theorem length_encodeWords (k : Nat) (ns : List Nat) : (encodeWords k ns).length = k * ns.length := by
  rw [encodeWords, length_encode, List.map_map]
  show (ns.map fun _ => k).sum = _
  rw [List.map_const', List.sum_replicate_nat, Nat.mul_comm]

/-- **Round trip** of an array. -/
theorem readWords_encodeWords (k : Nat) (ns : List Nat) (h : ∀ n ∈ ns, n < 256 ^ k) (rest : List UInt8) :
    readWords k ns.length (encodeWords k ns ++ rest) = ns := by
  refine List.ext_getElem (by simp [readWords]) fun i hi hns => ?_
  have hsplit : ns = ns.take i ++ ns[i] :: ns.drop (i + 1) := by
    rw [List.getElem_cons_drop, List.take_append_drop]
  have hread := read_encode ((ns.take i).map fun n => (k, n)) ((ns.drop (i + 1)).map fun n => (k, n)) k ns[i] rest
  rw [← List.map_cons, ← List.map_append, ← hsplit, Nat.mod_eq_of_lt (h _ (List.getElem_mem hns)), List.map_map] at hread
  have hoffset : ((ns.take i).map (Prod.fst ∘ fun n => (k, n))).sum = k * i := by
    show ((ns.take i).map fun _ => k).sum = _
    rw [List.map_const', List.sum_replicate_nat, List.length_take_of_le (Nat.le_of_lt hns), Nat.mul_comm]
  rw [hoffset] at hread
  simpa [readWords, encodeWords] using hread

end LittleEndian

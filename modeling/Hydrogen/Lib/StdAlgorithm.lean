import Mathlib.Data.List.Sort
import Mathlib.Data.List.Nodup
import Mathlib.Data.List.Pairwise

/-!
# Algorithms of the C++ standard library

* `StdSort`: the contract of `std::sort`. Equivalent elements may come out in any order, so a program that sorts is
  stated for every `StdSort`; `insertion` is one. A stable order is unique (`eq_mergeSort`).
* `minElement`, `maxElement`: the first extreme element of a range, as an index (`extremeElement_spec`).
* `remove`: `std::remove` on a range of pointers. It moves the elements that stay to the front and leaves null pointers
  behind; its value argument is a reference into the range, so it is read again after every move (`remove_spec`).
* `std::find_if` by a key and `erase`, as `List.eraseP` (`perm_cons_eraseP_key`).

A range is a list of slots, a slot being a pointer that may be null, with the number of live slots at its front.
-/

namespace StdAlgorithm

variable {α : Type}

/-! ## Sorting -/

/-- What the library asks of a comparison: a strict weak order. -/
structure StrictWeak (lt : α → α → Bool) : Prop where
  asymm : ∀ {a b}, lt a b = true → lt b a = false
  negTrans : ∀ {a b c}, lt a b = false → lt b c = false → lt a c = false

theorem StrictWeak.trans {lt : α → α → Bool} (h : StrictWeak lt) {a b c : α} (hab : lt a b = true)
    (hbc : lt b c = true) : lt a c = true := by
  by_contra hac
  have := h.negTrans (eq_false_of_ne_true hac) (h.asymm hbc)
  rw [this] at hab
  cases hab

theorem StrictWeak.flip {lt : α → α → Bool} (h : StrictWeak lt) : StrictWeak fun a b => lt b a :=
  ⟨fun hab => h.asymm hab, fun hab hbc => h.negTrans hbc hab⟩

/-- Comparison by a key. -/
theorem StrictWeak.ofKey {β : Type} [LinearOrder β] (f : α → β) : StrictWeak fun a b => decide (f a < f b) := by
  constructor
  · intro a b h
    simp only [decide_eq_true_eq, decide_eq_false_iff_not, not_lt] at h ⊢
    exact h.le
  · intro a b c h1 h2
    simp only [decide_eq_false_iff_not, not_lt] at h1 h2 ⊢
    exact h2.trans h1

/-- The contract of `std::sort`. -/
structure StdSort (α : Type) where
  sort : (α → α → Bool) → List α → List α
  perm : ∀ lt l, (sort lt l).Perm l
  sorted : ∀ lt l, StrictWeak lt → (sort lt l).Pairwise fun a b => lt b a = false

/-- Insertion sort meets the contract. -/
def StdSort.insertion : StdSort α where
  sort lt l := l.insertionSort fun a b => lt b a = false
  perm lt l := l.perm_insertionSort _
  sorted lt l h := by
    have : Std.Total fun a b => lt b a = false := ⟨fun a b => by
      cases hba : lt b a with
      | false => exact .inl rfl
      | true => exact .inr (h.asymm hba)⟩
    have : IsTrans α fun a b => lt b a = false := ⟨fun a b c hab hbc => h.negTrans hbc hab⟩
    exact l.pairwise_insertionSort _

/-! ## Stable orders -/

/-- Two members of a list stand in one order or the other. -/
theorem pair_sublist_or {l : List α} {x y : α} (hx : x ∈ l) (hy : y ∈ l) (hne : x ≠ y) :
    [x, y].Sublist l ∨ [y, x].Sublist l := by
  have : Std.Symm fun a b => [a, b].Sublist l ∨ [b, a].Sublist l := ⟨fun _ _ h => h.symm⟩
  have hpair : l.Pairwise fun a b => [a, b].Sublist l ∨ [b, a].Sublist l :=
    List.pairwise_of_forall_sublist fun h => .inl h
  exact hpair.forall hx hy hne

/-- In a list without duplicates only one of the two orders. -/
theorem not_pair_sublist {l : List α} (hnd : l.Nodup) {x y : α} (hxy : [x, y].Sublist l) : ¬[y, x].Sublist l := by
  induction l with
  | nil => cases hxy
  | cons a l ih =>
    intro hyx
    obtain ⟨ha, hnd⟩ := List.nodup_cons.mp hnd
    rcases List.cons_sublist_cons'.mp hxy with h1 | ⟨rfl, h1⟩
    · rcases List.cons_sublist_cons'.mp hyx with h2 | ⟨rfl, h2⟩
      · exact ih hnd h1 h2
      · exact ha (h1.subset (by simp))
    · rcases List.cons_sublist_cons'.mp hyx with h2 | ⟨rfl, h2⟩
      · exact ha (h2.subset (by simp))
      · exact ha (h2.subset (by simp))

/-- **A stable order is unique**: better first, and as before where none is better. -/
theorem eq_mergeSort {better : α → α → Bool} (hb : StrictWeak better) {l l' : List α} (hnd : l.Nodup) (hp : l'.Perm l)
    (hl : l'.Pairwise fun x y => better y x = false ∧ (better x y = false → [x, y].Sublist l)) :
    l' = l.mergeSort fun x y => !better y x := by
  have htrans : ∀ a b c, (!better b a) = true → (!better c b) = true → (!better c a) = true := by
    intro a b c hab hbc
    simp only [Bool.not_eq_true'] at hab hbc ⊢
    exact hb.negTrans hbc hab
  have htotal : ∀ a b, ((!better b a) || !better a b) = true := by
    intro a b
    cases hab : better a b with
    | false => simp
    | true => simp [hb.asymm hab]
  have hmerge := l.mergeSort_perm fun x y => !better y x
  refine List.Perm.eq_of_pairwise ?_ hl ?_ (hp.trans hmerge.symm)
  · rintro x y - - ⟨hyx, hx⟩ ⟨hxy, hy⟩
    exact absurd (hy hyx) (not_pair_sublist hnd (hx hxy))
  · refine List.pairwise_of_forall_sublist fun {x y} hs => ?_
    have hle : better y x = false := by
      have := (List.pairwise_mergeSort htrans htotal l).forall_sublist hs
      simpa using this
    refine ⟨hle, fun htie => ?_⟩
    have hmem := hmerge.subset (hs.subset List.mem_cons_self)
    have hmem' := hmerge.subset (hs.subset (List.mem_cons_of_mem _ List.mem_cons_self))
    have hne : x ≠ y := by
      have := (hmerge.nodup_iff.mpr hnd).sublist hs
      simpa using this
    refine (pair_sublist_or hmem hmem' hne).resolve_right fun hs' => ?_
    have hstay := List.pair_sublist_mergeSort htrans htotal (by simpa using htie) hs'
    exact not_pair_sublist (hmerge.nodup_iff.mpr hnd) hs hstay

/-! ## The extreme element of a range -/

/-- Scan `n` slots from `i` on, with the best so far at `best`; null slots must not be compared. -/
def extremeFrom (better : α → α → Bool) (s : List (Option α)) : Nat → Nat → Nat → Option Nat
  | 0, _, best => some best
  | n + 1, i, best =>
    match s[i]?, s[best]? with
    | some (some x), some (some y) => extremeFrom better s n (i + 1) (if better x y then i else best)
    | _, _ => none

/-- The first slot that no live slot is better than; the start of an empty range. -/
def extremeElement (better : α → α → Bool) (s : List (Option α)) (nend : Nat) : Option Nat :=
  extremeFrom better s (nend - 1) 1 0

/-- `std::min_element`. -/
def minElement (lt : α → α → Bool) (s : List (Option α)) (nend : Nat) : Option Nat :=
  extremeElement (fun x y => lt x y) s nend

/-- `std::max_element`. -/
def maxElement (lt : α → α → Bool) (s : List (Option α)) (nend : Nat) : Option Nat :=
  extremeElement (fun x y => lt y x) s nend

/-- Only the slots scanned matter. -/
theorem extremeFrom_congr {better : α → α → Bool} {s t : List (Option α)} :
    ∀ {n i best : Nat}, best < i → (∀ j < i + n, s[j]? = t[j]?) →
      extremeFrom better s n i best = extremeFrom better t n i best
  | 0, _, _, _, _ => rfl
  | n + 1, i, best, hb, h => by
    have hrec : ∀ b, b < i + 1 → extremeFrom better s n (i + 1) b = extremeFrom better t n (i + 1) b :=
      fun b hb' => extremeFrom_congr hb' fun j hj => h j (by omega)
    simp only [extremeFrom, h i (by omega), h best (by omega)]
    split
    · exact hrec _ (by split <;> omega)
    · rfl

/-- What a scan keeps: no slot seen is better than the best so far, and the best so far is better than every slot
before it. -/
def BestOf (better : α → α → Bool) (l : List α) (i best : Nat) : Prop :=
  ∃ y, l[best]? = some y ∧ best < i ∧ (∀ j < i, ∀ x, l[j]? = some x → better x y = false) ∧
    ∀ j < best, ∀ x, l[j]? = some x → better y x = true

/-- There is one best slot. -/
theorem BestOf.unique {better : α → α → Bool} {l : List α} {i e e' : Nat} (h : BestOf better l i e)
    (h' : BestOf better l i e') : e = e' := by
  obtain ⟨y, hy, hlt, hall, hfirst⟩ := h
  obtain ⟨y', hy', hlt', hall', hfirst'⟩ := h'
  rcases Nat.lt_trichotomy e e' with hee | hee | hee
  · have h1 := hfirst' e hee y hy
    rw [hall e' hlt' y' hy'] at h1
    cases h1
  · exact hee
  · have h1 := hfirst e' hee y' hy'
    rw [hall' e hlt y hy] at h1
    cases h1

theorem BestOf.next {better : α → α → Bool} (hb : StrictWeak better) {l : List α} {i best : Nat} {x y : α}
    (hx : l[i]? = some x) (hy : l[best]? = some y) (h : BestOf better l i best) :
    BestOf better l (i + 1) (if better x y then i else best) := by
  obtain ⟨y', hy', hlt, hall, hfirst⟩ := h
  cases hy.symm.trans hy'
  by_cases hxy : better x y = true
  · rw [if_pos hxy]
    refine ⟨x, hx, by omega, fun j hj z hz => ?_, fun j hj z hz => ?_⟩
    · rcases Nat.lt_succ_iff_lt_or_eq.mp hj with hj | rfl
      · by_contra hzx
        have := hb.trans (eq_true_of_ne_false hzx) hxy
        rw [hall j hj z hz] at this
        cases this
      · cases hx.symm.trans hz
        by_contra hxx
        have := eq_true_of_ne_false hxx
        rw [hb.asymm this] at this
        cases this
    · by_contra hxz
      have := hb.negTrans (eq_false_of_ne_true hxz) (hall j hj z hz)
      rw [this] at hxy
      cases hxy
  · rw [if_neg hxy]
    refine ⟨y, hy, by omega, fun j hj z hz => ?_, hfirst⟩
    rcases Nat.lt_succ_iff_lt_or_eq.mp hj with hj | rfl
    · exact hall j hj z hz
    · cases hx.symm.trans hz
      exact eq_false_of_ne_true hxy

theorem extremeFrom_spec {better : α → α → Bool} (hb : StrictWeak better) {l : List α} :
    ∀ {n i best : Nat}, i + n = l.length → BestOf better l i best →
      ∃ e, extremeFrom better (l.map some) n i best = some e ∧ BestOf better l l.length e
  | 0, i, best, hn, h => ⟨best, rfl, by rw [← hn]; exact h⟩
  | n + 1, i, best, hn, h => by
    obtain ⟨y, hy, -, -, -⟩ := id h
    have hx : l[i]? = some l[i] := List.getElem?_eq_getElem (by omega)
    have hrec := extremeFrom_spec hb (n := n) (by omega) (h.next hb hx hy)
    simpa [extremeFrom, hx, hy] using hrec

/-- **The extreme element**: it is in the range, nothing is better, and it is better than all before it. -/
theorem extremeElement_spec {better : α → α → Bool} (hb : StrictWeak better) {s : List (Option α)} {nend : Nat}
    {l : List α} (hs : s.take nend = l.map some) (hn : nend = l.length) (hl : l ≠ []) :
    ∃ e, extremeElement better s nend = some e ∧ BestOf better l l.length e := by
  have hpos : 0 < l.length := List.length_pos_iff.mpr hl
  have hcongr : extremeElement better s nend = extremeElement better (l.map some) nend := by
    apply extremeFrom_congr (by omega)
    intro j hj
    rw [← hs, List.getElem?_take_of_lt (by omega)]
  rw [hcongr]
  apply extremeFrom_spec hb (by omega)
  refine ⟨l[0], List.getElem?_eq_getElem hpos, by omega, fun j hj x hx => ?_, fun j hj => by omega⟩
  obtain rfl : j = 0 := by omega
  rw [List.getElem?_eq_getElem hpos] at hx
  cases hx
  by_contra hxx
  have := eq_true_of_ne_false hxx
  rw [hb.asymm this] at this
  cases this

/-! ## Removing from a range -/

section Remove

variable [DecidableEq α]

/-- The second loop of `std::remove`: `n` slots from `first` on are still to be looked at, the next one that stays goes
to `result`, and the value to remove is whatever slot `value` holds now. -/
def removeLoop (value : Nat) : Nat → Nat → Nat → List (Option α) → List (Option α) × Nat
  | 0, _, result, s => (s, result)
  | n + 1, first, result, s =>
    if s.getD first none = s.getD value none then removeLoop value n (first + 1) result s
    else removeLoop value n (first + 1) (result + 1) ((s.set result (s.getD first none)).set first none)

/-- `std::remove` on the first `nend` slots, the value being a reference to slot `value`. -/
def remove (s : List (Option α)) (nend value : Nat) : List (Option α) × Nat :=
  let i := (s.take nend).findIdx fun x => x = s.getD value none
  if i < nend then removeLoop value (nend - i - 1) (i + 1) i s else (s, nend)

theorem removeLoop_spec {e : Nat} : ∀ (b d : List α) (hole : Option α) (t : List (Option α)), e ≤ d.length →
    b.Nodup → (∀ y ∈ b, (d.map some ++ [hole]).getD e none ≠ some y) →
    ∃ hole', removeLoop e b.length (d.length + 1) d.length (d.map some ++ hole :: (b.map some ++ t)) =
      ((d ++ b).map some ++ hole' :: t, (d ++ b).length) ∧ (b = [] → hole' = hole)
  | [], d, hole, t, _, _, _ => ⟨hole, by simp [removeLoop], fun _ => rfl⟩
  | y :: b, d, hole, t, he, hnd, hv => by
    obtain ⟨hy, hnd⟩ := List.nodup_cons.mp hnd
    -- the slot `e` lies in the part already written or is the hole
    have hval : (d.map some ++ hole :: ((y :: b).map some ++ t)).getD e none = (d.map some ++ [hole]).getD e none := by
      simp only [List.getD_eq_getElem?_getD, List.getElem?_append, List.length_map]
      split
      · rfl
      · obtain rfl : e = d.length := by omega
        simp
    have hfirst : (d.map some ++ hole :: ((y :: b).map some ++ t)).getD (d.length + 1) none = some y := by
      simp [List.getD_eq_getElem?_getD]
    have hset : ((d.map some ++ hole :: ((y :: b).map some ++ t)).set d.length (some y)).set (d.length + 1) none =
        (d ++ [y]).map some ++ none :: (b.map some ++ t) := by
      simp
    have hv' : ∀ z ∈ b, ((d ++ [y]).map some ++ [none]).getD e none ≠ some z := by
      intro z hz
      rcases Nat.lt_or_eq_of_le he with hlt | rfl
      · have := hv z (List.mem_cons_of_mem _ hz)
        simpa [List.getD_eq_getElem?_getD, List.getElem?_append, hlt, Nat.lt_succ_of_lt hlt] using this
      · have : y ≠ z := fun h => hy (h ▸ hz)
        simpa [List.getD_eq_getElem?_getD, List.getElem?_append] using this
    obtain ⟨hole', hrec, _⟩ := removeLoop_spec b (d ++ [y]) none t (by simp; omega) hnd hv'
    refine ⟨hole', ?_, fun h => by cases h⟩
    rw [List.length_cons, removeLoop, hval, hfirst, if_neg (hv y List.mem_cons_self).symm, hset]
    simpa using hrec

/-- **Removing one of distinct live elements**: it goes, the others keep their order, and the range is one shorter. The
slot of a last remaining element keeps it. -/
theorem remove_spec {l : List α} {t : List (Option α)} {e : Nat} (hl : l.Nodup) (he : e < l.length) :
    ∃ hole, remove (l.map some ++ t) l.length e = ((l.eraseIdx e).map some ++ hole :: t, l.length - 1) ∧
      (l.length = 1 → hole = l[e]?) := by
  obtain ⟨a, x, b, rfl, rfl⟩ : ∃ a x b, l = a ++ x :: b ∧ e = a.length :=
    ⟨l.take e, l[e], l.drop (e + 1), by simp, by simp; omega⟩
  have hval : ((a ++ x :: b).map some ++ t).getD a.length none = some x := by simp [List.getD_eq_getElem?_getD]
  have htake : ((a ++ x :: b).map some ++ t).take (a ++ x :: b).length = (a ++ x :: b).map some :=
    List.take_left' (List.length_map _)
  have hxa : x ∉ a := fun h => (List.nodup_append.mp hl).2.2 x h x List.mem_cons_self rfl
  have hxb := List.nodup_cons.mp (List.nodup_append.mp hl).2.1
  have hidx : ((a ++ x :: b).map some).findIdx (fun y => y = some x) = a.length := by
    rw [List.findIdx_eq (by simp)]
    refine ⟨by simp, fun j hj => ?_⟩
    have hja : j < a.length := by simpa using hj
    simp only [List.getElem_map, List.getElem_append_left hja, Option.some.injEq, decide_eq_false_iff_not]
    exact fun h => hxa (h ▸ List.getElem_mem hja)
  obtain ⟨hole, hrem, hb⟩ := removeLoop_spec (e := a.length) b a (some x) t le_rfl hxb.2 fun y hy => by
    simpa [List.getD_eq_getElem?_getD] using fun h : x = y => hxb.1 (h ▸ hy)
  refine ⟨hole, ?_, fun h1 => ?_⟩
  · have hcount : (a ++ x :: b).length - a.length - 1 = b.length := by simp
    have hslots : (a ++ x :: b).map some ++ t = a.map some ++ some x :: (b.map some ++ t) := by simp
    simp only [remove, hval, htake, hidx]
    rw [if_pos he, hcount, hslots, hrem]
    simp [List.eraseIdx_append_of_length_le]
  · have hbn : b = [] := by
      simp only [List.length_append, List.length_cons] at h1
      exact List.eq_nil_of_length_eq_zero (by omega)
    rw [hb hbn]
    simp

end Remove

/-! ## Finding by a key and erasing -/

/-- Where keys are distinct, the element found by the key of a member is that member. -/
theorem perm_cons_eraseP_key (key : α → Nat) {a : α} {l : List α} (ha : a ∈ l) (hnd : (l.map key).Nodup) :
    l.Perm (a :: l.eraseP fun b => key b == key a) := by
  obtain ⟨b, l₁, l₂, -, hb, rfl, herase⟩ := List.exists_of_eraseP (p := fun b => key b == key a) ha (by simp)
  have hba : b = a := List.inj_on_of_nodup_map hnd (by simp) ha (by simpa using hb)
  subst hba
  rw [herase]
  exact List.perm_middle

end StdAlgorithm

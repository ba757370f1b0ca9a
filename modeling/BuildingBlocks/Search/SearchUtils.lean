import Mathlib.Data.List.Perm.Basic
import Mathlib.Algebra.Order.Ring.Nat

/-! `search/searchutils.go`: the sequential and the goroutine-parallel linear search over a
slice of ints.  The goroutines of `LinearSearchParallelInt` write disjoint cells of `result`
and are joined before it is read, so a run is their writes in the order the scheduler picks.
Go's `sync.WaitGroup` keeps its counter in an `int32`, so the goroutine branch panics from
`thread = 2^31` on. -/

namespace BuildingBlocks.SearchUtils

/-- `data[lo:hi]`. -/
def slice (data : List Int) (lo hi : Nat) : List Int := (data.take hi).drop lo

/-- The loop of `LinearSearchInt`, with `i` the index of the head of `data`. -/
def linearSearchIntFrom (target : Int) : List Int → Nat → Int
  | [], _ => -1
  | x :: data, i => if target = x then i else linearSearchIntFrom target data (i + 1)

/-- `LinearSearchInt`. -/
def linearSearchInt (data : List Int) (target : Int) : Int := linearSearchIntFrom target data 0

/-- `LinearSearchParallelIntHelper`: goroutine `i` stores its chunk's answer in `result[i]`. -/
def linearSearchParallelIntHelper (data : List Int) (target : Int) (i : Nat)
    (result : List Int) : List Int :=
  result.set i (linearSearchInt data target)

/-- The order in which the scheduler runs the `k` goroutines of a call. -/
structure Scheduler where
  order : Nat → List Nat
  perm : ∀ k, (order k).Perm (List.range k)

def Scheduler.inOrder : Scheduler := ⟨List.range, fun _ => List.Perm.refl _⟩

/-- The loop over `result` that returns the first chunk's hit, shifted to an index of
`data`; `i` is the chunk number of the head of `result`. -/
def firstFound (dataXThread : Nat) : Nat → List Int → Int
  | _, [] => -1
  | i, r :: rs => if r ≠ -1 then r + ↑(i * dataXThread) else firstFound dataXThread (i + 1) rs

/-- `LinearSearchParallelInt`; `none` is a panic.  With `thread = 0` the division panics.
With `thread ≥ 2^31`, `wg.Add(thread)` panics on a negative `int32` counter, or, once the count
wraps past `2^32`, a later `wg.Done()` does. -/
def linearSearchParallelInt (s : Scheduler) (data : List Int) (target : Int) (thread : Nat) :
    Option Int :=
  if thread = 0 then none else
  let length := data.length
  let dataXThread := length / thread
  let oddment := length % thread
  if oddment ≠ 0 then
    let oddment := oddment + thread * dataXThread
    let found := linearSearchInt (slice data (thread * dataXThread) oddment) target
    if found ≠ -1 then some (found + ↑(thread * dataXThread)) else some (-1)
  else if 2 ^ 31 ≤ thread then none
  else
    let result := (s.order thread).foldl (fun result i =>
      linearSearchParallelIntHelper (slice data (i * dataXThread) ((i + 1) * dataXThread))
        target i result) (List.replicate thread 0)
    some (firstFound dataXThread 0 result)

theorem linearSearchIntFrom_add (target : Int) (data : List Int) (i j : Nat) :
    linearSearchIntFrom target data (i + j) =
      if linearSearchIntFrom target data i = -1 then -1
      else linearSearchIntFrom target data i + j := by
  induction data generalizing i with
  | nil => rfl
  | cons x data ih =>
    simp only [linearSearchIntFrom]
    rw [show i + j + 1 = i + 1 + j by omega, ih]
    split_ifs <;> first | omega | contradiction

theorem linearSearchIntFrom_eq (target : Int) (data : List Int) (i : Nat) :
    linearSearchIntFrom target data i =
      if linearSearchInt data target = -1 then -1 else linearSearchInt data target + i := by
  simpa using linearSearchIntFrom_add target data 0 i

theorem linearSearchIntFrom_append (target : Int) (xs ys : List Int) (i : Nat) :
    linearSearchIntFrom target (xs ++ ys) i =
      if linearSearchIntFrom target xs i ≠ -1 then linearSearchIntFrom target xs i
      else linearSearchIntFrom target ys (i + xs.length) := by
  induction xs generalizing i with
  | nil => simp [linearSearchIntFrom]
  | cons x xs ih =>
    simp only [List.cons_append, linearSearchIntFrom, ih, List.length_cons]
    split_ifs <;> first | omega | simp_all [Nat.add_assoc, Nat.add_comm 1]

theorem neg_one_le_linearSearchInt (data : List Int) (target : Int) :
    -1 ≤ linearSearchInt data target := by
  induction data with
  | nil => simp [linearSearchInt, linearSearchIntFrom]
  | cons x data ih =>
    rw [linearSearchInt, linearSearchIntFrom, linearSearchIntFrom_eq]
    split_ifs <;> omega

/-- `LinearSearchInt` returns the index of the first occurrence of `target`, or `-1`. -/
theorem linearSearchInt_eq_indexOf (data : List Int) (target : Int) :
    linearSearchInt data target = if target ∈ data then ↑(data.indexOf target) else -1 := by
  induction data with
  | nil => rfl
  | cons x data ih =>
    rw [linearSearchInt, linearSearchIntFrom, linearSearchIntFrom_eq, ih]
    by_cases hx : target = x
    · simp [hx]
    · by_cases hm : target ∈ data
      · simp [hx, hm, List.indexOf_cons_ne _ (Ne.symm hx)]
      · simp [hx, hm]

theorem linearSearchIntFrom_sound (target : Int) (data : List Int) (i : Nat)
    (h : linearSearchIntFrom target data i ≠ -1) :
    ∃ j, linearSearchIntFrom target data i = ↑(i + j) ∧ data[j]? = some target := by
  induction data generalizing i with
  | nil => exact absurd rfl h
  | cons x data ih =>
    simp only [linearSearchIntFrom] at h ⊢
    split_ifs at h ⊢ with hx
    · exact ⟨0, by simp, by simp [hx]⟩
    · obtain ⟨j, hj, hd⟩ := ih (i + 1) h
      exact ⟨j + 1, by rw [hj]; omega, by simpa using hd⟩

theorem slice_append_drop (data : List Int) {lo hi : Nat} (h : lo ≤ hi) :
    slice data lo hi ++ data.drop hi = data.drop lo := by
  rw [slice, List.drop_take]
  conv_rhs => rw [← List.take_append_drop (hi - lo) (data.drop lo)]
  rw [List.drop_drop, Nat.add_sub_cancel' h]

theorem length_slice (data : List Int) {lo hi : Nat} (hd : hi ≤ data.length) :
    (slice data lo hi).length = hi - lo := by
  simp [slice, Nat.min_eq_left hd]

theorem foldl_set_getElem? (f : Nat → Int) (l : List Nat) (r : List Int) (j : Nat) :
    (l.foldl (fun r i => r.set i (f i)) r)[j]? =
      if j ∈ l then r[j]?.map fun _ => f j else r[j]? := by
  induction l generalizing r with
  | nil => simp
  | cons i l ih =>
    rw [List.foldl_cons, ih, List.getElem?_set']
    by_cases hij : i = j
    · subst hij; by_cases hl : i ∈ l <;> simp [hl] <;> rfl
    · simp [hij, Ne.symm hij]

theorem schedule_result (s : Scheduler) (k : Nat) (f : Nat → Int) :
    (s.order k).foldl (fun r i => r.set i (f i)) (List.replicate k 0) = (List.range k).map f := by
  apply List.ext_getElem?
  intro j
  rw [foldl_set_getElem?]
  by_cases hj : j < k
  · simp [(s.perm k).mem_iff, hj, List.getElem?_range]
  · have hr : (List.range k)[j]? = none := List.getElem?_eq_none (by simp; omega)
    simp [(s.perm k).mem_iff, hj, hr, Nat.le_of_not_lt hj]

theorem firstFound_chunks (data : List Int) (target : Int) (m k n j : Nat)
    (hlen : data.length = k * m) (hn : j + n = k) :
    firstFound m j ((List.range' j n).map fun i =>
        linearSearchInt (slice data (i * m) ((i + 1) * m)) target) =
      linearSearchIntFrom target (data.drop (j * m)) (j * m) := by
  induction n generalizing j with
  | zero =>
    subst hn
    simp [firstFound, List.drop_eq_nil_of_le, hlen, linearSearchIntFrom]
  | succ n ih =>
    have hle : j * m ≤ (j + 1) * m := Nat.mul_le_mul_right m (Nat.le_succ j)
    have hhi : (j + 1) * m ≤ data.length := hlen ▸ Nat.mul_le_mul_right m (by omega)
    rw [List.range'_succ, List.map_cons, firstFound, ih (j + 1) (by omega),
      ← slice_append_drop data hle, linearSearchIntFrom_append,
      linearSearchIntFrom_eq target (slice data _ _), length_slice data hhi,
      Nat.add_sub_cancel' hle]
    have := neg_one_le_linearSearchInt (slice data (j * m) ((j + 1) * m)) target
    split_ifs <;> omega

theorem linearSearchParallelInt_eq (s : Scheduler) (data : List Int) (target : Int)
    (thread : Nat) :
    linearSearchParallelInt s data target thread =
      if thread = 0 then none
      else if data.length % thread ≠ 0 then
        some (linearSearchIntFrom target (data.drop (thread * (data.length / thread)))
          (thread * (data.length / thread)))
      else if 2 ^ 31 ≤ thread then none
      else some (linearSearchInt data target) := by
  by_cases h0 : thread = 0
  · simp [linearSearchParallelInt, h0]
  by_cases hmod : data.length % thread = 0
  · have hlen : data.length = thread * (data.length / thread) :=
      (Nat.mul_div_cancel' (Nat.dvd_of_mod_eq_zero hmod)).symm
    simp only [linearSearchParallelInt, h0, hmod, linearSearchParallelIntHelper,
      schedule_result, List.range_eq_range', if_false, ne_eq, not_true_eq_false]
    rw [firstFound_chunks data target _ thread thread 0 hlen (Nat.zero_add _)]
    split_ifs <;> simp [linearSearchInt]
  · have htail : slice data (thread * (data.length / thread))
        (data.length % thread + thread * (data.length / thread)) =
        data.drop (thread * (data.length / thread)) := by
      rw [slice, Nat.mod_add_div, List.take_length]
    simp only [linearSearchParallelInt, h0, hmod, htail, if_false, ne_eq, not_false_eq_true,
      if_true, linearSearchIntFrom_eq]
    split_ifs <;> rfl

/-- When `thread` divides the length and the goroutines fit the `WaitGroup`, the goroutine
search agrees with `LinearSearchInt` in every schedule. -/
theorem linearSearchParallelInt_of_mod_eq_zero (s : Scheduler) (data : List Int) (target : Int)
    (thread : Nat) (hk : 0 < thread) (hbound : thread < 2 ^ 31)
    (hmod : data.length % thread = 0) :
    linearSearchParallelInt s data target thread = some (linearSearchInt data target) := by
  rw [linearSearchParallelInt_eq, if_neg hk.ne', if_neg (not_not.2 hmod),
    if_neg (Nat.not_le.2 hbound)]

theorem linearSearchParallelInt_four_by_two :
    0 < 2 ∧ 2 < 2 ^ 31 ∧ ([0, 0, 7, 7] : List Int).length % 2 = 0 ∧
      linearSearchParallelInt .inOrder [0, 0, 7, 7] 7 2 = some (linearSearchInt [0, 0, 7, 7] 7) :=
  ⟨by decide, by decide, by decide,
    linearSearchParallelInt_of_mod_eq_zero _ _ _ _ (by decide) (by decide) (by decide)⟩

/-- With three elements and two threads the search looks at `data[2:3]` only, and misses the
`7` at index `0` that `LinearSearchInt` finds. -/
theorem linearSearchParallelInt_misses_head (s : Scheduler) :
    linearSearchParallelInt s [7, 0, 0] 7 2 = some (-1) ∧ linearSearchInt [7, 0, 0] 7 = 0 :=
  ⟨rfl, rfl⟩

/-- Every answer other than `-1` is an index of `data` that holds `target`: the goroutine
search can miss an occurrence, never report a wrong one. -/
theorem linearSearchParallelInt_sound (s : Scheduler) (data : List Int) (target : Int)
    (thread : Nat) (r : Int) (h : linearSearchParallelInt s data target thread = some r)
    (hr : r ≠ -1) : ∃ j : Nat, r = j ∧ data[j]? = some target := by
  rw [linearSearchParallelInt_eq] at h
  split_ifs at h with h0 hmod hbig <;> simp only [Option.some.injEq, reduceCtorEq] at h <;>
    subst h
  · obtain ⟨j, hj, hd⟩ := linearSearchIntFrom_sound target _ _ hr
    exact ⟨_, hj, by simpa using hd⟩
  · obtain ⟨j, hj, hd⟩ := linearSearchIntFrom_sound target data 0 hr
    exact ⟨_, hj, by simpa using hd⟩

theorem linearSearchParallelInt_sound_tail :
    linearSearchParallelInt .inOrder [7, 0, 0] 0 2 = some 2 ∧ (2 : Int) ≠ -1 ∧
      ∃ j : Nat, (2 : Int) = j ∧ ([7, 0, 0] : List Int)[j]? = some 0 :=
  ⟨rfl, by decide, linearSearchParallelInt_sound .inOrder [7, 0, 0] 0 2 2 rfl (by decide)⟩

end BuildingBlocks.SearchUtils

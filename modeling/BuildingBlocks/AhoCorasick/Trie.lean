import BuildingBlocks.AhoCorasick.Heap
import BuildingBlocks.AhoCorasick.Words
import Mathlib.Data.List.Dedup

/-! `addPattern`, and the representation invariant of the trie it builds: the child edges form
a tree whose node words are the prefixes of the decoded patterns, and each node records the
patterns decoding to its word. -/

namespace BuildingBlocks.AhoCorasick

variable {α σ : Type} [DecidableEq α]

/-- The loop of `addPattern`: from `cur`, follows the child for each rune, creating it first
when it is absent; returns the heap and the node reached. -/
def addPath (h : Heap α σ) (cur : Nat) : List α → Heap α σ × Nat
  | [] => (h, cur)
  | ch :: rest =>
    match (h.get cur).child ch with
    | some next => addPath h next rest
    | none =>
      let (h, next) := newTrieNode h
      addPath (h.modify cur fun n => { n with children := n.children.insert ch next }) next rest

/-- `addPattern`, on the runes `decode pattern`. -/
def addPattern (decode : σ → List α) (h : Heap α σ) (t : Nat) (pattern : σ) : Heap α σ :=
  let walked := addPath h t (decode pattern)
  walked.1.modify walked.2 fun n =>
    { n with isEndOfWord := true, outputs := n.outputs ++ [pattern] }

/-- `newTrie()` followed by `addPattern` for each pattern in turn. -/
def addPatterns (decode : σ → List α) (patterns : List σ) : Heap α σ :=
  let (h, t) := (newTrie : Heap α σ × Nat)
  patterns.foldl (fun h p => addPattern decode h t p) h

/-- The heap after the loop of `addPattern` creates the child `c` of `cur`. -/
def Heap.addChild (h : Heap α σ) (cur : Nat) (c : α) : Heap α σ :=
  (newTrieNode h).1.modify cur fun n => { n with children := n.children.insert c h.size }

@[simp] theorem Heap.addChild_size (h : Heap α σ) (cur : Nat) (c : α) :
    (h.addChild cur c).size = h.size + 1 := rfl

@[simp] theorem Heap.addChild_outputs (h : Heap α σ) (cur v : Nat) (c : α) :
    ((h.addChild cur c).get v).outputs = if v = h.size then [] else (h.get v).outputs := by
  simp only [Heap.addChild, Heap.get_modify, newTrieNode_get]
  split_ifs <;> simp_all [TrieNode.init]

@[simp] theorem Heap.addChild_isEndOfWord (h : Heap α σ) (cur v : Nat) (c : α) :
    ((h.addChild cur c).get v).isEndOfWord =
      if v = h.size then false else (h.get v).isEndOfWord := by
  simp only [Heap.addChild, Heap.get_modify, newTrieNode_get]
  split_ifs <;> simp_all [TrieNode.init]

@[simp] theorem Heap.addChild_failure (h : Heap α σ) (cur v : Nat) (c : α) :
    ((h.addChild cur c).get v).failure = if v = h.size then none else (h.get v).failure := by
  simp only [Heap.addChild, Heap.get_modify, newTrieNode_get]
  split_ifs <;> simp_all [TrieNode.init]

theorem addPath_cons (h : Heap α σ) (cur : Nat) (c : α) (rest : List α) :
    addPath h cur (c :: rest) =
      match (h.get cur).child c with
      | some next => addPath h next rest
      | none => addPath (h.addChild cur c) h.size rest := by
  simp only [addPath, Heap.addChild]
  cases (h.get cur).child c <;> rfl

structure IsTree (h : Heap α σ) (t : Nat) (W : List α → Prop) : Prop where
  walk_isSome : ∀ w, (h.walk t w).isSome ↔ W w
  walk_inj : ∀ {w w' v}, h.walk t w = some v → h.walk t w' = some v → w = w'
  walk_lt : ∀ {w v}, h.walk t w = some v → v < h.size
  reach : ∀ v < h.size, ∃ w, h.walk t w = some v

namespace IsTree

variable {h : Heap α σ} {t cur : Nat} {W : List α → Prop} {u : List α} {c : α}

theorem walk_eq_none (ht : IsTree h t W) {w : List α} (hw : ¬ W w) : h.walk t w = none :=
  Option.not_isSome_iff_eq_none.mp (mt (ht.walk_isSome w).1 hw)

theorem congr {W' : List α → Prop} (ht : IsTree h t W) (hW : ∀ w, W w ↔ W' w) : IsTree h t W' :=
  ⟨fun w => (ht.walk_isSome w).trans (hW w), ht.walk_inj, ht.walk_lt, ht.reach⟩

theorem of_walk_eq {h' : Heap α σ} (ht : IsTree h t W) (hw : ∀ w, h'.walk t w = h.walk t w)
    (hs : h'.size = h.size) : IsTree h' t W where
  walk_isSome w := by rw [hw]; exact ht.walk_isSome w
  walk_inj h1 h2 := by rw [hw] at h1 h2; exact ht.walk_inj h1 h2
  walk_lt h1 := by rw [hw] at h1; exact hs ▸ ht.walk_lt h1
  reach v hv := (ht.reach v (hs ▸ hv)).imp fun w h1 => (hw w).trans h1

theorem walk_addChild (ht : IsTree h t W) (hu : h.walk t u = some cur) (hc : ¬ W (u ++ [c]))
    (w : List α) :
    (h.addChild cur c).walk t w = if w = u ++ [c] then some h.size else h.walk t w := by
  have hcur : cur < h.size := ht.walk_lt hu
  induction w using List.reverseRecOn with
  | nil => simp [List.nil_eq_append_iff]
  | append_singleton w c' ih =>
    rw [Heap.walk_concat, ih, Heap.walk_concat]
    by_cases hw : w = u ++ [c]
    · subst hw
      simp [Heap.addChild, Nat.ne_of_gt hcur, ht.walk_eq_none hc]
    · rw [if_neg hw]
      cases hv : h.walk t w with
      | none =>
        have : w ++ [c'] ≠ u ++ [c] := fun he => by simp [(List.append_inj' he rfl).1, hu] at hv
        simp [this]
      | some v =>
        have hvs : v ≠ h.size := Nat.ne_of_lt (ht.walk_lt hv)
        by_cases hvc : v = cur
        · subst hvc
          obtain rfl := ht.walk_inj hv hu
          by_cases hcc : c' = c <;> simp [Heap.addChild, hcc, hvs, Heap.walk_concat, hv]
        · have : w ++ [c'] ≠ u ++ [c] := fun he => hvc <| Option.some.inj <|
            hv.symm.trans ((List.append_inj' he rfl).1 ▸ hu)
          simp [Heap.addChild, hvc, hvs, this, Heap.walk_concat, hv]

theorem addChild (ht : IsTree h t W) (hu : h.walk t u = some cur) (hc : ¬ W (u ++ [c])) :
    IsTree (h.addChild cur c) t (fun w => W w ∨ w = u ++ [c]) where
  walk_isSome w := by
    rw [ht.walk_addChild hu hc]
    by_cases hw : w = u ++ [c] <;> simp [hw, ht.walk_isSome]
  walk_inj {w w' v} hw hw' := by
    rw [ht.walk_addChild hu hc] at hw hw'
    have hne : ∀ {x}, h.walk t x ≠ some h.size := fun hx => Nat.lt_irrefl _ (ht.walk_lt hx)
    split_ifs at hw hw' with h1 h2 h2
    · rw [h1, h2]
    · cases hw; exact absurd hw' hne
    · cases hw'; exact absurd hw hne
    · exact ht.walk_inj hw hw'
  walk_lt {w v} hw := by
    rw [ht.walk_addChild hu hc] at hw
    split_ifs at hw
    · cases hw; simp
    · simpa using Nat.lt_succ_of_lt (ht.walk_lt hw)
  reach v hv := by
    rcases Nat.lt_succ_iff_lt_or_eq.mp (by simpa using hv) with hv | rfl
    · obtain ⟨w, hw⟩ := ht.reach v hv
      have hne : w ≠ u ++ [c] := fun he => hc (he ▸ (ht.walk_isSome w).1 (by simp [hw]))
      exact ⟨w, by rw [ht.walk_addChild hu hc, if_neg hne, hw]⟩
    · exact ⟨u ++ [c], by rw [ht.walk_addChild hu hc, if_pos rfl]⟩

theorem prefix_of_walk (ht : IsTree h t W) {w w' : List α} (hw : W (w ++ w')) : W w := by
  rw [← ht.walk_isSome] at hw ⊢
  rw [Heap.walk_append] at hw
  cases h' : h.walk t w <;> simp_all

theorem length_le_size (ht : IsTree h t W) {L : List (List α)} (hnd : L.Nodup)
    (hL : ∀ w ∈ L, W w) : L.length ≤ h.size := by
  have hsome : ∀ w ∈ L, h.walk t w = some ((h.walk t w).getD 0) := fun w hw => by
    obtain ⟨v, hv⟩ := Option.isSome_iff_exists.1 ((ht.walk_isSome w).2 (hL w hw))
    rw [hv]; rfl
  have hnd' : (L.map fun w => (h.walk t w).getD 0).Nodup :=
    hnd.map_on fun x hx y hy hxy => ht.walk_inj (hsome x hx) (hxy ▸ hsome y hy)
  have hsub : (L.map fun w => (h.walk t w).getD 0) ⊆ List.range h.size := fun v hv => by
    obtain ⟨w, hw, rfl⟩ := List.mem_map.1 hv
    exact List.mem_range.2 (ht.walk_lt (hsome w hw))
  simpa using (List.subperm_of_subset hnd' hsub).length_le

theorem length_lt_size (ht : IsTree h t W) {w : List α} {v : Nat} (hw : h.walk t w = some v) :
    w.length < h.size := by
  have hnd : ((List.range (w.length + 1)).map w.take).Nodup :=
    (List.nodup_range _).map_on fun i hi j hj hij => by
      have := congrArg List.length hij
      simp only [List.length_take, List.mem_range] at this hi hj
      omega
  have := ht.length_le_size hnd fun x hx => by
    obtain ⟨i, -, rfl⟩ := List.mem_map.1 hx
    exact (ht.walk_isSome _).1 (Heap.walk_take_isSome (by simp [hw]) i)
  simpa using this

theorem size_eq_length (ht : IsTree h t W) {L : List (List α)} (hnd : L.Nodup)
    (hL : ∀ w, w ∈ L ↔ W w) : h.size = L.length := by
  have hsub : List.range h.size ⊆ L.map fun w => (h.walk t w).getD 0 := fun v hv => by
    obtain ⟨w, hw⟩ := ht.reach v (List.mem_range.1 hv)
    exact List.mem_map.2 ⟨w, (hL w).2 ((ht.walk_isSome w).1 (by simp [hw])), by simp [hw]⟩
  have hle := (List.subperm_of_subset (List.nodup_range _) hsub).length_le
  simp only [List.length_range, List.length_map] at hle
  exact le_antisymm hle (ht.length_le_size hnd fun w hw => (hL w).1 hw)

end IsTree

/-- The fields `addPattern` leaves at the node of word `w`: the patterns decoding to `w`, in
insertion order, the end-of-word flag exactly when there is one, and a nil failure link. -/
structure NodeHolds (decode : σ → List α) (patterns : List σ) (w : List α) (n : TrieNode α σ) :
    Prop where
  outputs : n.outputs = patterns.filter fun p => decode p = w
  isEndOfWord : n.isEndOfWord = true ↔ ∃ p ∈ patterns, decode p = w
  failure : n.failure = none

namespace NodeHolds

variable {decode : σ → List α} {P : List σ} {w : List α} {n : TrieNode α σ} {p : σ}

theorem append_of_ne (hn : NodeHolds decode P w n) (hp : decode p ≠ w) :
    NodeHolds decode (P ++ [p]) w n :=
  ⟨by simp [hn.outputs, hp], by simp [hn.isEndOfWord, or_and_right, exists_or, hp], hn.failure⟩

theorem append_self (hn : NodeHolds decode P (decode p) n) :
    NodeHolds decode (P ++ [p]) (decode p)
      { n with isEndOfWord := true, outputs := n.outputs ++ [p] } :=
  ⟨by simp [hn.outputs], by simpa using ⟨p, .inr rfl, rfl⟩, hn.failure⟩

end NodeHolds

/-- The representation invariant of the trie after `addPattern` for each of `patterns`. -/
structure IsTrie (decode : σ → List α) (h : Heap α σ) (t : Nat) (patterns : List σ)
    extends IsTree h t (IsNodeWord decode patterns) : Prop where
  holds : ∀ {w v}, h.walk t w = some v → NodeHolds decode patterns w (h.get v)

structure AddInv (decode : σ → List α) (h : Heap α σ) (t : Nat) (patterns : List σ)
    (W : List α → Prop) : Prop where
  tree : IsTree h t W
  words : ∀ w, IsNodeWord decode patterns w → W w
  holds : ∀ {w v}, h.walk t w = some v → NodeHolds decode patterns w (h.get v)

namespace AddInv

variable {decode : σ → List α} {h : Heap α σ} {t cur : Nat} {P : List σ} {W : List α → Prop}
  {u : List α} {c : α}

theorem addChild (hi : AddInv decode h t P W) (hu : h.walk t u = some cur)
    (hc : ¬ W (u ++ [c])) : AddInv decode (h.addChild cur c) t P (fun w => W w ∨ w = u ++ [c]) where
  tree := hi.tree.addChild hu hc
  words w hw := .inl (hi.words w hw)
  holds {w v} hw := by
    rw [hi.tree.walk_addChild hu hc] at hw
    split_ifs at hw with hwu
    · cases hw
      have hno : ∀ p ∈ P, decode p ≠ w := fun p hp hpw =>
        hc (hwu ▸ hpw ▸ hi.words _ (.decode_mem hp))
      exact ⟨by simpa [List.filter_eq_nil_iff] using hno, by simpa using hno, by simp⟩
    · have hvs : v ≠ h.size := Nat.ne_of_lt (hi.tree.walk_lt hw)
      obtain ⟨ho, he, hf⟩ := hi.holds hw
      exact ⟨by simp [hvs, ho], by simp [hvs, he], by simp [hvs, hf]⟩

theorem addPath (hi : AddInv decode h t P W) (hu : h.walk t u = some cur) (r : List α) :
    AddInv decode (addPath h cur r).1 t P (fun w => W w ∨ w <+: u ++ r) ∧
      (∀ w, W w → (addPath h cur r).1.walk t w = h.walk t w) ∧
      (addPath h cur r).1.walk t (u ++ r) = some (addPath h cur r).2 := by
  induction r generalizing h cur u W with
  | nil =>
    refine ⟨⟨hi.tree.congr fun w => ?_, fun w hw => .inl (hi.words w hw), hi.holds⟩,
      fun _ _ => rfl, by simpa using hu⟩
    have hWu : W u := (hi.tree.walk_isSome u).1 (by simp [hu])
    simp only [List.append_nil]
    exact ⟨.inl, fun h' => h'.elim id fun hp => by
      obtain ⟨v, rfl⟩ := hp; exact hi.tree.prefix_of_walk hWu⟩
  | cons c rest ih =>
    rw [addPath_cons]
    cases hn : (h.get cur).child c with
    | some next =>
      have hu' : h.walk t (u ++ [c]) = some next := by simp [Heap.walk_concat, hu, hn]
      simpa using ih hi hu'
    | none =>
      have hc : ¬ W (u ++ [c]) := by
        rw [← hi.tree.walk_isSome]; simp [Heap.walk_concat, hu, hn]
      have hu' : (h.addChild cur c).walk t (u ++ [c]) = some h.size := by
        rw [hi.tree.walk_addChild hu hc, if_pos rfl]
      obtain ⟨hi', hkeep, hend⟩ := ih (hi.addChild hu hc) hu'
      refine ⟨⟨hi'.tree.congr fun w => ?_, fun w hw => .inl (hi.words w hw), hi'.holds⟩,
        fun w hw => ?_, by simpa using hend⟩
      · simp only [List.append_assoc, List.singleton_append]
        constructor
        · rintro ((h1 | rfl) | h2)
          · exact .inl h1
          · exact .inr ⟨rest, by simp⟩
          · exact .inr (by simpa using h2)
        · rintro (h1 | h2)
          · exact .inl (.inl h1)
          · exact .inr (by simpa using h2)
      · have hne : w ≠ u ++ [c] := fun he => hc (he ▸ hw)
        rw [hkeep w (.inl hw), hi.tree.walk_addChild hu hc, if_neg hne]

end AddInv

namespace IsTrie

variable {decode : σ → List α} {h : Heap α σ} {t : Nat} {P : List σ}

theorem addPattern (hi : IsTrie decode h t P) (p : σ) :
    IsTrie decode (addPattern decode h t p) t (P ++ [p]) ∧
      ∀ w, IsNodeWord decode P w → (addPattern decode h t p).walk t w = h.walk t w := by
  obtain ⟨ha, hkeep, hend⟩ :=
    AddInv.addPath ⟨hi.toIsTree, fun _ => id, hi.holds⟩ (Heap.walk_nil h t) (decode p)
  rw [List.nil_append] at hend
  set h₁ := (AhoCorasick.addPath h t (decode p)).1
  set cur := (AhoCorasick.addPath h t (decode p)).2
  have hwalk : ∀ w, (AhoCorasick.addPattern decode h t p).walk t w = h₁.walk t w := by
    intro w
    exact Heap.walk_modify h₁ cur
      (fun n => { n with isEndOfWord := true, outputs := n.outputs ++ [p] }) (fun _ => rfl) t w
  refine ⟨⟨(ha.tree.of_walk_eq hwalk rfl).congr fun w => ?_, fun {w v} hw => ?_⟩,
    fun w hw => (hwalk w).trans (hkeep w hw)⟩
  · rw [isNodeWord_append_iff, List.nil_append]
  · rw [hwalk] at hw
    simp only [AhoCorasick.addPattern, Heap.get_modify]
    split_ifs with hv
    · subst hv
      obtain rfl := ha.tree.walk_inj hw hend
      exact (ha.holds hw).append_self
    · exact (ha.holds hw).append_of_ne fun he => hv (Option.some.inj ((he ▸ hw).symm.trans hend))

theorem newTrie : IsTrie decode (newTrie : Heap α σ × Nat).1 0 [] := by
  have hwalk : ∀ w, (AhoCorasick.newTrie : Heap α σ × Nat).1.walk 0 w =
      if w = [] then some 0 else none := by
    intro w; cases w <;> simp [AhoCorasick.newTrie, newTrieNode, Heap.empty]
  refine ⟨⟨fun w => ?_, fun hw hw' => ?_, fun hw => ?_, fun v hv => ?_⟩, fun {w v} hw => ?_⟩
  · by_cases h : w = [] <;> simp [hwalk, h, IsNodeWord]
  · rw [hwalk] at hw hw'; split_ifs at hw hw'; simp_all
  · rw [hwalk] at hw; split_ifs at hw; simp_all [AhoCorasick.newTrie, newTrieNode, Heap.empty]
  · have hv0 : v = 0 := by simpa [AhoCorasick.newTrie, newTrieNode, Heap.empty] using hv
    exact ⟨[], by simp [hwalk, hv0]⟩
  · rw [hwalk] at hw
    split_ifs at hw with h0
    cases hw
    subst h0
    exact ⟨rfl, by simp [AhoCorasick.newTrie, newTrieNode, Heap.empty, TrieNode.init], rfl⟩

end IsTrie

theorem addPatterns_append (decode : σ → List α) (P : List σ) (p : σ) :
    addPatterns decode (P ++ [p]) = addPattern decode (addPatterns decode P) 0 p := by
  simp [addPatterns, List.foldl_append]

theorem isTrie_addPatterns (decode : σ → List α) (patterns : List σ) :
    IsTrie decode (addPatterns decode patterns) 0 patterns := by
  induction patterns using List.reverseRecOn with
  | nil => exact IsTrie.newTrie
  | append_singleton P p ih => rw [addPatterns_append]; exact (ih.addPattern p).1

/-- The trie that `addPattern` builds from `newTrie()` satisfies the representation invariant,
and each further pattern keeps every earlier node word at its node. -/
theorem addPatterns_isTrie (decode : σ → List α) (patterns : List σ) :
    IsTrie decode (addPatterns decode patterns) 0 patterns ∧
      ∀ p w, IsNodeWord decode patterns w →
        (addPatterns decode (patterns ++ [p])).walk 0 w = (addPatterns decode patterns).walk 0 w :=
  ⟨isTrie_addPatterns decode patterns, fun p w hw => by
    rw [addPatterns_append]; exact ((isTrie_addPatterns decode patterns).addPattern p).2 w hw⟩

/-- `addPattern` allocates exactly one node for each distinct prefix of a decoded pattern and
one for the root: never a second node for a word, never a node off every pattern's path. -/
theorem addPatterns_size (decode : σ → List α) (patterns : List σ) :
    (addPatterns decode patterns).size =
      ([] :: patterns.flatMap fun p => (decode p).inits).dedup.length :=
  (isTrie_addPatterns decode patterns).size_eq_length (List.nodup_dedup _) fun w => by
    simp only [List.mem_dedup, List.mem_cons, List.mem_flatMap, List.mem_inits, IsNodeWord]

end BuildingBlocks.AhoCorasick

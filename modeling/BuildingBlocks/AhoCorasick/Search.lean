import BuildingBlocks.AhoCorasick.Automaton

/-! What `search` computes on a built automaton.  It runs the word automaton of the trie: after
each rune it sits at the node of the longest suffix read that is a node word.  It reports that
node's outputs only when the node ends a pattern itself, so it reports a sublist of the
occurrences, and misses those that end at a node ending no pattern. -/

namespace BuildingBlocks.AhoCorasick

variable {α σ : Type} [DecidableEq α]

section Spec

variable (decode : σ → List α) (patterns : List σ)

/-- What a multi-pattern matcher is for: position by position, the patterns decoding to a
non-empty suffix of the runes read so far, longest first. -/
def occurrences (text : σ) : List σ :=
  (decode text).inits.tail.flatMap (suffixOutputs decode patterns)

/-- What `search` reports after reading `u`: the outputs of the node of the longest suffix of
`u` that is a node word, when that word is a pattern's decoding. -/
def reported (u : List α) : List σ :=
  let s := longestSuffix (IsNodeWord decode patterns) u
  if s ∈ patterns.map decode then suffixOutputs decode patterns s else []

theorem reported_sublist (u : List α) :
    List.Sublist (reported decode patterns u) (suffixOutputs decode patterns u) := by
  dsimp only [reported]
  split_ifs
  · rw [suffixOutputs_longestSuffix]
  · exact List.nil_sublist _

end Spec

omit [DecidableEq α] in
theorem inits_tail_concat (u : List α) (c : α) :
    (u ++ [c]).inits.tail = u.inits.tail ++ [u ++ [c]] := by
  cases u <;> simp [List.inits_append]

section Run

variable {decode : σ → List α} {P : List σ} {h₀ h : Heap α σ} {t : Nat}

theorem searchStep_eq (hT : IsTrie decode h₀ t P) (hL : LinkedOn decode P h₀ t (· ≠ []) h)
    {u : List α} {v : Nat} (hv : h₀.walk t (longestSuffix (IsNodeWord decode P) u) = some v)
    (found : List σ) (k : Nat) (c : α) :
    ∃ v' n, h₀.walk t (longestSuffix (IsNodeWord decode P) (u ++ [c])) = some v' ∧
      searchStep h t h.size (v, found, k) c =
        some (v', found ++ reported decode P (u ++ [c]), k + n) ∧
      n + (longestSuffix (IsNodeWord decode P) (u ++ [c])).length ≤
        (longestSuffix (IsNodeWord decode P) u).length + 1 := by
  set N := IsNodeWord decode P
  have hls := longestSuffix_concat (IsNodeWord.nil decode P) (fun _ _ => IsNodeWord.of_concat) u c
  obtain ⟨n, hn, hb⟩ := followFailure_eq hT hL (d := (longestSuffix N u).length)
    (fun x hx _ _ => hx) c h.size hv le_rfl (hL.size ▸ hT.length_lt_size hv)
  rw [← hls] at hb
  rw [searchStep, Option.bind_eq_bind, hn, Option.some_bind]
  cases hg : gotoWord N (longestSuffix N u) c with
  | none =>
    rw [hg] at hls
    refine ⟨t, n, by rw [hls]; rfl, ?_, hb⟩
    simp [reported, N, hls]
  | some g =>
    rw [hg] at hls
    obtain ⟨-, hNg, hNgc⟩ := gotoWord_spec hg
    obtain ⟨fv, hfv⟩ := Option.isSome_iff_exists.1 ((hT.walk_isSome g).2 hNg)
    obtain ⟨tv, htv⟩ := Option.isSome_iff_exists.1 ((hT.walk_isSome _).2 hNgc)
    have hchild : (h.get fv).child c = some tv := (hL.child_eq hT hfv c).trans htv
    have hnode : h.get tv = linkedNode decode P h₀ t (g ++ [c]) tv := hL.linked htv (by simp)
    have hend : (h.get tv).isEndOfWord = true ↔ g ++ [c] ∈ P.map decode := by
      rw [hnode, List.mem_map]
      exact (hT.holds htv).isEndOfWord
    refine ⟨tv, n, by rw [hls]; exact htv, ?_, hb⟩
    simp only [Option.map_some', Option.getD_some] at hls
    simp only [hfv, Option.some_bind, hchild, reported, hls, Option.bind_eq_bind]
    by_cases he : g ++ [c] ∈ P.map decode
    · rw [if_pos (hend.2 he), if_pos he, hnode]
      rfl
    · rw [if_neg (mt hend.1 he), if_neg he, List.append_nil]

theorem searchLoop_eq (hT : IsTrie decode h₀ t P) (hL : LinkedOn decode P h₀ t (· ≠ []) h)
    (u : List α) :
    ∃ v k, h₀.walk t (longestSuffix (IsNodeWord decode P) u) = some v ∧
      searchLoop h t u = some (v, u.inits.tail.flatMap (reported decode P), k) ∧
      k + (longestSuffix (IsNodeWord decode P) u).length ≤ u.length := by
  induction u using List.reverseRecOn with
  | nil => exact ⟨t, 0, by simp, rfl, by simp⟩
  | append_singleton u c ih =>
    obtain ⟨v, k, hv, hrun, hk⟩ := ih
    obtain ⟨v', n, hv', hstep, hn⟩ := searchStep_eq hT hL hv _ k c
    refine ⟨v', k + n, hv', ?_, ?_⟩
    · rw [searchLoop, List.foldlM_append, ← searchLoop, hrun, Option.bind_eq_bind,
        Option.some_bind, List.foldlM_cons, hstep, inits_tail_concat, List.flatMap_append]
      simp
    · simp only [List.length_append, List.length_singleton]
      omega

theorem search_eq (hT : IsTrie decode h₀ t P) (hL : LinkedOn decode P h₀ t (· ≠ []) h)
    (text : σ) :
    search decode h t text = some ((decode text).inits.tail.flatMap (reported decode P)) := by
  obtain ⟨v, k, -, hrun, -⟩ := searchLoop_eq hT hL (decode text)
  simp [search, hrun]

end Run

/-- After the first `i` runes of any text, `search` sits at the node of the longest suffix of
those runes that is a node word: the root when only the empty suffix is one. -/
theorem search_currentState (o : MapOrder α) (decode : σ → List α) (patterns : List σ) :
    ∃ h, buildFailureLinks o (addPatterns decode patterns) 0 = some h ∧
      ∀ (text : σ) (i : Nat),
        (searchLoop h 0 ((decode text).take i)).map Prod.fst =
          h.walk 0 (longestSuffix (IsNodeWord decode patterns) ((decode text).take i)) := by
  have hT := isTrie_addPatterns decode patterns
  obtain ⟨h, hb, hL⟩ := buildFailureLinks_linked o hT
  refine ⟨h, hb, fun text i => ?_⟩
  obtain ⟨v, k, hv, hrun, -⟩ := searchLoop_eq hT hL ((decode text).take i)
  rw [hrun, hL.walk hT, hv]
  rfl

/-- Over a text of `n` runes, the failure-chain walk of `search` follows at most `n` failure
links in all. -/
theorem search_failureLinks_le (o : MapOrder α) (decode : σ → List α) (patterns : List σ) :
    ∃ h, buildFailureLinks o (addPatterns decode patterns) 0 = some h ∧
      ∀ text, ∃ st found k, searchLoop h 0 (decode text) = some (st, found, k) ∧
        search decode h 0 text = some found ∧ k ≤ (decode text).length := by
  have hT := isTrie_addPatterns decode patterns
  obtain ⟨h, hb, hL⟩ := buildFailureLinks_linked o hT
  refine ⟨h, hb, fun text => ?_⟩
  obtain ⟨v, k, -, hrun, hk⟩ := searchLoop_eq hT hL (decode text)
  exact ⟨v, _, k, hrun, by simp [search, hrun], by omega⟩

/-- `search` reports, position by position, the outputs of the node it reaches when that node
ends a pattern, and nothing otherwise. -/
theorem search_eq_reported (o : MapOrder α) (decode : σ → List α) (patterns : List σ) :
    ∃ h, buildFailureLinks o (addPatterns decode patterns) 0 = some h ∧
      ∀ text, search decode h 0 text =
        some ((decode text).inits.tail.flatMap (reported decode patterns)) := by
  have hT := isTrie_addPatterns decode patterns
  obtain ⟨h, hb, hL⟩ := buildFailureLinks_linked o hT
  exact ⟨h, hb, search_eq hT hL⟩

theorem flatMap_sublist_flatMap {β γ : Type} {f g : β → List γ} :
    ∀ {l : List β}, (∀ x ∈ l, List.Sublist (f x) (g x)) →
      List.Sublist (l.flatMap f) (l.flatMap g)
  | [], _ => List.Sublist.slnil
  | x :: l, hfg => by
    simp only [List.flatMap_cons]
    exact (hfg x (.head _)).append (flatMap_sublist_flatMap fun y hy => hfg y (.tail _ hy))

/-- Everything `search` reports is an occurrence, in order: it may miss an occurrence but never
reports one that is not there. -/
theorem search_sublist_occurrences (o : MapOrder α) (decode : σ → List α) (patterns : List σ) :
    ∃ h, buildFailureLinks o (addPatterns decode patterns) 0 = some h ∧
      ∀ text, ∃ found, search decode h 0 text = some found ∧
        List.Sublist found (occurrences decode patterns text) := by
  have hT := isTrie_addPatterns decode patterns
  obtain ⟨h, hb, hL⟩ := buildFailureLinks_linked o hT
  exact ⟨h, hb, fun text => ⟨_, search_eq hT hL text,
    flatMap_sublist_flatMap fun u _ => reported_sublist decode patterns u⟩⟩

theorem reported_eq_of_infix_free {decode : σ → List α} {patterns : List σ}
    (hfree : ∀ p ∈ patterns, ∀ q ∈ patterns, decode q ≠ [] → decode q <:+: decode p →
      decode q = decode p) (u : List α) :
    reported decode patterns u = suffixOutputs decode patterns u := by
  rw [← suffixOutputs_longestSuffix]
  set s := longestSuffix (IsNodeWord decode patterns) u
  have hN : IsNodeWord decode patterns s := (longestSuffix_spec (IsNodeWord.nil _ _) u).2.1
  dsimp only [reported]
  split_ifs with hs
  · rfl
  refine (List.eq_nil_iff_forall_not_mem.2 fun q hq => ?_).symm
  obtain ⟨hqP, hq0, hqs⟩ := (mem_suffixOutputs decode patterns).1 hq
  rcases hN with hN | ⟨p, hp, hsp⟩
  · exact hq0 (List.eq_nil_of_suffix_nil (hN ▸ hqs))
  · have hqp := hfree p hp q hqP hq0 (hqs.isInfix.trans hsp.isInfix)
    refine hs (List.mem_map.2 ⟨p, hp, (hsp.eq_of_length ?_).symm⟩)
    have := hqs.length_le
    have := hsp.length_le
    rw [hqp] at *
    omega

/-- For patterns none of whose non-empty decodings lies strictly inside another's, in
particular for a single pattern, `search` reports exactly the occurrences. -/
theorem search_eq_occurrences (o : MapOrder α) (decode : σ → List α) (patterns : List σ)
    (hfree : ∀ p ∈ patterns, ∀ q ∈ patterns, decode q ≠ [] → decode q <:+: decode p →
      decode q = decode p) :
    ∃ h, buildFailureLinks o (addPatterns decode patterns) 0 = some h ∧
      ∀ text, search decode h 0 text = some (occurrences decode patterns text) := by
  have hT := isTrie_addPatterns decode patterns
  obtain ⟨h, hb, hL⟩ := buildFailureLinks_linked o hT
  refine ⟨h, hb, fun text => ?_⟩
  rw [search_eq hT hL, occurrences, funext (reported_eq_of_infix_free hfree)]

theorem search_eq_occurrences_ab_cd :
    (∀ p ∈ ["ab", "cd"], ∀ q ∈ ["ab", "cd"], q.toList ≠ [] → q.toList <:+: p.toList →
      q.toList = p.toList) ∧
    ∃ h, buildFailureLinks .stored (addPatterns String.toList ["ab", "cd"]) 0 = some h ∧
      ∀ text, search String.toList h 0 text = some (occurrences String.toList ["ab", "cd"] text) :=
  ⟨by decide, search_eq_occurrences .stored String.toList _ (by decide)⟩

/-- With the patterns `abcd` and `bc`, the text `abc` holds `bc` at its end, but the node `abc`
reached there ends no pattern: whatever the map order, `search` reports nothing. -/
theorem search_misses_suffix_match (o : MapOrder Char) :
    (buildFailureLinks o (addPatterns String.toList ["abcd", "bc"]) 0).bind
        (fun h => search String.toList h 0 "abc") = some [] ∧
      occurrences String.toList ["abcd", "bc"] "abc" = ["bc"] := by
  rw [buildFailureLinks_order_eq (isTrie_addPatterns _ _) o .stored]
  exact ⟨by decide, by decide⟩

end BuildingBlocks.AhoCorasick

import BuildingBlocks.AhoCorasick.Automaton
import Mathlib.Algebra.Order.BigOperators.Group.List

/-! The amortised cost of `buildFailureLinks`, counted in failure links followed by the walks
of lines 44-46.  Linking a child costs at most the failure depth of its parent, plus one, less
its own (`Linking`); along the path of each pattern these allowances telescope, and every node
lies on the path of some pattern, so the construction follows at most as many failure links as
the patterns have runes. -/

namespace BuildingBlocks.AhoCorasick

variable {α σ : Type} [DecidableEq α]

section Bound

variable {decode : σ → List α} {P : List σ} {h₀ : Heap α σ} {t : Nat} (o : MapOrder α)

theorem mem_kidWords_dequeued (hT : IsTrie decode h₀ t P) {N : Nat} {x : List α}
    (hx : x ∈ ((dequeued o h₀ t N).flatMap (kidWords o h₀)).map Prod.fst) :
    2 ≤ x.length ∧ ∃ p ∈ P, x <+: decode p := by
  obtain ⟨z, hz, rfl⟩ := List.mem_map.1 hx
  obtain ⟨y, hy, hzy⟩ := List.mem_flatMap.1 hz
  obtain ⟨c, hc, hch⟩ := (mem_kidWords o h₀).1 hzy
  obtain ⟨hyw, hy0, -⟩ := (mem_dequeued o h₀ t).1 hy
  have hN : IsNodeWord decode P z.1 :=
    (hT.walk_isSome _).1 (by simp [hc, Heap.walk_concat, hyw, hch])
  refine ⟨?_, hN.resolve_left (by simp [hc])⟩
  have := List.length_pos.2 hy0
  rw [hc, List.length_append, List.length_singleton]
  omega

theorem sum_linkAllowance_le {X : List (List α)} (hnd : X.Nodup)
    (hX : ∀ x ∈ X, 2 ≤ x.length ∧ ∃ p ∈ P, x <+: decode p) :
    (X.map (linkAllowance (IsNodeWord decode P))).sum ≤
      (P.map fun p => (decode p).length).sum := by
  have hsub : X.Subperm (P.flatMap fun p => (decode p).inits.filter fun x => 2 ≤ x.length) :=
    List.subperm_of_subset hnd fun x hx => by
      obtain ⟨h2, p, hp, hx⟩ := hX x hx
      exact List.mem_flatMap.2
        ⟨p, hp, List.mem_filter.2 ⟨(List.mem_inits _ _).2 hx, by simpa using h2⟩⟩
  obtain ⟨l, hperm, hl⟩ := hsub
  calc (X.map (linkAllowance (IsNodeWord decode P))).sum
      = (l.map (linkAllowance (IsNodeWord decode P))).sum := (hperm.map _).sum_eq.symm
    _ ≤ ((P.flatMap fun p => (decode p).inits.filter fun x => 2 ≤ x.length).map
          (linkAllowance (IsNodeWord decode P))).sum :=
        (hl.map _).sum_le_sum fun _ _ => Nat.zero_le _
    _ = (P.map fun p => (((decode p).inits.filter fun x => 2 ≤ x.length).map
          (linkAllowance (IsNodeWord decode P))).sum).sum := by
        rw [List.map_flatMap, List.flatMap_def, List.sum_flatten, List.map_map]; rfl
    _ ≤ (P.map fun p => (decode p).length).sum :=
        List.sum_le_sum fun p _ => (Nat.le_add_right _ _).trans
          (sum_linkAllowance_inits (IsNodeWord.nil decode P) (fun _ _ => IsNodeWord.of_concat) _)

end Bound

/-- Over the whole construction, the failure-chain walks of lines 44-46 follow at most as many
failure links as the patterns have runes; `buildFailureLinksCost` is `buildFailureLinks` with
that count. -/
theorem buildFailureLinks_failureLinks_le (o : MapOrder α) (decode : σ → List α)
    (patterns : List σ) :
    ∃ h k, buildFailureLinksCost o (addPatterns decode patterns) 0 = some (h, k) ∧
      buildFailureLinks o (addPatterns decode patterns) 0 = some h ∧
      k ≤ (patterns.map fun p => (decode p).length).sum := by
  have hT := isTrie_addPatterns decode patterns
  obtain ⟨h, k, hb, -, hk⟩ := buildFailureLinksCost_linked o hT
  have hsum := sum_linkAllowance_le (nodup_flatMap_kidWords o _
    (nodup_dequeued o _ 0 (addPatterns decode patterns).size)) fun _ hx =>
      mem_kidWords_dequeued o hT hx
  rw [List.map_map] at hsum
  exact ⟨h, k, hb, by rw [buildFailureLinks, hb]; rfl, hk.trans hsum⟩

end BuildingBlocks.AhoCorasick

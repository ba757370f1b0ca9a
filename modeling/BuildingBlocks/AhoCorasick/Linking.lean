import BuildingBlocks.AhoCorasick.Levels

/-! What each step of `buildFailureLinks` writes, and how many failure links it follows.  A node
is linked when its failure link and outputs are final; `LinkedOn S` says the heap holds the
linked node for the node words in `S` and the node `addPattern` left everywhere else.  The
failure walk only reads linked nodes, setting one child links exactly that child, and the
levels link the trie depth by depth.  Linking a child follows at most its `linkAllowance`:
the failure depth of its parent, plus one, less its own. -/

namespace BuildingBlocks.AhoCorasick

variable {α σ : Type} [DecidableEq α]

def linkedNode (decode : σ → List α) (P : List σ) (h₀ : Heap α σ) (t : Nat) (w : List α)
    (v : Nat) : TrieNode α σ :=
  { h₀.get v with
    failure := h₀.walk t (longestSuffix (IsNodeWord decode P) w.tail)
    outputs := suffixOutputs decode P w }

structure LinkedOn (decode : σ → List α) (P : List σ) (h₀ : Heap α σ) (t : Nat)
    (S : List α → Prop) (h : Heap α σ) : Prop where
  size : h.size = h₀.size
  root : ¬ S []
  linked : ∀ {w v}, h₀.walk t w = some v → S w → h.get v = linkedNode decode P h₀ t w v
  unlinked : ∀ {w v}, h₀.walk t w = some v → ¬ S w → h.get v = h₀.get v
  beyond : ∀ {v}, h₀.size ≤ v → h.get v = h₀.get v

namespace LinkedOn

variable {decode : σ → List α} {P : List σ} {h₀ h : Heap α σ} {t : Nat} {S : List α → Prop}

theorem children (hT : IsTrie decode h₀ t P) (hL : LinkedOn decode P h₀ t S h) (v : Nat) :
    (h.get v).children = (h₀.get v).children := by
  by_cases hv : v < h₀.size
  · obtain ⟨w, hw⟩ := hT.reach v hv
    by_cases hS : S w
    · rw [hL.linked hw hS]; rfl
    · rw [hL.unlinked hw hS]
  · rw [hL.beyond (Nat.le_of_not_lt hv)]

theorem walk (hT : IsTrie decode h₀ t P) (hL : LinkedOn decode P h₀ t S h) (v : Nat)
    (w : List α) : h.walk v w = h₀.walk v w :=
  Heap.walk_congr (hL.children hT) v w

theorem child_eq (hT : IsTrie decode h₀ t P) (hL : LinkedOn decode P h₀ t S h) {u : List α}
    {v : Nat} (hu : h₀.walk t u = some v) (c : α) : (h.get v).child c = h₀.walk t (u ++ [c]) := by
  simp [TrieNode.child, hL.children hT, Heap.walk_concat, hu]

theorem congr {S' : List α → Prop} (hT : IsTrie decode h₀ t P) (hL : LinkedOn decode P h₀ t S h)
    (hS : ∀ w, IsNodeWord decode P w → (S w ↔ S' w)) : LinkedOn decode P h₀ t S' h where
  size := hL.size
  root := (hS [] (.nil _ _)).not.1 hL.root
  linked hw h' := hL.linked hw ((hS _ ((hT.walk_isSome _).1 (by simp [hw]))).2 h')
  unlinked hw h' := hL.unlinked hw ((hS _ ((hT.walk_isSome _).1 (by simp [hw]))).not.2 h')
  beyond := hL.beyond

theorem set (hT : IsTrie decode h₀ t P) (hL : LinkedOn decode P h₀ t S h) {x : List α} {v : Nat}
    (hx : h₀.walk t x = some v) (hx0 : x ≠ []) :
    LinkedOn decode P h₀ t (fun w => S w ∨ w = x) (h.set v (linkedNode decode P h₀ t x v)) where
  size := hL.size
  root := by simp [hL.root, Ne.symm hx0]
  linked {w u} hw h' := by
    by_cases hwx : w = x
    · subst hwx; obtain rfl := Option.some.inj (hw.symm.trans hx); simp
    · have : u ≠ v := fun he => hwx (hT.walk_inj hw (he ▸ hx))
      simp [this, hL.linked hw (h'.resolve_right hwx)]
  unlinked {w u} hw h' := by
    have : u ≠ v := fun he => h' (.inr (hT.walk_inj hw (he ▸ hx)))
    simp [this, hL.unlinked hw fun hs => h' (.inl hs)]
  beyond {u} hu := by
    have : u ≠ v := Nat.ne_of_gt (Nat.lt_of_lt_of_le (hT.walk_lt hx) hu)
    simp [this, hL.beyond hu]

end LinkedOn

section Steps

variable {decode : σ → List α} {P : List σ} {h₀ h : Heap α σ} {t : Nat} {S : List α → Prop}

theorem followFailure_eq (hT : IsTrie decode h₀ t P) (hL : LinkedOn decode P h₀ t S h)
    {d : Nat} (hS : ∀ x, x ≠ [] → IsNodeWord decode P x → x.length ≤ d → S x) (c : α) :
    ∀ (fuel : Nat) {u : List α} {v : Nat}, h₀.walk t u = some v → u.length ≤ d →
      u.length < fuel → ∃ n,
        followFailure h c fuel (some v) =
          some ((gotoWord (IsNodeWord decode P) u c).bind (h₀.walk t), n) ∧
        n + (((gotoWord (IsNodeWord decode P) u c).map (· ++ [c])).getD []).length ≤
          u.length + 1
  | 0, _, _, _, _, hf => absurd hf (Nat.not_lt_zero _)
  | fuel + 1, u, v, hu, hd, hf => by
    rw [followFailure, hL.child_eq hT hu c]
    by_cases hc : IsNodeWord decode P (u ++ [c])
    · have : h₀.walk t (u ++ [c]) ≠ none := by
        simpa [← Option.ne_none_iff_isSome] using (hT.walk_isSome _).2 hc
      rw [if_neg this, gotoWord_of_concat (fun _ _ => IsNodeWord.of_concat) hc]
      exact ⟨0, by simp [hu], by simp⟩
    · rw [if_pos (hT.walk_eq_none hc)]
      cases u with
      | nil =>
        obtain rfl : v = t := by simpa using hu.symm
        rw [hL.unlinked hu hL.root, (hT.holds hu).failure, gotoWord_nil hc]
        exact ⟨1, by cases fuel <;> rfl, by simp⟩
      | cons a l =>
        have hN : IsNodeWord decode P (a :: l) := (hT.walk_isSome _).1 (by simp [hu])
        rw [hL.linked hu (hS _ (List.cons_ne_nil a l) hN hd), linkedNode, List.tail_cons,
          gotoWord_cons (IsNodeWord.nil decode P) hc]
        obtain ⟨v', hv'⟩ := Option.isSome_iff_exists.1 ((hT.walk_isSome _).2
          (longestSuffix_spec (IsNodeWord.nil decode P) l).2.1)
        have hlen := length_longestSuffix_le (IsNodeWord.nil decode P) l
        simp only [List.length_cons] at hd hf ⊢
        obtain ⟨n, hn, hb⟩ := followFailure_eq hT hL hS c fuel hv' (by omega) (by omega)
        exact ⟨n + 1, by rw [hv', hn]; rfl, by omega⟩

theorem setFailure_eq (hT : IsTrie decode h₀ t P) (hL : LinkedOn decode P h₀ t S h)
    {w : List α} {cur v fuel : Nat} {c : α} (hw : h₀.walk t w = some cur) (hw0 : w ≠ [])
    (hS : ∀ x, x ≠ [] → IsNodeWord decode P x → x.length ≤ w.length → S x)
    (hv : h₀.walk t (w ++ [c]) = some v) (hnot : ¬ S (w ++ [c])) (hfuel : w.length < fuel) :
    ∃ k, setFailure t cur fuel h c v =
        some (h.set v (linkedNode decode P h₀ t (w ++ [c]) v), k) ∧
      k + failureDepth (IsNodeWord decode P) (w ++ [c]) ≤
        failureDepth (IsNodeWord decode P) w + 1 := by
  set N := IsNodeWord decode P
  have hN0 : N [] := IsNodeWord.nil decode P
  have hNw : N w := (hT.walk_isSome _).1 (by simp [hw])
  have hcur : (h.get cur).failure = h₀.walk t (longestSuffix N w.tail) := by
    rw [hL.linked hw (hS w hw0 hNw le_rfl)]; rfl
  obtain ⟨gv, hgv⟩ := Option.isSome_iff_exists.1 ((hT.walk_isSome _).2
    (longestSuffix_spec hN0 w.tail).2.1)
  have hlen := length_longestSuffix_tail_lt hN0 hw0
  have hls : longestSuffix N (w ++ [c]).tail =
      ((gotoWord N (longestSuffix N w.tail) c).map (· ++ [c])).getD [] := by
    rw [List.tail_append_of_ne_nil hw0, longestSuffix_concat hN0 (fun _ _ => IsNodeWord.of_concat)]
  obtain ⟨k, hk, hb⟩ := followFailure_eq hT hL hS c fuel hgv hlen.le (by omega)
  refine ⟨k, ?_, by rw [failureDepth, failureDepth, hls]; exact hb⟩
  have hout := suffixOutputs_eq_append decode P (w := w ++ [c]) (by simp)
  have hpv : h.get v = h₀.get v := hL.unlinked hv hnot
  unfold setFailure
  rw [hcur, hgv, hk]
  cases hg : gotoWord N (longestSuffix N w.tail) c with
  | none =>
    rw [hg] at hls
    simp only [Option.none_bind, Option.bind_eq_bind, Option.some_bind, Heap.modify]
    simp [hpv, linkedNode, hls, hout, (hT.holds hv).outputs]
  | some g =>
    rw [hg] at hls
    obtain ⟨hgs, -, hNgc⟩ := gotoWord_spec hg
    obtain ⟨fv, hfv⟩ := Option.isSome_iff_exists.1 ((hT.walk_isSome g).2
      (IsNodeWord.of_concat hNgc))
    obtain ⟨tv, htv⟩ := Option.isSome_iff_exists.1 ((hT.walk_isSome _).2 hNgc)
    have hchild : (h.get fv).child c = some tv := (hL.child_eq hT hfv c).trans htv
    have hglen : (g ++ [c]).length ≤ w.length := by
      have := hgs.length_le; simp only [List.length_append, List.length_singleton]; omega
    have htvv : tv ≠ v := fun he => by
      have := congrArg List.length (hT.walk_inj htv (he ▸ hv))
      simp only [List.length_append, List.length_singleton] at this hglen; omega
    have htarget : h.get tv = linkedNode decode P h₀ t (g ++ [c]) tv :=
      hL.linked htv (hS _ (by simp) hNgc hglen)
    simp only [Option.some_bind, hfv, Option.bind_eq_bind, Heap.get_modify, ↓reduceIte, hchild,
      htvv, if_false, Heap.modify, Heap.set_set, Heap.get_set]
    simp [hpv, linkedNode, hls, hout, (hT.holds hv).outputs, htarget, htv]

theorem foldlM_setFailure_linked (hT : IsTrie decode h₀ t P) {w : List α} {cur fuel : Nat}
    (hw : h₀.walk t w = some cur) (hw0 : w ≠ []) (hfuel : w.length < fuel) :
    ∀ (es : List (Σ _ : α, Nat)) {S : List α → Prop} {h : Heap α σ} (k : Nat),
      LinkedOn decode P h₀ t S h →
      (∀ x, x ≠ [] → IsNodeWord decode P x → x.length ≤ w.length → S x) →
      (∀ e ∈ es, h₀.walk t (w ++ [e.1]) = some e.2 ∧ ¬ S (w ++ [e.1])) → es.NodupKeys →
      ∃ h' n, es.foldlM (fun s e => (setFailure t cur fuel s.1 e.1 e.2).map
          fun r => (r.1, s.2 + r.2)) (h, k) = some (h', k + n) ∧
        LinkedOn decode P h₀ t (fun x => S x ∨ ∃ e ∈ es, x = w ++ [e.1]) h' ∧
        n ≤ (es.map fun e => linkAllowance (IsNodeWord decode P) (w ++ [e.1])).sum
  | [], _, h, _, hL, _, _, _ => ⟨h, 0, rfl, hL.congr hT fun x _ => by simp, le_rfl⟩
  | e :: es, S, h, k, hL, hS, hes, hnd => by
    obtain ⟨hv, hnot⟩ := hes e (.head _)
    rw [List.nodupKeys_cons] at hnd
    have hes' : ∀ e' ∈ es, h₀.walk t (w ++ [e'.1]) = some e'.2 ∧
        ¬ (S (w ++ [e'.1]) ∨ w ++ [e'.1] = w ++ [e.1]) := fun e' he' => by
      refine ⟨(hes e' (.tail _ he')).1, not_or.2 ⟨(hes e' (.tail _ he')).2, fun he => ?_⟩⟩
      exact hnd.1 (List.singleton_inj.1 (List.append_inj' he rfl).2 ▸ List.mem_keys_of_mem he')
    obtain ⟨m, hm, hb⟩ := setFailure_eq hT hL hw hw0 hS hv hnot hfuel
    obtain ⟨h', n, hrun, hL', hn⟩ := foldlM_setFailure_linked hT hw hw0 hfuel es (k + m)
      (hL.set hT hv (by simp)) (fun x h1 h2 h3 => .inl (hS x h1 h2 h3)) hes' hnd.2
    refine ⟨h', m + n, ?_, hL'.congr hT fun x _ => by simp [or_assoc], ?_⟩
    · rw [List.foldlM_cons, hm, Option.map_some', Option.bind_eq_bind, Option.some_bind,
        ← Nat.add_assoc]
      exact hrun
    · rw [List.map_cons, List.sum_cons, linkAllowance, List.dropLast_concat]
      omega

theorem linkChildren_linked (o : MapOrder α) (hT : IsTrie decode h₀ t P)
    (hL : LinkedOn decode P h₀ t S h) {w : List α} {cur fuel : Nat} (hw : h₀.walk t w = some cur)
    (hw0 : w ≠ []) (hS : ∀ x, x ≠ [] → IsNodeWord decode P x → x.length ≤ w.length → S x)
    (hfresh : ∀ c, ¬ S (w ++ [c])) (hfuel : w.length < fuel) (k : Nat) :
    ∃ h' n, linkChildren o t fuel cur (h, k) = some (h', k + n) ∧
      LinkedOn decode P h₀ t (fun x => S x ∨ ∃ c, x = w ++ [c]) h' ∧
      n ≤ ((kidWords o h₀ (w, cur)).map fun y => linkAllowance (IsNodeWord decode P) y.1).sum := by
  have hperm := o.perm cur (h.get cur).children.entries
  have hchild : ∀ c v, (h.get cur).child c = some v ↔ h₀.walk t (w ++ [c]) = some v :=
    fun c _ => by rw [hL.child_eq hT hw c]
  obtain ⟨h', n, hrun, hL', hn⟩ := foldlM_setFailure_linked hT hw hw0 hfuel _ k hL hS
    (fun e he => ⟨(hchild _ _).1 (TrieNode.child_eq_some_iff.2 (hperm.mem_iff.1 he)), hfresh _⟩)
    ((hperm.map Sigma.fst).nodup_iff.2 (h.get cur).children.nodupKeys)
  refine ⟨h', n, hrun, hL'.congr hT fun x hx => or_congr_right ⟨?_, ?_⟩, ?_⟩
  · rintro ⟨e, -, rfl⟩; exact ⟨e.1, rfl⟩
  · rintro ⟨c, rfl⟩
    obtain ⟨v, hv⟩ := Option.isSome_iff_exists.1 ((hT.walk_isSome _).2 hx)
    exact ⟨⟨c, v⟩, hperm.mem_iff.2 (TrieNode.child_eq_some_iff.1 ((hchild c v).2 hv)), rfl⟩
  · rw [kidWords, List.map_map, ← hL.children hT cur]
    exact hn

end Steps

section Run

variable {decode : σ → List α} {P : List σ} {h₀ : Heap α σ} {t : Nat} (o : MapOrder α)

theorem foldlM_linkChildren_linked (hT : IsTrie decode h₀ t P) {K : Nat} :
    ∀ (ys : List (List α × Nat)) {S : List α → Prop} {h : Heap α σ} (k : Nat),
      LinkedOn decode P h₀ t S h →
      (∀ x, x ≠ [] → IsNodeWord decode P x → x.length ≤ K + 1 → S x) →
      (∀ y ∈ ys, h₀.walk t y.1 = some y.2 ∧ y.1.length = K + 1 ∧ ∀ c, ¬ S (y.1 ++ [c])) →
      (ys.map Prod.fst).Nodup →
      ∃ h' n, (ys.map Prod.snd).foldlM (fun s x => linkChildren o t h₀.size x s) (h, k) =
          some (h', k + n) ∧
        LinkedOn decode P h₀ t (fun x => S x ∨ ∃ y ∈ ys, ∃ c, x = y.1 ++ [c]) h' ∧
        n ≤ ((ys.flatMap (kidWords o h₀)).map
          fun y => linkAllowance (IsNodeWord decode P) y.1).sum
  | [], _, h, _, hL, _, _, _ => ⟨h, 0, rfl, hL.congr hT fun x _ => by simp, le_rfl⟩
  | (w, cur) :: ys, S, h, k, hL, hS, hys, hnd => by
    obtain ⟨hw, hlen, hfresh⟩ : h₀.walk t w = some cur ∧ w.length = K + 1 ∧ ∀ c, ¬ S (w ++ [c]) :=
      hys _ (.head _)
    obtain ⟨h₁, m, hrun₁, hL₁, hm⟩ := linkChildren_linked o hT hL hw
      (List.ne_nil_of_length_pos (by omega)) (fun x h1 h2 h3 => hS x h1 h2 (hlen ▸ h3)) hfresh
      (hT.length_lt_size hw) k
    rw [List.map_cons, List.nodup_cons] at hnd
    have hys' : ∀ y' ∈ ys, h₀.walk t y'.1 = some y'.2 ∧ y'.1.length = K + 1 ∧
        ∀ c, ¬ (S (y'.1 ++ [c]) ∨ ∃ c', y'.1 ++ [c] = w ++ [c']) := fun y' hy' => by
      obtain ⟨h1, h2, h3⟩ := hys y' (.tail _ hy')
      refine ⟨h1, h2, fun c => not_or.2 ⟨h3 c, ?_⟩⟩
      rintro ⟨c', he⟩
      exact hnd.1 (List.mem_map.2 ⟨y', hy', (List.append_inj' he rfl).1⟩)
    obtain ⟨h', n, hrun, hL', hn⟩ := foldlM_linkChildren_linked hT ys (k + m) hL₁
      (fun x h1 h2 h3 => .inl (hS x h1 h2 h3)) hys' hnd.2
    refine ⟨h', m + n, ?_, hL'.congr hT fun x _ => by simp [or_assoc], ?_⟩
    · rw [List.map_cons, List.foldlM_cons, hrun₁, Option.bind_eq_bind, Option.some_bind,
        ← Nat.add_assoc]
      exact hrun
    · rw [List.flatMap_cons, List.map_append, List.sum_append]
      omega

theorem mem_kids_root {v : Nat} :
    v ∈ kids o h₀ t ↔ ∃ w, h₀.walk t w = some v ∧ w.length = 1 := by
  rw [← map_snd_kidWords o h₀ ([], t)]
  show v ∈ (level o h₀ t 0).map Prod.snd ↔ _
  simp [mem_level]

theorem seedFailures_linked (hT : IsTrie decode h₀ t P) :
    LinkedOn decode P h₀ t (fun x => x ≠ [] ∧ x.length ≤ 1) (seedFailures o h₀ t) where
  size := seedFailures_size o h₀ t
  root := by simp
  linked {w v} hw hS := by
    have hl : w.length = 1 := by have := List.length_pos.2 hS.1; omega
    rw [seedFailures_get, if_pos ((mem_kids_root o).2 ⟨w, hw, hl⟩)]
    obtain ⟨c, rfl⟩ := List.length_eq_one.1 hl
    simp [linkedNode, suffixOutputs_eq_append decode P (w := [c]) (by simp), (hT.holds hw).outputs]
  unlinked {w v} hw hS := by
    rw [seedFailures_get, if_neg]
    rintro hk
    obtain ⟨w', hw', hl⟩ := (mem_kids_root o).1 hk
    obtain rfl := hT.walk_inj hw hw'
    exact hS ⟨List.ne_nil_of_length_pos (by omega), hl.le⟩
  beyond {v} hv := by
    rw [seedFailures_get, if_neg]
    rintro hk
    obtain ⟨w, hw, -⟩ := (mem_kids_root o).1 hk
    exact absurd (hT.walk_lt hw) (by omega)

theorem level_fresh {K : Nat} {y : List α × Nat} (hy : y ∈ level o h₀ t K) :
    h₀.walk t y.1 = some y.2 ∧ y.1.length = K + 1 ∧
      ∀ c, ¬ (y.1 ++ [c] ≠ [] ∧ (y.1 ++ [c]).length ≤ K + 1) := by
  obtain ⟨h1, h2⟩ := (mem_level o h₀ t).1 hy
  refine ⟨h1, h2, fun c hc => ?_⟩
  have := hc.2
  simp only [List.length_append, List.length_singleton] at this
  omega

theorem dequeued_linked (hT : IsTrie decode h₀ t P) (K : Nat) :
    ∃ h k, ((dequeued o h₀ t K).map Prod.snd).foldlM (fun s x => linkChildren o t h₀.size x s)
        (seedFailures o h₀ t, 0) = some (h, k) ∧
      LinkedOn decode P h₀ t (fun x => x ≠ [] ∧ x.length ≤ K + 1) h ∧
      k ≤ (((dequeued o h₀ t K).flatMap (kidWords o h₀)).map
        fun y => linkAllowance (IsNodeWord decode P) y.1).sum := by
  induction K with
  | zero => exact ⟨_, 0, rfl, seedFailures_linked o hT, Nat.zero_le _⟩
  | succ K ih =>
    obtain ⟨h₁, k₁, hrun₁, hL₁, hk₁⟩ := ih
    obtain ⟨h', n, hrun, hL', hn⟩ := foldlM_linkChildren_linked o hT (level o h₀ t K) k₁ hL₁
      (fun x h1 _ h3 => ⟨h1, h3⟩) (fun _ => level_fresh o) (nodup_level o h₀ t K)
    refine ⟨h', k₁ + n, ?_, hL'.congr hT fun x hx => ⟨?_, ?_⟩, ?_⟩
    · rw [dequeued_succ, List.map_append, List.foldlM_append, hrun₁]
      exact hrun
    · rintro (⟨h1, h2⟩ | ⟨y, hy, c, rfl⟩)
      · exact ⟨h1, by omega⟩
      · simp [((mem_level o h₀ t).1 hy).2]
    · rintro ⟨h1, h2⟩
      by_cases hle : x.length ≤ K + 1
      · exact .inl ⟨h1, hle⟩
      · obtain ⟨u, c, rfl⟩ : ∃ u c, x = u ++ [c] := ⟨_, _, (List.dropLast_append_getLast h1).symm⟩
        obtain ⟨v, hv⟩ :=
          Option.isSome_iff_exists.1 ((hT.walk_isSome u).2 (IsNodeWord.of_concat hx))
        simp only [List.length_append, List.length_singleton] at h2 hle
        exact .inr ⟨(u, v), (mem_level o h₀ t).2 ⟨hv, show u.length = K + 1 by omega⟩, c, rfl⟩
    · rw [dequeued_succ, List.flatMap_append, List.map_append, List.sum_append]
      omega

theorem buildFailureLinksCost_linked (hT : IsTrie decode h₀ t P) :
    ∃ h k, buildFailureLinksCost o h₀ t = some (h, k) ∧ LinkedOn decode P h₀ t (· ≠ []) h ∧
      k ≤ (((dequeued o h₀ t h₀.size).flatMap (kidWords o h₀)).map
        fun y => linkAllowance (IsNodeWord decode P) y.1).sum := by
  obtain ⟨h, k, hrun, hL, hk⟩ := dequeued_linked o hT h₀.size
  refine ⟨h, k, (buildFailureLinksCost_eq hT.toIsTree).trans hrun, hL.congr hT fun x hx => ?_, hk⟩
  obtain ⟨v, hv⟩ := Option.isSome_iff_exists.1 ((hT.walk_isSome x).2 hx)
  have := hT.length_lt_size hv
  exact ⟨fun h => h.1, fun h => ⟨h, by omega⟩⟩

theorem buildFailureLinks_linked (hT : IsTrie decode h₀ t P) :
    ∃ h, buildFailureLinks o h₀ t = some h ∧ LinkedOn decode P h₀ t (· ≠ []) h := by
  obtain ⟨h, k, hb, hL, -⟩ := buildFailureLinksCost_linked o hT
  exact ⟨h, by rw [buildFailureLinks, hb]; rfl, hL⟩

end Run

end BuildingBlocks.AhoCorasick

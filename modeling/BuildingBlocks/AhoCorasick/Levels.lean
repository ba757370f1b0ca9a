import BuildingBlocks.AhoCorasick.BuildFailureLinks

/-! The order in which the breadth-first loop of `buildFailureLinks` dequeues the nodes.  The
queue never depends on the failure links or outputs being written, only on the children maps,
so it runs level by level: `level k` lists the nodes of depth `k + 1`, each with its word, in
the order dequeued for any choice of map orders. -/

namespace BuildingBlocks.AhoCorasick

variable {α σ : Type} [DecidableEq α] (o : MapOrder α) (h : Heap α σ) (t : Nat)

def kidWords (x : List α × Nat) : List (List α × Nat) :=
  (o.order x.2 (h.get x.2).children.entries).map fun e => (x.1 ++ [e.1], e.2)

/-- The nodes of depth `k + 1` in the order the loop dequeues them, with their words. -/
def level : Nat → List (List α × Nat)
  | 0 => kidWords o h ([], t)
  | k + 1 => (level k).flatMap (kidWords o h)

/-- The nodes the loop dequeues before reaching depth `K + 1`. -/
def dequeued (K : Nat) : List (List α × Nat) := (List.range K).flatMap (level o h t)

omit [DecidableEq α] in
theorem dequeued_succ (K : Nat) :
    dequeued o h t (K + 1) = dequeued o h t K ++ level o h t K := by
  simp [dequeued, List.range_succ]

omit [DecidableEq α] in
theorem map_snd_kidWords (x : List α × Nat) : (kidWords o h x).map Prod.snd = kids o h x.2 := by
  simp [kidWords, kids]

omit [DecidableEq α] in
theorem map_snd_level_succ (k : Nat) :
    (level o h t (k + 1)).map Prod.snd = ((level o h t k).map Prod.snd).flatMap (kids o h) := by
  simp only [level, List.map_flatMap, List.flatMap_map, map_snd_kidWords]

theorem mem_kidWords {x y : List α × Nat} :
    y ∈ kidWords o h x ↔ ∃ c, y.1 = x.1 ++ [c] ∧ (h.get x.2).child c = some y.2 := by
  simp only [kidWords, List.mem_map, (o.perm _ _).mem_iff, TrieNode.child_eq_some_iff]
  constructor
  · rintro ⟨⟨c, v⟩, he, rfl⟩; exact ⟨c, rfl, he⟩
  · rintro ⟨c, h1, h2⟩; exact ⟨⟨c, y.2⟩, h2, by rw [← h1]⟩

theorem mem_level {k : Nat} {y : List α × Nat} :
    y ∈ level o h t k ↔ h.walk t y.1 = some y.2 ∧ y.1.length = k + 1 := by
  induction k generalizing y with
  | zero =>
    rw [level, mem_kidWords]
    constructor
    · rintro ⟨c, h1, h2⟩; simp [h1, h2]
    · rintro ⟨h1, h2⟩
      obtain ⟨c, hc⟩ := List.length_eq_one.1 h2
      exact ⟨c, hc, by simpa [hc] using h1⟩
  | succ k ih =>
    simp only [level, List.mem_flatMap, mem_kidWords, ih]
    constructor
    · rintro ⟨x, ⟨h1, h2⟩, c, h3, h4⟩
      simp [h3, h2, Heap.walk_concat, h1, h4]
    · rintro ⟨h1, h2⟩
      obtain ⟨w, c, hw⟩ : ∃ w c, y.1 = w ++ [c] := by
        rcases List.eq_nil_or_concat y.1 with h0 | ⟨w, c, hw⟩
        · simp [h0] at h2
        · exact ⟨w, c, by rw [hw, List.concat_eq_append]⟩
      rw [hw, Heap.walk_concat] at h1
      obtain ⟨u, hu, hc⟩ := Option.bind_eq_some.1 h1
      exact ⟨(w, u), ⟨hu, by simpa [hw] using h2⟩, c, hw, hc⟩

omit [DecidableEq α] in
theorem nodup_kidWords (x : List α × Nat) : ((kidWords o h x).map Prod.fst).Nodup := by
  have hk : ((o.order x.2 (h.get x.2).children.entries).map Sigma.fst).Nodup :=
    ((o.perm _ _).map Sigma.fst).nodup_iff.2 (h.get x.2).children.keys_nodup
  simpa [kidWords, List.map_map, Function.comp_def] using
    hk.map (f := fun c => x.1 ++ [c]) fun a b hab => by simpa using hab

theorem nodup_flatMap_kidWords {ys : List (List α × Nat)} (hnd : (ys.map Prod.fst).Nodup) :
    ((ys.flatMap (kidWords o h)).map Prod.fst).Nodup := by
  rw [List.map_flatMap, List.nodup_flatMap]
  refine ⟨fun x _ => nodup_kidWords o h x, ?_⟩
  refine (List.pairwise_map.1 hnd).imp fun hne z hz hz' => hne ?_
  obtain ⟨y, hy, rfl⟩ := List.mem_map.1 hz
  obtain ⟨y', hy', hyy⟩ := List.mem_map.1 hz'
  obtain ⟨c, hc, -⟩ := (mem_kidWords o h).1 hy
  obtain ⟨c', hc', -⟩ := (mem_kidWords o h).1 hy'
  rw [hc', hc] at hyy
  exact ((List.append_inj' hyy rfl).1).symm

theorem nodup_level (k : Nat) : ((level o h t k).map Prod.fst).Nodup := by
  induction k with
  | zero => exact nodup_kidWords o h _
  | succ k ih => exact nodup_flatMap_kidWords o h ih

theorem mem_dequeued {K : Nat} {y : List α × Nat} :
    y ∈ dequeued o h t K ↔ h.walk t y.1 = some y.2 ∧ y.1 ≠ [] ∧ y.1.length ≤ K := by
  simp only [dequeued, List.mem_flatMap, List.mem_range, mem_level]
  constructor
  · rintro ⟨k, hk, h1, h2⟩; exact ⟨h1, by simp [← List.length_pos, h2], by omega⟩
  · rintro ⟨h1, h2, h3⟩
    exact ⟨y.1.length - 1, by have := List.length_pos.2 h2; omega, h1,
      by have := List.length_pos.2 h2; omega⟩

theorem nodup_dequeued (K : Nat) : ((dequeued o h t K).map Prod.fst).Nodup := by
  rw [dequeued, List.map_flatMap, List.nodup_flatMap]
  refine ⟨fun k _ => nodup_level o h t k, List.nodup_range K |>.imp fun hne z hz hz' => hne ?_⟩
  obtain ⟨y, hy, rfl⟩ := List.mem_map.1 hz
  obtain ⟨y', hy', hyy⟩ := List.mem_map.1 hz'
  obtain ⟨-, hl⟩ := (mem_level o h t).1 hy
  obtain ⟨-, hl'⟩ := (mem_level o h t).1 hy'
  rw [hyy] at hl'
  omega

/-- The heap after the loop over the root's children (lines 32-35). -/
def seedFailures : Heap α σ :=
  (o.order t (h.get t).children.entries).foldl
    (fun h e => h.modify e.2 fun n => { n with failure := some t }) h

omit [DecidableEq α] in
theorem seedFailures_get (v : Nat) :
    (seedFailures o h t).get v =
      if v ∈ kids o h t then { h.get v with failure := some t } else h.get v :=
  foldl_setRootFailure_get t _ h v

omit [DecidableEq α] in
@[simp]
theorem seedFailures_size : (seedFailures o h t).size = h.size :=
  foldl_setRootFailure_size t _ h

omit [DecidableEq α] in
theorem seedRoot_eq :
    (o.order t (h.get t).children.entries).foldl (seedRoot t) ([], h) =
      ((level o h t 0).map Prod.snd, seedFailures o h t) := by
  rw [foldl_seedRoot, List.nil_append, level, map_snd_kidWords]
  rfl

theorem bfs_levels (fuel K n : Nat) (s : Heap α σ × Nat)
    (hc : ∀ v, (s.1.get v).children = (h.get v).children) :
    bfs o t fuel ((dequeued o h t K).length + n) ((level o h t 0).map Prod.snd) s =
      (((dequeued o h t K).map Prod.snd).foldlM (fun s x => linkChildren o t fuel x s) s).bind
        fun s' => bfs o t fuel n ((level o h t K).map Prod.snd) s' := by
  induction K generalizing n with
  | zero => simp [dequeued]
  | succ K ih =>
    rw [dequeued_succ, List.length_append, Nat.add_assoc, ih, List.map_append, List.foldlM_append,
      Option.bind_eq_bind, Option.bind_assoc]
    cases hf : ((dequeued o h t K).map Prod.snd).foldlM
      (fun s x => linkChildren o t fuel x s) s with
    | none => rfl
    | some s' =>
      have hc' : ∀ v, (s'.1.get v).children = (h.get v).children := fun v =>
        (foldlM_linkChildren_children o t fuel _ hf v).trans (hc v)
      have := bfs_append o t fuel h ((level o h t K).map Prod.snd) [] n s' hc'
      rw [List.append_nil, List.length_map, List.nil_append, ← map_snd_level_succ] at this
      simpa using this

omit [DecidableEq α] in
theorem seedFailures_children (v : Nat) :
    ((seedFailures o h t).get v).children = (h.get v).children := by
  rw [seedFailures_get]; split_ifs <;> rfl

section Tree

variable {o h t} {W : List α → Prop}

theorem nodup_map_snd_dequeued (ht : IsTree h t W) (K : Nat) :
    ((dequeued o h t K).map Prod.snd).Nodup := by
  refine ((nodup_dequeued o h t K).of_map _).map_on fun x hx y hy hxy => ?_
  have hx' := ((mem_dequeued o h t).1 hx).1
  have hy' := ((mem_dequeued o h t).1 hy).1
  rw [hxy] at hx'
  exact Prod.ext (ht.walk_inj hx' hy') hxy

theorem length_dequeued_le (ht : IsTree h t W) (K : Nat) : (dequeued o h t K).length ≤ h.size := by
  have hsub : (dequeued o h t K).map Prod.snd ⊆ List.range h.size := fun v hv => by
    obtain ⟨y, hy, rfl⟩ := List.mem_map.1 hv
    exact List.mem_range.2 (ht.walk_lt ((mem_dequeued o h t).1 hy).1)
  simpa using (List.subperm_of_subset (nodup_map_snd_dequeued ht K) hsub).length_le

theorem level_size_eq_nil (ht : IsTree h t W) : level o h t h.size = [] :=
  List.eq_nil_iff_forall_not_mem.2 fun y hy => by
    obtain ⟨h1, h2⟩ := (mem_level o h t).1 hy
    have := ht.length_lt_size h1
    omega

theorem buildFailureLinksCost_eq (ht : IsTree h t W) :
    buildFailureLinksCost o h t =
      ((dequeued o h t h.size).map Prod.snd).foldlM (fun s x => linkChildren o t h.size x s)
        (seedFailures o h t, 0) := by
  have hrun := bfs_levels o h t h.size h.size (h.size - (dequeued o h t h.size).length)
    (seedFailures o h t, 0) (seedFailures_children o h t)
  rw [Nat.add_sub_cancel' (length_dequeued_le ht h.size), level_size_eq_nil ht] at hrun
  rw [buildFailureLinksCost, seedRoot_eq]
  refine hrun.trans ?_
  cases ((dequeued o h t h.size).map Prod.snd).foldlM (fun s x => linkChildren o t h.size x s)
    (seedFailures o h t, 0) <;> simp [bfs]

end Tree

end BuildingBlocks.AhoCorasick

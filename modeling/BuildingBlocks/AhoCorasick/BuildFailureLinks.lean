import BuildingBlocks.AhoCorasick.Trie

/-! `buildFailureLinks` and `search`.  Go ranges over a map in an order it randomises at every
`range`; the model takes that order as a parameter, one permutation of the entries for each map
ranged.  The loops the code runs without a bound are given the number of allocated nodes as
fuel, and running out of it is `none`, like a nil dereference; `Linking` proves neither
happens.  Each loop also counts the failure links its walks follow: the count is ghost state,
which `buildFailureLinks` and `search` drop. -/

namespace BuildingBlocks.AhoCorasick

variable {α σ : Type} [DecidableEq α]

/-- An order in which `range` visits the entries of the children map of each node. -/
structure MapOrder (α : Type) where
  order : Nat → List (Σ _ : α, Nat) → List (Σ _ : α, Nat)
  perm : ∀ v l, (order v l).Perm l

def MapOrder.stored : MapOrder α := ⟨fun _ l => l, fun _ l => List.Perm.refl l⟩

/-- `for failNode != nil && failNode.children[key] == nil { failNode = failNode.failure }`,
for at most `fuel` iterations, with the number of failure links followed; `none` when the fuel
runs out. -/
def followFailure (h : Heap α σ) (key : α) : Nat → Option Nat → Option (Option Nat × Nat)
  | _, none => some (none, 0)
  | 0, some f => if (h.get f).child key = none then none else some (some f, 0)
  | fuel + 1, some f =>
    if (h.get f).child key = none then
      (followFailure h key fuel (h.get f).failure).map fun r => (r.1, r.2 + 1)
    else some (some f, 0)

/-- Lines 43-52: the failure link and the merged outputs of `child`, the child of `current`
under `key`, with the failure links the walk followed. -/
def setFailure (t current fuel : Nat) (h : Heap α σ) (key : α) (child : Nat) :
    Option (Heap α σ × Nat) := do
  match ← followFailure h key fuel (h.get current).failure with
  | (some failNode, k) =>
    let h := h.modify child fun n => { n with failure := (h.get failNode).child key }
    let target ← (h.get child).failure
    some (h.modify child fun n => { n with outputs := n.outputs ++ (h.get target).outputs }, k)
  | (none, k) => some (h.modify child fun n => { n with failure := some t }, k)

/-- One iteration of `for key, child := range current.children` (lines 42-52); `k` counts the
failure links followed so far. -/
def linkChild (t current fuel : Nat) :
    List Nat × Heap α σ × Nat → (Σ _ : α, Nat) → Option (List Nat × Heap α σ × Nat)
  | (queue, h, k), ⟨key, child⟩ =>
    let queue := queue ++ [child]
    (setFailure t current fuel h key child).map fun (h, n) => (queue, h, k + n)

/-- The body of the breadth-first loop for the dequeued node `current` (lines 41-53). -/
def processNode (o : MapOrder α) (t fuel current : Nat) (queue : List Nat) (h : Heap α σ)
    (k : Nat) : Option (List Nat × Heap α σ × Nat) :=
  (o.order current (h.get current).children.entries).foldlM (linkChild t current fuel)
    (queue, h, k)

/-- `for len(queue) > 0` (lines 37-54), for at most `loops` iterations; `none` when they run
out. -/
def bfs (o : MapOrder α) (t fuel : Nat) :
    Nat → List Nat → Heap α σ × Nat → Option (Heap α σ × Nat)
  | _, [], s => some s
  | 0, _ :: _, _ => none
  | loops + 1, current :: queue, (h, k) => do
    let (queue, h, k) ← processNode o t fuel current queue h k
    bfs o t fuel loops queue (h, k)

/-- The loop over the root's children (lines 32-35). -/
def seedRoot (t : Nat) : List Nat × Heap α σ → (Σ _ : α, Nat) → List Nat × Heap α σ
  | (queue, h), ⟨_, child⟩ =>
    (queue ++ [child], h.modify child fun n => { n with failure := some t })

/-- `buildFailureLinks`, both unbounded loops given the number of allocated nodes as fuel: the
heap it leaves, and the failure links its walks followed. -/
def buildFailureLinksCost (o : MapOrder α) (h : Heap α σ) (t : Nat) : Option (Heap α σ × Nat) :=
  let (queue, h') := (o.order t (h.get t).children.entries).foldl (seedRoot t) ([], h)
  bfs o t h.size h.size queue (h', 0)

/-- The heap `buildFailureLinks` leaves. -/
def buildFailureLinks (o : MapOrder α) (h : Heap α σ) (t : Nat) : Option (Heap α σ) :=
  (buildFailureLinksCost o h t).map Prod.fst

/-- One iteration of the loop of `search` over the runes of the text (lines 60-70), with the
failure links followed so far. -/
def searchStep (h : Heap α σ) (t fuel : Nat) :
    Nat × List σ × Nat → α → Option (Nat × List σ × Nat)
  | (currentState, found, k), ch => do
    match ← followFailure h ch fuel (some currentState) with
    | (none, n) => some (t, found, k + n)
    | (some state, n) =>
      let next ← (h.get state).child ch
      let node := h.get next
      some (next, if node.isEndOfWord then found ++ node.outputs else found, k + n)

/-- The loop of `search` over the runes `u`, from the root with nothing found. -/
def searchLoop (h : Heap α σ) (t : Nat) (u : List α) : Option (Nat × List σ × Nat) :=
  u.foldlM (searchStep h t h.size) (t, [], 0)

/-- `search`, on the runes `decode text`. -/
def search (decode : σ → List α) (h : Heap α σ) (t : Nat) (text : σ) : Option (List σ) := do
  let (_, found, _) ← searchLoop h t (decode text)
  some found

theorem foldlM_invariant {β δ : Type} (R : β → Prop) {f : β → δ → Option β}
    (hf : ∀ s x s', f s x = some s' → R s → R s') :
    ∀ (xs : List δ) {s s' : β}, xs.foldlM f s = some s' → R s → R s'
  | [], _, _, hs, hR => by cases hs; exact hR
  | x :: xs, s, _, hs, hR => by
    obtain ⟨s₁, h1, h2⟩ := Option.bind_eq_some.1 hs
    exact foldlM_invariant R hf xs h2 (hf s x s₁ h1 hR)

section Unfolding

variable (o : MapOrder α) (t fuel : Nat)

def kids (h : Heap α σ) (v : Nat) : List Nat := (o.order v (h.get v).children.entries).map (·.2)

def linkChildren (current : Nat) (s : Heap α σ × Nat) : Option (Heap α σ × Nat) :=
  (o.order current (s.1.get current).children.entries).foldlM
    (fun s e => (setFailure t current fuel s.1 e.1 e.2).map fun r => (r.1, s.2 + r.2)) s

theorem foldlM_linkChild (current : Nat) (es : List (Σ _ : α, Nat)) (queue : List Nat)
    (h : Heap α σ) (k : Nat) :
    es.foldlM (linkChild t current fuel) (queue, h, k) =
      (es.foldlM (fun s e => (setFailure t current fuel s.1 e.1 e.2).map
          fun r => (r.1, s.2 + r.2)) (h, k)).map
        fun s => (queue ++ es.map (·.2), s.1, s.2) := by
  induction es generalizing queue h k with
  | nil => simp
  | cons e es ih =>
    simp only [List.foldlM_cons, linkChild, List.map_cons]
    cases setFailure t current fuel h e.1 e.2 <;> simp [ih]

theorem processNode_eq (current : Nat) (queue : List Nat) (h : Heap α σ) (k : Nat) :
    processNode o t fuel current queue h k =
      (linkChildren o t fuel current (h, k)).map fun s => (queue ++ kids o h current, s.1, s.2) :=
  foldlM_linkChild t fuel current _ queue h k

theorem setFailure_children {current : Nat} {h h' : Heap α σ} {key : α} {child n : Nat}
    (hs : setFailure t current fuel h key child = some (h', n)) (v : Nat) :
    (h'.get v).children = (h.get v).children := by
  suffices ∃ fl out, h' = h.set child { h.get child with failure := fl, outputs := out } by
    obtain ⟨fl, out, rfl⟩ := this
    by_cases hv : v = child <;> simp [hv]
  unfold setFailure at hs
  rcases hf : followFailure h key fuel (h.get current).failure with _ | ⟨_ | f, k⟩
  · simp [hf] at hs
  · simp only [hf, Option.bind_eq_bind, Option.some_bind, Option.some.injEq, Prod.mk.injEq] at hs
    exact ⟨_, _, hs.1.symm⟩
  · simp only [hf, Option.bind_eq_bind, Option.some_bind, Heap.get_modify, if_pos rfl] at hs
    cases hg : (h.get f).child key with
    | none => simp [hg] at hs
    | some g =>
      simp only [hg, Option.some_bind, Heap.modify, Heap.set_set, Heap.get_set, if_pos rfl,
        ite_true, Option.some.injEq, Prod.mk.injEq] at hs
      exact ⟨_, _, hs.1.symm⟩

theorem linkChildren_children {current : Nat} {s s' : Heap α σ × Nat}
    (hl : linkChildren o t fuel current s = some s') (v : Nat) :
    (s'.1.get v).children = (s.1.get v).children :=
  foldlM_invariant (fun r => (r.1.get v).children = (s.1.get v).children)
    (fun _ _ _ hr hR => by
      obtain ⟨_, hs, rfl⟩ := Option.map_eq_some'.1 hr
      exact (setFailure_children t fuel hs v).trans hR) _ hl rfl

theorem foldlM_linkChildren_children (xs : List Nat) {s s' : Heap α σ × Nat}
    (hs : xs.foldlM (fun s x => linkChildren o t fuel x s) s = some s') (v : Nat) :
    (s'.1.get v).children = (s.1.get v).children :=
  foldlM_invariant (fun r => (r.1.get v).children = (s.1.get v).children)
    (fun _ _ _ hr hR => (linkChildren_children o t fuel hr v).trans hR) xs hs rfl

omit [DecidableEq α] in
theorem kids_congr {h h₀ : Heap α σ} (hc : ∀ v, (h.get v).children = (h₀.get v).children)
    (v : Nat) : kids o h v = kids o h₀ v := by
  simp [kids, hc]

omit [DecidableEq α] in
theorem foldl_seedRoot (es : List (Σ _ : α, Nat)) (queue : List Nat) (h : Heap α σ) :
    es.foldl (seedRoot t) (queue, h) =
      (queue ++ es.map (·.2),
        es.foldl (fun h e => h.modify e.2 fun n => { n with failure := some t }) h) := by
  induction es generalizing queue h with
  | nil => simp
  | cons e es ih => simp [seedRoot, ih]

omit [DecidableEq α] in
theorem foldl_setRootFailure_get (es : List (Σ _ : α, Nat)) (h : Heap α σ) (v : Nat) :
    (es.foldl (fun h e => h.modify e.2 fun n => { n with failure := some t }) h).get v =
      if v ∈ es.map (·.2) then { h.get v with failure := some t } else h.get v := by
  induction es generalizing h with
  | nil => simp
  | cons e es ih =>
    rw [List.foldl_cons, ih]
    by_cases hv : v = e.2 <;> by_cases hm : v ∈ es.map (·.2) <;> simp [hv, hm]

omit [DecidableEq α] in
theorem foldl_setRootFailure_size (es : List (Σ _ : α, Nat)) (h : Heap α σ) :
    (es.foldl (fun h e => h.modify e.2 fun n => { n with failure := some t }) h).size = h.size := by
  induction es generalizing h with
  | nil => rfl
  | cons e es ih => exact ih _

theorem bfs_append (h₀ : Heap α σ) (xs ys : List Nat) (n : Nat) (s : Heap α σ × Nat)
    (hc : ∀ v, (s.1.get v).children = (h₀.get v).children) :
    bfs o t fuel (xs.length + n) (xs ++ ys) s =
      (xs.foldlM (fun s x => linkChildren o t fuel x s) s).bind
        fun s' => bfs o t fuel n (ys ++ xs.flatMap (kids o h₀)) s' := by
  induction xs generalizing ys s with
  | nil => simp
  | cons x xs ih =>
    obtain ⟨h, k⟩ := s
    rw [List.length_cons, Nat.add_right_comm, List.cons_append, bfs, processNode_eq,
      List.foldlM_cons, kids_congr o hc]
    cases hl : linkChildren o t fuel x (h, k) with
    | none => rfl
    | some s' =>
      have hc' : ∀ v, (s'.1.get v).children = (h₀.get v).children := fun v =>
        (linkChildren_children o t fuel hl v).trans (hc v)
      simp only [Option.map_some', Option.bind_eq_bind, Option.some_bind, ih _ _ hc',
        List.flatMap_cons, List.append_assoc]

end Unfolding

end BuildingBlocks.AhoCorasick

import Mathlib.Data.List.AList

/-! The heap of `trieNode`s of `datastructure/ahocorasick_v2.go`.  A `*trieNode` is an
address into the heap and a nil pointer is `none`; a `map[rune]*trieNode` is an `AList`,
whose keys are distinct by construction. -/

namespace BuildingBlocks.AhoCorasick

/-- `trieNode`, with its pointer fields as heap addresses. -/
structure TrieNode (α σ : Type) where
  children : AList (fun _ : α => Nat)
  failure : Option Nat
  outputs : List σ
  isEndOfWord : Bool

variable {α σ : Type}

/-- The fields `newTrieNode` starts a node with. -/
def TrieNode.init : TrieNode α σ := ⟨∅, none, [], false⟩

/-- `children[ch]`, with nil as `none`. -/
def TrieNode.child [DecidableEq α] (n : TrieNode α σ) (ch : α) : Option Nat :=
  n.children.lookup ch

@[simp] theorem TrieNode.child_init [DecidableEq α] (ch : α) :
    (TrieNode.init : TrieNode α σ).child ch = none := rfl

@[simp] theorem TrieNode.child_insert [DecidableEq α] (n : TrieNode α σ) (ch c : α) (p : Nat) :
    ({ n with children := n.children.insert ch p } : TrieNode α σ).child c =
      if c = ch then some p else n.child c := by
  by_cases h : c = ch
  · subst h; simp [TrieNode.child, AList.lookup_insert]
  · simp [TrieNode.child, h, AList.lookup_insert_ne h]

theorem TrieNode.child_eq_some_iff [DecidableEq α] {n : TrieNode α σ} {c : α} {v : Nat} :
    n.child c = some v ↔ ⟨c, v⟩ ∈ n.children.entries :=
  AList.mem_lookup_iff

/-- The nodes at every address, and the first address not yet allocated. -/
@[ext] structure Heap (α σ : Type) where
  get : Nat → TrieNode α σ
  size : Nat

/-- `newTrieNode`: a fresh node at the first free address. -/
def newTrieNode (h : Heap α σ) : Heap α σ × Nat :=
  (⟨fun q => if q = h.size then .init else h.get q, h.size + 1⟩, h.size)

@[simp] theorem newTrieNode_get (h : Heap α σ) (q : Nat) :
    (newTrieNode h).1.get q = if q = h.size then .init else h.get q := rfl

@[simp] theorem newTrieNode_size (h : Heap α σ) : (newTrieNode h).1.size = h.size + 1 := rfl

@[simp] theorem newTrieNode_snd (h : Heap α σ) : (newTrieNode h).2 = h.size := rfl

namespace Heap

def empty : Heap α σ := ⟨fun _ => .init, 0⟩

def set (h : Heap α σ) (p : Nat) (n : TrieNode α σ) : Heap α σ :=
  ⟨fun q => if q = p then n else h.get q, h.size⟩

def modify (h : Heap α σ) (p : Nat) (f : TrieNode α σ → TrieNode α σ) : Heap α σ :=
  h.set p (f (h.get p))

@[simp] theorem get_set (h : Heap α σ) (p q : Nat) (n : TrieNode α σ) :
    (h.set p n).get q = if q = p then n else h.get q := rfl

@[simp] theorem size_set (h : Heap α σ) (p : Nat) (n : TrieNode α σ) : (h.set p n).size = h.size :=
  rfl

@[simp] theorem set_set (h : Heap α σ) (p : Nat) (n m : TrieNode α σ) :
    (h.set p n).set p m = h.set p m := by
  ext q
  · by_cases hq : q = p <;> simp [hq]
  · rfl

@[simp] theorem get_modify (h : Heap α σ) (p q : Nat) (f : TrieNode α σ → TrieNode α σ) :
    (h.modify p f).get q = if q = p then f (h.get p) else h.get q := rfl

@[simp] theorem size_modify (h : Heap α σ) (p : Nat) (f : TrieNode α σ → TrieNode α σ) :
    (h.modify p f).size = h.size := rfl

variable [DecidableEq α]

/-- The node reached from `v` along the child edges labelled by `w`. -/
def walk (h : Heap α σ) (v : Nat) : List α → Option Nat
  | [] => some v
  | c :: w => ((h.get v).child c).bind fun u => h.walk u w

@[simp] theorem walk_nil (h : Heap α σ) (v : Nat) : h.walk v [] = some v := rfl

@[simp] theorem walk_cons (h : Heap α σ) (v : Nat) (c : α) (w : List α) :
    h.walk v (c :: w) = ((h.get v).child c).bind fun u => h.walk u w := rfl

theorem walk_append (h : Heap α σ) (v : Nat) (w w' : List α) :
    h.walk v (w ++ w') = (h.walk v w).bind fun u => h.walk u w' := by
  induction w generalizing v with
  | nil => rfl
  | cons c w ih => simp only [List.cons_append, walk_cons, ih, Option.bind_assoc]

theorem walk_concat (h : Heap α σ) (v : Nat) (w : List α) (c : α) :
    h.walk v (w ++ [c]) = (h.walk v w).bind fun u => (h.get u).child c := by
  simp [walk_append]

theorem walk_take_isSome {h : Heap α σ} {v : Nat} {w : List α} (hw : (h.walk v w).isSome)
    (i : Nat) : (h.walk v (w.take i)).isSome := by
  rw [← List.take_append_drop i w, walk_append] at hw
  cases h' : h.walk v (w.take i) <;> simp_all

theorem walk_congr {h h' : Heap α σ} (hc : ∀ v, (h'.get v).children = (h.get v).children)
    (v : Nat) (w : List α) : h'.walk v w = h.walk v w := by
  induction w generalizing v with
  | nil => rfl
  | cons c w ih => simp only [walk_cons, TrieNode.child, hc, ih]

theorem walk_modify (h : Heap α σ) (p : Nat) (f : TrieNode α σ → TrieNode α σ)
    (hf : ∀ n, (f n).children = n.children) (v : Nat) (w : List α) :
    (h.modify p f).walk v w = h.walk v w :=
  walk_congr (fun q => by by_cases hq : q = p <;> simp [hq, hf]) v w

end Heap

/-- `newTrie`: the root, alone in an empty heap. -/
def newTrie : Heap α σ × Nat := newTrieNode .empty

@[simp] theorem newTrie_snd : (newTrie : Heap α σ × Nat).2 = 0 := rfl

end BuildingBlocks.AhoCorasick

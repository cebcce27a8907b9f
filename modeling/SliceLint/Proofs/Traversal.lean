import SliceLint.Proofs.Spans
import SliceLint.Proofs.Steps

set_option autoImplicit false

/-! # The order of a traversal

A tree is searched with a stack: the node on top is looked at, and its children are pushed in its
place, the last one first. Whatever else is on the stack, the nodes that are still to come are those
of the trees on it, from the top down (`Traversal.remaining`), and a step takes the first of them
away. So the search looks at the nodes of the recursive order one after the other, and ends.

That each node is met once is said of its address, the positions of the children on the way to it:
two nodes of a tree may look alike, but their addresses differ. The recursive order goes through all
addresses of the tree in lexicographic order (`Node.traversal_preorder`). -/

namespace SliceLint

/-- A search through a tree that is under way. -/
structure Traversal where
  /-- The nodes that were met but not looked at yet, the next one last. -/
  stack : List Node
  /-- The imports that were found so far. -/
  found : List Import

namespace Traversal

def start (tree : Node) : Traversal :=
  ⟨[tree], []⟩

/-- Look at the node on top of the stack. Its children take its place, the first of them on top. -/
def step (source : List Char) (t : Traversal) : Option Traversal :=
  t.stack.getLast?.map fun n =>
    { stack := t.stack.dropLast ++ n.children.reverse
      found := t.found ++ (n.import? source).toList }

/-- The nodes that are still to be looked at, in order. -/
def remaining (t : Traversal) : List Node :=
  Node.preorderAll t.stack.reverse

/-! ## One step -/

theorem remaining_concat (init : List Node) (top : Node) (found : List Import) :
    remaining ⟨init ++ [top], found⟩ = top :: Node.preorderAll (top.children ++ init.reverse) := by
  rw [remaining, List.reverse_append, List.reverse_singleton, List.singleton_append,
    Node.preorderAll, Node.preorder_eq, Node.preorderAll_append, List.cons_append]

/-- The node on top of the stack is the next one. -/
theorem getLast?_stack (t : Traversal) : t.stack.getLast? = t.remaining.head? := by
  obtain ⟨stack, found⟩ := t
  rcases List.eq_nil_or_concat' stack with rfl | ⟨init, top, rfl⟩
  · rfl
  · rw [remaining_concat, List.getLast?_concat, List.head?_cons]

theorem step_eq_none {source : List Char} {t : Traversal} (h : t.remaining = []) :
    t.step source = none := by
  rw [step, getLast?_stack, h]
  rfl

theorem step_of_remaining (source : List Char) {t : Traversal} {n : Node} {rest : List Node}
    (h : t.remaining = n :: rest) :
    ∃ t', t.step source = some t' ∧ t'.remaining = rest ∧
      t'.found = t.found ++ (n.import? source).toList := by
  obtain ⟨stack, found⟩ := t
  rcases List.eq_nil_or_concat' stack with rfl | ⟨init, top, rfl⟩
  · cases h
  · rw [remaining_concat] at h
    obtain ⟨rfl, rfl⟩ := List.cons.inj h
    refine ⟨⟨init ++ top.children.reverse, found ++ (top.import? source).toList⟩, ?_, ?_, rfl⟩
    · simp [step]
    · rw [remaining, List.reverse_append, List.reverse_reverse]

/-! ## A whole search -/

/-- After some steps, so many nodes are gone and their imports are found. -/
theorem after_step (source : List Char) {k : Nat} {t : Traversal} (h : k ≤ t.remaining.length) :
    ∃ t', Steps.after (step source) k t = some t' ∧ t'.remaining = t.remaining.drop k ∧
      t'.found = t.found ++ (t.remaining.take k).filterMap (Node.import? source) := by
  induction k generalizing t with
  | zero => exact ⟨t, rfl, rfl, by simp⟩
  | succ k ih =>
      obtain ⟨n, rest, hremaining⟩ := List.exists_cons_of_length_pos (Nat.zero_lt_of_lt h)
      obtain ⟨next, hstep, hrest, hfound⟩ := step_of_remaining source hremaining
      rw [hremaining, List.length_cons] at h
      obtain ⟨t', hafter, hdrop, htake⟩ := ih (t := next) (by rw [hrest]; omega)
      refine ⟨t', by rw [Steps.after_succ hstep, hafter], ?_, ?_⟩
      · rw [hdrop, hrest, hremaining, List.drop_succ_cons]
      · rw [htake, hrest, hfound, hremaining, List.take_succ_cons, List.filterMap_cons]
        cases n.import? source <;> simp

/-- The search ends after as many steps as there are nodes, with all their imports. -/
theorem after_length_remaining (source : List Char) (t : Traversal) :
    ∃ t', Steps.after (step source) t.remaining.length t = some t' ∧ t'.stack = [] ∧
      t'.found = t.found ++ t.remaining.filterMap (Node.import? source) := by
  obtain ⟨t', hafter, hdrop, hfound⟩ := after_step source (Nat.le_refl t.remaining.length)
  rw [List.drop_length] at hdrop
  rw [List.take_length] at hfound
  have hempty := getLast?_stack t'
  rw [hdrop, List.head?_nil, List.getLast?_eq_none_iff] at hempty
  exact ⟨t', hafter, hempty, hfound⟩

/-- The node that is looked at next, after some steps. -/
theorem next_after_step (source : List Char) (t : Traversal) (k : Nat) :
    ((Steps.after (step source) k t).bind fun t' => t'.stack.getLast?) = t.remaining[k]? := by
  by_cases hk : k ≤ t.remaining.length
  · obtain ⟨t', hafter, hdrop, -⟩ := after_step source hk
    rw [hafter, Option.bind_some, getLast?_stack, hdrop, List.head?_drop]
  · have hlt : t.remaining.length < k := by omega
    obtain ⟨t', hafter, hdrop, -⟩ := after_step source (Nat.le_refl t.remaining.length)
    rw [List.drop_length] at hdrop
    rw [Steps.after_eq_none hafter (step_eq_none hdrop) hlt, Option.bind_none,
      List.getElem?_eq_none (by omega)]

end Traversal

namespace Node

/-! ## Addresses -/

/-- The node at an address: the way down to it, by the positions of children. -/
def at? : Node → List Nat → Option Node
  | n, [] => some n
  | n, i :: rest => n.children[i]?.bind fun c => c.at? rest

mutual

/-- The addresses of all nodes of a tree: its own, then those below its children in turn. -/
def addresses : Node → List (List Nat)
  | mk _ _ _ _ children => [] :: addressesFrom 0 children

/-- The addresses of the nodes of some trees that are children from a position on. -/
def addressesFrom : Nat → List Node → List (List Nat)
  | _, [] => []
  | i, n :: rest => n.addresses.map (i :: ·) ++ addressesFrom (i + 1) rest

end

theorem addresses_eq (n : Node) : n.addresses = [] :: addressesFrom 0 n.children := by
  cases n
  rw [addresses, children]

theorem le_of_mem_addressesFrom {i : Nat} {ns : List Node} {a : List Nat}
    (h : a ∈ addressesFrom i ns) : ∃ j rest, a = j :: rest ∧ i ≤ j := by
  induction ns generalizing i with
  | nil =>
      rw [addressesFrom] at h
      cases h
  | cons n ns ih =>
      rw [addressesFrom, List.mem_append, List.mem_map] at h
      rcases h with ⟨rest, -, rfl⟩ | h
      · exact ⟨i, rest, rfl, Nat.le_refl i⟩
      · obtain ⟨j, rest, rfl, hle⟩ := ih h
        exact ⟨j, rest, rfl, by omega⟩

mutual

/-- The addresses stand in lexicographic order, so none of them occurs twice. -/
theorem pairwise_addresses : (n : Node) → n.addresses.Pairwise (· < ·)
  | mk kind role start stop children => by
      rw [addresses, List.pairwise_cons]
      refine ⟨fun a ha => ?_, pairwise_addressesFrom 0 children⟩
      obtain ⟨j, rest, rfl, -⟩ := le_of_mem_addressesFrom ha
      exact List.nil_lt_cons j rest

theorem pairwise_addressesFrom : (i : Nat) → (ns : List Node) →
    (addressesFrom i ns).Pairwise (· < ·)
  | i, [] => by
      rw [addressesFrom]
      exact List.Pairwise.nil
  | i, n :: ns => by
      rw [addressesFrom, List.pairwise_append, List.pairwise_map]
      refine ⟨?_, pairwise_addressesFrom (i + 1) ns, fun a ha b hb => ?_⟩
      · exact (pairwise_addresses n).imp fun h => List.cons_lt_cons_iff.2 (Or.inr ⟨rfl, h⟩)
      · obtain ⟨rest, -, rfl⟩ := List.mem_map.1 ha
        obtain ⟨j, rest', rfl, hle⟩ := le_of_mem_addressesFrom hb
        exact List.cons_lt_cons_iff.2 (Or.inl (by omega))

end

mutual

/-- The recursive order goes through the addresses of a tree. -/
theorem map_at?_addresses : (n : Node) → n.addresses.map n.at? = n.preorder.map some
  | mk kind role start stop children => by
      rw [addresses, preorder, List.map_cons, List.map_cons]
      congr 1
      exact map_at?_addressesFrom (mk kind role start stop children) 0 children rfl

theorem map_at?_addressesFrom : (parent : Node) → (i : Nat) → (ns : List Node) →
    parent.children.drop i = ns → (addressesFrom i ns).map parent.at? = (preorderAll ns).map some
  | parent, i, [], h => by
      rw [addressesFrom, preorderAll]
      rfl
  | parent, i, n :: ns, h => by
      have hchild : parent.children[i]? = some n := by
        rw [← List.head?_drop, h, List.head?_cons]
      have hrest : parent.children.drop (i + 1) = ns := by
        rw [← List.tail_drop, h, List.tail_cons]
      have hbelow : ∀ a, parent.at? (i :: a) = n.at? a := by
        intro a
        rw [at?, hchild, Option.bind_some]
      rw [addressesFrom, preorderAll, List.map_append, List.map_append, List.map_map,
        map_at?_addressesFrom parent (i + 1) ns hrest, ← map_at?_addresses n]
      congr 1
      exact List.map_congr_left fun a _ => hbelow a

end

theorem mem_addressesFrom {i k : Nat} {ns : List Node} {c : Node} {rest : List Nat}
    (hc : ns[k]? = some c) (hrest : rest ∈ c.addresses) :
    (i + k) :: rest ∈ addressesFrom i ns := by
  induction ns generalizing i k with
  | nil => simp at hc
  | cons n ns ih =>
      rw [addressesFrom, List.mem_append]
      cases k with
      | zero =>
          obtain rfl := Option.some.inj hc
          exact Or.inl (List.mem_map_of_mem hrest)
      | succ k =>
          rw [List.getElem?_cons_succ] at hc
          have hmem := ih (i := i + 1) hc
          rw [Nat.add_right_comm] at hmem
          exact Or.inr hmem

/-- The addresses are those at which there is a node. -/
theorem mem_addresses_iff {n : Node} {a : List Nat} : a ∈ n.addresses ↔ ∃ m, n.at? a = some m := by
  constructor
  · intro h
    have hmem : n.at? a ∈ n.preorder.map some := by
      rw [← map_at?_addresses]
      exact List.mem_map_of_mem h
    obtain ⟨m, -, hm⟩ := List.mem_map.1 hmem
    exact ⟨m, hm.symm⟩
  · induction a generalizing n with
    | nil =>
        intro _
        rw [addresses_eq]
        exact List.mem_cons_self
    | cons i rest ih =>
        rintro ⟨m, hm⟩
        obtain ⟨c, hc, hrest⟩ := Option.bind_eq_some_iff.1 hm
        have hmem := mem_addressesFrom (i := 0) hc (ih ⟨m, hrest⟩)
        rw [Nat.zero_add] at hmem
        rw [addresses_eq]
        exact List.mem_cons_of_mem _ hmem

theorem remaining_start (tree : Node) : (Traversal.start tree).remaining = tree.preorder :=
  preorderAll_singleton tree

theorem imports_eq_preorder (source : List Char) (tree : Node) :
    tree.imports source = tree.preorder.filterMap (import? source) := by
  rw [imports, visit_singleton]

mutual

theorem length_preorder : (n : Node) → n.preorder.length = n.size
  | mk kind role start stop children => by
      rw [preorder, size, List.length_cons, length_preorderAll children, Nat.add_comm]

theorem length_preorderAll : (ns : List Node) → (preorderAll ns).length = sizeAll ns
  | [] => by
      rw [preorderAll, sizeAll]
      rfl
  | n :: ns => by
      rw [preorderAll, sizeAll, List.length_append, length_preorder n, length_preorderAll ns]

end

/-- The search through a tree looks at its nodes in the recursive order, one with each step, and
ends when it has looked at all of them. What it has found then are the imports of the nodes in this
order. The order goes through the addresses of the tree from the least to the greatest, so each node
that can be reached through children is met once. -/
theorem traversal_preorder (source : List Char) (tree : Node) :
    (∀ k, ((Steps.after (Traversal.step source) k (.start tree)).bind fun t => t.stack.getLast?)
      = tree.preorder[k]?) ∧
    Steps.after (Traversal.step source) tree.size (.start tree)
      = some ⟨[], tree.imports source⟩ ∧
    Traversal.step source ⟨[], tree.imports source⟩ = none ∧
    tree.imports source = tree.preorder.filterMap (import? source) ∧
    tree.preorder.map some = tree.addresses.map tree.at? ∧
    tree.addresses.Pairwise (· < ·) ∧
    ∀ a, a ∈ tree.addresses ↔ ∃ n, tree.at? a = some n := by
  have hend : Steps.after (Traversal.step source) tree.size (.start tree)
      = some ⟨[], tree.imports source⟩ := by
    obtain ⟨⟨stack, found⟩, hafter, hempty, hfound⟩ :=
      Traversal.after_length_remaining source (.start tree)
    rw [remaining_start] at hafter hfound
    rw [← length_preorder, hafter, imports_eq_preorder, ← hempty]
    exact congrArg some (congrArg (Traversal.mk stack) hfound)
  refine ⟨fun k => ?_, hend, Traversal.step_eq_none rfl, imports_eq_preorder source tree,
    (map_at?_addresses tree).symm, pairwise_addresses tree, fun a => mem_addresses_iff⟩
  rw [Traversal.next_after_step, remaining_start]

end Node

end SliceLint

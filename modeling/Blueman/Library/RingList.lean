import Mathlib.Data.List.Chain
import Mathlib.Data.List.Nodup
import Mathlib.Logic.Function.Basic

/-!
# Circular doubly linked lists

A ring runs through a head and some nodes, each with a link to the next one and
one to the one before. The links of a node can be set one at a time, as code does
it, and the rules say what an insertion after the head makes of a ring.
-/

namespace Blueman.RingList

set_option autoImplicit false

universe u

structure Links (Node : Type u) where
  next : Node → Node
  prev : Node → Node

variable {Node : Type u}

def Links.Joins (links : Links Node) (left right : Node) : Prop :=
  links.next left = right ∧ links.prev right = left

/-- From the head through the nodes and back to it. -/
structure IsRing (links : Links Node) (head : Node) (nodes : List Node) : Prop where
  joined : (head :: (nodes ++ [head])).IsChain links.Joins
  different : (head :: nodes).Nodup

theorem empty_ring {links : Links Node} {head : Node} (next : links.next head = head)
    (prev : links.prev head = head) : IsRing links head [] := by
  refine ⟨?_, List.nodup_singleton head⟩
  rw [List.nil_append, List.isChain_pair]
  exact ⟨next, prev⟩

variable {links : Links Node} {head node : Node} {nodes : List Node}

theorem IsRing.first (ring : IsRing links head nodes) :
    links.next head = (nodes ++ [head]).head (List.append_ne_nil_of_right_ne_nil _ (by simp)) := by
  have start := ring.joined
  cases nodes with
  | nil => exact (List.isChain_pair.mp start).1
  | cons first rest => exact (List.isChain_cons_cons.mp start).1.1

theorem IsRing.next_head {first : Node} {rest : List Node}
    (ring : IsRing links head (first :: rest)) : links.next head = first := ring.first

theorem IsRing.prev_head {front : List Node} {last : Node}
    (ring : IsRing links head (front ++ [last])) : links.prev head = last := by
  have joined := ring.joined
  rw [List.append_assoc, List.singleton_append] at joined
  have whole := (List.isChain_cons_append_cons_cons.mp joined).2.1
  exact whole.2

theorem IsRing.next_node {front back : List Node} {left right : Node}
    (ring : IsRing links head (front ++ left :: right :: back)) : links.next left = right := by
  have joined := ring.joined
  rw [List.append_assoc, List.cons_append, List.cons_append] at joined
  exact (List.isChain_cons_append_cons_cons.mp joined).2.1.1

/-- A chain needs the forward links of all nodes but the last and the backward links
of all but the first. -/
theorem chain_congr {other : Links Node} {chain : List Node} (joined : chain.IsChain links.Joins)
    (next : ∀ node ∈ chain.dropLast, other.next node = links.next node)
    (prev : ∀ node ∈ chain.tail, other.prev node = links.prev node) :
    chain.IsChain other.Joins := by
  induction chain with
  | nil => exact List.isChain_nil
  | cons first rest induction =>
      cases rest with
      | nil => exact List.isChain_singleton first
      | cons second rest =>
          obtain ⟨linked, later⟩ := List.isChain_cons_cons.mp joined
          rw [List.dropLast_cons_cons] at next
          apply List.isChain_cons_cons.mpr
          refine ⟨⟨?_, ?_⟩, induction later ?_ ?_⟩
          · rw [next first List.mem_cons_self]
            exact linked.1
          · rw [prev second List.mem_cons_self]
            exact linked.2
          · intro node member
            exact next node (List.mem_cons_of_mem first member)
          · intro node member
            exact prev node (List.mem_cons_of_mem second member)

theorem ring_mem {other : Node} (member : other ∈ nodes ++ [head]) : other ∈ head :: nodes := by
  simpa [or_comm] using member

theorem IsRing.congr {other : Links Node} (ring : IsRing links head nodes)
    (same : ∀ node ∈ head :: nodes,
      other.next node = links.next node ∧ other.prev node = links.prev node) :
    IsRing other head nodes := by
  have inRing {node : Node} (member : node ∈ head :: (nodes ++ [head])) : node ∈ head :: nodes :=
    (List.mem_cons.mp member).elim (fun same => same ▸ List.mem_cons_self) ring_mem
  refine ⟨chain_congr ring.joined ?_ ?_, ring.different⟩
  · intro node member
    exact (same node (inRing (List.dropLast_subset _ member))).1
  · intro node member
    exact (same node (inRing (List.mem_of_mem_tail member))).2

def Links.swap (links : Links Node) : Links Node := ⟨links.prev, links.next⟩

theorem IsRing.swap (ring : IsRing links head nodes) : IsRing links.swap head nodes.reverse := by
  constructor
  · have reversed : head :: (nodes.reverse ++ [head]) = (head :: (nodes ++ [head])).reverse := by
      simp
    rw [reversed, List.isChain_reverse]
    apply ring.joined.imp
    intro left right linked
    exact ⟨linked.2, linked.1⟩
  · have once := List.nodup_cons.mp ring.different
    exact List.nodup_cons.mpr ⟨mt List.mem_reverse.mp once.1, List.nodup_reverse.mpr once.2⟩

variable [DecidableEq Node]

def Links.setNext (links : Links Node) (node value : Node) : Links Node :=
  { links with next := Function.update links.next node value }

def Links.setPrev (links : Links Node) (node value : Node) : Links Node :=
  { links with prev := Function.update links.prev node value }

/-- The four assignments that put a node behind the head. -/
def Links.insertAfter (links : Links Node) (node head : Node) : Links Node :=
  let next := links.next head
  (((links.setPrev next node).setNext node next).setPrev node head).setNext head node

theorem insert_next (links : Links Node) (node head other : Node) :
    (links.insertAfter node head).next other =
      if other = head then node else if other = node then links.next head
      else links.next other := by
  change Function.update (Function.update links.next node (links.next head)) head node other = _
  rw [Function.update_apply, Function.update_apply]

theorem insert_prev (links : Links Node) (node head other : Node) :
    (links.insertAfter node head).prev other =
      if other = node then head else if other = links.next head then node
      else links.prev other := by
  change Function.update (Function.update links.prev (links.next head) node) node head other = _
  rw [Function.update_apply, Function.update_apply]

theorem IsRing.kept {first : Node} {rest : List Node} (ring : IsRing links head (first :: rest))
    (fresh : node ∉ head :: first :: rest) :
    (first :: (rest ++ [head])).IsChain (links.insertAfter node head).Joins := by
  obtain ⟨headOnce, once⟩ := List.nodup_cons.mp ring.different
  apply chain_congr (List.isChain_cons_cons.mp ring.joined).2
  · intro other member
    have inside : other ∈ first :: rest := by
      change other ∈ (first :: rest ++ [head]).dropLast at member
      rwa [List.dropLast_concat] at member
    have notHead : other ≠ head := fun same => headOnce (same ▸ inside)
    have notNode : other ≠ node := fun same => fresh (same ▸ List.mem_cons_of_mem _ inside)
    rw [insert_next, if_neg notHead, if_neg notNode]
  · intro other member
    have later : other ∈ rest ++ [head] := member
    have inside : other ∈ head :: first :: rest := ring_mem (List.mem_cons_of_mem _ later)
    have notNode : other ≠ node := fun same => fresh (same ▸ inside)
    have notFirst : other ≠ first := by
      rintro rfl
      rcases List.mem_append.mp later with inRest | isHead
      · exact (List.nodup_cons.mp once).1 inRest
      · exact headOnce (List.mem_singleton.mp isHead ▸ List.mem_cons_self)
    rw [insert_prev, if_neg notNode, ring.next_head, if_neg notFirst]

theorem IsRing.insert (ring : IsRing links head nodes) (fresh : node ∉ head :: nodes) :
    IsRing (links.insertAfter node head) head (node :: nodes) := by
  have notHead : node ≠ head := fun same => fresh (same ▸ List.mem_cons_self)
  have behindHead : (links.insertAfter node head).Joins head node := by
    constructor
    · rw [insert_next, if_pos rfl]
    · rw [insert_prev, if_pos rfl]
  have behindNode {first : Node} (next : links.next head = first) (other : first ≠ node) :
      (links.insertAfter node head).Joins node first := by
    constructor
    · rw [insert_next, if_neg notHead, if_pos rfl]
      exact next
    · rw [insert_prev, if_neg other, next, if_pos rfl]
  constructor
  · apply List.isChain_cons_cons.mpr
    refine ⟨behindHead, ?_⟩
    cases nodes with
    | nil =>
        apply List.isChain_pair.mpr
        exact behindNode ring.first notHead.symm
    | cons first rest =>
        apply List.isChain_cons_cons.mpr
        refine ⟨behindNode ring.next_head ?_, ring.kept fresh⟩
        rintro rfl
        exact fresh (List.mem_cons_of_mem _ List.mem_cons_self)
  · have inside : node ∉ nodes := fun member => fresh (List.mem_cons_of_mem _ member)
    obtain ⟨headOnce, nodesOnce⟩ := List.nodup_cons.mp ring.different
    apply List.nodup_cons.mpr
    refine ⟨?_, List.nodup_cons.mpr ⟨inside, nodesOnce⟩⟩
    intro member
    rcases List.mem_cons.mp member with same | later
    · exact notHead same.symm
    · exact headOnce later

theorem IsRing.insert_outside (ring : IsRing links head nodes) {other : Node}
    (outside : other ∉ head :: nodes) (different : other ≠ node) :
    (links.insertAfter node head).next other = links.next other ∧
      (links.insertAfter node head).prev other = links.prev other := by
  have notHead : other ≠ head := fun same => outside (same ▸ List.mem_cons_self)
  have notFirst : other ≠ links.next head := by
    rintro rfl
    apply outside
    rw [ring.first]
    exact ring_mem (List.head_mem _)
  constructor
  · rw [insert_next, if_neg notHead, if_neg different]
  · rw [insert_prev, if_neg different, if_neg notFirst]

def Links.insertBefore (links : Links Node) (node head : Node) : Links Node :=
  let tail := links.prev head
  (((links.setNext tail node).setPrev head node).setNext node head).setPrev node tail

theorem insert_before_eq (links : Links Node) {node head : Node} (different : node ≠ head) :
    links.insertBefore node head = (links.swap.insertAfter node head).swap := by
  have commute := Function.update_comm different.symm node (links.prev head) links.prev
  exact congrArg (Links.mk _) commute

theorem IsRing.insert_last (ring : IsRing links head nodes) (fresh : node ∉ head :: nodes) :
    IsRing (links.insertBefore node head) head (nodes ++ [node]) := by
  have different : node ≠ head := fun same => fresh (same ▸ List.mem_cons_self)
  have backwards : node ∉ head :: nodes.reverse := by
    simpa using fresh
  have inserted := (ring.swap.insert backwards).swap
  rw [List.reverse_cons, List.reverse_reverse] at inserted
  rwa [insert_before_eq links different]

theorem IsRing.insert_last_outside (ring : IsRing links head nodes) {other : Node}
    (fresh : node ≠ head) (outside : other ∉ head :: nodes) (different : other ≠ node) :
    (links.insertBefore node head).next other = links.next other ∧
      (links.insertBefore node head).prev other = links.prev other := by
  have backwards : other ∉ head :: nodes.reverse := by
    simpa using outside
  rw [insert_before_eq links fresh]
  exact (ring.swap.insert_outside backwards different).symm

def Links.remove (links : Links Node) (node : Node) : Links Node :=
  let next := links.next node
  let prev := links.prev node
  (links.setPrev next prev).setNext prev next

theorem remove_next (links : Links Node) (node other : Node) :
    (links.remove node).next other =
      if other = links.prev node then links.next node else links.next other := by
  change Function.update links.next (links.prev node) (links.next node) other = _
  rw [Function.update_apply]

theorem remove_prev (links : Links Node) (node other : Node) :
    (links.remove node).prev other =
      if other = links.next node then links.prev node else links.prev other := by
  change Function.update links.prev (links.next node) (links.prev node) other = _
  rw [Function.update_apply]

omit [DecidableEq Node] in
theorem IsRing.neighbours {front back : List Node}
    (ring : IsRing links head (front ++ node :: back)) :
    ∃ before left right after, head :: front = before ++ [left] ∧ back ++ [head] = right :: after ∧
      links.prev node = left ∧ links.next node = right ∧
      (before ++ [left]).IsChain links.Joins ∧ (right :: after).IsChain links.Joins := by
  obtain ⟨before, left, upTo⟩ :=
    (List.eq_nil_or_concat (head :: front)).resolve_left (List.cons_ne_nil head front)
  rw [List.concat_eq_append] at upTo
  obtain ⟨right, after, behind⟩ := List.exists_cons_of_ne_nil
    (List.append_ne_nil_of_right_ne_nil back (List.cons_ne_nil head []))
  have whole : head :: (front ++ node :: back ++ [head]) =
      before ++ left :: node :: right :: after := by
    rw [List.append_assoc, List.cons_append, ← List.cons_append, upTo, behind]
    simp
  have joined := ring.joined
  rw [whole, List.isChain_append_cons_cons, List.isChain_cons_cons] at joined
  exact ⟨before, left, right, after, upTo, behind, joined.2.1.2, joined.2.2.1.1, joined.1,
    joined.2.2.2⟩

theorem IsRing.removed {front back : List Node}
    (ring : IsRing links head (front ++ node :: back)) :
    IsRing (links.remove node) head (front ++ back) := by
  obtain ⟨before, left, right, after, upTo, behind, prev, next, first, second⟩ := ring.neighbours
  have once := ring.different
  rw [← List.cons_append, List.nodup_append] at once
  obtain ⟨frontOnce, backOnce, apart⟩ := once
  have distinct {one two : Node} (inFront : one ∈ head :: front) (inBack : two ∈ back) : one ≠ two :=
    apart one inFront two (List.mem_cons_of_mem node inBack)
  have leftInside : left ∈ head :: front := by
    rw [upTo]
    exact List.mem_append_right before (List.mem_singleton_self left)
  have rightInside : right ∈ back ++ [head] := behind ▸ List.mem_cons_self
  have behindOnce : (right :: after).Nodup := by
    rw [← behind]
    apply List.nodup_append.mpr
    refine ⟨(List.nodup_cons.mp backOnce).2, List.nodup_singleton head, ?_⟩
    intro one inBack two isHead
    rw [List.mem_singleton.mp isHead]
    exact (distinct List.mem_cons_self inBack).symm
  constructor
  · have whole : head :: (front ++ back ++ [head]) = before ++ left :: right :: after := by
      rw [List.append_assoc, behind, ← List.cons_append, upTo]
      simp
    rw [whole, List.isChain_append_cons_cons]
    refine ⟨chain_congr first ?_ ?_, ⟨?_, ?_⟩, chain_congr second ?_ ?_⟩
    · intro other member
      rw [List.dropLast_concat] at member
      rw [upTo] at frontOnce
      have notLeft : other ≠ left :=
        (List.nodup_append.mp frontOnce).2.2 other member left (List.mem_singleton_self left)
      rw [remove_next, prev, if_neg notLeft]
    · intro other member
      rw [← upTo] at member
      have inFront : other ∈ front := member
      have notRight : other ≠ right := by
        rintro rfl
        rcases List.mem_append.mp rightInside with inBack | isHead
        · exact distinct (List.mem_cons_of_mem head inFront) inBack rfl
        · exact (List.nodup_cons.mp frontOnce).1 (List.mem_singleton.mp isHead ▸ inFront)
      rw [remove_prev, next, if_neg notRight]
    · rw [remove_next, if_pos prev.symm, next]
    · rw [remove_prev, if_pos next.symm, prev]
    · intro other member
      rw [← behind, List.dropLast_concat] at member
      have notLeft : other ≠ left := (distinct leftInside member).symm
      rw [remove_next, prev, if_neg notLeft]
    · intro other member
      have notRight : other ≠ right := fun same => (List.nodup_cons.mp behindOnce).1 (same ▸ member)
      rw [remove_prev, next, if_neg notRight]
  · have shorter : (head :: (front ++ back)).Sublist (head :: (front ++ node :: back)) :=
      ((List.sublist_cons_self node back).append_left front).cons_cons head
    exact shorter.nodup ring.different

theorem IsRing.remove_outside (ring : IsRing links head nodes) (member : node ∈ nodes)
    {other : Node} (outside : other ∉ head :: nodes) :
    (links.remove node).next other = links.next other ∧
      (links.remove node).prev other = links.prev other := by
  obtain ⟨front, back, rfl⟩ := List.append_of_mem member
  obtain ⟨before, left, right, after, upTo, behind, prev, next, -, -⟩ := ring.neighbours
  have notLeft : other ≠ left := by
    rintro rfl
    apply outside
    rw [← List.cons_append, upTo]
    simp
  have notRight : other ≠ right := by
    rintro rfl
    apply outside
    have inside : other ∈ back ++ [head] := behind ▸ List.mem_cons_self
    rcases List.mem_append.mp inside with inBack | isHead
    · simp [inBack]
    · rw [List.mem_singleton.mp isHead]
      exact List.mem_cons_self
  constructor
  · rw [remove_next, prev, if_neg notLeft]
  · rw [remove_prev, next, if_neg notRight]

theorem IsRing.remove (ring : IsRing links head nodes) (member : node ∈ nodes) :
    IsRing (links.remove node) head (nodes.erase node) := by
  obtain ⟨front, back, rfl⟩ := List.append_of_mem member
  have once := (List.nodup_append.mp (List.nodup_cons.mp ring.different).2).2.2
  have notBefore : node ∉ front := fun earlier => once node earlier node List.mem_cons_self rfl
  rw [List.erase_append_right _ notBefore, List.erase_cons_head]
  exact ring.removed

section

omit [DecidableEq Node]

theorem IsRing.empty_iff (ring : IsRing links head nodes) : links.next head = head ↔ nodes = [] := by
  constructor
  · intro loop
    cases nodes with
    | nil => rfl
    | cons first rest =>
        rw [ring.next_head] at loop
        exact absurd (loop ▸ List.mem_cons_self) (List.nodup_cons.mp ring.different).1
  · rintro rfl
    exact ring.first

end

/-- From a node on to the head, along the links given; nothing if the steps allowed
are too few. -/
def walk (follow : Node → Node) (head : Node) : Nat → Node → Option (List Node)
  | 0, _ => none
  | steps + 1, node =>
      if node = head then some [] else (walk follow head steps (follow node)).map (node :: ·)

theorem walk_chain {start : Node} (joined : (start :: (nodes ++ [head])).IsChain links.Joins)
    (inside : head ∉ nodes) {steps : Nat} (enough : nodes.length < steps) :
    walk links.next head steps (links.next start) = some nodes := by
  obtain ⟨steps, rfl⟩ := Nat.exists_eq_succ_of_ne_zero (Nat.ne_zero_of_lt enough)
  induction nodes generalizing start steps with
  | nil =>
      rw [(List.isChain_pair.mp joined).1, walk, if_pos rfl]
  | cons node rest induction =>
      obtain ⟨linked, later⟩ := List.isChain_cons_cons.mp joined
      have notHead : node ≠ head := fun same => inside (same ▸ List.mem_cons_self)
      have behind : head ∉ rest := fun member => inside (List.mem_cons_of_mem node member)
      rw [List.length_cons] at enough
      obtain ⟨steps, rfl⟩ := Nat.exists_eq_succ_of_ne_zero (Nat.ne_zero_of_lt (Nat.lt_of_succ_lt_succ enough))
      rw [linked.1, RingList.walk, if_neg notHead, induction later behind steps (by omega)]
      rfl

theorem IsRing.walk (ring : IsRing links head nodes) {steps : Nat} (enough : nodes.length < steps) :
    RingList.walk links.next head steps (links.next head) = some nodes :=
  walk_chain ring.joined (List.nodup_cons.mp ring.different).1 enough

theorem IsRing.walk_back (ring : IsRing links head nodes) {steps : Nat}
    (enough : nodes.length < steps) :
    RingList.walk links.prev head steps (links.prev head) = some nodes.reverse :=
  ring.swap.walk (by rwa [List.length_reverse])

end Blueman.RingList

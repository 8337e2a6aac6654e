import Blueman.SeedQueue
import Blueman.Library.Execution

/-!
# The intrusive list

The list functions of `utils.c` besides `list_add`, assignment by assignment, on the
links of any nodes. A ring through a head and some nodes represents the sequence of the nodes;
the functions do to it what their names say. The queue of seeds is such a ring, and
the length that a walk counts is the number of seeds queued.
-/

namespace Blueman.IntrusiveList

open RingList Execution PacketRecord Coverage SeedQueue

set_option autoImplicit false

universe u

section

variable {Node : Type u} [DecidableEq Node]

def listAddTail (node head : Node) (links : Links Node) : Links Node :=
  let tail := links.prev head
  (((links.setNext tail node).setPrev head node).setNext node head).setPrev node tail

def listDel (node : Node) (links : Links Node) : Links Node :=
  let next := links.next node
  let prev := links.prev node
  (links.setPrev next prev).setNext prev next

def initListHead (node : Node) (links : Links Node) : Links Node :=
  (links.setPrev node node).setNext node node

def listDelInit (node : Node) (links : Links Node) : Links Node :=
  initListHead node (listDel node links)

def listEmpty (head : Node) (links : Links Node) : Bool := links.next head == head

theorem list_add_tail_insert (node head : Node) (links : Links Node) :
    listAddTail node head links = links.insertBefore node head := rfl

theorem list_del_remove (node : Node) (links : Links Node) :
    listDel node links = links.remove node := rfl

theorem init_list_head_self (node : Node) (links : Links Node) :
    (initListHead node links).next node = node ∧ (initListHead node links).prev node = node :=
  ⟨Function.update_self _ _ _, Function.update_self _ _ _⟩

theorem init_list_head_other {node other : Node} (links : Links Node) (different : other ≠ node) :
    (initListHead node links).next other = links.next other ∧
      (initListHead node links).prev other = links.prev other :=
  ⟨Function.update_of_ne different _ _, Function.update_of_ne different _ _⟩

variable {links : Links Node} {head node : Node} {nodes : List Node}

theorem list_del_init_ring (ring : IsRing links head nodes) (member : node ∈ nodes) :
    IsRing (listDelInit node links) head (nodes.erase node) ∧
      IsRing (listDelInit node links) node [] := by
  have removed := ring.remove member
  obtain ⟨headOnce, once⟩ := List.nodup_cons.mp ring.different
  constructor
  · apply removed.congr
    intro other inside
    apply init_list_head_other
    rintro rfl
    rcases List.mem_cons.mp inside with same | later
    · exact headOnce (same ▸ member)
    · exact once.not_mem_erase later
  · obtain ⟨next, prev⟩ := init_list_head_self node (listDel node links)
    exact empty_ring next prev

theorem list_empty_iff (ring : IsRing links head nodes) : listEmpty head links = true ↔ nodes = [] := by
  rw [listEmpty, beq_iff_eq]
  exact ring.empty_iff

inductive ListOp (Node : Type u)
  | add (node : Node)
  | addTail (node : Node)
  | del (node : Node)
  | delInit (node : Node)

def ListOp.subject : ListOp Node → Node
  | .add node | .addTail node | .del node | .delInit node => node

def ListOp.run (head : Node) (links : Links Node) : ListOp Node → Links Node
  | .add node => listAdd node head links
  | .addTail node => listAddTail node head links
  | .del node => listDel node links
  | .delInit node => listDelInit node links

/-- What an operation is for: a node that is not in the sequence comes in at one of
its ends, a member goes. -/
def ListOp.sequence (head : Node) (nodes : List Node) : ListOp Node → Option (List Node)
  | .add node => if node ∈ head :: nodes then none else some (node :: nodes)
  | .addTail node => if node ∈ head :: nodes then none else some (nodes ++ [node])
  | .del node | .delInit node => if node ∈ nodes then some (nodes.erase node) else none

/-- One operation does to the ring what it is for, and changes no links but those of
its node and of the ring. -/
theorem list_op_refines {op : ListOp Node} {after : List Node} (ring : IsRing links head nodes)
    (sequence : op.sequence head nodes = some after) :
    IsRing (op.run head links) head after ∧
      ∀ other, other ∉ op.subject :: head :: nodes →
        (op.run head links).next other = links.next other ∧
          (op.run head links).prev other = links.prev other := by
  cases op with
  | add node =>
      obtain ⟨fresh, same⟩ := Option.ite_none_left_eq_some.mp sequence
      cases same
      rw [ListOp.run, list_add_insert]
      refine ⟨ring.insert fresh, ?_⟩
      intro other outside
      obtain ⟨different, elsewhere⟩ := List.ne_and_not_mem_of_not_mem_cons outside
      exact ring.insert_outside elsewhere different
  | addTail node =>
      obtain ⟨fresh, same⟩ := Option.ite_none_left_eq_some.mp sequence
      cases same
      rw [ListOp.run, list_add_tail_insert]
      refine ⟨ring.insert_last fresh, ?_⟩
      intro other outside
      obtain ⟨different, elsewhere⟩ := List.ne_and_not_mem_of_not_mem_cons outside
      exact ring.insert_last_outside (List.ne_of_not_mem_cons fresh) elsewhere different
  | del node =>
      obtain ⟨member, same⟩ := Option.ite_none_right_eq_some.mp sequence
      cases same
      rw [ListOp.run, list_del_remove]
      refine ⟨ring.remove member, ?_⟩
      intro other outside
      exact ring.remove_outside member (List.ne_and_not_mem_of_not_mem_cons outside).2
  | delInit node =>
      obtain ⟨member, same⟩ := Option.ite_none_right_eq_some.mp sequence
      cases same
      refine ⟨(list_del_init_ring ring member).1, ?_⟩
      intro other outside
      obtain ⟨different, elsewhere⟩ := List.ne_and_not_mem_of_not_mem_cons outside
      obtain ⟨next, prev⟩ := init_list_head_other (listDel node links) different
      obtain ⟨sameNext, samePrev⟩ := ring.remove_outside member elsewhere
      exact ⟨next.trans sameNext, prev.trans samePrev⟩

theorem list_ops_refine {ops : List (ListOp Node)} {after : List Node}
    (ring : IsRing links head nodes)
    (sequence : exec (fun nodes op => op.sequence head nodes) nodes ops = some after) :
    IsRing (ops.foldl (ListOp.run head) links) head after := by
  induction ops generalizing links nodes with
  | nil =>
      cases sequence
      exact ring
  | cons op rest induction =>
      obtain ⟨next, first, later⟩ := exec_cons.mp sequence
      exact induction (list_op_refines ring first).1 later

/-- The functions, on a list that represents the nodes, do what they do to the
sequence of the nodes. -/
structure ImplementsSequence (links : Links Node) (head : Node) (nodes : List Node) : Prop where
  forward : ∀ steps, nodes.length < steps →
    walk links.next head steps (links.next head) = some nodes
  backward : ∀ steps, nodes.length < steps →
    walk links.prev head steps (links.prev head) = some nodes.reverse
  add : ∀ node, node ∉ head :: nodes → IsRing (listAdd node head links) head (node :: nodes)
  addTail : ∀ node, node ∉ head :: nodes →
    IsRing (listAddTail node head links) head (nodes ++ [node])
  del : ∀ node ∈ nodes, IsRing (listDel node links) head (nodes.erase node)
  delInit : ∀ node ∈ nodes, IsRing (listDelInit node links) head (nodes.erase node) ∧
    IsRing (listDelInit node links) node []
  empty : listEmpty head links = true ↔ nodes = []
  untouched : ∀ (op : ListOp Node) after, op.sequence head nodes = some after →
    ∀ other, other ∉ op.subject :: head :: nodes →
      (op.run head links).next other = links.next other ∧
        (op.run head links).prev other = links.prev other
  runs : ∀ (ops : List (ListOp Node)) after,
    exec (fun nodes op => op.sequence head nodes) nodes ops = some after →
      IsRing (ops.foldl (ListOp.run head) links) head after

theorem ring_implements_sequence (ring : IsRing links head nodes) :
    ImplementsSequence links head nodes where
  forward _ enough := ring.walk enough
  backward _ enough := ring.walk_back enough
  add _ fresh := ring.insert fresh
  addTail _ fresh := ring.insert_last fresh
  del _ member := ring.remove member
  delInit _ member := list_del_init_ring ring member
  empty := list_empty_iff ring
  untouched _ _ sequence := (list_op_refines ring sequence).2
  runs _ _ sequence := list_ops_refine ring sequence

end

/-- The loop of `get_queue_length`, unless the turns allowed are too few. -/
def countNodes (links : Links ListNode) : Nat → ListNode → UInt32 → Option UInt32
  | 0, _, _ => none
  | turns + 1, node, ret =>
      if node = .queue then some ret else countNodes links turns (links.next node) (ret + 1)

def getQueueLength (seeds : LinkedQueue) (turns : Nat) : Option UInt32 :=
  countNodes seeds.links turns (seeds.links.next .queue) 0

def getQueueSize (seeds : LinkedQueue) : UInt32 := seeds.coverage.queuedPaths

theorem count_nodes_walk (links : Links ListNode) (turns : Nat) (node : ListNode) (ret : UInt32) :
    countNodes links turns node ret =
      (walk links.next .queue turns node).map fun nodes => ret + UInt32.ofNat nodes.length := by
  induction turns generalizing node ret with
  | zero => rfl
  | succ turns induction =>
      rw [countNodes, walk]
      by_cases atHead : node = .queue
      · rw [if_pos atHead, if_pos atHead, Option.map_some, List.length_nil]
        exact congrArg some (UInt32.add_zero ret).symm
      · rw [if_neg atHead, if_neg atHead, induction, Option.map_map]
        congr 1
        funext nodes
        rw [Function.comp_apply, List.length_cons, UInt32.ofNat_add, UInt32.add_assoc,
          UInt32.add_comm 1]
        rfl

theorem add_to_queue_size (seeds : LinkedQueue) (fname : String) (pktRec : PktRecord) :
    (SeedQueue.addToQueue seeds fname pktRec).size = seeds.size + 1 := rfl

def addAll (calls : List (String × PktRecord)) : LinkedQueue :=
  calls.foldl (fun seeds call => SeedQueue.addToQueue seeds call.1 call.2) emptyQueue

theorem queued_paths_counted (calls : List (String × PktRecord)) :
    (addAll calls).size = calls.length ∧
      getQueueSize (addAll calls) = UInt32.ofNat calls.length := by
  induction calls using List.reverseRecOn with
  | nil => exact ⟨rfl, rfl⟩
  | append_singleton calls call induction =>
      rw [addAll, List.foldl_append, List.length_append]
      refine ⟨(add_to_queue_size _ _ _).trans (congrArg (· + 1) induction.1), ?_⟩
      rw [UInt32.ofNat_add, ← induction.2]
      rfl

/-- The loop of `get_queue_length` ends, with the number that `get_queue_size` gives. -/
theorem queue_length_size (calls : List (String × PktRecord)) {turns : Nat}
    (enough : calls.length < turns) :
    getQueueLength (addAll calls) turns = some (getQueueSize (addAll calls)) := by
  obtain ⟨size, queued⟩ := queued_paths_counted calls
  have ring := (addAll calls).ring
  change IsRing _ _ (newestFirst (addAll calls).size) at ring
  rw [size] at ring
  have met := @IsRing.walk _ _ _ _ _ ring turns (by rwa [newest_first_length])
  rw [getQueueLength, count_nodes_walk, met, Option.map_some, newest_first_length, queued,
    UInt32.zero_add]

/-- The list implements sequences, and the two lengths of the queue agree. -/
theorem intrusive_list_sequences {Node : Type u} [DecidableEq Node] {links : Links Node}
    {head : Node} {nodes : List Node} (ring : IsRing links head nodes)
    (calls : List (String × PktRecord)) :
    ImplementsSequence links head nodes ∧ ∀ turns, calls.length < turns →
      getQueueLength (addAll calls) turns = some (getQueueSize (addAll calls)) :=
  ⟨ring_implements_sequence ring, fun _ enough => queue_length_size calls enough⟩

def twoSeeds : List (String × PktRecord) :=
  [("first", createPktSeqBuf 1), ("second", createPktSeqBuf 1)]

theorem two_seeds_sequence :
    ImplementsSequence (addAll twoSeeds).links .queue [.entry 1, .entry 0] ∧
      ∀ turns, twoSeeds.length < turns →
        getQueueLength (addAll twoSeeds) turns = some (getQueueSize (addAll twoSeeds)) := by
  have ring := (addAll twoSeeds).ring
  change IsRing _ _ (newestFirst (addAll twoSeeds).size) at ring
  rw [(queued_paths_counted twoSeeds).1] at ring
  exact intrusive_list_sequences ring twoSeeds

end Blueman.IntrusiveList

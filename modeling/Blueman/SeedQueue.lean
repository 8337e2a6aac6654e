import Blueman.Library.RingList
import Blueman.SeedCampaign

/-!
# The queue of seeds in memory

`queue` is the head of a circular list, and every `queue_entry` is linked into
it through its member `list`. An entry is known here by the number of entries
made before it, and a pointer to one by the list node inside it: what
`container_of` makes of the head is a pointer to no entry.
-/

namespace Blueman.SeedQueue

open BlePacket PacketRecord RunOutcome Coverage SeedCampaign RingList

set_option autoImplicit false

universe u

/-- The list nodes: `queue`, and the member `list` of each entry. -/
inductive ListNode
  | queue
  | entry (index : Nat)
deriving DecidableEq

/-- `list_add` of `utils.c`, assignment by assignment. -/
def listAdd {Node : Type u} [DecidableEq Node] (node head : Node) (links : Links Node) :
    Links Node :=
  let next := links.next head
  (((links.setPrev next node).setNext node next).setPrev node head).setNext head node

theorem list_add_insert {Node : Type u} [DecidableEq Node] (node head : Node)
    (links : Links Node) : listAdd node head links = links.insertAfter node head := rfl

/-- The nodes of so many entries, the last one first. -/
def newestFirst (count : Nat) : List ListNode := ((List.range count).map .entry).reverse

theorem newest_first_succ (count : Nat) :
    newestFirst (count + 1) = .entry count :: newestFirst count := by
  rw [newestFirst, List.range_succ, List.map_append, List.reverse_append]
  rfl

theorem mem_newest_first {count : Nat} {node : ListNode} :
    node ∈ newestFirst count ↔ ∃ index, index < count ∧ node = .entry index := by
  simp [newestFirst, eq_comm]

theorem newest_first_fresh (count : Nat) : .entry count ∉ .queue :: newestFirst count := by
  intro member
  rcases List.mem_cons.mp member with head | later
  · cases head
  · obtain ⟨index, below, same⟩ := mem_newest_first.mp later
    cases same
    exact Nat.lt_irrefl _ below

/-- The coverage with its entries, and the links that make a ring of them. -/
structure LinkedQueue where
  coverage : CoverageState
  links : Links ListNode
  ring : IsRing links .queue (newestFirst coverage.queue.length)

def LinkedQueue.size (seeds : LinkedQueue) : Nat := seeds.coverage.queue.length

/-- `LIST_HEAD(queue)`. -/
def emptyQueue : LinkedQueue :=
  ⟨setupShm, ⟨fun _ => .queue, fun _ => .queue⟩, empty_ring rfl rfl⟩

theorem added_ring (seeds : LinkedQueue) :
    IsRing (listAdd (.entry seeds.size) .queue seeds.links) .queue (newestFirst (seeds.size + 1)) := by
  rw [newest_first_succ, list_add_insert]
  exact seeds.ring.insert (newest_first_fresh _)

/-- Both branches of the source, on `queue_top`, do this. -/
def addToQueue (seeds : LinkedQueue) (fname : String) (pktRec : PktRecord) : LinkedQueue where
  coverage := Coverage.addToQueue seeds.coverage fname pktRec
  links := listAdd (.entry seeds.size) .queue seeds.links
  ring := added_ring seeds

def loadCorpusToQueue (listing : List (String × SeedFile)) (seeds : LinkedQueue) : LinkedQueue :=
  listing.foldl (fun seeds seed => addToQueue seeds seed.1 (mappedRecord seed.2)) seeds

theorem keep_run_size (outDir : String) (state : CoverageState) (run : FinishedRun) :
    (Coverage.keepRun outDir state run).1.queue.length =
      if (Coverage.keepRun outDir state run).2.isSome then state.queue.length + 1
      else state.queue.length := by
  rcases keep_run_queue outDir state run with ⟨none, queue⟩ | ⟨path, entry, some, -, -, queue⟩
  · rw [none, queue]
    rfl
  · rw [some, queue]
    rfl

theorem kept_ring (outDir : String) (seeds : LinkedQueue) (run : FinishedRun) :
    IsRing (if (Coverage.keepRun outDir seeds.coverage run).2.isSome
        then listAdd (.entry seeds.size) .queue seeds.links else seeds.links) .queue
      (newestFirst (Coverage.keepRun outDir seeds.coverage run).1.queue.length) := by
  rw [keep_run_size]
  split_ifs
  · exact added_ring seeds
  · exact seeds.ring

/-- A kept run is linked in by `add_to_queue`. -/
def keepRun (outDir : String) (seeds : LinkedQueue) (run : FinishedRun) : LinkedQueue where
  coverage := (Coverage.keepRun outDir seeds.coverage run).1
  links := if (Coverage.keepRun outDir seeds.coverage run).2.isSome
    then listAdd (.entry seeds.size) .queue seeds.links else seeds.links
  ring := kept_ring outDir seeds run

def getQueueHead (seeds : LinkedQueue) : ListNode := seeds.links.next .queue

def getQueueTail (seeds : LinkedQueue) : ListNode := seeds.links.prev .queue

def getQueueNext (seeds : LinkedQueue) (node : ListNode) : ListNode := seeds.links.next node

/-- The entry around a node; around the head there is none. -/
def entryOf (seeds : LinkedQueue) : ListNode → Option QueueEntry
  | .queue => none
  | .entry index => seeds.coverage.queue.reverse[index]?

/-- The links hold the list that `Coverage` keeps. -/
theorem load_coverage (listing : List (String × SeedFile)) (seeds : LinkedQueue) :
    (loadCorpusToQueue listing seeds).coverage =
      SeedCampaign.loadCorpusToQueue listing seeds.coverage := by
  induction listing generalizing seeds with
  | nil => rfl
  | cons seed rest induction => exact induction _

theorem newest_first_length (count : Nat) : (newestFirst count).length = count := by
  rw [newestFirst, List.length_reverse, List.length_map, List.length_range]

theorem ring_entries (seeds : LinkedQueue) :
    (newestFirst seeds.size).map (entryOf seeds) = seeds.coverage.queue.map some := by
  apply List.ext_getElem
  · rw [List.length_map, newest_first_length, List.length_map, LinkedQueue.size]
  · intro index inNodes inEntries
    rw [List.length_map, newest_first_length, LinkedQueue.size] at inNodes
    have reversed : seeds.coverage.queue.length - 1 - index < seeds.coverage.queue.reverse.length := by
      rw [List.length_reverse]
      omega
    simp only [newestFirst, List.getElem_map, List.getElem_reverse, List.getElem_range,
      List.length_map, List.length_range, LinkedQueue.size, entryOf]
    rw [List.getElem?_eq_getElem reversed, List.getElem_reverse]
    congr 2
    omega

section

variable {seeds : LinkedQueue} {count : Nat}

theorem queue_head (some : seeds.size = count + 1) : getQueueHead seeds = .entry count := by
  have ring := seeds.ring
  change IsRing _ _ (newestFirst seeds.size) at ring
  rw [some, newest_first_succ] at ring
  exact ring.next_head

theorem newest_first_last (count : Nat) :
    ∃ front, newestFirst (count + 1) = front ++ [.entry 0] := by
  induction count with
  | zero => exact ⟨[], rfl⟩
  | succ count induction =>
      obtain ⟨front, same⟩ := induction
      exact ⟨.entry (count + 1) :: front, by rw [newest_first_succ, same]; rfl⟩

theorem queue_tail (some : seeds.size = count + 1) : getQueueTail seeds = .entry 0 := by
  have ring := seeds.ring
  change IsRing _ _ (newestFirst seeds.size) at ring
  obtain ⟨front, same⟩ := newest_first_last count
  rw [some, same] at ring
  exact ring.prev_head

theorem newest_first_split {index count : Nat} (inside : index + 1 < count) :
    ∃ front, newestFirst count = front ++ .entry (index + 1) :: .entry index :: newestFirst index := by
  induction count with
  | zero => exact absurd inside (Nat.not_lt_zero _)
  | succ count induction =>
      rcases Nat.lt_succ_iff_lt_or_eq.mp inside with earlier | last
      · obtain ⟨front, same⟩ := induction earlier
        exact ⟨.entry count :: front, by rw [newest_first_succ, same]; rfl⟩
      · subst last
        exact ⟨[], by rw [newest_first_succ, newest_first_succ]; rfl⟩

theorem queue_next {index : Nat} (inside : index + 1 < seeds.size) :
    getQueueNext seeds (.entry (index + 1)) = .entry index := by
  have ring := seeds.ring
  change IsRing _ _ (newestFirst seeds.size) at ring
  obtain ⟨front, same⟩ := newest_first_split inside
  rw [same] at ring
  exact ring.next_node

theorem entry_of_inside {index : Nat} (inside : index < seeds.size) :
    ∃ entry, entryOf seeds (.entry index) = some entry :=
  ⟨_, List.getElem?_eq_getElem (by rwa [List.length_reverse])⟩

end

end Blueman.SeedQueue

import Blueman.Library.Execution
import Blueman.SeedQueue

/-!
# The main loop over the queue

`start_fuzzer` takes the first and the last entry of the queue, and fuzzes ten
times with each entry from the first to the last, while `add_to_queue` links new
entries in before the first. One step here is one turn of the innermost loop;
`fuzz_one` is known by what it leaves, and the timer is left out.
-/

namespace Blueman.StartFuzzer

open LittleEndian PacketRecord RunOutcome Coverage Execution RingList SeedQueue

set_option autoImplicit false

abbrev timesPerRound : Nat := 10

/-- What a call of `fuzz_one(0)` leaves. -/
structure RunReport where
  fault : RunFault
  pktRec : PktRecord
  traceBits : Memory

/-- The variables of the loops, the entries fuzzed so far, and how often the outer
loop has come round. -/
structure LoopState where
  seeds : LinkedQueue
  queueCur : ListNode
  queueTail : ListNode
  i : Nat
  totalExecTimes : UInt64
  fuzzed : List ListNode
  passes : Nat

/-- The head of the outer loop. -/
def enterPass (state : LoopState) : LoopState :=
  { state with
    queueCur := getQueueHead state.seeds
    queueTail := getQueueTail state.seeds
    i := 0 }

/-- One turn of the innermost loop, and what follows the last one. The name of the
current entry is read first; where there is no entry the loop is lost. -/
def fuzzTurn (outDir : String) (state : LoopState) (report : RunReport) : Option LoopState :=
  match entryOf state.seeds state.queueCur with
  | none => none
  | some _ =>
      let times := state.totalExecTimes + 1
      let ran := { state with
        seeds := keepRun outDir state.seeds
          ⟨false, report.fault, report.pktRec, times, report.traceBits⟩
        i := state.i + 1
        totalExecTimes := times
        fuzzed := state.fuzzed ++ [state.queueCur] }
      some (if ran.i < timesPerRound then ran
        else if ran.queueCur = ran.queueTail then enterPass { ran with passes := state.passes + 1 }
        else { ran with queueCur := getQueueNext ran.seeds ran.queueCur, i := 0 })

/-- Each of so many entries ten times, the newest first. -/
def passOrder (count : Nat) : List ListNode :=
  (newestFirst count).flatMap (List.replicate timesPerRound)

structure PassStart (state : LoopState) : Prop where
  first : state.queueCur = getQueueHead state.seeds
  last : state.queueTail = getQueueTail state.seeds
  fresh : state.i = 0

theorem enter_pass_start (state : LoopState) : PassStart (enterPass state) := ⟨rfl, rfl, rfl⟩

theorem pass_order_succ (count : Nat) :
    passOrder (count + 1) = List.replicate timesPerRound (.entry count) ++ passOrder count := by
  rw [passOrder, newest_first_succ, List.flatMap_cons]
  rfl

theorem pass_order_length (count : Nat) : (passOrder count).length = timesPerRound * count := by
  induction count with
  | zero => rfl
  | succ count induction =>
      rw [pass_order_succ, List.length_append, List.length_replicate, induction, Nat.mul_succ,
        Nat.add_comm]

theorem pass_order_get {count turn : Nat} (inside : turn < timesPerRound * count) :
    (passOrder count)[turn]? = some (.entry (count - 1 - turn / timesPerRound)) := by
  induction count generalizing turn with
  | zero => omega
  | succ count induction =>
      rw [pass_order_succ]
      rcases Nat.lt_or_ge turn timesPerRound with early | late
      · rw [List.getElem?_append_left (by rwa [List.length_replicate]), List.getElem?_replicate,
          if_pos early, Nat.div_eq_of_lt early]
        rfl
      · rw [List.getElem?_append_right (by rwa [List.length_replicate]), List.length_replicate,
          induction (by simp only [timesPerRound] at inside late ⊢; omega)]
        congr 2
        simp only [timesPerRound] at inside late ⊢
        omega

theorem pass_order_entries (seeds : LinkedQueue) :
    (passOrder seeds.size).map (entryOf seeds) =
      (seeds.coverage.queue.flatMap (List.replicate timesPerRound)).map some := by
  rw [passOrder, List.map_flatMap, List.map_flatMap]
  simp only [List.map_replicate]
  rw [← List.flatMap_map, ring_entries, List.flatMap_map]

theorem keep_run_older (outDir : String) (seeds : LinkedQueue) (run : FinishedRun) :
    seeds.coverage.queue <:+ (keepRun outDir seeds run).coverage.queue := by
  change _ <:+ (Coverage.keepRun outDir seeds.coverage run).1.queue
  rcases SeedCampaign.keep_run_queue outDir seeds.coverage run with
    ⟨-, queue⟩ | ⟨path, entry, -, -, -, queue⟩
  · rw [queue]
  · rw [queue]
    exact List.suffix_cons _ _

def afterFuzz (outDir : String) (state : LoopState) (report : RunReport) : LoopState :=
  { state with
    seeds := keepRun outDir state.seeds
      ⟨false, report.fault, report.pktRec, state.totalExecTimes + 1, report.traceBits⟩
    i := state.i + 1
    totalExecTimes := state.totalExecTimes + 1
    fuzzed := state.fuzzed ++ [state.queueCur] }

theorem after_fuzz_older (outDir : String) (state : LoopState) (report : RunReport) :
    state.seeds.coverage.queue <:+ (afterFuzz outDir state report).seeds.coverage.queue :=
  keep_run_older outDir state.seeds _

theorem after_fuzz_size (outDir : String) (state : LoopState) (report : RunReport) :
    state.seeds.size ≤ (afterFuzz outDir state report).seeds.size :=
  (after_fuzz_older outDir state report).length_le

theorem fuzz_turn_eq (outDir : String) {state : LoopState} {entry : QueueEntry}
    (found : entryOf state.seeds state.queueCur = some entry) (report : RunReport) :
    fuzzTurn outDir state report =
      let ran := afterFuzz outDir state report
      some (if state.i + 1 < timesPerRound then ran
        else if state.queueCur = state.queueTail then
          enterPass { ran with passes := state.passes + 1 }
        else { ran with queueCur := getQueueNext ran.seeds state.queueCur, i := 0 }) := by
  rw [fuzzTurn, found]
  rfl

/-- The loop is at an entry of the queue, on its way to the first one ever added. -/
structure OnEntry (state : LoopState) : Prop where
  current : ∃ index, index < state.seeds.size ∧ state.queueCur = .entry index
  last : state.queueTail = .entry 0

theorem enter_pass_on_entry {state : LoopState} (some : state.seeds.size ≠ 0) :
    OnEntry (enterPass state) := by
  obtain ⟨count, size⟩ := Nat.exists_eq_succ_of_ne_zero some
  refine ⟨⟨count, ?_, queue_head size⟩, queue_tail size⟩
  change count < state.seeds.size
  omega

theorem fuzz_turn_on_entry (outDir : String) : Preserves (fuzzTurn outDir) OnEntry := by
  intro state report next taken holds
  obtain ⟨index, inside, current⟩ := holds.current
  have longer := after_fuzz_size outDir state report
  obtain ⟨entry, here⟩ := entry_of_inside inside
  rw [fuzz_turn_eq outDir (current ▸ here)] at taken
  dsimp only at taken
  split_ifs at taken with more last
  all_goals cases taken
  · exact ⟨⟨index, inside.trans_le longer, current⟩, holds.last⟩
  · apply enter_pass_on_entry
    exact Nat.ne_of_gt (Nat.lt_of_lt_of_le (Nat.zero_lt_of_lt inside) longer)
  · rw [current, holds.last] at last
    obtain ⟨before, rfl⟩ := Nat.exists_eq_succ_of_ne_zero fun zero =>
      last (congrArg ListNode.entry zero)
    refine ⟨⟨before, Nat.lt_of_succ_lt (inside.trans_le longer), ?_⟩, holds.last⟩
    change getQueueNext _ state.queueCur = _
    rw [current, queue_next (inside.trans_le longer)]

/-- So many turns into a pass that has started from `start`. -/
structure InPass (start : LoopState) (turn : Nat) (state : LoopState) : Prop where
  older : start.seeds.coverage.queue <:+ state.seeds.coverage.queue
  fuzzed : state.fuzzed = start.fuzzed ++ (passOrder start.seeds.size).take turn
  passes : state.passes = start.passes
  due : state.queueCur = .entry (start.seeds.size - 1 - turn / timesPerRound)
  last : state.queueTail = .entry 0
  i : state.i = turn % timesPerRound

/-- The pass is over, and the next one starts from all entries. -/
structure PassOver (start state : LoopState) : Prop where
  older : start.seeds.coverage.queue <:+ state.seeds.coverage.queue
  fuzzed : state.fuzzed = start.fuzzed ++ passOrder start.seeds.size
  passes : state.passes = start.passes + 1
  again : PassStart state

theorem in_pass_start {start : LoopState} (starts : PassStart start)
    (some : start.seeds.size ≠ 0) : InPass start 0 start := by
  obtain ⟨count, size⟩ := Nat.exists_eq_succ_of_ne_zero some
  refine ⟨List.suffix_rfl, (List.append_nil _).symm, rfl, ?_, ?_, starts.fresh⟩
  · rw [starts.first, queue_head size, size]
    rfl
  · rw [starts.last, queue_tail size]

theorem InPass.due_inside {start state : LoopState} {turn : Nat} (holds : InPass start turn state)
    (inside : turn < timesPerRound * start.seeds.size) :
    start.seeds.size - 1 - turn / timesPerRound < state.seeds.size := by
  have longer : start.seeds.size ≤ state.seeds.size := holds.older.length_le
  simp only [timesPerRound] at inside ⊢
  omega

theorem InPass.fuzzed_next {start state : LoopState} {turn : Nat} (holds : InPass start turn state)
    (inside : turn < timesPerRound * start.seeds.size) :
    state.fuzzed ++ [state.queueCur] =
      start.fuzzed ++ (passOrder start.seeds.size).take (turn + 1) := by
  rw [holds.fuzzed, holds.due, List.take_add_one, pass_order_get inside, List.append_assoc]
  rfl

section

variable (outDir : String) {start state : LoopState} {turn : Nat} (holds : InPass start turn state)
  (inside : turn < timesPerRound * start.seeds.size) (report : RunReport)

include holds inside

theorem InPass.again (more : state.i + 1 < timesPerRound) :
    turn + 1 < timesPerRound * start.seeds.size ∧
      InPass start (turn + 1) (afterFuzz outDir state report) := by
  have counter := holds.i
  have sameEntry : (turn + 1) / timesPerRound = turn / timesPerRound := by
    simp only [timesPerRound] at counter more ⊢
    omega
  constructor
  · simp only [timesPerRound] at counter more inside ⊢
    omega
  · refine ⟨holds.older.trans (after_fuzz_older outDir state report), holds.fuzzed_next inside,
      holds.passes, ?_, holds.last, ?_⟩
    · rw [sameEntry]
      exact holds.due
    · change state.i + 1 = _
      simp only [timesPerRound] at counter more ⊢
      omega

theorem InPass.around (full : ¬state.i + 1 < timesPerRound)
    (last : state.queueCur = state.queueTail) :
    turn + 1 = timesPerRound * start.seeds.size ∧
      PassOver start
        (enterPass { afterFuzz outDir state report with passes := state.passes + 1 }) := by
  have counter := holds.i
  rw [holds.due, holds.last] at last
  have zero := ListNode.entry.inj last
  have ends : turn + 1 = timesPerRound * start.seeds.size := by
    simp only [timesPerRound] at counter full zero inside ⊢
    omega
  have fuzzed := holds.fuzzed_next inside
  rw [ends, List.take_of_length_le (Nat.le_of_eq (pass_order_length _))] at fuzzed
  exact ⟨ends, holds.older.trans (after_fuzz_older outDir state report), fuzzed,
    congrArg (· + 1) holds.passes, enter_pass_start _⟩

theorem InPass.moves (full : ¬state.i + 1 < timesPerRound)
    (goesOn : state.queueCur ≠ state.queueTail) :
    turn + 1 < timesPerRound * start.seeds.size ∧
      InPass start (turn + 1) { afterFuzz outDir state report with
        queueCur := getQueueNext (afterFuzz outDir state report).seeds state.queueCur
        i := 0 } := by
  have counter := holds.i
  rw [holds.due, holds.last] at goesOn
  obtain ⟨index, before⟩ := Nat.exists_eq_succ_of_ne_zero fun zero =>
    goesOn (congrArg ListNode.entry zero)
  have behind : index + 1 < (afterFuzz outDir state report).seeds.size := by
    rw [← Nat.succ_eq_add_one, ← before]
    exact (holds.due_inside inside).trans_le (after_fuzz_size outDir state report)
  constructor
  · simp only [timesPerRound] at counter full before inside ⊢
    omega
  · refine ⟨holds.older.trans (after_fuzz_older outDir state report), holds.fuzzed_next inside,
      holds.passes, ?_, holds.last, ?_⟩
    · change getQueueNext _ state.queueCur = _
      rw [holds.due, before, queue_next behind]
      congr 1
      simp only [timesPerRound] at counter full before inside ⊢
      omega
    · change 0 = _
      simp only [timesPerRound] at counter full ⊢
      omega

theorem fuzz_turn_in_pass :
    ∃ next, fuzzTurn outDir state report = some next ∧
      (turn + 1 < timesPerRound * start.seeds.size → InPass start (turn + 1) next) ∧
      (turn + 1 = timesPerRound * start.seeds.size → PassOver start next) := by
  obtain ⟨entry, here⟩ := entry_of_inside (holds.due_inside inside)
  refine ⟨_, fuzz_turn_eq outDir (holds.due ▸ here) report, ?_⟩
  split_ifs with more last
  · obtain ⟨goesOn, next⟩ := holds.again outDir inside report more
    exact ⟨fun _ => next, fun ends => absurd goesOn (Nat.not_lt_of_ge (Nat.le_of_eq ends.symm))⟩
  · obtain ⟨ends, next⟩ := holds.around outDir inside report more last
    exact ⟨fun goesOn => absurd goesOn (Nat.not_lt_of_ge (Nat.le_of_eq ends.symm)), fun _ => next⟩
  · obtain ⟨goesOn, next⟩ := holds.moves outDir inside report more last
    exact ⟨fun _ => next, fun ends => absurd goesOn (Nat.not_lt_of_ge (Nat.le_of_eq ends.symm))⟩

end

/-- Where a pass stands after so many turns: under way, or over. -/
structure Passing (start : LoopState) (turn : Nat) (state : LoopState) : Prop where
  during : turn < timesPerRound * start.seeds.size → InPass start turn state
  through : turn = timesPerRound * start.seeds.size → PassOver start state

theorem run_passing (outDir : String) {start : LoopState} (reports : List RunReport)
    {state : LoopState} {turn : Nat} (holds : Passing start turn state)
    (within : turn + reports.length ≤ timesPerRound * start.seeds.size) :
    ∃ final, exec (fuzzTurn outDir) state reports = some final ∧
      Passing start (turn + reports.length) final := by
  induction reports generalizing state turn with
  | nil => exact ⟨state, rfl, holds⟩
  | cons report rest induction =>
      rw [List.length_cons, ← Nat.add_assoc, Nat.add_right_comm] at within ⊢
      have inside : turn < timesPerRound * start.seeds.size := by omega
      obtain ⟨next, taken, during, through⟩ :=
        fuzz_turn_in_pass outDir (holds.during inside) inside report
      obtain ⟨final, run, reached⟩ := induction ⟨during, through⟩ within
      exact ⟨final, exec_cons.mpr ⟨next, taken, run⟩, reached⟩

/-- A pass over a queue that is not empty, whatever the runs leave: it ends after
ten runs for each entry that was queued when it started, and not before, it has
fuzzed these and no others in the order of the queue, and the next pass starts
from all entries, the new ones first, with the first one ever added as its tail. -/
theorem pass_over_queue (outDir : String) (start : LoopState) (starts : PassStart start)
    (queued : start.seeds.coverage.queue ≠ []) :
    (passOrder start.seeds.size).map (entryOf start.seeds) =
      (start.seeds.coverage.queue.flatMap (List.replicate timesPerRound)).map some ∧
    (∀ reports : List RunReport, reports.length < timesPerRound * start.seeds.size →
      ∃ state, exec (fuzzTurn outDir) start reports = some state ∧ state.passes = start.passes ∧
        state.fuzzed = start.fuzzed ++ (passOrder start.seeds.size).take reports.length) ∧
    ∀ reports : List RunReport, reports.length = timesPerRound * start.seeds.size →
      ∃ state added, exec (fuzzTurn outDir) start reports = some state ∧
        state.passes = start.passes + 1 ∧
        state.fuzzed = start.fuzzed ++ passOrder start.seeds.size ∧ PassStart state ∧
        state.seeds.coverage.queue = added ++ start.seeds.coverage.queue ∧
        state.queueCur = .entry (state.seeds.size - 1) ∧ state.queueTail = .entry 0 := by
  have some : start.seeds.size ≠ 0 := fun zero => queued (List.length_eq_zero_iff.mp zero)
  have begun : Passing start 0 start := by
    refine ⟨fun _ => in_pass_start starts some, fun zero => ?_⟩
    simp only [timesPerRound] at zero
    omega
  refine ⟨pass_order_entries start.seeds, ?_, ?_⟩
  · intro reports short
    obtain ⟨state, run, passing⟩ := run_passing outDir reports begun (by omega)
    rw [Nat.zero_add] at passing
    have during := passing.during short
    exact ⟨state, run, during.passes, during.fuzzed⟩
  · intro reports full
    obtain ⟨state, run, passing⟩ := run_passing outDir reports begun (by omega)
    rw [Nat.zero_add] at passing
    have through := passing.through full
    obtain ⟨added, grown⟩ := through.older
    have longer : start.seeds.size ≤ state.seeds.size := through.older.length_le
    obtain ⟨count, size⟩ := Nat.exists_eq_succ_of_ne_zero (by omega : state.seeds.size ≠ 0)
    refine ⟨state, added, run, through.passes, through.fuzzed, through.again, grown.symm, ?_, ?_⟩
    · rw [through.again.first, queue_head size, size]
      rfl
    · rw [through.again.last, queue_tail size]

def oneSeedLoop : LoopState :=
  enterPass ⟨addToQueue emptyQueue "seed/init_corpus" Interceptor.emptyRecord, .queue, .queue, 0, 0,
    [], 0⟩

theorem one_seed_pass : ∃ state, exec (fuzzTurn "seed") oneSeedLoop
    (List.replicate 10 ⟨.none, Interceptor.emptyRecord, oneEdge.traceBits⟩) = some state ∧
      state.passes = 1 ∧ state.fuzzed = List.replicate 10 (.entry 0) := by
  obtain ⟨-, -, full⟩ := pass_over_queue "seed" oneSeedLoop (enter_pass_start _)
    (List.cons_ne_nil _ _)
  obtain ⟨state, -, run, passes, fuzzed, -⟩ := full
    (List.replicate 10 ⟨.none, Interceptor.emptyRecord, oneEdge.traceBits⟩) rfl
  exact ⟨state, run, passes, fuzzed⟩

end Blueman.StartFuzzer

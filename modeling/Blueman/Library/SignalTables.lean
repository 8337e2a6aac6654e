import Mathlib.Logic.Function.Basic
import Mathlib.Tactic.SplitIfs

/-!
# Processes and their tables of signal dispositions

Each process refers to a table. A fork gives the child a copy of its parent's, a
clone that shares the handlers gives it the table itself, and a process that
executes a new image goes on with a copy in which what was caught is back to the
default. A disposition that is set is set for every process with the table.

`Sharing` says which processes have the table of a given one: it is kept by every
operation, and decides which calls that one sees.
-/

namespace Blueman.SignalTables

set_option autoImplicit false

inductive Disposition (Handler : Type)
  | default
  | ignored
  | caught (handler : Handler)
deriving DecidableEq

/-- What is left of a disposition in a new image. -/
def Disposition.executed {Handler : Type} : Disposition Handler → Disposition Handler
  | .caught _ => .default
  | kept => kept

/-- The tables are numbered as they are made; a process without one does not exist. -/
structure Processes (Process Signal Handler : Type) where
  tableOf : Process → Option Nat
  tables : Nat → Signal → Disposition Handler
  next : Nat
  bounded : ∀ process table, tableOf process = some table → table < next

variable {Process Signal Handler : Type}

namespace Processes

def disposition (processes : Processes Process Signal Handler) (process : Process)
    (signal : Signal) : Option (Disposition Handler) :=
  (processes.tableOf process).map fun table => processes.tables table signal

section Signal

variable [DecidableEq Signal]

def setDisposition (process : Process) (signal : Signal) (disposition : Disposition Handler)
    (processes : Processes Process Signal Handler) : Processes Process Signal Handler :=
  match processes.tableOf process with
  | some table => { processes with
      tables := Function.update processes.tables table
        (Function.update (processes.tables table) signal disposition) }
  | none => processes

variable (processes : Processes Process Signal Handler)

@[simp] theorem set_disposition_table (process : Process) (signal : Signal)
    (disposition : Disposition Handler) :
    (processes.setDisposition process signal disposition).tableOf = processes.tableOf := by
  unfold setDisposition
  cases processes.tableOf process with
  | none => rfl
  | some table => rfl

theorem set_disposition_shared {process other : Process} (signal asked : Signal)
    (disposition : Disposition Handler) (alive : (processes.tableOf process).isSome)
    (same : processes.tableOf process = processes.tableOf other) :
    (processes.setDisposition process signal disposition).disposition other asked =
      if asked = signal then some disposition else processes.disposition other asked := by
  obtain ⟨table, found⟩ := Option.isSome_iff_exists.mp alive
  have foundOther := same.symm.trans found
  unfold setDisposition Processes.disposition
  simp only [found, foundOther, Option.map_some, Function.update_self]
  split_ifs with this
  · rw [this, Function.update_self]
  · rw [Function.update_of_ne this]

theorem set_disposition_apart {process other : Process} (signal asked : Signal)
    (disposition : Disposition Handler)
    (apart : processes.tableOf process ≠ processes.tableOf other) :
    (processes.setDisposition process signal disposition).disposition other asked =
      processes.disposition other asked := by
  cases found : processes.tableOf process with
  | none =>
      unfold setDisposition
      rw [found]
  | some table =>
      cases foundOther : processes.tableOf other with
      | none => simp [Processes.disposition, setDisposition, found, foundOther]
      | some otherTable =>
          have different : otherTable ≠ table := by
            intro same
            rw [found, foundOther, same] at apart
            exact apart rfl
          simp [Processes.disposition, setDisposition, found, foundOther,
            Function.update_of_ne different]

end Signal

section Process

variable [DecidableEq Process]

def single (process : Process) (dispositions : Signal → Disposition Handler) :
    Processes Process Signal Handler where
  tableOf := Function.update (fun _ => none) process (some 0)
  tables _ := dispositions
  next := 1
  bounded other table found := by
    by_cases same : other = process
    · rw [same, Function.update_self] at found
      cases found
      exact Nat.zero_lt_one
    · rw [Function.update_of_ne same] at found
      cases found

def withTable (process : Process) (dispositions : Signal → Disposition Handler)
    (processes : Processes Process Signal Handler) : Processes Process Signal Handler where
  tableOf := Function.update processes.tableOf process (some processes.next)
  tables := Function.update processes.tables processes.next dispositions
  next := processes.next + 1
  bounded other table found := by
    by_cases same : other = process
    · rw [same, Function.update_self] at found
      cases found
      exact Nat.lt_succ_self _
    · rw [Function.update_of_ne same] at found
      exact Nat.lt_succ_of_lt (processes.bounded other table found)

def fork (parent child : Process) (processes : Processes Process Signal Handler) :
    Processes Process Signal Handler :=
  match processes.tableOf parent with
  | some table => processes.withTable child (processes.tables table)
  | none => processes

def cloneSighand (parent child : Process) (processes : Processes Process Signal Handler) :
    Processes Process Signal Handler where
  tableOf := Function.update processes.tableOf child (processes.tableOf parent)
  tables := processes.tables
  next := processes.next
  bounded other table found := by
    by_cases same : other = child
    · rw [same, Function.update_self] at found
      exact processes.bounded parent table found
    · rw [Function.update_of_ne same] at found
      exact processes.bounded other table found

def execute (process : Process) (processes : Processes Process Signal Handler) :
    Processes Process Signal Handler :=
  match processes.tableOf process with
  | some table => processes.withTable process fun signal =>
      (processes.tables table signal).executed
  | none => processes

def exit (process : Process) (processes : Processes Process Signal Handler) :
    Processes Process Signal Handler where
  tableOf := Function.update processes.tableOf process none
  tables := processes.tables
  next := processes.next
  bounded other table found := by
    by_cases same : other = process
    · rw [same, Function.update_self] at found
      cases found
    · rw [Function.update_of_ne same] at found
      exact processes.bounded other table found

variable (processes : Processes Process Signal Handler)

theorem with_table_disposition {process other : Process} (different : other ≠ process)
    (dispositions : Signal → Disposition Handler) (asked : Signal) :
    (processes.withTable process dispositions).disposition other asked =
      processes.disposition other asked := by
  unfold Processes.disposition withTable
  simp only [Function.update_of_ne different]
  cases found : processes.tableOf other with
  | none => rfl
  | some table =>
      have older := processes.bounded other table found
      simp [Function.update_of_ne (Nat.ne_of_lt older)]

theorem fork_disposition {parent child other : Process} (different : other ≠ child)
    (asked : Signal) :
    (processes.fork parent child).disposition other asked = processes.disposition other asked := by
  unfold fork
  cases processes.tableOf parent with
  | none => rfl
  | some table => exact processes.with_table_disposition different _ asked

theorem execute_disposition {process other : Process} (different : other ≠ process)
    (asked : Signal) :
    (processes.execute process).disposition other asked = processes.disposition other asked := by
  unfold execute
  cases processes.tableOf process with
  | none => rfl
  | some table => exact processes.with_table_disposition different _ asked

theorem clone_disposition {parent child other : Process} (different : other ≠ child)
    (asked : Signal) :
    (processes.cloneSighand parent child).disposition other asked =
      processes.disposition other asked := by
  simp [Processes.disposition, cloneSighand, Function.update_of_ne different]

theorem exit_disposition {process other : Process} (different : other ≠ process)
    (asked : Signal) :
    (processes.exit process).disposition other asked = processes.disposition other asked := by
  simp [Processes.disposition, exit, Function.update_of_ne different]

end Process

/-- Of the other processes only those among the members have the owner's table, and
those that exist do. -/
structure Sharing (processes : Processes Process Signal Handler) (owner : Process)
    (members : Process → Prop) : Prop where
  alive : (processes.tableOf owner).isSome
  shared : ∀ process, members process → processes.tableOf process = none ∨
    processes.tableOf process = processes.tableOf owner
  others : ∀ process, process ≠ owner → ¬members process →
    processes.tableOf process ≠ processes.tableOf owner

end Processes

open Processes

section Sharing

variable {processes : Processes Process Signal Handler} {owner : Process}
  {members : Process → Prop}

theorem Processes.Sharing.set_disposition [DecidableEq Signal]
    (sharing : processes.Sharing owner members) (process : Process) (signal : Signal)
    (disposition : Disposition Handler) :
    (processes.setDisposition process signal disposition).Sharing owner members := by
  constructor
  · rw [set_disposition_table]
    exact sharing.alive
  · rw [set_disposition_table]
    exact sharing.shared
  · rw [set_disposition_table]
    exact sharing.others

variable [DecidableEq Process]

theorem sharing_single (owner : Process) (members : Process → Prop)
    (dispositions : Signal → Disposition Handler) :
    (single owner dispositions).Sharing owner members := by
  have absent {process : Process} (different : process ≠ owner) :
      (single owner dispositions).tableOf process = none := by
    simp [single, Function.update_of_ne different]
  have present : (single owner dispositions).tableOf owner = some 0 := by
    simp [single]
  constructor
  · rw [present]
    rfl
  · intro process _
    by_cases same : process = owner
    · rw [same]
      exact .inr rfl
    · exact .inl (absent same)
  · intro process different _
    rw [absent different, present]
    exact (Option.some_ne_none 0).symm

theorem Processes.Sharing.with_table (sharing : processes.Sharing owner members)
    {process : Process} (different : process ≠ owner) (outside : ¬members process)
    (dispositions : Signal → Disposition Handler) :
    (processes.withTable process dispositions).Sharing owner members := by
  have kept {other : Process} (apart : other ≠ process) :
      (processes.withTable process dispositions).tableOf other = processes.tableOf other :=
    Function.update_of_ne apart _ _
  constructor
  · rw [kept different.symm]
    exact sharing.alive
  · intro member inside
    have apart : member ≠ process := fun same => outside (same ▸ inside)
    rw [kept apart, kept different.symm]
    exact sharing.shared member inside
  · intro other notOwner notMember
    rw [kept different.symm]
    by_cases same : other = process
    · rw [same]
      intro shared
      have fresh : processes.tableOf owner = some processes.next :=
        shared.symm.trans (Function.update_self _ _ _)
      exact absurd (processes.bounded owner _ fresh) (Nat.lt_irrefl _)
    · rw [kept same]
      exact sharing.others other notOwner notMember

theorem Processes.Sharing.fork (sharing : processes.Sharing owner members) (parent : Process)
    {child : Process} (different : child ≠ owner) (outside : ¬members child) :
    (processes.fork parent child).Sharing owner members := by
  unfold Processes.fork
  cases processes.tableOf parent with
  | none => exact sharing
  | some table => exact sharing.with_table different outside _

theorem Processes.Sharing.execute (sharing : processes.Sharing owner members)
    {process : Process} (different : process ≠ owner) (outside : ¬members process) :
    (processes.execute process).Sharing owner members := by
  unfold Processes.execute
  cases processes.tableOf process with
  | none => exact sharing
  | some table => exact sharing.with_table different outside _

theorem Processes.Sharing.clone (sharing : processes.Sharing owner members) {child : Process}
    (different : child ≠ owner) (inside : members child) :
    (processes.cloneSighand owner child).Sharing owner members := by
  have kept {other : Process} (apart : other ≠ child) :
      (processes.cloneSighand owner child).tableOf other = processes.tableOf other :=
    Function.update_of_ne apart _ _
  constructor
  · rw [kept different.symm]
    exact sharing.alive
  · intro member isMember
    rw [kept different.symm]
    by_cases same : member = child
    · rw [same]
      exact .inr (Function.update_self _ _ _)
    · rw [kept same]
      exact sharing.shared member isMember
  · intro other notOwner notMember
    have apart : other ≠ child := fun same => notMember (same ▸ inside)
    rw [kept apart, kept different.symm]
    exact sharing.others other notOwner notMember

theorem Processes.Sharing.exit (sharing : processes.Sharing owner members) {process : Process}
    (different : process ≠ owner) : (processes.exit process).Sharing owner members := by
  have kept {other : Process} (apart : other ≠ process) :
      (processes.exit process).tableOf other = processes.tableOf other :=
    Function.update_of_ne apart _ _
  have gone : (processes.exit process).tableOf process = none := Function.update_self _ _ _
  constructor
  · rw [kept different.symm]
    exact sharing.alive
  · intro member inside
    rw [kept different.symm]
    by_cases same : member = process
    · rw [same]
      exact .inl gone
    · rw [kept same]
      exact sharing.shared member inside
  · intro other notOwner notMember
    rw [kept different.symm]
    by_cases same : other = process
    · rw [same, gone]
      intro none
      have alive := sharing.alive
      rw [← none] at alive
      cases alive
    · rw [kept same]
      exact sharing.others other notOwner notMember

end Sharing

end Blueman.SignalTables

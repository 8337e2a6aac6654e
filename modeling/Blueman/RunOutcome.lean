import Mathlib.Tactic.Common

/-!
# How a process of a run has ended

The `waitpid` status of a process, and what `fuzz_one` reads off it.
-/

namespace Blueman.RunOutcome

set_option autoImplicit false

abbrev sigtrap : Nat := 5
abbrev sigkill : Nat := 9

inductive WaitStatus
  | exited (code : UInt8)
  | signaled (signal : Nat)
deriving DecidableEq, Repr

/-- `FAULT_NONE`, `FAULT_CRASH`, `FAULT_ERROR` and `FAULT_TIMEOUT`. -/
inductive RunFault
  | none
  | crash
  | error
  | timeout
deriving DecidableEq, Repr

/-- The result of `wait_for_target`. Exit code 1 is that of the address sanitizer. -/
def faultOfStatus : WaitStatus → RunFault
  | .signaled signal =>
      if signal = sigtrap then .error else if signal = sigkill then .timeout else .crash
  | .exited code => if code ≠ 0 then if code = 1 then .crash else .error else .none

/-- The attacker's status after it was killed shows an error of its own. -/
def attackerFailed : WaitStatus → Bool
  | .exited code => decide (code ≠ 0)
  | .signaled signal => decide (signal = sigtrap)

theorem fault_timeout_iff (status : WaitStatus) :
    faultOfStatus status = .timeout ↔ status = .signaled sigkill := by
  cases status with
  | exited code =>
      simp only [faultOfStatus]
      split_ifs <;> simp
  | signaled signal =>
      simp only [faultOfStatus, WaitStatus.signaled.injEq]
      split_ifs with trap kill
      · simp [trap, sigtrap, sigkill]
      · simp [kill]
      · simp [kill]

end Blueman.RunOutcome

import Blueman.RunReports

/-!
# The loop behind an error

`save_attack_error_info` does not return when the log of the error is empty. Here are
the states from which the parent is bound to get there, and the steps that lead to
them. From every other state a run that could end without its reports can end with
them.
-/

namespace Blueman.ErrorLoop

open RunOutcome FuzzRun Execution RewoundFile RunLogs RunReports

set_option autoImplicit false

section

variable {Place : Type} {setup : Setup Place} {totalExecTimes : UInt64}

/-- In the hook the target is blocked or loops, and does not end by itself. -/
def Unaided (run : RunState Place) (action : Action) : Prop :=
  ∀ status, action = .die status → run.target = .running

/-- Nor does it end with an error that is reported. -/
def Quiet (run : RunState Place) (action : Action) : Prop :=
  Unaided run action ∧ ∀ status, action = .die status → .attackErr ∉ targetSaves status

def Finished (run : RunState Place) : Prop := ∃ fault, run.parent = .finished fault

/-- The processes come to the end without an error of the target. -/
abbrev EndsQuietly (setup : Setup Place) : RunState Place → Prop :=
  CanReach (step setup) Quiet Finished

def UnaidedReport (state : ReportedRun Place) (action : ReportAction) : Prop :=
  ∀ base, action = .run base → Unaided state.run base

abbrev CanFinish (setup : Setup Place) (totalExecTimes : UInt64) : ReportedRun Place → Prop :=
  CanReach (reportStep setup totalExecTimes) UnaidedReport fun state => Finished state.run

/-- The parent is in the loop, or has to report the error of a process that is gone
and has left an empty log. -/
inductive Silenced (setup : Setup Place) (state : ReportedRun Place) : Prop
  | looping (loops : state.looping = true)
  | target {code : UInt8} {inHook : Bool} (waits : state.run.parent = .waitingForTarget)
      (ended : state.run.target = .ended (.exited code) inHook) (bad : 1 < code)
      (empty : (state.logs .target).content = [])
  | attacker (there : Writes state.run .attacker = true) (gone : state.attackerGone = true)
      (failed : attackerFailed setup.attackerStatus = true)
      (empty : (state.logs .attacker).content = [])

/-- The end of such a process. -/
inductive Silences (setup : Setup Place) (state : ReportedRun Place) : ReportAction → Prop
  | target {code : UInt8} (bad : 1 < code) (empty : (state.logs .target).content = []) :
      Silences setup state (.run (.die (.exited code)))
  | attacker (failed : attackerFailed setup.attackerStatus = true)
      (empty : (state.logs .attacker).content = []) : Silences setup state .attackerEnds

theorem ended_target_stays {run next : RunState Place} {action : Action} {status : WaitStatus}
    {inHook : Bool} (taken : step setup run action = some next)
    (gone : run.target = .ended status inHook) : next.target = .ended status inHook := by
  cases step_turn taken with
  | hook outside _ => simp [gone] at outside
  | overflow outside _ => simp [gone] at outside
  | consume waits _ => simp [gone] at waits
  | die dies => simp [gone, Target.die] at dies
  | alarm => simp [gone, Target.kill]
  | _ => exact gone

theorem error_by_itself {run next : RunState Place} {action : Action} {code : UInt8}
    {inHook : Bool} (taken : step setup run action = some next)
    (ended : next.target = .ended (.exited code) inHook) (bad : 1 < code) :
    run.target = .ended (.exited code) inHook ∨ action = .die (.exited code) := by
  cases step_turn taken with
  | hook => simp at ended
  | overflow => simp at ended
  | @consume reception ack _ _ _ =>
      simp only [Reception.resumed] at ended
      split at ended
      · cases ended
      · cases ended
        exact absurd bad (by decide)
  | die dies =>
      obtain ⟨-, ⟨-, gone⟩ | ⟨signal, -, gone⟩⟩ := die_ends dies
      · rw [gone] at ended
        cases ended
        exact .inr rfl
      · rw [gone] at ended
        cases ended
        exact .inr rfl
  | alarm =>
      left
      cases target : run.target with
      | ended status place => simpa [target, Target.kill] using ended
      | _ => simp [target, Target.kill] at ended
  | _ => exact .inl ended

theorem waits_before {run next : RunState Place} {action : Action}
    (taken : step setup run action = some next) (waits : next.parent = .waitingForTarget) :
    run.parent = .waitingForTarget := by
  rcases step_reports taken with ⟨-, same⟩ | ⟨_, _, -, -, before, -⟩ | ⟨_, -, -, after⟩ |
    ⟨_, -, -, after⟩
  · rw [← same, waits]
  · exact before
  · simp [waits] at after
  · simp [waits] at after

theorem attacker_stays {run next : RunState Place} {action : Action}
    (taken : step setup run action = some next) (there : Writes run .attacker = true) :
    action = .cleanUp ∧ (∃ fault, run.parent = .cleaning fault) ∨
      Writes next .attacker = true := by
  rcases step_reports taken with ⟨-, same⟩ | ⟨_, _, -, -, -, cleans⟩ | ⟨fault, rfl, cleans, -⟩ |
    ⟨_, -, waits, -⟩
  · right
    simpa only [Writes, same] using there
  · right
    simp [Writes, cleans]
  · exact .inl ⟨rfl, fault, cleans⟩
  · simp [Writes, waits] at there

theorem silenced_stays {state next : ReportedRun Place} {action : ReportAction}
    (taken : reportStep setup totalExecTimes state action = some next)
    (silenced : Silenced setup state) : Silenced setup next := by
  cases report_step_turn taken with
  | @run base _ free moved logs gone loops =>
      cases silenced with
      | looping before => exact .looping (loops.mpr (.inl before))
      | @target code inHook waits ended bad empty =>
          rcases step_reports moved with ⟨-, same⟩ | ⟨_, _, -, rfl, -, -⟩ | ⟨_, -, cleans, -⟩ |
            ⟨_, -, later, -⟩
          · exact .target (same ▸ waits) (ended_target_stays moved ended) bad (logs ▸ empty)
          · exact .looping (loops.mpr (.inr (target_unreportable_iff.mpr
              ⟨⟨code, inHook, ended, bad⟩, empty⟩)))
          · simp [waits] at cleans
          · simp [waits] at later
      | attacker there left failed empty =>
          rcases attacker_stays moved there with ⟨rfl, fault, cleans⟩ | stays
          · exact .looping (loops.mpr (.inr ((clean_up_unreportable_iff cleans).mpr
              ⟨failed, empty⟩)))
          · exact .attacker stays (gone ▸ left) failed (logs ▸ empty)
  | write writes =>
      cases silenced with
      | looping before => exact .looping before
      | target waits ended bad empty =>
          exact .target waits ended bad ((written_other writes (ended_silent ended)).trans empty)
      | attacker there left failed empty =>
          exact .attacker there left failed ((written_other writes (gone_silent left)).trans empty)
  | attackerEnds _ =>
      cases silenced with
      | looping before => exact .looping before
      | target waits ended bad empty => exact .target waits ended bad empty
      | attacker there _ failed empty => exact .attacker there rfl failed empty

theorem silenced_unfinished {state : ReportedRun Place} (inside : LoopsInside state)
    (silenced : Silenced setup state) : ¬Finished state.run := by
  rintro ⟨fault, finished⟩
  cases silenced with
  | looping loops =>
      obtain ⟨other, cleans | waits⟩ := inside loops
      · simp [finished] at cleans
      · simp [finished] at waits
  | target waits => simp [finished] at waits
  | attacker there => simp [Writes, finished] at there

theorem silenced_never_finishes {state : ReportedRun Place} (inside : LoopsInside state)
    (silenced : Silenced setup state) : ¬CanFinish setup totalExecTimes state := by
  have kept (before : ReportedRun Place) (action : ReportAction) (next : ReportedRun Place)
      (_ : UnaidedReport before action)
      (taken : reportStep setup totalExecTimes before action = some next)
      (trapped : LoopsInside before ∧ Silenced setup before) :
      LoopsInside next ∧ Silenced setup next :=
    ⟨step_loops_inside before action next taken trapped.1, silenced_stays taken trapped.2⟩
  exact trap_never_reaches kept (fun _ trapped => silenced_unfinished trapped.1 trapped.2)
    ⟨inside, silenced⟩

theorem trap_never_finishes {trap : RunState Place → Prop}
    (kept : ∀ run action next, Unaided run action → step setup run action = some next →
      trap run → trap next)
    (apart : ∀ run, trap run → ¬Finished run) {state : ReportedRun Place}
    (trapped : trap state.run) : ¬CanFinish setup totalExecTimes state := by
  have stays (before : ReportedRun Place) (action : ReportAction) (next : ReportedRun Place)
      (unaided : UnaidedReport before action)
      (taken : reportStep setup totalExecTimes before action = some next)
      (inside : trap before.run) : trap next.run := by
    rcases reported_step taken with ⟨base, same, moved⟩ | same
    · exact kept _ base _ (unaided base same) moved inside
    · exact same ▸ inside
  exact trap_never_reaches stays (fun state => apart state.run) trapped

theorem error_exits {run next : RunState Place} {code : UInt8}
    (taken : step setup run (.die (.exited code)) = some next) :
    run.target = .running ∧ next.target = .ended (.exited code) false ∧
      next.parent = run.parent := by
  cases step_turn taken with
  | die dies =>
      obtain ⟨-, ⟨running, ended⟩ | ⟨signal, same, -⟩⟩ := die_ends dies
      · exact ⟨running, ended, rfl⟩
      · cases same

theorem free_step_free {state next : ReportedRun Place} {base : Action}
    (free : parentFree setup state base = true) (moved : step setup state.run base = some next.run)
    (loops : next.looping = true ↔
      state.looping = true ∨ Unreportable state.logs (logReports setup state.run base))
    (heard : ¬Silenced setup state) : next.looping = false := by
  apply Bool.eq_false_of_not_eq_true
  intro looping
  have quiet : state.looping ≠ true := fun before => heard (.looping before)
  have missing := (loops.mp looping).resolve_left quiet
  rcases step_reports moved with ⟨silent, -⟩ | ⟨status, place, -, rfl, waits, -⟩ |
    ⟨fault, rfl, cleans, -⟩ | ⟨_, rfl, -, -⟩
  · simp [silent, Unreportable] at missing
  · obtain ⟨⟨code, inHook, ended, bad⟩, empty⟩ := target_unreportable_iff.mp missing
    exact heard (.target waits ended bad empty)
  · obtain ⟨failed, empty⟩ := (clean_up_unreportable_iff cleans).mp missing
    have there : Writes state.run .attacker = true := by simp [Writes, cleans]
    have gone : state.attackerGone = true := by
      have killed : setup.attackerStatus ≠ .signaled sigkill := by
        intro same
        simp [same, attackerFailed, sigkill, sigtrap] at failed
      simpa [parentFree, quiet, killed] using free
    exact heard (.attacker there gone failed empty)
  · simp [logReports, Unreportable] at missing

/-- The parent is bound to the loop from the end of a process on that has written
nothing. -/
theorem silenced_step_iff {state next : ReportedRun Place} {action : ReportAction}
    (reaped : Reaped state.run)
    (taken : reportStep setup totalExecTimes state action = some next)
    (heard : ¬Silenced setup state) : Silenced setup next ↔ Silences setup state action := by
  cases report_step_turn taken with
  | @run base _ free moved logs gone loops =>
      constructor
      · intro silenced
        cases silenced with
        | looping after => simp [free_step_free free moved loops heard] at after
        | target waits ended bad empty =>
            rcases error_by_itself moved ended bad with before | rfl
            · exact absurd (.target (waits_before moved waits) before bad (logs ▸ empty)) heard
            · exact .target bad (logs ▸ empty)
        | attacker there left failed empty =>
            have before : Writes state.run .attacker = true := by
              by_contra silent
              rw [step_silent moved (Bool.eq_false_of_not_eq_true silent)] at there
              cases there
            exact absurd (.attacker before (gone ▸ left) failed (logs ▸ empty)) heard
      · intro silences
        cases silences with
        | @target code bad empty =>
            obtain ⟨running, ended, same⟩ := error_exits moved
            have waits := reaped.resolve_right (by simp [running, Writes])
            exact .target (same ▸ waits) ended bad (logs ▸ empty)
  | write writes =>
      refine iff_of_false ?_ (by rintro ⟨⟩)
      intro silenced
      apply heard
      cases silenced with
      | looping loops => exact .looping loops
      | target waits ended bad empty =>
          exact .target waits ended bad
            ((written_other writes (ended_silent ended)).symm.trans empty)
      | attacker there left failed empty =>
          exact .attacker there left failed
            ((written_other writes (gone_silent left)).symm.trans empty)
  | attackerEnds there =>
      constructor
      · intro silenced
        cases silenced with
        | looping loops => exact absurd (.looping loops) heard
        | target waits ended bad empty => exact absurd (.target waits ended bad empty) heard
        | attacker _ _ failed empty => exact .attacker failed empty
      · intro silences
        cases silences with
        | attacker failed empty =>
            exact .attacker (Bool.and_eq_true_iff.mp there).1 rfl failed empty

/-- Nothing stands between the parent and its reports any more. -/
structure Cleared (setup : Setup Place) (state : ReportedRun Place) : Prop where
  free : state.looping = false
  target : ∀ code inHook, state.run.parent = .waitingForTarget →
    state.run.target = .ended (.exited code) inHook → 1 < code →
      (state.logs .target).content ≠ []
  attacker : Writes state.run .attacker = true →
    (state.attackerGone = true ∨ setup.attackerStatus = .signaled sigkill) ∧
      (attackerFailed setup.attackerStatus = true → (state.logs .attacker).content ≠ [])

theorem Cleared.heard {state : ReportedRun Place} (cleared : Cleared setup state) :
    ¬Silenced setup state := by
  intro silenced
  cases silenced with
  | looping loops => simp [cleared.free] at loops
  | target waits ended bad empty => exact cleared.target _ _ waits ended bad empty
  | attacker there _ failed empty => exact (cleared.attacker there).2 failed empty

theorem cleared_follows {state : ReportedRun Place} {action : Action} {after : RunState Place}
    (quiet : Quiet state.run action) (taken : step setup state.run action = some after)
    (cleared : Cleared setup state) : ∃ next,
      reportStep setup totalExecTimes state (.run action) = some next ∧ next.run = after ∧
        Cleared setup next := by
  have free : parentFree setup state action = true := by
    unfold parentFree
    split
    · simp [cleared.free]
    · simp [cleared.free]
    · cases step_turn taken with
      | recreate cleans _ =>
          simpa [cleared.free] using (cleared.attacker (by simp [Writes, cleans])).1
      | keep cleans _ =>
          simpa [cleared.free] using (cleared.attacker (by simp [Writes, cleans])).1
    · rfl
  have reported : ∃ next, reportStep setup totalExecTimes state (.run action) = some next := by
    simp only [reportStep, free, if_true, taken, Option.map_some]
    exact ⟨_, rfl⟩
  obtain ⟨next, stepped⟩ := reported
  refine ⟨next, stepped, ?_⟩
  cases report_step_turn stepped with
  | run _ moved logs gone loops =>
      have same : next.run = after := Option.some.inj (moved.symm.trans taken)
      refine ⟨same, free_step_free free moved loops cleared.heard, ?_, ?_⟩
      · intro code inHook waits ended bad
        rw [logs]
        rcases error_by_itself moved ended bad with before | dies
        · exact cleared.target code inHook (waits_before moved waits) before bad
        · exact absurd ((attack_err_saved_iff _).mpr ⟨code, rfl, bad⟩) (quiet.2 _ dies)
      · intro there
        rw [logs, gone]
        apply cleared.attacker
        by_contra silent
        rw [step_silent moved (Bool.eq_false_of_not_eq_true silent)] at there
        cases there

theorem attacker_leaves {state : ReportedRun Place} (present : state.writes .attacker = true) :
    ∃ middle last, reportStep setup totalExecTimes state (.write .attacker [0]) = some middle ∧
      reportStep setup totalExecTimes middle .attackerEnds = some last ∧
      last.run = state.run ∧ last.looping = state.looping ∧ last.attackerGone = true ∧
      (last.logs .attacker).content ≠ [] ∧ last.logs .target = state.logs .target :=
  ⟨_, _, if_pos present, if_pos present, rfl, rfl, rfl, by simp [overlay], rfl⟩

theorem heard_clears {state : ReportedRun Place} (heard : ¬Silenced setup state)
    (later : ∀ next : ReportedRun Place, next.run = state.run → Cleared setup next →
      CanFinish setup totalExecTimes next) : CanFinish setup totalExecTimes state := by
  have free : state.looping = false :=
    Bool.eq_false_of_not_eq_true fun loops => heard (.looping loops)
  by_cases present : state.writes .attacker = true
  · obtain ⟨middle, last, wrote, left, run, loops, gone, written, same⟩ :=
      @attacker_leaves Place setup totalExecTimes state present
    apply can_reach_step _ wrote (by simp [UnaidedReport])
    apply can_reach_step _ left (by simp [UnaidedReport])
    refine later last run ⟨loops.trans free, ?_, fun _ => ⟨.inl gone, fun _ => written⟩⟩
    intro code inHook waits ended bad empty
    rw [run] at waits ended
    exact heard (.target waits ended bad (same ▸ empty))
  · apply later state rfl
    refine ⟨free, fun code inHook waits ended bad empty => ?_, fun there => ?_⟩
    · exact heard (.target waits ended bad empty)
    · have gone : state.attackerGone = true := by
        simpa [ReportedRun.writes, there] using present
      exact ⟨.inl gone, fun failed empty => heard (.attacker there gone failed empty)⟩

/-- A run that could end without its reports can end with them, unless the parent is
bound to the loop. -/
theorem heard_finishes {state : ReportedRun Place} (heard : ¬Silenced setup state)
    (ends : EndsQuietly setup state.run) : CanFinish setup totalExecTimes state := by
  apply heard_clears heard
  intro next same cleared
  have follows (run : RunState Place) (action : Action) (after : RunState Place)
      (place : ReportedRun Place) (quiet : Quiet run action)
      (taken : step setup run action = some after)
      (related : place.run = run ∧ Cleared setup place) : ∃ move later,
        reportStep setup totalExecTimes place move = some later ∧ UnaidedReport place move ∧
          later.run = after ∧ Cleared setup later := by
    obtain ⟨rfl, clear⟩ := related
    obtain ⟨later, stepped, followed, stays⟩ := cleared_follows quiet taken clear
    refine ⟨.run action, later, stepped, ?_, followed, stays⟩
    intro base same
    cases same
    exact quiet.1
  have arrives (run : RunState Place) (place : ReportedRun Place)
      (related : place.run = run ∧ Cleared setup place) (finished : Finished run) :
      Finished place.run := related.1 ▸ finished
  exact can_reach_followed follows arrives ⟨same, cleared⟩ ends

end

end Blueman.ErrorLoop

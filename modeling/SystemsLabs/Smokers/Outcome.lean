import SystemsLabs.Smokers.Stage

/-!
# How a run of the smokers ends

From the creation of the threads, for every interleaving.  The smokers smoke in
the order in which they are drawn, every run is short, and it ends in one of two
ways: the assertions of `main` hold, or the agent waits for ever, because a
signal was lost or because it waited before its first iteration.
-/

namespace SystemsLabs.Smokers

open Monitor Transition

/-- The assertions at the end of `main`. -/
def Asserted (iterations : Nat) (shared : Shared) : Prop :=
  (∀ resource, shared.signalCount resource = shared.smokeCount resource) ∧
    shared.smokeCount .aMatch + shared.smokeCount .paper +
      shared.smokeCount .tobacco = iterations

theorem startState_stage (iterations : Nat) :
    Stage iterations startState [] (4 * iterations + 1) 0 := by
  refine @Stage.idle _ _ [] (Nat.zero_le _)
    ⟨?_, rfl, fun _ same => nomatch same⟩
    ⟨rfl, fun _ => rfl, fun _ => rfl⟩ (.inr ⟨rfl, rfl⟩)
  intro thread _
  exact .created rfl rfl (Finset.notMem_empty _)

/-- Where a run is after some steps, of which the nine first ones of the helpers
are part. -/
theorem run_stage {iterations : Nat} {actions : List (Thread × Fin 3)}
    {state : State} {log : List Event}
    (run : Run (logged (Step (program iterations)) (observe iterations))
      (startState, []) actions (state, log)) :
    ∃ left skipped, Stage iterations state log left skipped ∧
      actions.length + journey state.place + left + skipped =
        4 * iterations + 10 := by
  let Inv : State × List Event → Nat → Prop := fun now spent =>
    ∃ left skipped, Stage iterations now.1 now.2 left skipped ∧
      spent + journey now.1.place + left + skipped = 4 * iterations + 10
  have initial : Inv (startState, []) 0 :=
    ⟨_, _, startState_stage iterations, by
      have begins : journey startState.place = 9 := by decide
      simp only [begins]
      omega⟩
  have reached : Inv (state, log) (0 + actions.length) := by
    refine run.counted ?_ initial
    rintro ⟨before, earlier⟩ ⟨thread, choice⟩ ⟨after, later⟩ spent
      ⟨left, skipped, stage, total⟩ ⟨taken, shown⟩
    obtain ⟨newLeft, newSkipped, next, budget⟩ := stage.step taken
    simp only at shown total budget
    subst shown
    refine ⟨newLeft, newSkipped, next, ?_⟩
    simp only
    omega
  rw [Nat.zero_add] at reached
  exact reached

theorem count_resources (served : List Resource) :
    served.count .aMatch + served.count .paper + served.count .tobacco =
      served.length := by
  induction served with
  | nil => rfl
  | cons resource served ih =>
      cases resource <;> simp <;> omega

theorem Books.asserted {shared : Shared} {sum : Nat} {served : List Resource}
    (books : Books shared sum served none) :
    Asserted served.length shared := by
  refine ⟨books.signals, ?_⟩
  rw [books.smokes, books.smokes, books.smokes]
  exact count_resources served

section Ends

variable {iterations : Nat} {actions : List (Thread × Fin 3)} {state : State}
  {log : List Event}

theorem run_asserted
    (run : Run (logged (Step (program iterations)) (observe iterations))
      (startState, []) actions (state, log))
    (finished : state.status .agent = .finished) :
    Asserted iterations state.shared := by
  obtain ⟨left, skipped, stage, _⟩ := run_stage run
  obtain ⟨served, turn, sum, _, books, ended⟩ := stage.books
  obtain ⟨rfl, rfl⟩ := ended finished
  exact books.asserted

theorem run_halted
    (run : Run (logged (Step (program iterations)) (observe iterations))
      (startState, []) actions (state, log))
    (nobody : ∀ thread, state.status thread ≠ .ready) :
    (state.status .agent = .finished ∧
      actions.length = 4 * iterations + 10) ∨
    0 < state.lost ∨ state.place .agent = .start := by
  obtain ⟨left, skipped, stage, total⟩ := run_stage run
  have arrived := stage.journey_of_stuck nobody
  rcases stage.of_stuck nobody with ⟨ended, noneLeft, noneSkipped⟩ | reason
  · exact .inl ⟨ended, by omega⟩
  · exact .inr reason

/-- From the creation of the threads, in every interleaving: each smoker smokes
once for every time it is drawn, in the same order; a run has at most
`4 * iterations + 10` steps; when the agent has finished, the assertions of
`main` hold; and a run that cannot go on has either ended like this, after
exactly as many steps, or the agent waits for ever, because a signal was lost or
because it waited in front of its loop. -/
theorem startState_outcome
    (run : Run (logged (Step (program iterations)) (observe iterations))
      (startState, []) actions (state, log)) :
    (∃ (served : List Resource) (turn : Option Resource),
      log = rounds served ++ (turn.map Event.draws).toList ∧
      (∀ resource, state.shared.smokeCount resource = served.count resource) ∧
      ∀ resource, state.shared.signalCount resource =
        (served ++ turn.toList).count resource) ∧
      actions.length ≤ 4 * iterations + 10 ∧
      (state.status .agent = .finished → Asserted iterations state.shared) ∧
      ((∀ action after, ¬Step (program iterations) state action after) →
        (state.status .agent = .finished ∧
          actions.length = 4 * iterations + 10) ∨
        0 < state.lost ∨ state.place .agent = .start) := by
  obtain ⟨left, skipped, stage, total⟩ := run_stage run
  obtain ⟨served, turn, sum, shown, books, _⟩ := stage.books
  refine ⟨⟨served, turn, shown, books.smokes, ?_⟩, by omega,
    run_asserted run, ?_⟩
  · intro resource
    rw [books.signals, books.smokes, List.count_append]
    cases turn with
    | none => rfl
    | some own => simp [List.count_singleton]
  · intro halted
    apply run_halted run
    intro thread ready
    obtain ⟨after, taken⟩ := step_of_ready (program iterations) ready 0
    exact halted _ after taken

/-- The agent draws the smoker with the paper, then the one with the tobacco. -/
theorem arrivals_outcome :
    ∃ state log,
      Run (logged (Step (program 2)) (observe 2)) (startState, [])
        (arrivals ++ [(.agent, 1), (.listener .tobacco, 0),
          (.listener .aMatch, 0), (.smoker .paper, 0), (.agent, 0),
          (.listener .paper, 0), (.listener .aMatch, 0),
          (.smoker .tobacco, 0), (.agent, 0)]) (state, log) ∧
      (∃ (served : List Resource) (turn : Option Resource),
        log = rounds served ++ (turn.map Event.draws).toList ∧
        (∀ resource,
          state.shared.smokeCount resource = served.count resource) ∧
        ∀ resource, state.shared.signalCount resource =
          (served ++ turn.toList).count resource) ∧
      state.status .agent = .finished ∧ Asserted 2 state.shared ∧
      state.shared.smokeCount .paper = 1 ∧
      state.shared.smokeCount .tobacco = 1 := by
  have returned : (replay (perform threads (program 2)) startState
      (arrivals ++ [(.agent, 1), (.listener .tobacco, 0),
        (.listener .aMatch, 0), (.smoker .paper, 0), (.agent, 0),
        (.listener .paper, 0), (.listener .aMatch, 0),
        (.smoker .tobacco, 0), (.agent, 0)])).map (fun state =>
          decide (state.status .agent = .finished ∧
            state.shared.smokeCount .paper = 1 ∧
            state.shared.smokeCount .tobacco = 1)) = some true := by
    decide +kernel
  obtain ⟨state, replayed, ends⟩ := Option.map_eq_some_iff.mp returned
  obtain ⟨ended, paper, tobacco⟩ := of_decide_eq_true ends
  obtain ⟨log, run⟩ :=
    (Run.of_replay (step_of_perform mem_threads) replayed).logged
      (observe 2) []
  obtain ⟨order, _, asserts, _⟩ := startState_outcome run
  exact ⟨state, log, run, order, ended, asserts ended, paper, tobacco⟩

/-- When the agent does not start before all helpers wait, every run that cannot
go on has come to the end of `main`, and its assertions hold there. -/
theorem startState_completes
    (run : Run (guarded (Step (program iterations)) StartsReady) startState
      actions state)
    (halted : ∀ action after,
      ¬guarded (Step (program iterations)) StartsReady state action after) :
    state.status .agent = .finished ∧ Asserted iterations state.shared ∧
      actions.length = 4 * iterations + 10 := by
  have initial : Starting startState ∨ Steady startState :=
    .inl startState_starting
  obtain ⟨log, loggedRun⟩ := run.unguarded.logged (observe iterations) []
  rcases run.invariant
    (fun known taken => starting_or_steady_step known taken) initial with
      starting | steady
  · obtain ⟨action, after, taken⟩ := starting.exists_step iterations
    exact (halted action after taken).elim
  · obtain ⟨i, place⟩ := steady.agentAt
    have started : state.place .agent ≠ .start := by
      rw [place]
      exact fun same => nomatch same
    have nobody : ∀ thread, state.status thread ≠ .ready := by
      intro thread ready
      obtain ⟨after, taken⟩ := step_of_ready (program iterations) ready 0
      exact halted _ after ⟨taken, fun _ start => (started start).elim⟩
    rcases run_halted loggedRun nobody with ⟨ended, length⟩ | lost | start
    · exact ⟨ended, run_asserted loggedRun ended, length⟩
    · have none_lost := steady.nothingLost
      omega
    · exact (started start).elim

/-- One iteration. -/
theorem arrivals_complete :
    ∃ state,
      Run (guarded (Step (program 1)) StartsReady) startState
        (arrivals ++ [(.agent, 1), (.listener .tobacco, 0),
          (.listener .aMatch, 0), (.smoker .paper, 0), (.agent, 0)]) state ∧
      state.status .agent = .finished ∧ Asserted 1 state.shared := by
  have returned : (replay
      (restrict StartsReady (perform threads (program 1))) startState
        (arrivals ++ [(.agent, 1), (.listener .tobacco, 0),
          (.listener .aMatch, 0), (.smoker .paper, 0),
          (.agent, 0)])).map (fun state =>
            decide (∀ thread ∈ threads, state.status thread ≠ .ready)) =
        some true := by
    decide +kernel
  obtain ⟨state, replayed, nobody⟩ := Option.map_eq_some_iff.mp returned
  have run := Run.of_replay
    (restrict_sound (step_of_perform mem_threads)) replayed
  have halted : ∀ action after,
      ¬guarded (Step (program 1)) StartsReady state action after := by
    intro action after taken
    cases taken.1 with
    | run ready _ _ =>
        exact of_decide_eq_true nobody _ (mem_threads _) ready
  have ends := startState_completes run halted
  exact ⟨state, run, ends.1, ends.2.1⟩

end Ends

end SystemsLabs.Smokers

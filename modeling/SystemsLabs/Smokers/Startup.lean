import SystemsLabs.Smokers.Steady

/-!
# The start of the smokers

`main` creates the seven threads, and the agent is to signal only once all
others wait.  `num_active_threads` counts the smokers before they wait and
counts no listener, and nobody wakes the agent when it changes.  The protocol
works in the runs in which the agent does not get the mutex before all helpers
wait.
-/

namespace SystemsLabs.Smokers

open Monitor Transition

/-- The threads have been created and none has run. -/
def startState : State :=
  { shared :=
      { sum := 0
        numActiveThreads := 0
        signalCount := fun _ => 0
        smokeCount := fun _ => 0 }
    place := fun _ => .start
    status := fun _ => .ready
    lost := 0 }

/-- The agent signals only when all helpers wait, and until it has finished
some thread can go on. -/
structure Started (iterations : Nat)
    (step : State → Thread × Fin 3 → State → Prop) (state : State) :
    Prop where
  signalsReady : ∀ choice after, step state (.agent, choice) after →
    (program iterations .agent (state.place .agent) choice
      state.shared).signals ≠ [] → HelpersBlocked state
  progress : state.status .agent ≠ .finished →
    ∃ action after, step state action after

/-- The agent takes its first step when all helpers wait. -/
def StartsReady (state : State) (action : Thread × Fin 3) : Prop :=
  action.1 = .agent → state.place .agent = .start → HelpersBlocked state

instance (state : State) : Decidable (HelpersBlocked state) :=
  decidable_of_iff (∀ thread ∈ threads, thread ≠ .agent →
      state.status thread = .waiting (home thread))
    ⟨fun blocked thread => blocked thread (mem_threads thread),
      fun blocked thread _ => blocked thread⟩

instance (state : State) (action : Thread × Fin 3) :
    Decidable (StartsReady state action) :=
  inferInstanceAs (Decidable (_ → _ → _))

/-- Where a listener or a smoker can be before the first signal. -/
inductive Arriving (state : State) (thread : Thread) : Prop where
  | created : state.place thread = .start → state.status thread = .ready →
      Arriving state thread
  | counted {resource : Resource} : thread = .smoker resource →
      state.place thread = .counted → state.status thread = .ready →
      Arriving state thread
  | arrived : state.place thread = .waited →
      state.status thread = .waiting (home thread) → Arriving state thread

/-- Whether a smoker has counted itself. -/
def counts (state : State) (resource : Resource) : Nat :=
  if state.place (.smoker resource) = .start then 0 else 1

structure Starting (state : State) : Prop where
  agentPlace : state.place .agent = .start
  agentReady : state.status .agent = .ready
  helpers : ∀ thread, thread ≠ .agent → Arriving state thread
  sum_eq : state.shared.sum = 0
  signalCount : ∀ resource, state.shared.signalCount resource = 0
  smokeCount : ∀ resource, state.shared.smokeCount resource = 0
  numActiveThreads : state.shared.numActiveThreads =
    counts state .aMatch + counts state .paper + counts state .tobacco
  nothingLost : state.lost = 0

theorem startState_starting : Starting startState := by
  refine ⟨rfl, rfl, ?_, rfl, fun _ => rfl, fun _ => rfl, rfl, rfl⟩
  intro thread _
  exact .created rfl rfl

namespace Starting

variable {state after : State} {choice : Fin 3} {iterations : Nat}

/-- The agent's first step, once all helpers wait, is that of its loop. -/
theorem agent_step (starting : Starting state)
    (blocked : HelpersBlocked state)
    (taken : Step (program iterations) state (.agent, choice) after) :
    Steady after := by
  have arrived : ∀ thread, thread ≠ .agent → state.place thread = .waited := by
    intro thread notAgent
    have waits := blocked thread notAgent
    cases starting.helpers thread notAgent with
    | created _ ready =>
        rw [ready] at waits
        cases waits
    | counted _ _ ready =>
        rw [ready] at waits
        cases waits
    | arrived place _ => exact place
  have active : state.shared.numActiveThreads = 3 := by
    rw [starting.numActiveThreads, counts, counts, counts, arrived _ (by simp),
      arrived _ (by simp), arrived _ (by simp)]
    rfl
  let looping : State :=
    { state with place := Function.update state.place .agent (.iteration 0) }
  have steady : Steady looping := by
    refine ⟨?_, ⟨0, Function.update_self .agent (.iteration 0) state.place⟩,
      starting.nothingLost, .idle ⟨?_, starting.sum_eq, ?_⟩⟩
    · intro thread notAgent
      exact (Function.update_of_ne notAgent _ state.place).trans
        (arrived thread notAgent)
    · intro thread
      by_cases same : thread = .agent
      · subst same
        exact starting.agentReady
      · rw [if_neg (by rwa [Finset.mem_singleton])]
        exact blocked thread same
    · intro resource
      exact (starting.signalCount resource).trans
        (starting.smokeCount resource).symm
  have sameTaken : Step (program iterations) looping (.agent, choice) after := by
    have sameStretch : program iterations .agent (looping.place .agent) choice
        state.shared = program iterations .agent (state.place .agent) choice
          state.shared := by
      have enough : ¬state.shared.numActiveThreads < 3 := by
        rw [active]
        decide
      have place : looping.place .agent = .iteration 0 :=
        Function.update_self .agent (.iteration 0) state.place
      rw [place, starting.agentPlace]
      simp only [program, agent, if_neg enough]
    cases taken with
    | run ready runs signals =>
        have stepped : Step (program iterations) looping (.agent, choice) _ :=
          .run ready (sameStretch.trans runs) signals
        simpa only [looping, Function.update_idem] using stepped
  exact steady.step sameTaken

/-- The state after a step of a helper that signals nothing. -/
def moved (state : State) (thread : Thread) (shared : Shared) (place : Place)
    (status : Status Condition) : State :=
  { shared := shared
    place := Function.update state.place thread place
    status := Function.update state.status thread status
    lost := state.lost }

theorem eq_moved {thread : Thread} {shared : Shared} {place : Place}
    {status : Status Condition}
    (taken : Step (program iterations) state (thread, choice) after)
    (runs : program iterations thread (state.place thread) choice
        state.shared =
      { shared := shared
        signals := []
        place := place
        status := status }) :
    after = moved state thread shared place status := by
  cases taken with
  | run _ runsActual signals =>
      rw [runs] at runsActual
      subst runsActual
      cases signals
      rfl

theorem arriving_of_ne (starting : Starting state) {thread other : Thread}
    (different : other ≠ thread) (notAgent : other ≠ .agent)
    (shared : Shared) (place : Place) (status : Status Condition) :
    Arriving (moved state thread shared place status) other := by
  have samePlace : (moved state thread shared place status).place other =
      state.place other := Function.update_of_ne different _ _
  have sameStatus : (moved state thread shared place status).status other =
      state.status other := Function.update_of_ne different _ _
  cases starting.helpers other notAgent with
  | created start ready =>
      exact .created (samePlace.trans start) (sameStatus.trans ready)
  | counted smoker counted ready =>
      exact .counted smoker (samePlace.trans counted)
        (sameStatus.trans ready)
  | arrived waited waits =>
      exact .arrived (samePlace.trans waited) (sameStatus.trans waits)

theorem move (starting : Starting state) {thread : Thread}
    (notAgent : thread ≠ .agent) {place : Place} {status : Status Condition}
    (arriving : Arriving (moved state thread state.shared place status) thread)
    (counted : ∀ resource,
      counts (moved state thread state.shared place status) resource =
        counts state resource) :
    Starting (moved state thread state.shared place status) := by
  refine ⟨?_, ?_, ?_, starting.sum_eq, starting.signalCount,
    starting.smokeCount, ?_, starting.nothingLost⟩
  · exact (Function.update_of_ne notAgent.symm place state.place).trans
      starting.agentPlace
  · exact (Function.update_of_ne notAgent.symm status state.status).trans
      starting.agentReady
  · intro other otherNotAgent
    by_cases same : other = thread
    · rw [same]
      exact arriving
    · exact starting.arriving_of_ne same otherNotAgent _ _ _
  · rw [counted, counted, counted]
    exact starting.numActiveThreads

theorem counts_moved_of_ne {thread : Thread} {resource : Resource}
    (different : .smoker resource ≠ thread) (shared : Shared) (place : Place)
    (status : Status Condition) :
    counts (moved state thread shared place status) resource =
      counts state resource := by
  have same : (moved state thread shared place status).place
      (.smoker resource) = state.place (.smoker resource) :=
    Function.update_of_ne different _ _
  rw [counts, counts, same]

theorem counts_moved_self {resource : Resource} (shared : Shared)
    {place : Place} (started : place ≠ .start) (status : Status Condition) :
    counts (moved state (.smoker resource) shared place status) resource =
      1 := by
  have here : (moved state (.smoker resource) shared place status).place
      (.smoker resource) = place := Function.update_self _ _ _
  rw [counts, here, if_neg started]

theorem count (starting : Starting state) {resource : Resource}
    (start : state.place (.smoker resource) = .start) :
    Starting (moved state (.smoker resource)
      { state.shared with
        numActiveThreads := state.shared.numActiveThreads + 1 }
      .counted .ready) := by
  have notAgent : Thread.agent ≠ .smoker resource := by simp
  refine ⟨?_, ?_, ?_, starting.sum_eq, starting.signalCount,
    starting.smokeCount, ?_, starting.nothingLost⟩
  · exact (Function.update_of_ne notAgent Place.counted state.place).trans
      starting.agentPlace
  · exact (Function.update_of_ne notAgent Status.ready state.status).trans
      starting.agentReady
  · intro other otherNotAgent
    by_cases same : other = .smoker resource
    · rw [same]
      exact .counted rfl (Function.update_self _ _ _)
        (Function.update_self _ _ _)
    · exact starting.arriving_of_ne same otherNotAgent _ _ _
  · have before : counts state resource = 0 := by
      rw [counts, if_pos start]
    have total := starting.numActiveThreads
    have others : ∀ other, other ≠ resource →
        counts (moved state (.smoker resource)
          { state.shared with
            numActiveThreads := state.shared.numActiveThreads + 1 }
          .counted .ready) other = counts state other := by
      intro other different
      apply counts_moved_of_ne
      intro same
      exact different (Thread.smoker.inj same)
    have self : counts (moved state (.smoker resource)
        { state.shared with
          numActiveThreads := state.shared.numActiveThreads + 1 }
        .counted .ready) resource = 1 :=
      counts_moved_self _ (by decide) _
    change state.shared.numActiveThreads + 1 = _
    cases resource with
    | aMatch =>
        rw [self, others .paper (by decide), others .tobacco (by decide)]
        omega
    | paper =>
        rw [self, others .aMatch (by decide), others .tobacco (by decide)]
        omega
    | tobacco =>
        rw [self, others .aMatch (by decide), others .paper (by decide)]
        omega

theorem arrive (starting : Starting state) {thread : Thread}
    (notAgent : thread ≠ .agent)
    (counted : ∀ resource, thread = .smoker resource →
      state.place thread = .counted) :
    Starting (moved state thread state.shared .waited
      (.waiting (home thread))) := by
  apply starting.move notAgent
  · exact .arrived (Function.update_self _ _ _) (Function.update_self _ _ _)
  · intro resource
    by_cases same : .smoker resource = thread
    · subst same
      rw [counts_moved_self _ (by decide), counts, counted resource rfl,
        if_neg (by decide)]
    · exact counts_moved_of_ne same _ _ _

theorem helper_step (starting : Starting state) {thread : Thread}
    (notAgent : thread ≠ .agent)
    (taken : Step (program iterations) state (thread, choice) after) :
    Starting after := by
  have ready : state.status thread = .ready := by
    cases taken with
    | run ready _ _ => exact ready
  cases starting.helpers thread notAgent with
  | created start _ =>
      cases thread with
      | agent => exact (notAgent rfl).elim
      | listener resource =>
          have same : after = moved state (.listener resource) state.shared
              .waited (.waiting (home (.listener resource))) :=
            eq_moved taken (by rw [start]; cases resource <;> rfl)
          rw [same]
          exact starting.arrive notAgent (by simp)
      | smoker resource =>
          have same : after = moved state (.smoker resource)
              { state.shared with
                numActiveThreads := state.shared.numActiveThreads + 1 }
              .counted .ready :=
            eq_moved taken (by rw [start]; cases resource <;> rfl)
          rw [same]
          exact starting.count start
  | @counted resource same place _ =>
      subst same
      have same : after = moved state (.smoker resource) state.shared
          .waited (.waiting (home (.smoker resource))) :=
        eq_moved taken (by rw [place]; cases resource <;> rfl)
      rw [same]
      exact starting.arrive notAgent (fun _ _ => place)
  | arrived _ waits =>
      rw [ready] at waits
      cases waits

theorem exists_step (starting : Starting state) (iterations : Nat) :
    ∃ action after,
      guarded (Step (program iterations)) StartsReady state action after := by
  by_cases blocked : HelpersBlocked state
  · obtain ⟨after, taken⟩ :=
      step_of_ready (program iterations) starting.agentReady 0
    exact ⟨_, after, taken, fun _ _ => blocked⟩
  · obtain ⟨thread, notAll⟩ := not_forall.mp blocked
    obtain ⟨notAgent, notWaiting⟩ := Classical.not_imp.mp notAll
    have ready : state.status thread = .ready := by
      cases starting.helpers thread notAgent with
      | created _ ready => exact ready
      | counted _ _ ready => exact ready
      | arrived _ waits => exact (notWaiting waits).elim
    obtain ⟨after, taken⟩ := step_of_ready (program iterations) ready 0
    exact ⟨_, after, taken, fun same _ => (notAgent same).elim⟩

end Starting

theorem starting_or_steady_step {iterations : Nat} {before after : State}
    {action : Thread × Fin 3} (known : Starting before ∨ Steady before)
    (taken : guarded (Step (program iterations)) StartsReady before action
      after) : Starting after ∨ Steady after := by
  obtain ⟨thread, choice⟩ := action
  obtain ⟨taken, ready⟩ := taken
  rcases known with starting | steady
  · by_cases agent : thread = .agent
    · subst agent
      exact .inr (starting.agent_step (ready rfl starting.agentPlace) taken)
    · exact .inl (starting.helper_step agent taken)
  · exact .inr (steady.step taken)

/-- In every run in which the agent takes its first step after all helpers
wait, it signals only when they wait, and no state is stuck before it has
finished. -/
theorem startState_started {iterations : Nat}
    {actions : List (Thread × Fin 3)} {state : State}
    (run : Run (guarded (Step (program iterations)) StartsReady) startState
      actions state) :
    Started iterations (guarded (Step (program iterations)) StartsReady)
      state := by
  have initial : Starting startState ∨ Steady startState :=
    .inl startState_starting
  rcases run.invariant
    (fun known taken => starting_or_steady_step known taken) initial with
      starting | steady
  · refine ⟨?_, fun _ => starting.exists_step iterations⟩
    intro choice after taken _
    exact taken.2 rfl starting.agentPlace
  · have sound := steady.sound iterations
    constructor
    · intro choice after taken _
      apply (sound.returns _).1
      cases taken.1 with
      | run ready _ _ => exact ready
    · intro unfinished
      obtain ⟨action, after, taken⟩ := sound.progress unfinished
      refine ⟨action, after, taken, ?_⟩
      intro _ start
      obtain ⟨i, place⟩ := steady.agentAt
      rw [place] at start
      cases start

/-- The helpers arrive one after the other. -/
def arrivals : List (Thread × Fin 3) :=
  [.listener .aMatch, .listener .paper, .listener .tobacco, .smoker .aMatch,
    .smoker .paper, .smoker .tobacco, .smoker .aMatch, .smoker .paper,
    .smoker .tobacco].map fun thread => (thread, 0)

theorem arrivals_started :
    ∃ state,
      Run (guarded (Step (program 5)) StartsReady) startState
        (arrivals ++ [(.agent, 1), (.listener .aMatch, 0)]) state ∧
      Started 5 (guarded (Step (program 5)) StartsReady) state := by
  have returned : (replay
      (restrict StartsReady (perform threads (program 5))) startState
        (arrivals ++ [(.agent, 1), (.listener .aMatch, 0)])).isSome := by
    decide +kernel
  obtain ⟨state, replayed⟩ := Option.isSome_iff_exists.mp returned
  have run := Run.of_replay
    (restrict_sound (step_of_perform mem_threads)) replayed
  exact ⟨state, run, startState_started run⟩

/-- When the agent is the first to run, it waits for ever.  When it runs as
soon as the smokers have counted themselves, its signals are lost. -/
theorem arrivals_late :
    (∃ state,
      Run (Step (program 1000)) startState ((.agent, 0) :: arrivals) state ∧
      ¬Started 1000 (Step (program 1000)) state) ∧
    ∃ state after,
      Run (Step (program 1000)) startState
        [(.smoker .aMatch, 0), (.smoker .paper, 0), (.smoker .tobacco, 0)]
        state ∧
      Step (program 1000) state (.agent, 0) after ∧
      after.lost = 2 ∧ ¬Started 1000 (Step (program 1000)) state := by
  constructor
  · have returned : (replay (perform threads (program 1000)) startState
        ((.agent, 0) :: arrivals)).map (fun state =>
          decide (state.status .agent ≠ .finished ∧
            ∀ thread ∈ threads, state.status thread ≠ .ready)) =
        some true := by
      decide +kernel
    obtain ⟨state, replayed, stuck⟩ := Option.map_eq_some_iff.mp returned
    obtain ⟨unfinished, nobody⟩ := of_decide_eq_true stuck
    refine ⟨state, Run.of_replay (step_of_perform mem_threads) replayed, ?_⟩
    intro started
    obtain ⟨⟨thread, choice⟩, after, taken⟩ := started.progress unfinished
    cases taken with
    | run ready _ _ => exact nobody thread (mem_threads thread) ready
  · have returned : (replay (perform threads (program 1000)) startState
        [(.smoker .aMatch, 0), (.smoker .paper, 0),
          (.smoker .tobacco, 0)]).map (fun state =>
            (decide ((program 1000 .agent (state.place .agent) 0
                state.shared).signals ≠ [] ∧ ¬HelpersBlocked state),
              (perform threads (program 1000) state (.agent, 0)).map
                System.lost)) = some (true, some 2) := by
      decide +kernel
    obtain ⟨state, replayed, both⟩ := Option.map_eq_some_iff.mp returned
    obtain ⟨signals, next⟩ := Prod.mk.inj both
    obtain ⟨signals, late⟩ := of_decide_eq_true signals
    obtain ⟨after, performed, lost⟩ := Option.map_eq_some_iff.mp next
    have taken := step_of_perform mem_threads performed
    refine ⟨state, after, Run.of_replay (step_of_perform mem_threads) replayed,
      taken, lost, ?_⟩
    intro started
    exact late (started.signalsReady 0 after taken signals)

end SystemsLabs.Smokers

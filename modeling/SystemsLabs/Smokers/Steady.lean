import SystemsLabs.Smokers.Code
import Mathlib.Data.Finset.Basic

/-!
# The smokers once every thread waits

A round of the protocol goes through four phases: the agent is ready, then the
two listeners it signalled, then one of them, then the smoker.  `Phase` says
which threads are ready in each and what `sum` and the counters hold.
-/

namespace SystemsLabs.Smokers

open Monitor Transition

/-- Two resources and the one that the smoker of a round has. -/
structure Triple (left right own : Resource) : Prop where
  apart : left ≠ right
  left_ne : left ≠ own
  right_ne : right ≠ own

/-- The ready threads, the sum and the resource of the smoker whose turn it is.
The other threads wait, each on its own condition variable. -/
structure Holds (state : State) (ready : Finset Thread) (sum : Nat)
    (turn : Option Resource) : Prop where
  rests : Rests home ready state.status
  sum_eq : state.shared.sum = sum
  counts : ∀ resource, state.shared.signalCount resource =
    state.shared.smokeCount resource + if turn = some resource then 1 else 0

inductive Phase (state : State) : Prop where
  | idle : Holds state {.agent} 0 none → Phase state
  | offered {left right own : Resource} : Triple left right own →
      Holds state {.listener left, .listener right} 0 (some own) →
      Phase state
  | half {left right own : Resource} : Triple left right own →
      Holds state {.listener right} left.value (some own) → Phase state
  | lit {own : Resource} : Holds state {.smoker own} 0 (some own) →
      Phase state
  | done {before : State} : Holds before {.agent} 0 none →
      state.shared = before.shared →
      state.status =
        Function.update before.status .agent .finished → Phase state

/-- The state of the threads after start-up. -/
structure Steady (state : State) : Prop where
  helpers : ∀ thread, thread ≠ .agent → state.place thread = .waited
  agentAt : ∃ i, state.place .agent = .iteration i
  nothingLost : state.lost = 0
  phase : Phase state

section Stretches

variable {shared : Shared} {choice : Fin 3} {iterations : Nat}

theorem agentSignals_eq (r : Fin 3) :
    ∃ left right, Triple left right (matchingSmoker r) ∧
      agentSignals (choices r) =
        [Thread.listener left, .listener right].map home := by
  match r with
  | 0 => exact ⟨.aMatch, .paper, by constructor <;> decide, rfl⟩
  | 1 => exact ⟨.aMatch, .tobacco, by constructor <;> decide, rfl⟩
  | 2 => exact ⟨.paper, .tobacco, by constructor <;> decide, rfl⟩

theorem listener_first (resource : Resource) (empty : shared.sum = 0) :
    program iterations (.listener resource) .waited choice shared =
      { shared := { shared with sum := resource.value }
        signals := []
        place := .waited
        status := .waiting (home (.listener resource)) } := by
  cases resource with
  | aMatch => simp [program, matchListener, listener, empty, Resource.value,
      home]
  | paper => simp [program, paperListener, listener, empty, Resource.value,
      home]
  | tobacco => simp [program, tobaccoListener, listener, empty,
      Resource.value, home]

/-- The second listener finds which smoker has what is missing. -/
theorem listener_second {left right own : Resource}
    (triple : Triple left right own) (half : shared.sum = left.value) :
    program iterations (.listener right) .waited choice shared =
      { shared := { shared with sum := 0 }
        signals := [Thread.smoker own].map home
        place := .waited
        status := .waiting (home (.listener right)) } := by
  obtain ⟨apart, left_ne, right_ne⟩ := triple
  cases left <;> cases right <;> cases own <;>
    first
      | contradiction
      | simp [program, matchListener, paperListener, tobaccoListener,
          listener, half, Resource.value, home]

theorem smoker_waited (resource : Resource) :
    program iterations (.smoker resource) .waited choice shared =
      { shared :=
          { shared with
            smokeCount := Function.update shared.smokeCount resource
              (shared.smokeCount resource + 1) }
        signals := [Thread.agent].map home
        place := .waited
        status := .waiting (home (.smoker resource)) } := by
  cases resource <;> rfl

end Stretches

namespace Holds

variable {state after : State} {choice : Fin 3} {iterations : Nat}

theorem helper {ready : Finset Thread} {sum : Nat} {turn : Option Resource}
    (holds : Holds state ready sum turn) {thread : Thread}
    (place : state.place thread = .waited)
    (taken : Step (program iterations) state (thread, choice) after)
    {shared : Shared} (woken : List Thread)
    (runs : program iterations thread .waited choice state.shared =
      { shared := shared
        signals := woken.map home
        place := .waited
        status := .waiting (home thread) })
    (nodup : woken.Nodup) (waiting : ∀ other ∈ woken, other ∉ ready) :
    Rests home ((ready ∪ woken.toFinset).erase thread) after.status ∧
      after.shared = shared ∧ after.place = state.place ∧
      after.lost = state.lost := by
  rw [← place] at runs
  obtain ⟨rests, sharedEq, placeEq, lost⟩ := taken.rests home_injective
    holds.rests runs woken rfl nodup waiting rfl
  exact ⟨rests, sharedEq, placeEq.trans (Function.update_eq_self _ _), lost⟩

theorem agent_step {turn : Option Resource} {sum i : Nat}
    (holds : Holds state {.agent} sum turn)
    (place : state.place .agent = .iteration i)
    (taken : Step (program iterations) state (.agent, choice) after)
    (more : i < iterations) :
    ∃ left right, Triple left right (matchingSmoker choice) ∧
      Rests home {.listener left, .listener right} after.status ∧
      after.shared =
        { state.shared with
          signalCount := Function.update state.shared.signalCount
            (matchingSmoker choice)
            (state.shared.signalCount (matchingSmoker choice) + 1) } ∧
      after.place =
        Function.update state.place .agent (.iteration (i + 1)) ∧
      after.lost = state.lost := by
  obtain ⟨left, right, triple, signals⟩ := agentSignals_eq choice
  have apart : Thread.listener left ≠ .listener right := fun same =>
    triple.apart (Thread.listener.inj same)
  obtain ⟨rests, shared, placeEq, lost⟩ := taken.rests home_injective
    holds.rests (by simp only [program, agent, place, agentIteration,
      if_pos more]; rfl) [.listener left, .listener right] signals
    (by simpa using apart) (by simp) rfl
  have ready : ({.agent} ∪ [Thread.listener left, .listener right].toFinset :
      Finset Thread).erase .agent = {.listener left, .listener right} := by
    ext thread
    cases thread <;> simp
  rw [ready] at rests
  exact ⟨left, right, triple, rests, shared, placeEq, lost⟩

theorem not_ready_of_done {sum : Nat} {turn : Option Resource}
    (holds : Holds state {.agent} sum turn) (thread : Thread) :
    Function.update state.status .agent .finished thread ≠ .ready := by
  by_cases same : thread = .agent
  · rw [same, Function.update_self]
    exact fun finished => nomatch finished
  · rw [Function.update_of_ne same,
      holds.rests.waiting (by rwa [Finset.mem_singleton])]
    exact fun waiting => nomatch waiting

end Holds

namespace Steady

variable {state after : State} {action : Thread × Fin 3} {iterations : Nat}

theorem idle_step (steady : Steady state)
    (holds : Holds state {.agent} 0 none)
    (taken : Step (program iterations) state action after) :
    Steady after := by
  obtain ⟨thread, choice⟩ := action
  have ready : thread = .agent := by
    cases taken with
    | run ready _ _ =>
        exact Finset.mem_singleton.mp (holds.rests.ready_iff.mp ready)
  subst ready
  obtain ⟨i, place⟩ := steady.agentAt
  by_cases more : i < iterations
  · obtain ⟨left, right, triple, rests, shared, placeEq, lost⟩ :=
      holds.agent_step place taken more
    refine ⟨?_, ⟨i + 1, ?_⟩, lost.trans steady.nothingLost,
      .offered triple ⟨rests, ?_, ?_⟩⟩
    · intro other notAgent
      rw [placeEq, Function.update_of_ne notAgent]
      exact steady.helpers other notAgent
    · rw [placeEq, Function.update_self]
    · rw [shared]
      exact holds.sum_eq
    · intro resource
      rw [shared]
      by_cases same : resource = matchingSmoker choice
      · subst same
        simpa using holds.counts (matchingSmoker choice)
      · have other : ¬matchingSmoker choice = resource := fun equal =>
          same equal.symm
        simpa [Function.update_of_ne same, other] using holds.counts resource
  · have finishes : program iterations .agent (state.place .agent) choice
        state.shared =
          { shared := state.shared
            signals := []
            place := .iteration i
            status := .finished } := by
      simp only [program, agent, place, agentIteration, if_neg more]
    cases taken with
    | run _ runs signals =>
        rw [finishes] at runs
        subst runs
        cases signals
        refine ⟨?_, ⟨i, ?_⟩, steady.nothingLost, .done holds rfl rfl⟩
        · intro other notAgent
          exact (Function.update_of_ne notAgent _ _).trans
            (steady.helpers other notAgent)
        · exact Function.update_self Thread.agent (Place.iteration i)
            state.place

theorem offered_step {left right own : Resource} {choice : Fin 3}
    (steady : Steady state) (triple : Triple left right own)
    (holds : Holds state {.listener left, .listener right} 0 (some own))
    (taken : Step (program iterations) state (.listener left, choice) after) :
    Steady after := by
  obtain ⟨rests, shared, place, lost⟩ := holds.helper
    (steady.helpers (.listener left) (by simp)) taken []
    (listener_first left holds.sum_eq) List.nodup_nil (by simp)
  have ready : ({.listener left, .listener right} ∪ [].toFinset :
      Finset Thread).erase (.listener left) = {.listener right} := by
    have apart : Thread.listener left ∉ ({.listener right} : Finset Thread) := by
      simpa using triple.apart
    rw [List.toFinset_nil, Finset.union_empty]
    exact Finset.erase_insert apart
  rw [ready] at rests
  refine ⟨?_, ?_, lost.trans steady.nothingLost,
    .half triple ⟨rests, ?_, ?_⟩⟩
  · rw [place]
    exact steady.helpers
  · rw [place]
    exact steady.agentAt
  · rw [shared]
  · rw [shared]
    exact holds.counts

theorem half_step {left right own : Resource} {choice : Fin 3}
    (steady : Steady state) (triple : Triple left right own)
    (holds : Holds state {.listener right} left.value (some own))
    (taken : Step (program iterations) state (.listener right, choice) after) :
    Steady after := by
  obtain ⟨rests, shared, place, lost⟩ := holds.helper
    (steady.helpers (.listener right) (by simp)) taken [.smoker own]
    (listener_second triple holds.sum_eq) (List.nodup_singleton _) (by simp)
  have ready : ({.listener right} ∪ [.smoker own].toFinset :
      Finset Thread).erase (.listener right) = {.smoker own} := by
    ext thread
    cases thread <;> simp
  rw [ready] at rests
  refine ⟨?_, ?_, lost.trans steady.nothingLost, .lit ⟨rests, ?_, ?_⟩⟩
  · rw [place]
    exact steady.helpers
  · rw [place]
    exact steady.agentAt
  · rw [shared]
  · rw [shared]
    exact holds.counts

theorem lit_step {own : Resource} {choice : Fin 3} (steady : Steady state)
    (holds : Holds state {.smoker own} 0 (some own))
    (taken : Step (program iterations) state (.smoker own, choice) after) :
    Steady after := by
  obtain ⟨rests, shared, place, lost⟩ := holds.helper
    (steady.helpers (.smoker own) (by simp)) taken [.agent]
    (smoker_waited own) (List.nodup_singleton _) (by simp)
  have ready : ({.smoker own} ∪ [.agent].toFinset : Finset Thread).erase
      (.smoker own) = {.agent} := by
    ext thread
    cases thread <;> simp
  rw [ready] at rests
  refine ⟨?_, ?_, lost.trans steady.nothingLost, .idle ⟨rests, ?_, ?_⟩⟩
  · rw [place]
    exact steady.helpers
  · rw [place]
    exact steady.agentAt
  · rw [shared]
    exact holds.sum_eq
  · intro resource
    rw [shared]
    have counts := holds.counts resource
    by_cases same : resource = own
    · subst same
      simpa using counts
    · have other : ¬own = resource := fun equal => same equal.symm
      simpa [Function.update_of_ne same, other] using counts

/-- Whichever thread gets the mutex, the round goes on. -/
theorem step (steady : Steady state)
    (taken : Step (program iterations) state action after) :
    Steady after := by
  obtain ⟨thread, choice⟩ := action
  have ready : state.status thread = .ready := by
    cases taken with
    | run ready _ _ => exact ready
  cases steady.phase with
  | idle holds => exact steady.idle_step holds taken
  | @offered left right own triple holds =>
      have member := holds.rests.ready_iff.mp ready
      simp only [Finset.mem_insert, Finset.mem_singleton] at member
      rcases member with rfl | rfl
      · exact steady.offered_step triple holds taken
      · rw [Finset.pair_comm] at holds
        exact steady.offered_step
          ⟨triple.apart.symm, triple.right_ne, triple.left_ne⟩ holds taken
  | half triple holds =>
      have same := Finset.mem_singleton.mp (holds.rests.ready_iff.mp ready)
      subst same
      exact steady.half_step triple holds taken
  | lit holds =>
      have same := Finset.mem_singleton.mp (holds.rests.ready_iff.mp ready)
      subst same
      exact steady.lit_step holds taken
  | done holds _ status =>
      rw [status] at ready
      exact (holds.not_ready_of_done thread ready).elim

theorem run {first last : State} {actions : List (Thread × Fin 3)}
    (steady : Steady first)
    (run : Run (Step (program iterations)) first actions last) :
    Steady last :=
  run.invariant (fun before taken => before.step taken) steady

/-- Until the agent has finished, some thread is ready. -/
theorem exists_ready (steady : Steady state)
    (unfinished : state.status .agent ≠ .finished) :
    ∃ thread, state.status thread = .ready := by
  cases steady.phase with
  | idle holds =>
      exact ⟨_, holds.rests.ready_iff.mpr (Finset.mem_singleton_self _)⟩
  | offered _ holds =>
      exact ⟨_, holds.rests.ready_iff.mpr (Finset.mem_insert_self _ _)⟩
  | half _ holds =>
      exact ⟨_, holds.rests.ready_iff.mpr (Finset.mem_singleton_self _)⟩
  | lit holds =>
      exact ⟨_, holds.rests.ready_iff.mpr (Finset.mem_singleton_self _)⟩
  | done _ _ status =>
      rw [status, Function.update_self] at unfinished
      exact (unfinished rfl).elim

theorem holds_of_agent_ready (steady : Steady state)
    (ready : state.status .agent = .ready) : Holds state {.agent} 0 none := by
  cases steady.phase with
  | idle holds => exact holds
  | offered _ holds => simp [holds.rests.ready_iff] at ready
  | half _ holds => simp [holds.rests.ready_iff] at ready
  | lit holds => simp [holds.rests.ready_iff] at ready
  | done holds _ status =>
      rw [status] at ready
      exact (holds.not_ready_of_done .agent ready).elim

end Steady

/-- All listeners and smokers wait on their own condition variables. -/
def HelpersBlocked (state : State) : Prop :=
  ∀ thread, thread ≠ .agent → state.status thread = .waiting (home thread)

/-- What holds between two steps of the protocol. -/
structure Sound (iterations : Nat) (state : State) : Prop where
  nothingLost : state.lost = 0
  sums : state.shared.sum ∈ [0, 1, 2, 4]
  /-- The agent has returned from its wait. -/
  returns : state.status .agent = .ready →
    HelpersBlocked state ∧ state.shared.sum = 0 ∧
      ∀ resource, state.shared.signalCount resource =
        state.shared.smokeCount resource
  progress : state.status .agent ≠ .finished →
    ∃ action after, Step (program iterations) state action after

theorem Steady.sound {state : State} (steady : Steady state)
    (iterations : Nat) : Sound iterations state := by
  refine ⟨steady.nothingLost, ?_, ?_, ?_⟩
  · cases steady.phase with
    | idle holds => simp [holds.sum_eq]
    | offered _ holds => simp [holds.sum_eq]
    | @half left _ _ _ holds =>
        rw [holds.sum_eq]
        cases left <;> decide
    | lit holds => simp [holds.sum_eq]
    | done holds shared _ => simp [shared, holds.sum_eq]
  · intro ready
    have holds := steady.holds_of_agent_ready ready
    refine ⟨?_, holds.sum_eq, holds.counts⟩
    intro thread notAgent
    exact holds.rests.waiting (by rwa [Finset.mem_singleton])
  · intro unfinished
    obtain ⟨thread, ready⟩ := steady.exists_ready unfinished
    obtain ⟨after, taken⟩ := step_of_ready (program iterations) ready 0
    exact ⟨_, after, taken⟩

/-- Every helper waits and the agent is about to enter its loop. -/
def steadyState (numActiveThreads : Nat) : State :=
  { shared :=
      { sum := 0
        numActiveThreads := numActiveThreads
        signalCount := fun _ => 0
        smokeCount := fun _ => 0 }
    place := Function.update (fun _ => .waited) .agent (.iteration 0)
    status := fun thread =>
      if thread = .agent then .ready else .waiting (home thread)
    lost := 0 }

theorem steadyState_steady (numActiveThreads : Nat) :
    Steady (steadyState numActiveThreads) := by
  refine ⟨?_, ⟨0, rfl⟩, rfl, .idle ⟨?_, rfl, fun _ => rfl⟩⟩
  · intro thread notAgent
    exact Function.update_of_ne notAgent (Place.iteration 0)
      fun _ => Place.waited
  · intro thread
    simp only [steadyState, Finset.mem_singleton]

/-- The protocol is sound in every state that it reaches, for any number of
iterations, any random choices and any order of the threads. -/
theorem steadyState_sound {iterations numActiveThreads : Nat}
    {actions : List (Thread × Fin 3)} {state : State}
    (run : Run (Step (program iterations)) (steadyState numActiveThreads)
      actions state) : Sound iterations state :=
  ((steadyState_steady numActiveThreads).run run).sound iterations

/-- A round with the tobacco listener first. -/
theorem steadyState_round :
    ∃ state, Run (Step (program 5)) (steadyState 3)
        [(.agent, 2), (.listener .tobacco, 0), (.listener .paper, 0),
          (.smoker .aMatch, 0)] state ∧
      Sound 5 state := by
  have returned : (replay (perform threads (program 5)) (steadyState 3)
      [(.agent, 2), (.listener .tobacco, 0), (.listener .paper, 0),
        (.smoker .aMatch, 0)]).isSome := by
    decide +kernel
  obtain ⟨state, replayed⟩ := Option.isSome_iff_exists.mp returned
  have run := Run.of_replay (step_of_perform mem_threads) replayed
  exact ⟨state, run, steadyState_sound run⟩

end SystemsLabs.Smokers

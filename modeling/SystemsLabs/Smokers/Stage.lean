import SystemsLabs.Smokers.Cast

/-!
# The stages of a run

A run from the creation of the threads is logged: the agent draws a smoker and a
smoker smokes.  `Stage` says how far it has come and how many steps are left;
every step, of any thread, leads from one stage to the next.
-/

namespace SystemsLabs.Smokers

open Monitor Transition

inductive Event where
  | draws (resource : Resource)
  | smokes (resource : Resource)
deriving DecidableEq

/-- What a step shows.  The agent signals when it has drawn; a smoker smokes
when it returns from its wait. -/
def observe (iterations : Nat) (state : State) :
    Thread × Fin 3 → Option Event
  | (.agent, r) =>
      if (program iterations .agent (state.place .agent) r
          state.shared).signals = [] then none
      else some (.draws (matchingSmoker r))
  | (.smoker resource, _) =>
      if state.place (.smoker resource) = .waited then
        some (.smokes resource)
      else none
  | (.listener _, _) => none

/-- The log of rounds that are over. -/
def rounds (served : List Resource) : List Event :=
  served.flatMap fun resource => [.draws resource, .smokes resource]

theorem rounds_append (served : List Resource) (resource : Resource) :
    rounds (served ++ [resource]) =
      rounds served ++ [.draws resource] ++ [.smokes resource] := by
  simp [rounds]

/-- What the counters hold when the smokers in `served` have smoked and the one
in `turn` is to smoke next. -/
structure Books (shared : Shared) (sum : Nat) (served : List Resource)
    (turn : Option Resource) : Prop where
  sum_eq : shared.sum = sum
  smokes : ∀ resource, shared.smokeCount resource = served.count resource
  signals : ∀ resource, shared.signalCount resource =
    shared.smokeCount resource + if turn = some resource then 1 else 0

/-- How far a run has come.  `left` is the number of steps up to its end, apart
from those of helpers on their way, and `skipped` how many of the steps of a
full run it has missed. -/
inductive Stage (iterations : Nat) (state : State) :
    List Event → (left skipped : Nat) → Prop where
  | idle {served : List Resource} :
      served.length ≤ iterations →
      Cast state.place state.status ∅ .ready →
      Books state.shared 0 served none →
      (state.place .agent = .iteration served.length ∨
        state.place .agent = .start ∧ served = []) →
      Stage iterations state (rounds served)
        (4 * (iterations - served.length) + 1) 0
  | offered {served : List Resource} {left right own : Resource} :
      served.length < iterations →
      Triple left right own →
      Cast state.place state.status {.listener left, .listener right}
        (.waiting .smoke) →
      Books state.shared 0 served (some own) →
      state.place .agent = .iteration (served.length + 1) →
      Stage iterations state (rounds served ++ [.draws own])
        (4 * (iterations - served.length)) 0
  | half {served : List Resource} {left right own : Resource} :
      served.length < iterations →
      Triple left right own →
      Cast state.place state.status {.listener right} (.waiting .smoke) →
      Books state.shared left.value served (some own) →
      state.place .agent = .iteration (served.length + 1) →
      Stage iterations state (rounds served ++ [.draws own])
        (4 * (iterations - served.length) - 1) 0
  | lit {served : List Resource} {own : Resource} :
      served.length < iterations →
      Cast state.place state.status {.smoker own} (.waiting .smoke) →
      Books state.shared 0 served (some own) →
      state.place .agent = .iteration (served.length + 1) →
      Stage iterations state (rounds served ++ [.draws own])
        (4 * (iterations - served.length) - 2) 0
  /-- One of the two signals of the agent was lost. -/
  | lone {served : List Resource} {resource own : Resource}
      {skipped : Nat} :
      Cast state.place state.status {.listener resource} (.waiting .smoke) →
      Books state.shared 0 served (some own) →
      0 < state.lost →
      Stage iterations state (rounds served ++ [.draws own]) 1 skipped
  /-- The agent waits for ever. -/
  | stuck {served : List Resource} {turn : Option Resource}
      {sum skipped : Nat} :
      Cast state.place state.status ∅ (.waiting .smoke) →
      Books state.shared sum served turn →
      0 < state.lost ∨ state.place .agent = .start →
      Stage iterations state (rounds served ++ (turn.map .draws).toList) 0
        skipped
  | done {served : List Resource} :
      served.length = iterations →
      Cast state.place state.status ∅ .finished →
      Books state.shared 0 served none →
      Stage iterations state (rounds served) 0 0

namespace Stage

variable {iterations left skipped : Nat} {state after : State}
  {log : List Event} {thread : Thread} {choice : Fin 3}

theorem cast (stage : Stage iterations state log left skipped) :
    ∃ woken agentStatus,
      Cast state.place state.status woken agentStatus := by
  cases stage with
  | idle _ cast _ _ => exact ⟨_, _, cast⟩
  | offered _ _ cast _ _ => exact ⟨_, _, cast⟩
  | half _ _ cast _ _ => exact ⟨_, _, cast⟩
  | lit _ cast _ _ => exact ⟨_, _, cast⟩
  | lone cast _ _ => exact ⟨_, _, cast⟩
  | stuck cast _ _ => exact ⟨_, _, cast⟩
  | done _ cast _ => exact ⟨_, _, cast⟩

/-- What a helper leaves alone on its way to its first wait. -/
structure Travels (state after : State) : Prop where
  sum_eq : after.shared.sum = state.shared.sum
  signalCount : after.shared.signalCount = state.shared.signalCount
  smokeCount : after.shared.smokeCount = state.shared.smokeCount
  agentPlace : after.place .agent = state.place .agent
  lost : after.lost = state.lost
  cast : ∀ {woken : Finset Thread} {agentStatus : Status Condition},
    Cast state.place state.status woken agentStatus →
      Cast after.place after.status woken agentStatus

theorem Travels.books {sum : Nat} {served : List Resource}
    {turn : Option Resource} (travels : Travels state after)
    (books : Books state.shared sum served turn) :
    Books after.shared sum served turn := by
  refine ⟨travels.sum_eq.trans books.sum_eq, ?_, ?_⟩
  · rw [travels.smokeCount]
    exact books.smokes
  · rw [travels.smokeCount, travels.signalCount]
    exact books.signals

theorem travelled (stage : Stage iterations state log left skipped)
    (travels : Travels state after) :
    Stage iterations after log left skipped := by
  have agentPlace := travels.agentPlace
  cases stage with
  | idle few cast books place =>
      rw [← agentPlace] at place
      exact .idle few (travels.cast cast) (travels.books books) place
  | offered few triple cast books place =>
      exact .offered few triple (travels.cast cast) (travels.books books)
        (agentPlace.trans place)
  | half few triple cast books place =>
      exact .half few triple (travels.cast cast) (travels.books books)
        (agentPlace.trans place)
  | lit few cast books place =>
      exact .lit few (travels.cast cast) (travels.books books)
        (agentPlace.trans place)
  | lone cast books lost =>
      rw [← travels.lost] at lost
      exact .lone (travels.cast cast) (travels.books books) lost
  | stuck cast books reason =>
      rw [← travels.lost, ← agentPlace] at reason
      exact .stuck (travels.cast cast) (travels.books books) reason
  | done all cast books =>
      exact .done all (travels.cast cast) (travels.books books)

theorem travels_moved (notAgent : thread ≠ .agent)
    (travelling : state.place thread ≠ .waited) (numActiveThreads : Nat)
    {next : Place} {status : Status Condition}
    (arrives : next = .waited ∧ status = .waiting (home thread) ∨
      (∃ resource, thread = .smoker resource) ∧ next = .counted ∧
        status = .ready) :
    Travels state (Starting.moved state thread
      { state.shared with numActiveThreads := numActiveThreads } next
      status) := by
  refine ⟨rfl, rfl, rfl, Function.update_of_ne notAgent.symm _ _, rfl, ?_⟩
  intro woken agentStatus cast
  have absent : thread ∉ woken := fun member =>
    travelling (cast.woken_ready notAgent member).1
  apply cast.move notAgent fun _ _ => Iff.rfl
  rcases arrives with ⟨rfl, rfl⟩ | ⟨⟨resource, rfl⟩, rfl, rfl⟩
  · exact .arrived (Function.update_self _ _ _)
      ((Function.update_self _ _ _).trans (if_neg absent).symm)
  · exact .counted rfl (Function.update_self _ _ _)
      (Function.update_self _ _ _) absent

/-- A helper in front of its first wait makes one step of its journey. -/
theorem travel {woken : Finset Thread} {agentStatus : Status Condition}
    (cast : Cast state.place state.status woken agentStatus)
    (notAgent : thread ≠ .agent) (travelling : state.place thread ≠ .waited)
    (taken : Step (program iterations) state (thread, choice) after) :
    Travels state after ∧ observe iterations state (thread, choice) = none ∧
      journey after.place + 1 = journey state.place := by
  have silent : observe iterations state (thread, choice) = none := by
    cases thread with
    | agent => exact (notAgent rfl).elim
    | listener resource => rfl
    | smoker resource => exact if_neg travelling
  cases cast.helpers thread notAgent with
  | created start _ _ =>
      cases thread with
      | agent => exact (notAgent rfl).elim
      | listener resource =>
          have same : after = Starting.moved state (.listener resource)
              state.shared .waited (.waiting (home (.listener resource))) :=
            Starting.eq_moved taken (by rw [start]; cases resource <;> rfl)
          rw [same]
          refine ⟨travels_moved notAgent travelling
            state.shared.numActiveThreads (.inl ⟨rfl, rfl⟩), silent, ?_⟩
          have steps := journey_update state.place (.listener resource) .waited
          rw [start] at steps
          exact steps
      | smoker resource =>
          have same : after = Starting.moved state (.smoker resource)
              { state.shared with
                numActiveThreads := state.shared.numActiveThreads + 1 }
              .counted .ready :=
            Starting.eq_moved taken (by rw [start]; cases resource <;> rfl)
          rw [same]
          refine ⟨travels_moved notAgent travelling _
            (.inr ⟨⟨resource, rfl⟩, rfl, rfl⟩), silent, ?_⟩
          have steps := journey_update state.place (.smoker resource) .counted
          rw [start] at steps
          exact Nat.succ.inj steps
  | @counted resource smoker counted _ _ =>
      subst smoker
      have same : after = Starting.moved state (.smoker resource)
          state.shared .waited (.waiting (home (.smoker resource))) :=
        Starting.eq_moved taken (by rw [counted]; cases resource <;> rfl)
      rw [same]
      refine ⟨travels_moved notAgent travelling
        state.shared.numActiveThreads (.inl ⟨rfl, rfl⟩), silent, ?_⟩
      have steps := journey_update state.place (.smoker resource) .waited
      rw [counted] at steps
      exact steps
  | arrived arrived _ => exact (travelling arrived).elim

theorem takes {shared : Shared} {signals : List Condition} {next : Place}
    {blocks : Status Condition}
    (runs : program iterations thread (state.place thread) choice
        state.shared =
      { shared := shared
        signals := signals
        place := next
        status := blocks })
    (taken : Step (program iterations) state (thread, choice) after) :
    ∃ status lost, Signals state.status signals status lost ∧
      after.shared = shared ∧
      after.place = Function.update state.place thread next ∧
      after.status = Function.update status thread blocks ∧
      after.lost = state.lost + lost := by
  cases taken with
  | run _ runsActual actual =>
      rw [runs] at runsActual
      subst runsActual
      exact ⟨_, _, actual, rfl, rfl, rfl, rfl⟩

/-- A woken helper runs through its loop and waits again. -/
theorem wakes {shared : Shared} {signals : List Condition}
    (arrived : state.place thread = .waited)
    (runs : program iterations thread .waited choice state.shared =
      { shared := shared
        signals := signals
        place := .waited
        status := .waiting (home thread) })
    (taken : Step (program iterations) state (thread, choice) after) :
    ∃ status lost, Signals state.status signals status lost ∧
      after.shared = shared ∧ after.place = state.place ∧
      after.status =
        Function.update status thread (.waiting (home thread)) ∧
      after.lost = state.lost + lost := by
  rw [← arrived] at runs
  obtain ⟨status, lost, signalled, sharedEq, placeEq, rest⟩ :=
    takes runs taken
  exact ⟨status, lost, signalled, sharedEq,
    placeEq.trans (Function.update_eq_self _ _), rest⟩

section Woken

variable {served : List Resource} {first second own : Resource}

/-- The stage that a step leads to, with the steps that are left. -/
def Next (iterations : Nat) (before after : State) (log : List Event)
    (action : Thread × Fin 3) (budget : Nat) : Prop :=
  ∃ left skipped,
    Stage iterations after
      (log ++ (observe iterations before action).toList) left skipped ∧
    journey after.place + left + skipped + 1 = journey before.place + budget

theorem offered_step (few : served.length < iterations)
    (triple : Triple first second own)
    (cast : Cast state.place state.status
      {.listener first, .listener second} (.waiting .smoke))
    (books : Books state.shared 0 served (some own))
    (place : state.place .agent = .iteration (served.length + 1))
    (taken : Step (program iterations) state (.listener first, choice)
      after) :
    Next iterations state after (rounds served ++ [.draws own])
      (.listener first, choice) (4 * (iterations - served.length)) := by
  have notAgent : Thread.listener first ≠ .agent := by simp
  have arrived := (cast.woken_ready notAgent
    (Finset.mem_insert_self _ _)).1
  obtain ⟨status, lost, signals, shared, placeEq, statusEq, _⟩ :=
    wakes arrived (listener_first first books.sum_eq) taken
  cases signals
  have waits := cast.block notAgent arrived
  have apart : Thread.listener first ∉
      ({.listener second} : Finset Thread) := by
    simpa using triple.apart
  rw [Finset.erase_insert apart, ← placeEq, ← statusEq] at waits
  refine ⟨4 * (iterations - served.length) - 1, 0, ?_, ?_⟩
  · rw [observe, Option.toList, List.append_nil]
    refine .half few triple waits ⟨?_, ?_, ?_⟩ ?_
    · rw [shared]
    · rw [shared]
      exact books.smokes
    · rw [shared]
      exact books.signals
    · rw [placeEq]
      exact place
  · rw [placeEq]
    omega

theorem half_step (few : served.length < iterations)
    (triple : Triple first second own)
    (cast : Cast state.place state.status {.listener second}
      (.waiting .smoke))
    (books : Books state.shared first.value served (some own))
    (place : state.place .agent = .iteration (served.length + 1))
    (taken : Step (program iterations) state (.listener second, choice)
      after) :
    Next iterations state after (rounds served ++ [.draws own])
      (.listener second, choice)
      (4 * (iterations - served.length) - 1) := by
  have notAgent : Thread.listener second ≠ .agent := by simp
  have arrived := (cast.woken_ready notAgent
    (Finset.mem_singleton_self _)).1
  obtain ⟨status, lost, signals, shared, placeEq, statusEq, lostEq⟩ :=
    wakes arrived (listener_second triple books.sum_eq) taken
  have newBooks : Books after.shared 0 served (some own) := by
    rw [shared]
    exact ⟨rfl, books.smokes, books.signals⟩
  rcases cast.signal (by simp) signals with
    ⟨middle, woken, onward⟩ | ⟨fewer, missed, onward⟩
  · cases onward
    have waits := woken.block notAgent arrived
    have ready : (insert (Thread.smoker own) {.listener second} :
        Finset Thread).erase (.listener second) = {.smoker own} := by
      ext thread
      cases thread <;> simp
    rw [ready, ← placeEq, ← statusEq] at waits
    refine ⟨4 * (iterations - served.length) - 2, 0, ?_, ?_⟩
    · rw [observe, Option.toList, List.append_nil]
      exact .lit few waits newBooks (by rw [placeEq]; exact place)
    · rw [placeEq]
      omega
  · cases onward
    have waits := cast.block notAgent arrived
    rw [Finset.erase_singleton, ← placeEq, ← statusEq] at waits
    refine ⟨0, 4 * (iterations - served.length) - 2, ?_, ?_⟩
    · rw [observe, Option.toList, List.append_nil]
      exact .stuck waits newBooks (.inl (by omega))
    · rw [placeEq]
      omega

theorem lit_step (few : served.length < iterations)
    (cast : Cast state.place state.status {.smoker own} (.waiting .smoke))
    (books : Books state.shared 0 served (some own))
    (place : state.place .agent = .iteration (served.length + 1))
    (taken : Step (program iterations) state (.smoker own, choice) after) :
    Next iterations state after (rounds served ++ [.draws own])
      (.smoker own, choice) (4 * (iterations - served.length) - 2) := by
  have notAgent : Thread.smoker own ≠ .agent := by simp
  have arrived := (cast.woken_ready notAgent
    (Finset.mem_singleton_self _)).1
  obtain ⟨status, lost, signals, shared, placeEq, statusEq, _⟩ :=
    wakes arrived (smoker_waited own) taken
  obtain ⟨middle, woken, onward⟩ := cast.signal_agent signals
  cases onward
  have waits := woken.block notAgent arrived
  rw [Finset.erase_singleton, ← placeEq, ← statusEq] at waits
  have length : (served ++ [own]).length = served.length + 1 :=
    List.length_append
  refine ⟨4 * (iterations - (served ++ [own]).length) + 1, 0, ?_, ?_⟩
  · rw [observe, if_pos arrived, Option.toList, ← rounds_append]
    refine .idle (by omega) waits ⟨?_, ?_, ?_⟩ (.inl ?_)
    · rw [shared]
      exact books.sum_eq
    · intro resource
      rw [shared, List.count_append, List.count_singleton]
      by_cases same : resource = own
      · subst same
        simp [books.smokes]
      · have other : ¬own = resource := fun equal => same equal.symm
        simp [Function.update_of_ne same, books.smokes, other]
    · intro resource
      have signalled := books.signals resource
      rw [shared]
      by_cases same : resource = own
      · subst same
        simpa using signalled
      · have other : ¬own = resource := fun equal => same equal.symm
        simpa [Function.update_of_ne same, other] using signalled
    · rw [placeEq, length]
      exact place
  · rw [placeEq, length]
    omega

theorem lone_step
    (cast : Cast state.place state.status {.listener first}
      (.waiting .smoke))
    (books : Books state.shared 0 served (some own)) (missed : 0 < state.lost)
    (taken : Step (program iterations) state (.listener first, choice)
      after) (skipped : Nat) :
    Next iterations state after (rounds served ++ [.draws own])
      (.listener first, choice) (1 + skipped) := by
  have notAgent : Thread.listener first ≠ .agent := by simp
  have arrived := (cast.woken_ready notAgent
    (Finset.mem_singleton_self _)).1
  obtain ⟨status, lost, signals, shared, placeEq, statusEq, lostEq⟩ :=
    wakes arrived (listener_first first books.sum_eq) taken
  cases signals
  have waits := cast.block notAgent arrived
  rw [Finset.erase_singleton, ← placeEq, ← statusEq] at waits
  refine ⟨0, skipped, ?_, ?_⟩
  · rw [observe, Option.toList, List.append_nil]
    have newBooks : Books after.shared first.value served (some own) := by
      rw [shared]
      exact ⟨rfl, books.smokes, books.signals⟩
    exact .stuck waits newBooks (.inl (by omega))
  · rw [placeEq]
    omega

end Woken

section Agent

variable {served : List Resource}

/-- In front of the test of a loop the agent waits, or it goes through the
`for` loop. -/
theorem agent_runs
    (place : state.place .agent = .iteration served.length ∨
      state.place .agent = .start ∧ served = []) :
    (state.place .agent = .start ∧ served = [] ∧
      program iterations .agent (state.place .agent) choice state.shared =
        { shared := state.shared
          signals := []
          place := .start
          status := .waiting .smoke }) ∨
    program iterations .agent (state.place .agent) choice state.shared =
      agentIteration iterations served.length choice state.shared := by
  rcases place with place | ⟨start, rfl⟩
  · right
    simp only [program, agent, place]
  · by_cases early : state.shared.numActiveThreads < 3
    · left
      simp only [program, agent, start, if_pos early, and_self]
    · right
      simp only [program, agent, start, if_neg early, List.length_nil]

theorem drawn_books (books : Books state.shared 0 served none)
    {shared : Shared}
    (drawn : shared = { state.shared with
      signalCount := Function.update state.shared.signalCount
        (matchingSmoker choice)
        (state.shared.signalCount (matchingSmoker choice) + 1) }) :
    Books shared 0 served (some (matchingSmoker choice)) := by
  subst drawn
  refine ⟨books.sum_eq, books.smokes, ?_⟩
  intro resource
  have signalled := books.signals resource
  by_cases same : resource = matchingSmoker choice
  · subst same
    simpa using signalled
  · have other : ¬matchingSmoker choice = resource := fun equal =>
      same equal.symm
    simpa [Function.update_of_ne same, other] using signalled

/-- The agent draws, and each of its two signals arrives or is lost. -/
theorem draw_step (few : served.length < iterations)
    (cast : Cast state.place state.status ∅ .ready)
    (books : Books state.shared 0 served none)
    (runs : program iterations .agent (state.place .agent) choice
      state.shared =
        agentIteration iterations served.length choice state.shared)
    (taken : Step (program iterations) state (.agent, choice) after) :
    Next iterations state after (rounds served) (.agent, choice)
      (4 * (iterations - served.length) + 1) := by
  obtain ⟨first, second, triple, signals⟩ := agentSignals_eq choice
  rw [agentIteration, if_pos few, signals] at runs
  have shows : observe iterations state (.agent, choice) =
      some (.draws (matchingSmoker choice)) := by
    rw [observe, runs]
    exact if_neg (List.cons_ne_nil _ _)
  obtain ⟨status, lost, signalled, shared, placeEq, statusEq, lostEq⟩ :=
    takes runs taken
  have newBooks := @drawn_books state choice served books _ shared
  have steps := journey_update state.place .agent
    (.iteration (served.length + 1))
  rw [← placeEq] at steps
  simp only [stepsToWait] at steps
  have place : after.place .agent = .iteration (served.length + 1) := by
    rw [placeEq, Function.update_self]
  have moves : ∀ {woken : Finset Thread} {agentStatus : Status Condition},
      Cast state.place status woken agentStatus →
        Cast after.place after.status woken (.waiting .smoke) := by
    intro woken agentStatus cast
    rw [placeEq, statusEq]
    exact cast.agent_moves _ (.inl rfl)
  rw [Next, shows, Option.toList]
  rcases cast.signal (by simp) signalled with
    ⟨middle, woken, onward⟩ | ⟨missed, firstLost, onward⟩
  · rw [LawfulSingleton.insert_empty_eq] at woken
    rcases woken.signal (by simp) onward with
      ⟨last, both, onward⟩ | ⟨missed, secondLost, onward⟩
    · cases onward
      rw [Finset.pair_comm] at both
      refine ⟨4 * (iterations - served.length), 0, ?_, by omega⟩
      exact .offered few triple (moves both) newBooks place
    · cases onward
      refine ⟨1, 4 * (iterations - served.length) - 1, ?_, by omega⟩
      exact .lone (moves woken) newBooks (by omega)
  · rcases cast.signal (by simp) onward with
      ⟨last, woken, onward⟩ | ⟨missed, secondLost, onward⟩
    · cases onward
      rw [LawfulSingleton.insert_empty_eq] at woken
      refine ⟨1, 4 * (iterations - served.length) - 1, ?_, by omega⟩
      exact .lone (moves woken) newBooks (by omega)
    · cases onward
      refine ⟨0, 4 * (iterations - served.length), ?_, by omega⟩
      exact @stuck _ _ _ (some _) 0 _ (moves cast) newBooks
        (.inl (by omega))

theorem agent_step (few : served.length ≤ iterations)
    (cast : Cast state.place state.status ∅ .ready)
    (books : Books state.shared 0 served none)
    (place : state.place .agent = .iteration served.length ∨
      state.place .agent = .start ∧ served = [])
    (taken : Step (program iterations) state (.agent, choice) after) :
    Next iterations state after (rounds served) (.agent, choice)
      (4 * (iterations - served.length) + 1) := by
  rcases @agent_runs iterations state choice served place with
    ⟨start, rfl, runs⟩ | runs
  · have silent : observe iterations state (.agent, choice) = none := by
      rw [observe, runs]
      exact if_pos rfl
    obtain ⟨status, lost, signalled, shared, placeEq, statusEq, _⟩ :=
      takes runs taken
    cases signalled
    have waits := cast.agent_moves .start (.inl rfl)
    have steps := journey_update state.place .agent .start
    rw [← placeEq] at waits steps
    rw [← statusEq] at waits
    rw [← shared] at books
    have place : after.place .agent = .start := by
      rw [placeEq, Function.update_self]
    rw [Next, silent]
    refine ⟨0, 4 * iterations, @stuck _ _ [] none 0 _ waits books (.inr place),
      ?_⟩
    simp only [stepsToWait] at steps
    rw [List.length_nil]
    omega
  · rcases Nat.lt_or_eq_of_le few with more | all
    · exact draw_step more cast books runs taken
    · rw [agentIteration, if_neg (by omega)] at runs
      have silent : observe iterations state (.agent, choice) = none := by
        rw [observe, runs]
        exact if_pos rfl
      obtain ⟨status, lost, signalled, shared, placeEq, statusEq, _⟩ :=
        takes runs taken
      cases signalled
      have ends := cast.agent_moves (.iteration served.length) (.inr rfl)
      have steps := journey_update state.place .agent
        (.iteration served.length)
      rw [← placeEq] at ends steps
      rw [← statusEq] at ends
      rw [← shared] at books
      rw [Next, silent, Option.toList, List.append_nil]
      refine ⟨0, 0, .done all ends books, ?_⟩
      simp only [stepsToWait] at steps
      omega

end Agent

/-- Every step, of any thread, leads from one stage to the next. -/
theorem step (stage : Stage iterations state log left skipped)
    (taken : Step (program iterations) state (thread, choice) after) :
    Next iterations state after log (thread, choice) (left + skipped) := by
  have ready : state.status thread = .ready := by
    cases taken with
    | run ready _ _ => exact ready
  by_cases isAgent : thread = .agent
  · subst isAgent
    cases stage with
    | idle few cast books place => exact agent_step few cast books place taken
    | offered _ _ cast _ _ => exact nomatch cast.agent.symm.trans ready
    | half _ _ cast _ _ => exact nomatch cast.agent.symm.trans ready
    | lit _ cast _ _ => exact nomatch cast.agent.symm.trans ready
    | lone cast _ _ => exact nomatch cast.agent.symm.trans ready
    | stuck cast _ _ => exact nomatch cast.agent.symm.trans ready
    | done _ cast _ => exact nomatch cast.agent.symm.trans ready
  by_cases arrived : state.place thread = .waited
  · have member : ∀ {woken : Finset Thread} {agentStatus : Status Condition},
        Cast state.place state.status woken agentStatus → thread ∈ woken :=
      fun cast => (cast.ready_iff isAgent arrived).mp ready
    cases stage with
    | idle _ cast _ _ => exact (Finset.notMem_empty _ (member cast)).elim
    | offered few triple cast books place =>
        rcases Finset.mem_insert.mp (member cast) with rfl | second
        · exact offered_step few triple cast books place taken
        · rw [Finset.mem_singleton] at second
          subst second
          rw [Finset.pair_comm] at cast
          exact offered_step few
            ⟨triple.apart.symm, triple.right_ne, triple.left_ne⟩ cast books
            place taken
    | half few triple cast books place =>
        obtain rfl := Finset.mem_singleton.mp (member cast)
        exact half_step few triple cast books place taken
    | lit few cast books place =>
        obtain rfl := Finset.mem_singleton.mp (member cast)
        exact lit_step few cast books place taken
    | lone cast books lost =>
        obtain rfl := Finset.mem_singleton.mp (member cast)
        exact lone_step cast books lost taken _
    | stuck cast _ _ => exact (Finset.notMem_empty _ (member cast)).elim
    | done _ cast _ => exact (Finset.notMem_empty _ (member cast)).elim
  · obtain ⟨woken, agentStatus, cast⟩ := stage.cast
    obtain ⟨travels, silent, steps⟩ := travel cast isAgent arrived taken
    refine ⟨left, skipped, ?_, by omega⟩
    rw [silent, Option.toList, List.append_nil]
    exact stage.travelled travels

/-- The helpers that cannot go on have ended their journeys. -/
theorem journey_of_stuck (stage : Stage iterations state log left skipped)
    (nobody : ∀ thread, state.status thread ≠ .ready) :
    journey state.place = 0 := by
  obtain ⟨woken, agentStatus, cast⟩ := stage.cast
  have waited : ∀ thread, stepsToWait thread (state.place thread) = 0 := by
    intro thread
    by_cases isAgent : thread = .agent
    · rw [isAgent]
      simp only [stepsToWait]
    cases cast.helpers thread isAgent with
    | created _ ready _ => exact (nobody thread ready).elim
    | counted _ _ ready _ => exact (nobody thread ready).elim
    | arrived arrived _ =>
        rw [arrived]
        cases thread <;> rfl
  simp [journey, threads, waited]

/-- A stage in which no thread can go on is the end or a dead end. -/
theorem of_stuck (stage : Stage iterations state log left skipped)
    (nobody : ∀ thread, state.status thread ≠ .ready) :
    (state.status .agent = .finished ∧ left = 0 ∧ skipped = 0) ∨
      0 < state.lost ∨ state.place .agent = .start := by
  have woken : ∀ {woken : Finset Thread} {agentStatus : Status Condition}
      {thread : Thread}, Cast state.place state.status woken agentStatus →
        thread ≠ .agent → thread ∉ woken :=
    fun cast notAgent member =>
      nobody _ (cast.woken_ready notAgent member).2
  cases stage with
  | idle _ cast _ _ => exact (nobody .agent cast.agent).elim
  | offered _ _ cast _ _ =>
      exact (woken cast (by simp) (Finset.mem_insert_self _ _)).elim
  | half _ _ cast _ _ =>
      exact (woken cast (by simp) (Finset.mem_singleton_self _)).elim
  | lit _ cast _ _ =>
      exact (woken cast (by simp) (Finset.mem_singleton_self _)).elim
  | lone cast _ _ =>
      exact (woken cast (by simp) (Finset.mem_singleton_self _)).elim
  | stuck _ _ reason => exact .inr reason
  | done _ cast _ => exact .inl ⟨cast.agent, rfl, rfl⟩

theorem books (stage : Stage iterations state log left skipped) :
    ∃ served turn sum, log = rounds served ++ (turn.map .draws).toList ∧
      Books state.shared sum served turn ∧
      (state.status .agent = .finished →
        turn = none ∧ served.length = iterations) := by
  have running : ∀ {woken : Finset Thread} {condition : Condition},
      Cast state.place state.status woken (.waiting condition) →
        state.status .agent ≠ .finished := by
    intro woken condition cast finished
    exact nomatch cast.agent.symm.trans finished
  cases stage with
  | @idle served _ cast books _ =>
      exact ⟨served, none, 0, (List.append_nil _).symm, books,
        fun finished => nomatch cast.agent.symm.trans finished⟩
  | offered _ _ cast books _ =>
      exact ⟨_, some _, _, rfl, books,
        fun finished => (running cast finished).elim⟩
  | half _ _ cast books _ =>
      exact ⟨_, some _, _, rfl, books,
        fun finished => (running cast finished).elim⟩
  | lit _ cast books _ =>
      exact ⟨_, some _, _, rfl, books,
        fun finished => (running cast finished).elim⟩
  | lone cast books _ =>
      exact ⟨_, some _, _, rfl, books,
        fun finished => (running cast finished).elim⟩
  | @stuck served turn _ _ cast books _ =>
      exact ⟨served, turn, _, rfl, books,
        fun finished => (running cast finished).elim⟩
  | @done served all _ books =>
      exact ⟨served, none, 0, (List.append_nil _).symm, books,
        fun _ => ⟨rfl, all⟩⟩

end Stage

end SystemsLabs.Smokers

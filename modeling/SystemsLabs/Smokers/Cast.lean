import SystemsLabs.Smokers.Startup

/-!
# The threads at any time

Each helper is on its way to its first wait, waits on its own condition variable
or was woken.  This holds from the creation of the threads on, whether signals
are lost or not.
-/

namespace SystemsLabs.Smokers

open Monitor Transition

/-- The steps of a helper up to its first wait. -/
def stepsToWait : Thread → Place → Nat
  | .smoker _, .start => 2
  | .smoker _, .counted => 1
  | .listener _, .start => 1
  | _, _ => 0

/-- The steps of all helpers up to their first waits. -/
def journey (place : Thread → Place) : Nat :=
  threads.foldr (fun thread steps => stepsToWait thread (place thread) + steps)
    0

theorem journey_update (place : Thread → Place) (thread : Thread)
    (next : Place) :
    journey (Function.update place thread next) +
        stepsToWait thread (place thread) =
      journey place + stepsToWait thread next := by
  rcases thread with _ | resource | resource
  · simp [journey, threads]
    omega
  · cases resource <;> simp [journey, threads] <;> omega
  · cases resource <;> simp [journey, threads] <;> omega

/-- Where a helper can be: in front of its first wait, waiting on its own
condition variable, or woken. -/
inductive HelperAt (place : Thread → Place)
    (status : Thread → Status Condition) (woken : Finset Thread)
    (thread : Thread) : Prop where
  | created : place thread = .start → status thread = .ready →
      thread ∉ woken → HelperAt place status woken thread
  | counted {resource : Resource} : thread = .smoker resource →
      place thread = .counted → status thread = .ready →
      thread ∉ woken → HelperAt place status woken thread
  | arrived : place thread = .waited →
      (status thread = if thread ∈ woken then .ready
        else .waiting (home thread)) → HelperAt place status woken thread

/-- Where the threads are. -/
structure Cast (place : Thread → Place) (status : Thread → Status Condition)
    (woken : Finset Thread) (agentStatus : Status Condition) : Prop where
  helpers : ∀ thread, thread ≠ .agent → HelperAt place status woken thread
  agent : status .agent = agentStatus
  agentHome : ∀ condition, agentStatus = .waiting condition →
    condition = .smoke

theorem HelperAt.waiting {place : Thread → Place}
    {status : Thread → Status Condition} {woken : Finset Thread}
    {thread : Thread} {condition : Condition}
    (here : HelperAt place status woken thread)
    (waits : status thread = .waiting condition) :
    place thread = .waited ∧ condition = home thread := by
  cases here with
  | created _ ready _ =>
      rw [ready] at waits
      cases waits
  | counted _ _ ready _ =>
      rw [ready] at waits
      cases waits
  | arrived arrived rests =>
      rw [rests] at waits
      split at waits
      · cases waits
      · cases waits
        exact ⟨arrived, rfl⟩

namespace Cast

variable {place : Thread → Place} {status last : Thread → Status Condition}
  {woken : Finset Thread} {agentStatus : Status Condition}

theorem atHome (cast : Cast place status woken agentStatus) (thread : Thread)
    (condition : Condition) (waits : status thread = .waiting condition) :
    condition = home thread := by
  by_cases same : thread = .agent
  · subst same
    exact cast.agentHome condition (cast.agent.symm.trans waits)
  · exact ((cast.helpers thread same).waiting waits).2

/-- A helper that is ready was woken or is in front of its first wait. -/
theorem ready_iff (cast : Cast place status woken agentStatus)
    {thread : Thread} (notAgent : thread ≠ .agent)
    (arrived : place thread = .waited) :
    status thread = .ready ↔ thread ∈ woken := by
  cases cast.helpers thread notAgent with
  | created start _ _ =>
      rw [arrived] at start
      cases start
  | counted _ counted _ _ =>
      rw [arrived] at counted
      cases counted
  | arrived _ rests =>
      rw [rests]
      split
      · rename_i member
        exact iff_of_true rfl member
      · rename_i absent
        exact iff_of_false (fun same => nomatch same) absent

theorem woken_ready (cast : Cast place status woken agentStatus)
    {thread : Thread} (notAgent : thread ≠ .agent) (member : thread ∈ woken) :
    place thread = .waited ∧ status thread = .ready := by
  cases cast.helpers thread notAgent with
  | created _ _ absent => exact (absent member).elim
  | counted _ _ _ absent => exact (absent member).elim
  | arrived arrived rests =>
      rw [if_pos member] at rests
      exact ⟨arrived, rests⟩

end Cast

theorem HelperAt.congr {place next : Thread → Place}
    {status after : Thread → Status Condition} {woken others : Finset Thread}
    {thread : Thread} (here : HelperAt place status woken thread)
    (samePlace : next thread = place thread)
    (sameStatus : after thread = status thread)
    (sameWoken : thread ∈ others ↔ thread ∈ woken) :
    HelperAt next after others thread := by
  cases here with
  | created start ready absent =>
      exact .created (samePlace.trans start) (sameStatus.trans ready)
        (mt sameWoken.mp absent)
  | counted smoker counted ready absent =>
      exact .counted smoker (samePlace.trans counted) (sameStatus.trans ready)
        (mt sameWoken.mp absent)
  | arrived arrived rests =>
      refine .arrived (samePlace.trans arrived) ?_
      simp only [sameWoken]
      exact sameStatus.trans rests

namespace Cast

variable {place : Thread → Place} {status last : Thread → Status Condition}
  {woken : Finset Thread} {agentStatus : Status Condition} {thread : Thread}

theorem move (cast : Cast place status woken agentStatus)
    (notAgent : thread ≠ .agent) {next : Place} {after : Status Condition}
    {others : Finset Thread}
    (sameWoken : ∀ other, other ≠ thread → (other ∈ others ↔ other ∈ woken))
    (here : HelperAt (Function.update place thread next)
      (Function.update status thread after) others thread) :
    Cast (Function.update place thread next)
      (Function.update status thread after) others agentStatus := by
  refine ⟨?_, ?_, cast.agentHome⟩
  · intro other otherNotAgent
    by_cases same : other = thread
    · rw [same]
      exact here
    · exact (cast.helpers other otherNotAgent).congr
        (Function.update_of_ne same _ _) (Function.update_of_ne same _ _)
        (sameWoken other same)
  · rw [Function.update_of_ne notAgent.symm]
    exact cast.agent

theorem wake (cast : Cast place status woken agentStatus)
    (notAgent : thread ≠ .agent)
    (waits : status thread = .waiting (home thread)) :
    Cast place (Function.update status thread .ready) (insert thread woken)
      agentStatus := by
  have arrived := ((cast.helpers thread notAgent).waiting waits).1
  have moved := @move place status woken agentStatus thread cast notAgent
    (place thread) .ready (insert thread woken)
    (fun other different => by simp [different])
    (.arrived ((Function.update_self _ _ _).trans arrived)
      ((Function.update_self _ _ _).trans
        (if_pos (Finset.mem_insert_self _ _)).symm))
  rw [Function.update_eq_self] at moved
  exact moved

/-- A signal to a helper reaches it, or it is lost. -/
theorem signal (cast : Cast place status woken agentStatus)
    (notAgent : thread ≠ .agent) {conditions : List Condition} {lost : Nat}
    (signals : Signals status (home thread :: conditions) last lost) :
    (∃ middle, Cast place middle (insert thread woken) agentStatus ∧
      Signals middle conditions last lost) ∨
    ∃ fewer, lost = fewer + 1 ∧ Signals status conditions last fewer := by
  rcases signals.meant_for home_injective cast.atHome with
    ⟨waits, onward⟩ | ⟨_, missed⟩
  · exact .inl ⟨_, cast.wake notAgent waits, onward⟩
  · exact .inr missed

theorem signal_agent (cast : Cast place status woken (.waiting .smoke))
    {conditions : List Condition} {lost : Nat}
    (signals : Signals status (home .agent :: conditions) last lost) :
    ∃ middle, Cast place middle woken .ready ∧
      Signals middle conditions last lost := by
  rcases signals.meant_for home_injective cast.atHome with
    ⟨_, onward⟩ | ⟨absent, _⟩
  · refine ⟨_, ⟨?_, Function.update_self _ _ _,
      fun _ same => nomatch same⟩, onward⟩
    intro other notAgent
    exact (cast.helpers other notAgent).congr rfl
      (Function.update_of_ne notAgent _ _) Iff.rfl
  · exact (absent cast.agent).elim

theorem block (cast : Cast place status woken agentStatus)
    (notAgent : thread ≠ .agent) (arrived : place thread = .waited) :
    Cast place (Function.update status thread (.waiting (home thread)))
      (woken.erase thread) agentStatus := by
  have moved := @move place status woken agentStatus thread cast notAgent
    (place thread) (.waiting (home thread)) (woken.erase thread)
    (fun other different => by simp [different])
    (.arrived ((Function.update_self _ _ _).trans arrived)
      ((Function.update_self _ _ _).trans
        (if_neg (Finset.notMem_erase _ _)).symm))
  rw [Function.update_eq_self] at moved
  exact moved

theorem agent_moves (cast : Cast place status woken agentStatus)
    (next : Place) {after : Status Condition}
    (known : after = .waiting .smoke ∨ after = .finished) :
    Cast (Function.update place .agent next)
      (Function.update status .agent after) woken after := by
  refine ⟨?_, Function.update_self _ _ _, ?_⟩
  · intro other notAgent
    exact (cast.helpers other notAgent).congr
      (Function.update_of_ne notAgent _ _)
      (Function.update_of_ne notAgent _ _) Iff.rfl
  · intro condition waits
    rcases known with rfl | rfl
    · cases waits
      rfl
    · cases waits

end Cast

end SystemsLabs.Smokers

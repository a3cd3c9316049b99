/-!
# Runs of labelled transition systems

A system is a step relation `step : σ → α → σ → Prop` between states, labelled
by actions.  Safety properties are proved once for a step and lifted to every
finite run by `Run.invariant`; a condition on the steps of a run is the run of
the `guarded` system.
-/

namespace SystemsLabs.Transition

/-- A finite run, with its actions in the order in which they happened. -/
inductive Run (step : σ → α → σ → Prop) : σ → List α → σ → Prop where
  | nil (state : σ) : Run step state [] state
  | cons {first second last : σ} {action : α} {actions : List α} :
      step first action second →
      Run step second actions last →
      Run step first (action :: actions) last

/-- The steps of a system that satisfy a condition on the state before the
step and the action taken. -/
def guarded (step : σ → α → σ → Prop) (guard : σ → α → Prop) :
    σ → α → σ → Prop :=
  fun before action after => step before action after ∧ guard before action

/-- The effect of a list of actions, one after the other. -/
def replay (perform : σ → α → Option σ) (state : σ) : List α → Option σ
  | [] => some state
  | action :: actions => do
      let after ← perform state action
      replay perform after actions

/-- Actions that are performed only under a condition. -/
def restrict (guard : σ → α → Prop) [∀ state action,
    Decidable (guard state action)] (perform : σ → α → Option σ) :
    σ → α → Option σ :=
  fun state action => if guard state action then perform state action else none

/-- The steps of a system with what they show, in the order in which they
happened. -/
def logged (step : σ → α → σ → Prop) (observe : σ → α → Option β) :
    σ × List β → α → σ × List β → Prop :=
  fun before action after => step before.1 action after.1 ∧
    after.2 = before.2 ++ (observe before.1 action).toList

namespace Run

variable {step : σ → α → σ → Prop}

theorem single {before after : σ} {action : α}
    (taken : step before action after) : Run step before [action] after :=
  .cons taken (.nil after)

theorem append {first second last : σ} {actions more : List α}
    (run : Run step first actions second) (later : Run step second more last) :
    Run step first (actions ++ more) last := by
  induction run with
  | nil => exact later
  | cons taken _ ih => exact .cons taken (ih later)

/-- A system with at most one step from every state stops in one way. -/
theorem unique
    (functional : ∀ {before action after other result},
      step before action after → step before other result →
        action = other ∧ after = result)
    {first last final : σ} {actions others : List α}
    (run : Run step first actions last)
    (stops : ∀ action after, ¬step last action after)
    (other : Run step first others final)
    (otherStops : ∀ action after, ¬step final action after) :
    actions = others ∧ last = final := by
  induction run generalizing others with
  | nil =>
      cases other with
      | nil => exact ⟨rfl, rfl⟩
      | cons taken _ => exact (stops _ _ taken).elim
  | cons taken _ ih =>
      cases other with
      | nil => exact (otherStops _ _ taken).elim
      | cons otherTaken rest =>
          obtain ⟨rfl, rfl⟩ := functional taken otherTaken
          obtain ⟨rfl, rfl⟩ := ih stops rest
          exact ⟨rfl, rfl⟩

/-- What every step preserves, every run preserves. -/
theorem invariant {Inv : σ → Prop}
    (preserved : ∀ {before action after},
      Inv before → step before action after → Inv after)
    {first last : σ} {actions : List α}
    (run : Run step first actions last) (initial : Inv first) : Inv last := by
  induction run with
  | nil => exact initial
  | cons taken _ ih => exact ih (preserved initial taken)

/-- The same for statements that count the actions so far. -/
theorem counted {Inv : σ → Nat → Prop}
    (preserved : ∀ {before action after spent},
      Inv before spent → step before action after → Inv after (spent + 1))
    {first last : σ} {actions : List α} {spent : Nat}
    (run : Run step first actions last) (initial : Inv first spent) :
    Inv last (spent + actions.length) := by
  induction run generalizing spent with
  | nil => exact initial
  | cons taken _ ih =>
      have later := ih (preserved initial taken)
      rw [List.length_cons]
      rw [Nat.add_right_comm, Nat.add_assoc] at later
      exact later

theorem logged (observe : σ → α → Option β) {first last : σ}
    {actions : List α} (run : Run step first actions last) (log : List β) :
    ∃ more, Run (Transition.logged step observe) (first, log) actions
      (last, log ++ more) := by
  induction run generalizing log with
  | nil state =>
      exact ⟨[], by rw [List.append_nil]; exact .nil (state, log)⟩
  | @cons first second last action actions taken _ ih =>
      obtain ⟨more, run⟩ := ih (log ++ (observe first action).toList)
      rw [List.append_assoc] at run
      exact ⟨_, .cons ⟨taken, rfl⟩ run⟩

theorem mono {weaker : σ → α → σ → Prop}
    (weaken : ∀ {before action after},
      step before action after → weaker before action after)
    {first last : σ} {actions : List α}
    (run : Run step first actions last) : Run weaker first actions last := by
  induction run with
  | nil => exact .nil _
  | cons taken _ ih => exact .cons (weaken taken) ih

theorem unguarded {guard : σ → α → Prop} {first last : σ} {actions : List α}
    (run : Run (guarded step guard) first actions last) :
    Run step first actions last :=
  run.mono fun taken => taken.1

/-- A replay of actions performed as the system allows is a run. -/
theorem of_replay {perform : σ → α → Option σ}
    (sound : ∀ {before action after},
      perform before action = some after → step before action after)
    {first last : σ} {actions : List α}
    (replayed : replay perform first actions = some last) :
    Run step first actions last := by
  induction actions generalizing first with
  | nil =>
      cases replayed
      exact .nil _
  | cons action actions ih =>
      obtain ⟨after, performed, onward⟩ :=
        Option.bind_eq_some_iff.mp replayed
      exact .cons (sound performed) (ih onward)

end Run

theorem restrict_sound {step : σ → α → σ → Prop} {guard : σ → α → Prop}
    [∀ state action, Decidable (guard state action)]
    {perform : σ → α → Option σ}
    (sound : ∀ {before action after},
      perform before action = some after → step before action after)
    {before after : σ} {action : α}
    (performed : restrict guard perform before action = some after) :
    guarded step guard before action after := by
  unfold restrict at performed
  split at performed
  · rename_i allowed
    exact ⟨sound performed, allowed⟩
  · cases performed

end SystemsLabs.Transition

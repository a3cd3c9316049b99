import SystemsLabs.Library.Monitor
import SystemsLabs.Library.Transition

/-!
# The smokers of `lab8/smoke.c`

The seven threads that `main` creates, each cut at its calls of
`pthread_cond_wait`.  The increment of `num_active_threads`, which the smokers
do before they take the mutex, is a step of its own.
-/

namespace SystemsLabs.Smokers

open Monitor

/-- `MATCH`, `PAPER` and `TOBACCO`. -/
inductive Resource where
  | aMatch
  | paper
  | tobacco
deriving DecidableEq

def Resource.value : Resource → Nat
  | .aMatch => 1
  | .paper => 2
  | .tobacco => 4

inductive Condition where
  /-- `match`, `paper` and `tobacco` of the agent. -/
  | available (resource : Resource)
  | smoke
  | matchAndPaper
  | paperAndTobacco
  | matchAndTobacco
deriving DecidableEq

inductive Thread where
  | agent
  | listener (resource : Resource)
  | smoker (resource : Resource)
deriving DecidableEq

/-- Where a thread goes on. -/
inductive Place where
  | start
  /-- A smoker that has counted itself but not taken the mutex. -/
  | counted
  /-- In the loop of a listener or a smoker, behind the wait. -/
  | waited
  /-- At the head of the `for` loop of the agent, with the value of `i`. -/
  | iteration (i : Nat)
deriving DecidableEq

structure Shared where
  sum : Nat
  numActiveThreads : Nat
  signalCount : Resource → Nat
  smokeCount : Resource → Nat

abbrev Block := Stretch Place Condition Shared

/-- `choices[r]`. -/
def choices : Fin 3 → Nat
  | 0 => Resource.aMatch.value ||| Resource.paper.value
  | 1 => Resource.aMatch.value ||| Resource.tobacco.value
  | 2 => Resource.paper.value ||| Resource.tobacco.value

def matchingSmoker : Fin 3 → Resource
  | 0 => .tobacco
  | 1 => .paper
  | 2 => .aMatch

def agentSignals (c : Nat) : List Condition :=
  (if c &&& Resource.aMatch.value ≠ 0 then [.available .aMatch] else []) ++
    (if c &&& Resource.paper.value ≠ 0 then [.available .paper] else []) ++
    (if c &&& Resource.tobacco.value ≠ 0 then [.available .tobacco] else [])

/-- The test of the `for` loop and its body up to the wait. -/
def agentIteration (iterations i : Nat) (r : Fin 3) (shared : Shared) :
    Block :=
  if i < iterations then
    { shared :=
        { shared with
          signalCount := Function.update shared.signalCount (matchingSmoker r)
            (shared.signalCount (matchingSmoker r) + 1) }
      signals := agentSignals (choices r)
      place := .iteration (i + 1)
      status := .waiting .smoke }
  else
    { shared := shared
      signals := []
      place := .iteration i
      status := .finished }

/-- `start` is in front of the test of the `while` loop. -/
def agent (iterations : Nat) (place : Place) (r : Fin 3) (shared : Shared) :
    Block :=
  match place with
  | .iteration i => agentIteration iterations i r shared
  | _ =>
      if shared.numActiveThreads < 3 then
        { shared := shared
          signals := []
          place := .start
          status := .waiting .smoke }
      else agentIteration iterations 0 r shared

/-- The listener that adds `resource` to `sum` when it was signalled. -/
def listener (resource : Resource) (condition : Condition) (place : Place)
    (shared : Shared) : Block :=
  match place with
  | .waited =>
      let sum := shared.sum + resource.value
      if sum = 6 then
        { shared := { shared with sum := 0 }
          signals := [.paperAndTobacco]
          place := .waited
          status := .waiting condition }
      else if sum = 5 then
        { shared := { shared with sum := 0 }
          signals := [.matchAndTobacco]
          place := .waited
          status := .waiting condition }
      else if sum = 3 then
        { shared := { shared with sum := 0 }
          signals := [.matchAndPaper]
          place := .waited
          status := .waiting condition }
      else
        { shared := { shared with sum := sum }
          signals := []
          place := .waited
          status := .waiting condition }
  | _ =>
      { shared := shared
        signals := []
        place := .waited
        status := .waiting condition }

def tobaccoListener : Place → Shared → Block :=
  listener .tobacco (.available .tobacco)

def matchListener : Place → Shared → Block :=
  listener .aMatch (.available .aMatch)

def paperListener : Place → Shared → Block :=
  listener .paper (.available .paper)

def smoker (resource : Resource) (condition : Condition) (place : Place)
    (shared : Shared) : Block :=
  match place with
  | .waited =>
      { shared :=
          { shared with
            smokeCount := Function.update shared.smokeCount resource
              (shared.smokeCount resource + 1) }
        signals := [.smoke]
        place := .waited
        status := .waiting condition }
  | .counted =>
      { shared := shared
        signals := []
        place := .waited
        status := .waiting condition }
  | _ =>
      { shared :=
          { shared with numActiveThreads := shared.numActiveThreads + 1 }
        signals := []
        place := .counted
        status := .ready }

def waitTobacco : Place → Shared → Block := smoker .tobacco .matchAndPaper

def waitMatch : Place → Shared → Block := smoker .aMatch .paperAndTobacco

def waitPaper : Place → Shared → Block := smoker .paper .matchAndTobacco

/-- The function of each thread; `r` is what `random` gives the agent. -/
def program (iterations : Nat) :
    Thread → Place → Fin 3 → Shared → Block
  | .agent, place, r, shared => agent iterations place r shared
  | .listener .tobacco, place, _, shared => tobaccoListener place shared
  | .listener .aMatch, place, _, shared => matchListener place shared
  | .listener .paper, place, _, shared => paperListener place shared
  | .smoker .tobacco, place, _, shared => waitTobacco place shared
  | .smoker .aMatch, place, _, shared => waitMatch place shared
  | .smoker .paper, place, _, shared => waitPaper place shared

/-- The condition variable on which a thread waits. -/
def home : Thread → Condition
  | .agent => .smoke
  | .listener resource => .available resource
  | .smoker .tobacco => .matchAndPaper
  | .smoker .aMatch => .paperAndTobacco
  | .smoker .paper => .matchAndTobacco

abbrev State := System Thread Place Condition Shared

def threads : List Thread :=
  [.listener .aMatch, .listener .paper, .listener .tobacco, .smoker .aMatch,
    .smoker .paper, .smoker .tobacco, .agent]

theorem mem_threads (thread : Thread) : thread ∈ threads := by
  cases thread with
  | agent => decide
  | listener resource => cases resource <;> decide
  | smoker resource => cases resource <;> decide

theorem home_injective : Function.Injective home := by
  have distinct : ∀ left ∈ threads, ∀ right ∈ threads,
      home left = home right → left = right := by
    decide
  intro left right same
  exact distinct left (mem_threads left) right (mem_threads right) same

end SystemsLabs.Smokers

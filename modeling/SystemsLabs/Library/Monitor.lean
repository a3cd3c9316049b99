import Mathlib.Data.Finset.Dedup
import Mathlib.Data.Finset.Erase
import Mathlib.Data.Finset.Lattice.Lemmas
import Mathlib.Logic.Function.Basic

/-!
# Threads under one mutex

A thread runs from one wait on a condition variable to the next without
interruption.  A signal wakes one waiter of its condition variable, whichever it
is, and is lost when there is none; no thread wakes by itself.
-/

namespace SystemsLabs.Monitor

inductive Status (κ : Type*) where
  /-- The thread may take the mutex and go on. -/
  | ready
  | waiting (condition : κ)
  | finished
deriving DecidableEq

/-- The threads `ι`, with the places `π` of their programs at which they go on,
and the data `σ` that they share. -/
structure System (ι π κ σ : Type*) where
  shared : σ
  place : ι → π
  status : ι → Status κ
  /-- The number of signals without a waiter. -/
  lost : Nat

/-- What a thread does until it gives the mutex back. -/
structure Stretch (π κ σ : Type*) where
  shared : σ
  signals : List κ
  place : π
  status : Status κ

section Signals

variable {ι κ : Type*} [DecidableEq ι]

/-- Signals one after the other, with the number of those that are lost. -/
inductive Signals :
    (ι → Status κ) → List κ → (ι → Status κ) → Nat → Prop where
  | nil (status : ι → Status κ) : Signals status [] status 0
  | wake {status last : ι → Status κ} {thread : ι} {condition : κ}
      {conditions : List κ} {lost : Nat} :
      status thread = .waiting condition →
      Signals (Function.update status thread .ready) conditions last lost →
      Signals status (condition :: conditions) last lost
  | lose {status last : ι → Status κ} {condition : κ}
      {conditions : List κ} {lost : Nat} :
      (∀ thread, status thread ≠ .waiting condition) →
      Signals status conditions last lost →
      Signals status (condition :: conditions) last (lost + 1)

theorem signals_exist (status : ι → Status κ) (conditions : List κ) :
    ∃ last lost, Signals status conditions last lost := by
  induction conditions generalizing status with
  | nil => exact ⟨status, 0, .nil status⟩
  | cons condition conditions ih =>
      by_cases waits : ∃ thread, status thread = .waiting condition
      · obtain ⟨thread, waiting⟩ := waits
        obtain ⟨last, lost, signals⟩ := ih (Function.update status thread .ready)
        exact ⟨last, lost, .wake waiting signals⟩
      · obtain ⟨last, lost, signals⟩ := ih status
        exact ⟨last, lost + 1, .lose (not_exists.mp waits) signals⟩

/-- When every thread waits on a condition variable of its own only, a signal
wakes the thread it is meant for or is lost. -/
theorem Signals.meant_for {home : ι → κ} (injective : Function.Injective home)
    {status last : ι → Status κ} {thread : ι} {conditions : List κ}
    {lost : Nat}
    (atHome : ∀ other condition, status other = .waiting condition →
      condition = home other)
    (signals : Signals status (home thread :: conditions) last lost) :
    (status thread = .waiting (home thread) ∧
      Signals (Function.update status thread .ready) conditions last lost) ∨
    (status thread ≠ .waiting (home thread) ∧
      ∃ fewer, lost = fewer + 1 ∧ Signals status conditions last fewer) := by
  cases signals with
  | @wake _ _ woken _ _ _ waits onward =>
      have same : thread = woken := injective (atHome woken _ waits)
      subst same
      exact .inl ⟨waits, onward⟩
  | lose nobody onward => exact .inr ⟨nobody thread, _, rfl, onward⟩

variable [DecidableEq κ]

/-- The signals of a stretch, each waking the first waiter of a list. -/
def signalAll (threads : List ι) (status : ι → Status κ) :
    List κ → (ι → Status κ) × Nat
  | [] => (status, 0)
  | condition :: conditions =>
      match threads.find? fun thread => status thread = .waiting condition with
      | some thread =>
          signalAll threads (Function.update status thread .ready) conditions
      | none =>
          let (last, lost) := signalAll threads status conditions
          (last, lost + 1)

theorem signals_signalAll {threads : List ι} (all : ∀ thread, thread ∈ threads)
    (conditions : List κ) (status : ι → Status κ) :
    Signals status conditions (signalAll threads status conditions).1
      (signalAll threads status conditions).2 := by
  induction conditions generalizing status with
  | nil => exact .nil status
  | cons condition conditions ih =>
      rw [signalAll]
      split
      · rename_i thread found
        have waits := List.find?_some found
        exact .wake (of_decide_eq_true waits) (ih _)
      · rename_i absent
        have waits := List.find?_eq_none.mp absent
        exact .lose (fun thread waiting =>
          waits thread (all thread) (decide_eq_true waiting)) (ih status)

end Signals

section Step

variable {ι π κ σ α : Type*} [DecidableEq ι]

/-- One stretch of a thread; the action names the thread and what it drew. -/
inductive Step (program : ι → π → α → σ → Stretch π κ σ) :
    System ι π κ σ → ι × α → System ι π κ σ → Prop where
  | run {before : System ι π κ σ} {thread : ι} {choice : α}
      {stretch : Stretch π κ σ} {status : ι → Status κ} {lost : Nat} :
      before.status thread = .ready →
      program thread (before.place thread) choice before.shared = stretch →
      Signals before.status stretch.signals status lost →
      Step program before (thread, choice)
        { shared := stretch.shared
          place := Function.update before.place thread stretch.place
          status := Function.update status thread stretch.status
          lost := before.lost + lost }

theorem step_of_ready (program : ι → π → α → σ → Stretch π κ σ)
    {before : System ι π κ σ} {thread : ι}
    (ready : before.status thread = .ready) (choice : α) :
    ∃ after, Step program before (thread, choice) after := by
  obtain ⟨status, lost, signals⟩ := signals_exist before.status
    (program thread (before.place thread) choice before.shared).signals
  exact ⟨_, .run ready rfl signals⟩

def perform [DecidableEq κ] (threads : List ι)
    (program : ι → π → α → σ → Stretch π κ σ) (before : System ι π κ σ)
    (action : ι × α) : Option (System ι π κ σ) :=
  if before.status action.1 = .ready then
    let stretch :=
      program action.1 (before.place action.1) action.2 before.shared
    let (status, lost) := signalAll threads before.status stretch.signals
    some
      { shared := stretch.shared
        place := Function.update before.place action.1 stretch.place
        status := Function.update status action.1 stretch.status
        lost := before.lost + lost }
  else none

theorem step_of_perform [DecidableEq κ] {threads : List ι}
    (all : ∀ thread, thread ∈ threads)
    {program : ι → π → α → σ → Stretch π κ σ} {before after : System ι π κ σ}
    {action : ι × α}
    (performed : perform threads program before action = some after) :
    Step program before action after := by
  rw [perform] at performed
  split at performed
  · rename_i ready
    cases performed
    exact .run ready rfl (signals_signalAll all _ _)
  · cases performed

end Step

section Rests

variable {ι κ : Type*} [DecidableEq ι] {home : ι → κ} {ready : Finset ι}
  {status : ι → Status κ}

/-- Every thread waits on a condition variable of its own, apart from those
that are ready. -/
def Rests (home : ι → κ) (ready : Finset ι) (status : ι → Status κ) : Prop :=
  ∀ thread, status thread =
    if thread ∈ ready then .ready else .waiting (home thread)

namespace Rests

theorem ready_iff (rests : Rests home ready status) {thread : ι} :
    status thread = .ready ↔ thread ∈ ready := by
  rw [rests thread]
  split
  · rename_i member
    exact iff_of_true rfl member
  · rename_i absent
    exact iff_of_false (fun same => nomatch same) absent

theorem waiting (rests : Rests home ready status) {thread : ι}
    (absent : thread ∉ ready) : status thread = .waiting (home thread) := by
  rw [rests thread, if_neg absent]

theorem signal (injective : Function.Injective home)
    (rests : Rests home ready status) {thread : ι} (absent : thread ∉ ready)
    {conditions : List κ} {last : ι → Status κ} {lost : Nat}
    (signals : Signals status (home thread :: conditions) last lost) :
    ∃ after, Rests home (insert thread ready) after ∧
      Signals after conditions last lost := by
  cases signals with
  | @wake _ _ woken _ _ _ waits onward =>
      have same : woken = thread := by
        rw [rests woken] at waits
        split at waits
        · cases waits
        · exact injective (Status.waiting.inj waits)
      subst same
      refine ⟨_, ?_, onward⟩
      intro other
      by_cases equal : other = woken
      · rw [equal, Function.update_self, if_pos (Finset.mem_insert_self _ _)]
      · rw [Function.update_of_ne equal, rests other]
        simp only [Finset.mem_insert, equal, false_or]
  | lose nobody _ => exact (nobody thread (rests.waiting absent)).elim

theorem block (rests : Rests home ready status) (thread : ι) :
    Rests home (ready.erase thread)
      (Function.update status thread (.waiting (home thread))) := by
  intro other
  by_cases equal : other = thread
  · rw [equal, Function.update_self, if_neg (Finset.notMem_erase _ _)]
  · rw [Function.update_of_ne equal, rests other]
    simp only [Finset.mem_erase, ne_eq, equal, not_false_eq_true, true_and]

theorem signals (injective : Function.Injective home) {woken : List ι}
    (rests : Rests home ready status) (nodup : woken.Nodup)
    (waiting : ∀ thread ∈ woken, thread ∉ ready)
    {last : ι → Status κ} {lost : Nat}
    (signals : Signals status (woken.map home) last lost) :
    Rests home (ready ∪ woken.toFinset) last ∧ lost = 0 := by
  induction woken generalizing ready status with
  | nil =>
      cases signals
      rw [List.toFinset_nil, Finset.union_empty]
      exact ⟨rests, rfl⟩
  | cons thread woken ih =>
      obtain ⟨fresh, nodup⟩ := List.nodup_cons.mp nodup
      obtain ⟨after, restsAfter, onward⟩ :=
        rests.signal injective (waiting thread List.mem_cons_self) signals
      obtain ⟨restsLast, none_lost⟩ := ih restsAfter nodup
        (fun other member inserted => by
          rcases Finset.mem_insert.mp inserted with same | earlier
          · exact fresh (same ▸ member)
          · exact waiting other (List.mem_cons_of_mem _ member) earlier)
        onward
      rw [List.toFinset_cons, Finset.union_insert, ← Finset.insert_union]
      exact ⟨restsLast, none_lost⟩

end Rests

/-- A step of one of the ready threads that signals waiting threads and waits
again. -/
theorem Step.rests {π σ α : Type*} (injective : Function.Injective home)
    {program : ι → π → α → σ → Stretch π κ σ} {before after : System ι π κ σ}
    {thread : ι} {choice : α} (rests : Rests home ready before.status)
    (taken : Step program before (thread, choice) after)
    {stretch : Stretch π κ σ}
    (runs : program thread (before.place thread) choice before.shared =
      stretch)
    (woken : List ι) (signalled : stretch.signals = woken.map home)
    (nodup : woken.Nodup) (waiting : ∀ other ∈ woken, other ∉ ready)
    (blocks : stretch.status = .waiting (home thread)) :
    Rests home ((ready ∪ woken.toFinset).erase thread) after.status ∧
      after.shared = stretch.shared ∧
      after.place = Function.update before.place thread stretch.place ∧
      after.lost = before.lost := by
  cases taken with
  | run _ runsActual signals =>
      rw [runs] at runsActual
      subst runsActual
      rw [signalled] at signals
      obtain ⟨restsLast, none_lost⟩ :=
        rests.signals injective nodup waiting signals
      subst none_lost
      refine ⟨?_, rfl, rfl, rfl⟩
      rw [blocks]
      exact restsLast.block thread

end Rests

end SystemsLabs.Monitor

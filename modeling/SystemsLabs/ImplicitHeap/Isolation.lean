import SystemsLabs.ImplicitHeap.WellFormed

/-!
# Isolation of live allocations

The client's view of a heap: aligned payloads inside the heap area that do not
overlap, and whose bytes only the client changes.
-/

namespace SystemsLabs.ImplicitHeap

open Tiling Transition

/-- Two allocations, each an address with a size, that share no byte. -/
def Apart (left right : Nat × Nat) : Prop :=
  left.1 ≠ right.1 ∧
    (left.1 + left.2 ≤ right.1 ∨ right.1 + right.2 ≤ left.1)

instance (left right : Nat × Nat) : Decidable (Apart left right) :=
  inferInstanceAs (Decidable (_ ∧ _))

structure Isolated (session : Session) : Prop where
  aligned : ∀ payload size, (payload, size) ∈ session.live →
    payload % payloadAlign = 0
  inside : ∀ payload size, (payload, size) ∈ session.live →
    session.heap.start ≤ payload ∧
      payload + size ≤ session.heap.start + session.heap.size
  apart : session.live.Pairwise Apart

theorem span_aligned (blocks : List Block) :
    span Block.size blocks % 8 = 0 := by
  induction blocks with
  | nil => rfl
  | cons block rest ih =>
      have aligned := block.aligned
      rw [span_cons]
      omega

namespace Consistent

variable {session : Session} {blocks : List Block}

theorem live_aligned (consistent : Consistent session blocks)
    {payload size : Nat} (live : (payload, size) ∈ session.live) :
    payload % payloadAlign = 0 := by
  obtain ⟨address, block, member, place, _⟩ := consistent.block_of_live live
  obtain ⟨front, back, _, position⟩ := exists_split member
  have startAligned := consistent.represents.aligned
  have frontAligned := span_aligned front
  simp only [payloadAlign]
  omega

theorem live_pairwise (consistent : Consistent session blocks) :
    session.live.Pairwise Apart := by
  have distinct := List.pairwise_map.mp consistent.distinct
  apply distinct.imp_of_mem
  intro left right leftLive rightLive different
  exact ⟨different, consistent.live_apart leftLive rightLive different⟩

theorem isolated (consistent : Consistent session blocks) :
    Isolated session := by
  constructor
  · intro payload size live
    exact consistent.live_aligned live
  · intro payload size live
    have room := consistent.live_bounds live
    have total := consistent.represents.size
    omega
  · exact consistent.live_pairwise

end Consistent

/-- In every session on a first-fit heap the live payloads are isolated, and a
payload that is not freed holds what the client wrote there last. -/
theorem session_isolated {base : Nat} {size : Int} {initial memory : Memory}
    {heap : Heap}
    (created : Created base size .firstFit initial heap memory)
    {actions : List Action} {session : Session}
    (run : Run Step { heap := heap, memory := memory, live := [] } actions
      session) :
    Isolated session ∧
      ∀ laterActions laterSession, Run Step session laterActions laterSession →
        ∀ payload bytes, (payload, bytes) ∈ session.live →
          .free payload ∉ laterActions →
          (payload, bytes) ∈ laterSession.live ∧
            ∀ index, index < bytes →
              laterSession.memory (payload + index) =
                lastWritten (payload + index) laterActions
                  (session.memory (payload + index)) := by
  have sound := created.initialSound
  have noCursor := created.noCursor SearchAlg.noConfusion
  have safe := run_safe run sound noCursor
  have samePolicy := (run_keeps safe sound).searchAlg
  obtain ⟨blocks, consistent⟩ := run_sound safe sound
  refine ⟨consistent.isolated, ?_⟩
  intro laterActions laterSession laterRun
  have laterSafe := run_safe laterRun ⟨blocks, consistent⟩
    (by rw [samePolicy]; exact noCursor)
  exact (run_keeps laterSafe ⟨blocks, consistent⟩).bytes

theorem smallSession_isolated :
    ∃ session later,
      Run Step (smallSession .firstFit fun _ => 255) [.malloc 8, .malloc 16]
        session ∧
      Run Step session [.write 4153 7, .free 4136] later ∧
      Isolated session ∧ later.memory (4152 + 1) = 7 := by
  have returned : (replay (Session.perform 4)
      (smallSession .firstFit fun _ => 255) [.malloc 8, .malloc 16]).map
      (fun session => (session.live, (replay (Session.perform 4) session
        [.write 4153 7, .free 4136]).isSome)) =
          some ([(4152, 16), (4136, 8)], true) := by
    decide +kernel
  obtain ⟨session, replayed, pair⟩ := Option.map_eq_some_iff.mp returned
  obtain ⟨live, laterRuns⟩ := Prod.mk.inj pair
  obtain ⟨later, laterReplayed⟩ := Option.isSome_iff_exists.mp laterRuns
  have created := smallHeap_created .firstFit fun _ => 255
  have both := session_isolated created (Run.of_replay step_of_perform replayed)
  have bytes := (both.2 _ _ (Run.of_replay step_of_perform laterReplayed) 4152 16
    (by rw [live]; decide) (by decide)).2 1 (by decide)
  exact ⟨session, later, Run.of_replay step_of_perform replayed, Run.of_replay step_of_perform laterReplayed,
    both.1, bytes⟩

end SystemsLabs.ImplicitHeap

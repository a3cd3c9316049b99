import SystemsLabs.ImplicitHeap.Isolation

/-!
# The next-fit cursor over a session

A next-fit heap is safe as long as no `heapFree` loses the cursor.  When one
does, the cursor stays inside a merged block, and a later request is served
from there, on top of payloads handed out earlier.
-/

namespace SystemsLabs.ImplicitHeap

open Tiling Transition

/-- In every session on a next-fit heap in which no call of `heapFree` loses
the cursor, the cursor is at the start of a block and the live payloads do not
overlap. -/
theorem nextFit_cursor_safe {base : Nat} {size : Int}
    {initial memory : Memory} {heap : Heap}
    (created : Created base size .nextFit initial heap memory)
    {actions : List Action} {session : Session}
    (run : Run (guarded Step KeepsCursor)
      { heap := heap, memory := memory, live := [] } actions session) :
    ∃ visited,
      Walk session.memory session.heap.start visited
        (offset session.heap.start session.heap.size) ∧
      session.heap.next ∈ visited ∧ session.live.Pairwise Apart := by
  have sound := created.initialSound
  have policy : session.heap.searchAlg = .nextFit := by
    rw [(run_keeps run sound).searchAlg, created.fields.1]
  obtain ⟨blocks, consistent⟩ := run_sound run sound
  exact ⟨_, consistent.wellFormed.walk, consistent.cursor policy,
    consistent.live_pairwise⟩

/-- Freeing the block in front of the cursor keeps it. -/
theorem smallSession_cursor_safe :
    ∃ session,
      Run (guarded Step KeepsCursor) (smallSession .nextFit fun _ => 0)
        [.malloc 8, .malloc 8, .free 4136, .malloc 0] session ∧
      ∃ visited,
        Walk session.memory session.heap.start visited
          (offset session.heap.start session.heap.size) ∧
        session.heap.next ∈ visited ∧ session.live.Pairwise Apart := by
  have returned : (replay (restrict KeepsCursor (Session.perform 4))
      (smallSession .nextFit fun _ => 0)
      [.malloc 8, .malloc 8, .free 4136, .malloc 0]).isSome := by
    decide +kernel
  obtain ⟨session, replayed⟩ := Option.isSome_iff_exists.mp returned
  have run := Run.of_replay (restrict_sound step_of_perform) replayed
  have created := smallHeap_created .nextFit fun _ => 0
  exact ⟨session, run, nextFit_cursor_safe created run⟩

/-- The cursor is on the second of two payloads when they are freed: it stays
inside the one block that is left, and of two later requests the second
contains the first. -/
theorem smallSession_cursor_lost :
    ∃ stale session,
      Run Step (smallSession .nextFit fun _ => 0)
        [.malloc 8, .malloc 8, .free 4136, .free 4152] stale ∧
      getNextBlock stale.memory stale.heap.start =
        offset stale.heap.start stale.heap.size ∧
      stale.heap.next ≠ stale.heap.start ∧
      Run Step stale [.malloc 8, .malloc 48] session ∧
      session.live = [(4136, 48), (4152, 8)] ∧
      ¬session.live.Pairwise Apart := by
  have returned : (replay (Session.perform 4)
      (smallSession .nextFit fun _ => 0)
      [.malloc 8, .malloc 8, .free 4136, .free 4152]).map (fun stale =>
        (stale.heap, getNextBlock stale.memory stale.heap.start,
          (replay (Session.perform 4) stale [.malloc 8, .malloc 48]).map
            Session.live)) =
      some ({ smallHeap .nextFit with next := 4148 }, 4196,
        some [(4136, 48), (4152, 8)]) := by
    decide +kernel
  obtain ⟨stale, replayed, values⟩ := Option.map_eq_some_iff.mp returned
  simp only [Prod.mk.injEq] at values
  obtain ⟨heap, next, later⟩ := values
  obtain ⟨session, laterReplayed, live⟩ := Option.map_eq_some_iff.mp later
  refine ⟨stale, session, Run.of_replay step_of_perform replayed, ?_, ?_,
    Run.of_replay step_of_perform laterReplayed, live, ?_⟩
  · rw [next, heap]
    rfl
  · rw [heap]
    decide
  · rw [live]
    decide

end SystemsLabs.ImplicitHeap

import SystemsLabs.ImplicitHeap.Session

/-!
# The representation invariant

Every step of a session keeps it consistent with some layout and leaves the
bytes of the other live payloads alone.  For a next-fit heap this holds as long
as no step loses the cursor.
-/

namespace SystemsLabs.ImplicitHeap

open Tiling Transition

namespace Consistent

variable {session : Session} {blocks : List Block}

theorem served {front back : List Block} {block : Block}
    {request : Request} {newMemory : Memory} {cursor : Nat}
    (consistent : Consistent session (front ++ block :: back))
    (fits : request.needed ≤ block.size) (free : block.IsFree)
    (represents : Represents session.heap newMemory
      (front ++ (block.carve request fits ++ back)))
    (same : Memory.SameOutside (session.heap.start + span Block.size front)
      (session.heap.start + span Block.size front + block.size)
      session.memory newMemory)
    (moved : cursor = if session.heap.searchAlg = .nextFit then
      session.heap.start + span Block.size front else session.heap.next) :
    let address := session.heap.start + span Block.size front
    let after : Session :=
      { heap := { session.heap with next := cursor }, memory := newMemory
        live := (address + 4, request.bytes) :: session.live }
    Consistent after (front ++ (block.carve request fits ++ back)) ∧
      Keeps session [.malloc request.bytes] after := by
  intro address after
  have width := block.span_carve request fits
  constructor
  · constructor
    · exact ⟨represents.toTiles.withCursor cursor, represents.settled⟩
    · intro payload size
      have blockFree := Block.isFree_iff.mp free
      have before := consistent.live_iff payload size
      simp only [granted_append, granted_cons, blockFree, reduceCtorEq,
        and_false, false_or] at before
      simp only [after, List.mem_cons, Prod.mk.injEq, granted_append,
        granted_carve, width, before]
      constructor
      · rintro (⟨here, sameSize⟩ | ⟨position, place, inFront | inBack⟩)
        · exact ⟨address, here, .inr (.inl ⟨rfl, sameSize⟩)⟩
        · exact ⟨position, place, .inl inFront⟩
        · exact ⟨position, place, .inr (.inr inBack)⟩
      · rintro ⟨position, place, inFront | ⟨here, sameSize⟩ | inBack⟩
        · exact .inr ⟨position, place, .inl inFront⟩
        · subst position
          exact .inl ⟨place, sameSize⟩
        · exact .inr ⟨position, place, .inr inBack⟩
    · apply List.nodup_cons.mpr
      refine ⟨?_, consistent.distinct⟩
      intro member
      obtain ⟨⟨payload, size⟩, live, same⟩ := List.mem_map.mp member
      obtain ⟨position, other, otherMember, place, request, _⟩ :=
        consistent.block_of_live live
      have here : position = address := by
        simp only at same
        omega
      rw [here] at otherMember
      rw [eq_of_same_address Block.size_pos otherMember
        (mem_placed _ front block back), Block.isFree_iff.mp free] at request
      cases request
    · intro policy
      obtain ⟨tail, carved⟩ := block.carve_head request fits
      change cursor ∈ addresses Block.size session.heap.start _
      rw [moved, if_pos policy, carved]
      simp
  · refine ⟨rfl, ?_⟩
    intro payload size live _
    refine ⟨List.mem_cons_of_mem _ live, ?_⟩
    intro index inside
    apply consistent.live_byte same live _ inside
    intro position other member _ request
    have blockMember := @mem_placed _ Block.size session.heap.start front
      block back
    rcases eq_or_apart member blockMember with ⟨_, sameBlock⟩ | apart
    · rw [sameBlock, Block.isFree_iff.mp free] at request
      cases request
    · exact apart

theorem malloc (consistent : Consistent session blocks) {size fuel : Nat}
    {result : Option Nat} {heap : Heap} {memory : Memory}
    (aligned : size % 8 = 0) (small : size ≤ 2 ^ 32 - 16)
    (returned : heapMalloc fuel session.heap session.memory size =
      some (result, heap, memory)) :
    let after : Session :=
      { heap := heap, memory := memory
        live := (result.map fun payload => (payload, size)).toList ++
          session.live }
    ∃ newBlocks, Consistent after newBlocks ∧
      Keeps session [.malloc size] after := by
  let request : Request := ⟨size, aligned, small⟩
  have refines := heapMalloc_refines consistent.represents consistent.cursor
    request fuel
  rcases refines with ⟨stuck, _⟩ | ⟨outcome, sameResult, allocates⟩
  · rw [returned] at stuck
    cases stuck
  · rw [returned] at sameResult
    cases sameResult
    cases allocates with
    | refused _ =>
        refine ⟨blocks, ⟨consistent.represents, ?_, ?_, consistent.cursor⟩, ?_⟩
        · simpa using consistent.live_iff
        · simpa using consistent.distinct
        · refine ⟨rfl, ?_⟩
          intro payload other live _
          exact ⟨by simpa using live, fun _ _ => rfl⟩
    | served fits split free represents same moved =>
        subst split
        have both := consistent.served fits free represents same moved
        exact ⟨_, both.1, both.2⟩

theorem released {front back : List Block} {block : Block}
    (consistent : Consistent session (front ++ block :: back))
    (keeps : KeepsCursor session
      (.free (session.heap.start + span Block.size front + 4))) :
    let payload := session.heap.start + span Block.size front + 4
    let after : Session :=
      { heap := (heapFree session.heap session.memory payload).1
        memory := (heapFree session.heap session.memory payload).2
        live := session.live.filter fun entry => entry.1 ≠ payload }
    Consistent after (compact (front ++ block.release :: back)) ∧
      Keeps session [.free payload] after := by
  obtain ⟨newMemory, low, high, freed, represents, same, _, _, apart⟩ :=
    heapFree_spec consistent.represents
  intro payload
  have returned : heapFree session.heap session.memory payload = _ := freed
  rw [returned]
  intro after
  have layout : Consistent after
      (compact (front ++ block.release :: back)) := by
    refine ⟨⟨represents.toTiles.withCursor _, represents.settled⟩, ?_, ?_, ?_⟩
    · intro payload other
      have before := consistent.live_iff payload other
      have released := Block.isFree_iff.mp (Block.release_isFree block)
      simp only [granted_append, granted_cons] at before
      simp only [after, List.mem_filter, decide_eq_true_eq, before,
        granted_compact, granted_append, granted_cons, released,
        Block.release_size, reduceCtorEq, and_false, false_or]
      constructor
      · rintro ⟨⟨position, place, inFront | ⟨here, _⟩ | inBack⟩, different⟩
        · exact ⟨position, place, .inl inFront⟩
        · subst position
          exact (different place).elim
        · exact ⟨position, place, .inr inBack⟩
      · rintro ⟨position, place, inFront | inBack⟩
        · have inside := granted_bounds inFront
          exact ⟨⟨position, place, .inl inFront⟩, by omega⟩
        · have inside := granted_bounds inBack
          have positive := block.size_pos
          exact ⟨⟨position, place, .inr (.inr inBack)⟩, by omega⟩
    · exact consistent.distinct.sublist (List.filter_sublist.map _)
    · intro policy
      exact (releaseCursor_mem_iff consistent.represents policy
        (consistent.cursor policy)).mpr (keeps policy)
  refine ⟨layout, rfl, ?_⟩
  intro other otherSize otherLive notFreed
  have different : other ≠ session.heap.start + span Block.size front + 4 := by
    intro same
    exact notFreed (by rw [same]; exact List.mem_cons_self)
  have stillLive : (other, otherSize) ∈ after.live :=
    List.mem_filter.mpr ⟨otherLive, decide_eq_true different⟩
  refine ⟨stillLive, ?_⟩
  intro index inside
  obtain ⟨position, owner, ownerMember, place, granted, room⟩ :=
    layout.block_of_live stillLive
  have used : ¬owner.IsFree := by
    simp [Block.isFree_iff, granted]
  have away := apart _ ownerMember used
  exact same _ (by simp only at away; omega)

theorem free (consistent : Consistent session blocks)
    {payload size : Nat} (live : (payload, size) ∈ session.live)
    (keeps : KeepsCursor session (.free payload)) :
    let after : Session :=
      { heap := (heapFree session.heap session.memory payload).1
        memory := (heapFree session.heap session.memory payload).2
        live := session.live.filter fun entry => entry.1 ≠ payload }
    ∃ newBlocks, Consistent after newBlocks ∧
      Keeps session [.free payload] after := by
  obtain ⟨address, block, member, place, request, _⟩ :=
    consistent.block_of_live live
  obtain ⟨front, back, split, position⟩ := exists_split member
  subst split
  subst position
  subst place
  exact ⟨_, consistent.released keeps⟩

theorem write (consistent : Consistent session blocks)
    {payload size index : Nat} {byte : UInt8}
    (live : (payload, size) ∈ session.live) (inside : index < size) :
    let after : Session :=
      { session with memory := session.memory.write (payload + index) byte }
    Consistent after blocks ∧
      Keeps session [.write (payload + index) byte] after := by
  intro after
  obtain ⟨address, block, member, place, _, room⟩ :=
    consistent.block_of_live live
  have tagged := consistent.represents.tagged.frame_payload
    (Memory.write_sameOutside session.memory (payload + index) byte) member
    (by omega) (by omega)
  constructor
  · exact ⟨⟨consistent.represents.toTiles.withMemory tagged,
      consistent.represents.settled⟩, consistent.live_iff,
      consistent.distinct, consistent.cursor⟩
  · refine ⟨rfl, ?_⟩
    intro other otherSize otherLive _
    refine ⟨otherLive, ?_⟩
    intro otherIndex _
    simp only [after, Memory.write, lastWritten, eq_comm]

theorem elsewhere (consistent : Consistent session blocks)
    {address : Nat} {byte : UInt8}
    (outside : isWithinHeapRange session.heap address = false) :
    let after : Session :=
      { session with memory := session.memory.write address byte }
    Consistent after blocks ∧
      Keeps session [.elsewhere address byte] after := by
  intro after
  have away : ¬(session.heap.start ≤ address ∧
      address < session.heap.start + span Block.size blocks) := by
    rw [← consistent.represents.within_iff, outside]
    exact Bool.false_ne_true
  have same := Memory.write_sameOutside session.memory address byte
  have tagged := consistent.represents.tagged.frame same (by omega)
  constructor
  · exact ⟨⟨consistent.represents.toTiles.withMemory tagged,
      consistent.represents.settled⟩, consistent.live_iff,
      consistent.distinct, consistent.cursor⟩
  · refine ⟨rfl, ?_⟩
    intro payload size live _
    refine ⟨live, ?_⟩
    intro index inside
    have room := consistent.live_bounds live
    exact same _ (by omega)

/-- Every step that keeps the cursor preserves consistency and the bytes of
the live payloads. -/
theorem step {after : Session} {action : Action}
    (consistent : Consistent session blocks)
    (taken : Step session action after)
    (keeps : KeepsCursor session action) :
    ∃ newBlocks, Consistent after newBlocks ∧
      Keeps session [action] after := by
  cases taken with
  | malloc aligned small returned =>
      exact consistent.malloc aligned small returned
  | free live => exact consistent.free live keeps
  | write live inside => exact ⟨blocks, consistent.write live inside⟩
  | elsewhere outside => exact ⟨blocks, consistent.elsewhere outside⟩

end Consistent

/-- The steps of a session that do not lose a next-fit cursor. -/
abbrev SafeStep : Session → Action → Session → Prop :=
  guarded Step KeepsCursor

/-- Some layout explains the session. -/
def Session.Sound (session : Session) : Prop :=
  ∃ blocks, Consistent session blocks

theorem run_sound {first last : Session} {actions : List Action}
    (run : Run SafeStep first actions last) (initial : first.Sound) :
    last.Sound := by
  apply run.invariant _ initial
  rintro before action after ⟨blocks, consistent⟩ ⟨taken, keeps⟩
  obtain ⟨newBlocks, newConsistent, _⟩ := consistent.step taken keeps
  exact ⟨newBlocks, newConsistent⟩

theorem lastWritten_cons (address : Nat) (action : Action)
    (actions : List Action) (initial : UInt8) :
    lastWritten address (action :: actions) initial =
      lastWritten address actions (lastWritten address [action] initial) := by
  cases action <;> rfl

/-- The bytes of a payload over a run that does not free it. -/
theorem run_keeps {first last : Session} {actions : List Action}
    (run : Run SafeStep first actions last) (initial : first.Sound) :
    Keeps first actions last := by
  induction run with
  | nil => exact ⟨rfl, fun _ _ live _ => ⟨live, fun _ _ => rfl⟩⟩
  | cons taken _ ih =>
      obtain ⟨blocks, consistent⟩ := initial
      obtain ⟨newBlocks, newConsistent, stepKeeps⟩ :=
        consistent.step taken.1 taken.2
      have later := ih ⟨newBlocks, newConsistent⟩
      refine ⟨later.searchAlg.trans stepKeeps.searchAlg, ?_⟩
      intro payload size live notFreed
      obtain ⟨notFirst, notLater⟩ := not_or.mp (mt List.mem_cons.mpr notFreed)
      obtain ⟨stillLive, stepBytes⟩ := stepKeeps.bytes payload size live
        (by simpa using notFirst)
      obtain ⟨finallyLive, laterBytes⟩ :=
        later.bytes payload size stillLive notLater
      refine ⟨finallyLive, ?_⟩
      intro index inside
      rw [lastWritten_cons, laterBytes index inside, stepBytes index inside]

theorem keepsCursor_of_policy {session : Session}
    (policy : session.heap.searchAlg ≠ .nextFit) (action : Action) :
    KeepsCursor session action := by
  cases action with
  | free payload => exact fun nextFit => (policy nextFit).elim
  | malloc size => trivial
  | write address byte => trivial
  | elsewhere address byte => trivial

/-- First fit and best fit have no cursor to lose. -/
theorem run_safe {first last : Session} {actions : List Action}
    (run : Run Step first actions last) (initial : first.Sound)
    (policy : first.heap.searchAlg ≠ .nextFit) :
    Run SafeStep first actions last := by
  induction run with
  | nil => exact .nil _
  | cons taken _ ih =>
      obtain ⟨blocks, consistent⟩ := initial
      have safe := keepsCursor_of_policy policy
      obtain ⟨newBlocks, newConsistent, stepKeeps⟩ :=
        consistent.step taken (safe _)
      have samePolicy := stepKeeps.searchAlg
      exact .cons ⟨taken, safe _⟩
        (ih ⟨newBlocks, newConsistent⟩ (by rw [samePolicy]; exact policy))

end SystemsLabs.ImplicitHeap

import SystemsLabs.ImplicitHeap.Undo

/-!
# The order of frees

Freeing a set of payloads leaves a layout that does not depend on the order of
the calls: its used blocks are those that were not freed, it covers the same
addresses, and no two neighbours in it are free.  Only one layout satisfies
these three conditions.
-/

namespace SystemsLabs.ImplicitHeap

open Tiling Transition

/-- The block at an address is in use. -/
def UsedAt (start : Nat) (blocks : List Block) (entry : Nat × Block) : Prop :=
  entry ∈ placed Block.size start blocks ∧ ¬entry.2.IsFree

theorem usedAt_append {start : Nat} {front back : List Block}
    {entry : Nat × Block} :
    UsedAt start (front ++ back) entry ↔
      UsedAt start front entry ∨
        UsedAt (start + span Block.size front) back entry := by
  simp only [UsedAt, placed_append, List.mem_append, or_and_right]

theorem usedAt_cons {start : Nat} {block : Block} {rest : List Block}
    {entry : Nat × Block} :
    UsedAt start (block :: rest) entry ↔
      (entry = (start, block) ∧ ¬block.IsFree) ∨
        UsedAt (start + block.size) rest entry := by
  simp only [UsedAt, placed_cons, List.mem_cons, or_and_right]
  apply or_congr_left
  apply and_congr_right
  intro same
  rw [same]

theorem usedAt_tail {start : Nat} {block : Block} {rest : List Block}
    {entry : Nat × Block} :
    UsedAt (start + block.size) rest entry ↔
      UsedAt start (block :: rest) entry ∧ entry.1 ≠ start := by
  constructor
  · intro behind
    have low := (bounds behind.1).1
    have positive := block.size_pos
    exact ⟨usedAt_cons.mpr (.inr behind), by omega⟩
  · rintro ⟨used, different⟩
    rcases usedAt_cons.mp used with ⟨here, _⟩ | behind
    · exact (different (by rw [here])).elim
    · exact behind

theorem usedAt_absorb {start : Nat} {block : Block} {blocks : List Block}
    {entry : Nat × Block} :
    UsedAt start (absorb block blocks) entry ↔
      UsedAt start (block :: blocks) entry := by
  cases blocks with
  | nil => exact Iff.rfl
  | cons next rest =>
      by_cases both : block.IsFree ∧ next.IsFree
      · rw [absorb, if_pos both]
        simp [usedAt_cons, both.1, both.2, Nat.add_assoc]
      · rw [absorb, if_neg both]

theorem usedAt_compact {start : Nat} {blocks : List Block}
    {entry : Nat × Block} :
    UsedAt start (compact blocks) entry ↔ UsedAt start blocks entry := by
  induction blocks generalizing start with
  | nil => exact Iff.rfl
  | cons block rest ih =>
      rw [compact, usedAt_absorb, usedAt_cons, usedAt_cons, ih]

theorem usedAt_release {start : Nat} {front back : List Block} {block : Block}
    {entry : Nat × Block} :
    UsedAt start (front ++ block.release :: back) entry ↔
      UsedAt start (front ++ block :: back) entry ∧
        entry.1 ≠ start + span Block.size front := by
  have positive := block.size_pos
  simp only [usedAt_append, usedAt_cons, Block.release_isFree,
    Block.release_size, not_true_eq_false, and_false, false_or]
  constructor
  · rintro (inFront | inBack)
    · have low := bounds inFront.1
      have wide := entry.2.size_pos
      exact ⟨.inl inFront, by omega⟩
    · have high := bounds inBack.1
      exact ⟨.inr (.inr inBack), by omega⟩
  · rintro ⟨inFront | ⟨here, _⟩ | inBack, elsewhere⟩
    · exact .inl inFront
    · exact (elsewhere (by rw [here])).elim
    · exact .inr inBack

/-- Between free heads of two settled layouts the first one is not larger: the
block behind it is in use, and the other layout has that block too. -/
theorem size_le_of_used {start : Nat} {left right : Block}
    {leftRest rightRest : List Block}
    (settled : Settled (left :: leftRest)) (leftFree : left.IsFree)
    (rightFree : right.IsFree)
    (width : span Block.size (left :: leftRest) =
      span Block.size (right :: rightRest))
    (same : ∀ entry, UsedAt start (left :: leftRest) entry →
      UsedAt start (right :: rightRest) entry) :
    right.size ≤ left.size := by
  cases leftRest with
  | nil =>
      simp only [span_cons, span_nil] at width
      omega
  | cons next rest =>
      have nextUsed : ¬next.IsFree := by
        rcases (settled_cons.mp settled).1 with used | used
        · exact (used leftFree).elim
        · exact used
      have placedNext : UsedAt start (left :: next :: rest)
          (start + left.size, next) :=
        ⟨by simp, nextUsed⟩
      rcases usedAt_cons.mp (same _ placedNext) with ⟨_, used⟩ | behind
      · exact (used rightFree).elim
      · have room := (bounds behind.1).1
        omega

/-- A settled layout is determined by its width and its used blocks. -/
theorem Settled.eq_of_used {left right : List Block} {start : Nat}
    (leftSettled : Settled left) (rightSettled : Settled right)
    (width : span Block.size left = span Block.size right)
    (same : ∀ entry, UsedAt start left entry ↔ UsedAt start right entry) :
    left = right := by
  induction left generalizing start right with
  | nil =>
      cases right with
      | nil => rfl
      | cons block rest =>
          have positive := block.size_pos
          simp only [span_cons, span_nil] at width
          omega
  | cons block rest ih =>
      cases right with
      | nil =>
          have positive := block.size_pos
          simp only [span_cons, span_nil] at width
          omega
      | cons other others =>
          have heads : block = other := by
            by_cases free : block.IsFree
            · by_cases otherFree : other.IsFree
              · have smaller := size_le_of_used rightSettled otherFree free
                  width.symm fun entry => (same entry).mpr
                have larger := size_le_of_used leftSettled free otherFree
                  width fun entry => (same entry).mp
                apply Block.ext
                · exact Nat.le_antisymm smaller larger
                · exact free.trans otherFree.symm
              · have placedOther := (same (start, other)).mpr
                  ⟨List.mem_cons_self, otherFree⟩
                exact eq_of_same_address Block.size_pos List.mem_cons_self
                  placedOther.1
            · have placedBlock := (same (start, block)).mp
                ⟨List.mem_cons_self, free⟩
              exact eq_of_same_address Block.size_pos placedBlock.1
                List.mem_cons_self
          subst heads
          congr 1
          apply @ih others (start + block.size) leftSettled.tail
            rightSettled.tail
          · exact Nat.add_left_cancel width
          · intro entry
            rw [usedAt_tail, usedAt_tail, same entry]

/-- `heap_free` called on one payload after the other. -/
def freeAll (heap : Heap) (memory : Memory) : List Nat → Heap × Memory
  | [] => (heap, memory)
  | payload :: payloads =>
      let (heap, memory) := heapFree heap memory payload
      freeAll heap memory payloads

/-- The layout after a list of frees: the used blocks are those that were not
freed. -/
theorem freeAll_spec {memory : Memory} {payloads : List Nat} :
    ∀ {heap : Heap} {blocks : List Block},
      Represents heap memory blocks → payloads.Nodup →
      (∀ payload ∈ payloads, ∃ entry,
        UsedAt heap.start blocks entry ∧ payload = entry.1 + 4) →
      ∃ cursor finalMemory finalBlocks,
        freeAll heap memory payloads =
          ({ heap with next := cursor }, finalMemory) ∧
        Represents heap finalMemory finalBlocks ∧
        ∀ entry, UsedAt heap.start finalBlocks entry ↔
          UsedAt heap.start blocks entry ∧ entry.1 + 4 ∉ payloads := by
  induction payloads generalizing memory with
  | nil =>
      intro heap blocks represents _ _
      exact ⟨heap.next, memory, blocks, rfl, represents, by simp⟩
  | cons payload payloads ih =>
      intro heap blocks represents distinct used
      obtain ⟨notAgain, othersDistinct⟩ := List.nodup_cons.mp distinct
      obtain ⟨⟨address, block⟩, inUse, rfl⟩ := used payload List.mem_cons_self
      obtain ⟨front, back, rfl, rfl⟩ := exists_split inUse.1
      obtain ⟨newMemory, low, high, freed, newRepresents, _⟩ :=
        heapFree_spec represents
      have left : ∀ entry, UsedAt heap.start
          (compact (front ++ block.release :: back)) entry ↔
          UsedAt heap.start (front ++ block :: back) entry ∧
            entry.1 ≠ heap.start + span Block.size front := by
        intro entry
        rw [usedAt_compact, usedAt_release]
      have moved : Represents
          { heap with next := releaseCursor heap front block back } newMemory
          (compact (front ++ block.release :: back)) :=
        ⟨newRepresents.toTiles.withCursor _, newRepresents.settled⟩
      obtain ⟨cursor, finalMemory, finalBlocks, rest, finalRepresents,
        remaining⟩ := ih moved othersDistinct (by
          intro other member
          obtain ⟨entry, otherUsed, rfl⟩ :=
            used other (List.mem_cons_of_mem _ member)
          refine ⟨entry, (left entry).mpr ⟨otherUsed, ?_⟩, rfl⟩
          intro here
          rw [here] at member
          exact notAgain member)
      refine ⟨cursor, finalMemory, finalBlocks, ?_, ?_, ?_⟩
      · rw [freeAll, freed]
        exact rest
      · exact ⟨finalRepresents.toTiles.withCursor heap.next,
          finalRepresents.settled⟩
      · intro entry
        rw [remaining, left, List.mem_cons, not_or, and_assoc]
        simp only [ne_eq, Nat.add_right_cancel_iff]

theorem Consistent.usedAt_of_live {session : Session} {blocks : List Block}
    (consistent : Consistent session blocks) {payload size : Nat}
    (live : (payload, size) ∈ session.live) :
    ∃ entry, UsedAt session.heap.start blocks entry ∧
      payload = entry.1 + 4 := by
  obtain ⟨address, block, member, place, request, _⟩ :=
    consistent.block_of_live live
  exact ⟨(address, block), ⟨member, by simp [Block.isFree_iff, request]⟩,
    place⟩

theorem Consistent.live_of_usedAt {session : Session} {blocks : List Block}
    (consistent : Consistent session blocks) {entry : Nat × Block}
    (used : UsedAt session.heap.start blocks entry) :
    entry.1 + 4 ∈ session.live.map Prod.fst := by
  cases granted : entry.2.request with
  | none => exact (used.2 (Block.isFree_iff.mpr granted)).elim
  | some size =>
      have live := (consistent.live_iff (entry.1 + 4) size).mpr
        ⟨entry.1, rfl, entry.2, used.1, granted⟩
      exact List.mem_map_of_mem live

/-- Two orders of freeing the same payloads leave the same layout. -/
theorem Represents.freeAll_perm {heap : Heap} {memory : Memory}
    {blocks : List Block} (represents : Represents heap memory blocks)
    {first second : List Nat} (perm : first.Perm second)
    (distinct : first.Nodup)
    (used : ∀ payload ∈ first, ∃ entry,
      UsedAt heap.start blocks entry ∧ payload = entry.1 + 4) :
    ∃ finalBlocks,
      (∀ payloads, payloads = first ∨ payloads = second →
        ∃ cursor finalMemory,
          freeAll heap memory payloads =
            ({ heap with next := cursor }, finalMemory) ∧
          Represents heap finalMemory finalBlocks) ∧
      ∀ entry, UsedAt heap.start finalBlocks entry ↔
        UsedAt heap.start blocks entry ∧ entry.1 + 4 ∉ first := by
  obtain ⟨firstCursor, firstMemory, firstBlocks, firstResult,
    firstRepresents, firstUsed⟩ := freeAll_spec represents distinct used
  obtain ⟨secondCursor, secondMemory, secondBlocks, secondResult,
    secondRepresents, secondUsed⟩ :=
      freeAll_spec represents (perm.nodup_iff.mp distinct)
        fun payload member => used payload (perm.mem_iff.mpr member)
  have width : span Block.size secondBlocks = span Block.size firstBlocks := by
    have firstSize := firstRepresents.size
    have secondSize := secondRepresents.size
    omega
  have same : secondBlocks = firstBlocks := by
    apply secondRepresents.settled.eq_of_used firstRepresents.settled width
    intro entry
    rw [secondUsed, firstUsed, perm.mem_iff]
  subst same
  refine ⟨secondBlocks, ?_, firstUsed⟩
  rintro payloads (rfl | rfl)
  · exact ⟨firstCursor, firstMemory, firstResult, firstRepresents⟩
  · exact ⟨secondCursor, secondMemory, secondResult, secondRepresents⟩

theorem Consistent.sameArea {session after : Session} {blocks : List Block}
    {action : Action} (consistent : Consistent session blocks)
    (taken : Step session action after) :
    after.heap.start = session.heap.start ∧
      after.heap.size = session.heap.size := by
  cases taken with
  | @malloc size fuel result heap memory aligned small returned =>
      rcases heapMalloc_refines consistent.represents consistent.cursor
        ⟨size, aligned, small⟩ fuel with ⟨stuck, _⟩ | ⟨_, same, allocates⟩
      · rw [returned] at stuck
        cases stuck
      · rw [returned] at same
        cases same
        cases allocates with
        | refused _ => exact ⟨rfl, rfl⟩
        | served => exact ⟨rfl, rfl⟩
  | free live =>
      obtain ⟨⟨address, block⟩, used, rfl⟩ := consistent.usedAt_of_live live
      obtain ⟨front, back, rfl, rfl⟩ := exists_split used.1
      obtain ⟨newMemory, low, high, freed, _⟩ :=
        heapFree_spec consistent.represents
      rw [freed]
      exact ⟨rfl, rfl⟩
  | write live inside => exact ⟨rfl, rfl⟩
  | elsewhere outside => exact ⟨rfl, rfl⟩

theorem run_sameArea {first last : Session} {actions : List Action}
    (run : Run SafeStep first actions last) (initial : first.Sound) :
    last.heap.start = first.heap.start ∧
      last.heap.size = first.heap.size := by
  induction run with
  | nil => exact ⟨rfl, rfl⟩
  | cons taken _ ih =>
      obtain ⟨blocks, consistent⟩ := initial
      obtain ⟨newBlocks, newConsistent, _⟩ := consistent.step taken.1 taken.2
      obtain ⟨start, size⟩ := consistent.sameArea taken.1
      obtain ⟨laterStart, laterSize⟩ := ih ⟨newBlocks, newConsistent⟩
      exact ⟨laterStart.trans start, laterSize.trans size⟩

theorem Created.sameArea {base : Nat} {size : Int} {searchAlg : SearchAlg}
    {initial memory : Memory} {heap : Heap}
    (created : Created base size searchAlg initial heap memory)
    (policy : searchAlg ≠ .nextFit) {actions : List Action}
    {session : Session}
    (run : Run Step { heap := heap, memory := memory, live := [] } actions
      session) :
    session.heap.start = heap.start ∧ session.heap.size = heap.size := by
  have first := created.initialSound
  exact run_sameArea (run_safe run first (created.noCursor policy)) first

/-- A settled layout of the width of a new heap without a used block is that
of the new heap. -/
theorem Created.eq_block {base : Nat} {size : Int} {searchAlg : SearchAlg}
    {initial memory : Memory} {heap : Heap}
    (created : Created base size searchAlg initial heap memory)
    {blocks : List Block} {start : Nat} (settled : Settled blocks)
    (width : span Block.size blocks = span Block.size [created.block])
    (unused : ∀ entry, ¬UsedAt start blocks entry) :
    blocks = [created.block] := by
  have free : created.block.IsFree := Block.vacant_isFree _ _ _
  apply settled.eq_of_used created.consistent.represents.settled width
  intro entry
  apply iff_of_false (unused entry)
  intro inUse
  rcases usedAt_cons.mp inUse with ⟨_, notFree⟩ | behind
  · exact notFree free
  · cases behind.1

/-- Freeing a set of live payloads gives the same list of blocks in every
order; freeing all of them gives the block of the new heap back. -/
theorem freeAll_order_irrelevant {base : Nat} {size : Int}
    {initial memory : Memory} {heap : Heap}
    (created : Created base size .firstFit initial heap memory)
    {actions : List Action} {session : Session}
    (run : Run Step { heap := heap, memory := memory, live := [] } actions
      session)
    {first second : List Nat} (perm : first.Perm second)
    (distinct : first.Nodup)
    (live : ∀ payload ∈ first, payload ∈ session.live.map Prod.fst) :
    ∃ blocks enough,
      (∀ rounds, enough ≤ rounds →
        blockList rounds (freeAll session.heap session.memory first).1
          (freeAll session.heap session.memory first).2 = some blocks ∧
        blockList rounds (freeAll session.heap session.memory second).1
          (freeAll session.heap session.memory second).2 = some blocks) ∧
      ((∀ payload ∈ session.live.map Prod.fst, payload ∈ first) →
        blocks = [(heap.start, heap.size.toNat, false)] ∧
        ∀ rounds, enough ≤ rounds →
          blockList rounds heap memory = some blocks) := by
  obtain ⟨layout, consistent⟩ := created.sound SearchAlg.noConfusion run
  obtain ⟨start, area⟩ := created.sameArea SearchAlg.noConfusion run
  have used : ∀ payload ∈ first, ∃ entry,
      UsedAt session.heap.start layout entry ∧ payload = entry.1 + 4 := by
    intro payload member
    obtain ⟨⟨_, requested⟩, known, rfl⟩ :=
      List.mem_map.mp (live payload member)
    exact consistent.usedAt_of_live known
  obtain ⟨finalBlocks, results, remaining⟩ :=
    consistent.represents.freeAll_perm perm distinct used
  obtain ⟨firstCursor, firstMemory, firstResult, firstRepresents⟩ :=
    results first (.inl rfl)
  obtain ⟨secondCursor, secondMemory, secondResult, secondRepresents⟩ :=
    results second (.inr rfl)
  refine ⟨rows session.heap.start finalBlocks, finalBlocks.length + 1, ?_, ?_⟩
  · intro rounds enough
    rw [firstResult, secondResult]
    exact ⟨(firstRepresents.toTiles.withCursor firstCursor).blockList enough,
      (secondRepresents.toTiles.withCursor secondCursor).blockList enough⟩
  · intro everything
    have fresh := created.consistent.represents
    have width : span Block.size finalBlocks =
        span Block.size [created.block] := by
      have finalSize := firstRepresents.size
      have freshSize := fresh.size
      simp only at freshSize
      omega
    have unused : ∀ entry,
        ¬UsedAt session.heap.start finalBlocks entry := by
      intro entry inUse
      obtain ⟨before, kept⟩ := (remaining entry).mp inUse
      exact kept (everything _ (consistent.live_of_usedAt before))
    obtain rfl := created.eq_block firstRepresents.settled width unused
    have newHeap : rows heap.start [created.block] =
        [(heap.start, heap.size.toNat, false)] := by
      simp [rows, Created.block]
    rw [start, newHeap]
    refine ⟨rfl, ?_⟩
    intro rounds enough
    rw [← newHeap]
    exact fresh.toTiles.blockList enough

/-- Two payloads freed from the front and from the back. -/
theorem smallSession_freeAll :
    ∃ session blocks enough,
      Run Step (smallSession .firstFit fun _ => 255) [.malloc 8, .malloc 16]
        session ∧
      (∀ rounds, enough ≤ rounds →
        blockList rounds (freeAll session.heap session.memory [4136, 4152]).1
          (freeAll session.heap session.memory [4136, 4152]).2 = some blocks ∧
        blockList rounds (freeAll session.heap session.memory [4152, 4136]).1
          (freeAll session.heap session.memory [4152, 4136]).2 =
            some blocks) ∧
      blocks = [(4132, 64, false)] := by
  have returned : (replay (Session.perform 4)
      (smallSession .firstFit fun _ => 255) [.malloc 8, .malloc 16]).map
        Session.live = some [(4152, 16), (4136, 8)] := by
    decide +kernel
  obtain ⟨session, replayed, live⟩ := Option.map_eq_some_iff.mp returned
  have run := Run.of_replay step_of_perform replayed
  have created := smallHeap_created .firstFit fun _ => 255
  have permuted : [4136, 4152].Perm [4152, 4136] := List.Perm.swap _ _ _
  obtain ⟨blocks, enough, same, all⟩ := freeAll_order_irrelevant created run
    permuted (by decide) (by simp [live])
  exact ⟨session, blocks, enough, run, same, (all (by simp [live])).1⟩

end SystemsLabs.ImplicitHeap

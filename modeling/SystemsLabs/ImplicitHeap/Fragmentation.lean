import SystemsLabs.ImplicitHeap.FreeOrder

/-!
# When a heap runs out of memory

A block that is handed out occupies little more than it was requested for,
because larger ones are split, and no two free blocks touch.  So a heap that
refuses a request is nearly full: what it has is used up by the live payloads,
except for at most one gap around each of them that is too small.
-/

namespace SystemsLabs.ImplicitHeap

open Tiling Transition

/-- The most that a block handed out for `size` bytes may occupy. -/
def footprint (size : Nat) : Nat :=
  min (size + 8 + 128) ((size + 8) * 2)

/-- A block is not much larger than its request. -/
def Block.Frugal (block : Block) : Prop :=
  ∀ size, block.request = some size → block.size ≤ footprint size

def Frugal (blocks : List Block) : Prop :=
  ∀ block ∈ blocks, block.Frugal

theorem Block.IsFree.frugal {block : Block} (free : block.IsFree) :
    block.Frugal := by
  intro size request
  rw [Block.isFree_iff.mp free] at request
  cases request

theorem frugal_append {front back : List Block} :
    Frugal (front ++ back) ↔ Frugal front ∧ Frugal back :=
  List.forall_mem_append

theorem frugal_cons {block : Block} {rest : List Block} :
    Frugal (block :: rest) ↔ block.Frugal ∧ Frugal rest :=
  List.forall_mem_cons

/-- Splitting keeps what is handed out small. -/
theorem frugal_carve (block : Block) (request : Request)
    (fits : request.needed ≤ block.size) :
    Frugal (block.carve request fits) := by
  by_cases splits : block.Splits request
  · rw [Block.carve, dif_pos splits, frugal_cons, frugal_cons]
    refine ⟨?_, (Block.vacant_isFree _ _ _).frugal, ?_⟩
    · intro size handed
      cases handed
      simp only [Block.exact, footprint, Request.needed]
      omega
    · intro other member
      cases member
  · rw [Block.carve, dif_neg splits, frugal_cons]
    refine ⟨?_, ?_⟩
    · intro size handed
      cases handed
      simp only [Block.Splits, Request.needed] at splits
      simp only [Block.grant, footprint]
      omega
    · intro other member
      cases member

theorem frugal_absorb {block : Block} {blocks : List Block}
    (first : block.Frugal) (frugal : Frugal blocks) :
    Frugal (absorb block blocks) := by
  cases blocks with
  | nil => exact frugal_cons.mpr ⟨first, frugal⟩
  | cons next rest =>
      by_cases both : block.IsFree ∧ next.IsFree
      · rw [absorb, if_pos both]
        exact frugal_cons.mpr
          ⟨(Block.join_isFree block next).frugal, (frugal_cons.mp frugal).2⟩
      · rw [absorb, if_neg both]
        exact frugal_cons.mpr ⟨first, frugal⟩

theorem frugal_compact {blocks : List Block} (frugal : Frugal blocks) :
    Frugal (compact blocks) := by
  induction blocks with
  | nil => exact frugal
  | cons block rest ih =>
      obtain ⟨first, others⟩ := frugal_cons.mp frugal
      exact frugal_absorb first (ih others)

/-- Every step that keeps the cursor leaves a layout of this kind. -/
theorem Consistent.step_frugal {session after : Session}
    {blocks : List Block} {action : Action}
    (consistent : Consistent session blocks) (frugal : Frugal blocks)
    (taken : Step session action after)
    (keeps : KeepsCursor session action) :
    ∃ newBlocks, Consistent after newBlocks ∧ Frugal newBlocks := by
  cases taken with
  | @malloc size fuel result heap memory aligned small returned =>
      have refines := heapMalloc_refines consistent.represents
        consistent.cursor ⟨size, aligned, small⟩ fuel
      rcases refines with ⟨stuck, _⟩ | ⟨outcome, sameResult, allocates⟩
      · rw [returned] at stuck
        cases stuck
      · rw [returned] at sameResult
        cases sameResult
        cases allocates with
        | refused _ => exact ⟨blocks, consistent, frugal⟩
        | served fits split free represents same moved =>
            subst split
            obtain ⟨front, rest⟩ := frugal_append.mp frugal
            exact ⟨_, (consistent.served fits free represents same moved).1,
              frugal_append.mpr ⟨front, frugal_append.mpr
                ⟨frugal_carve _ _ fits, (frugal_cons.mp rest).2⟩⟩⟩
  | free live =>
      obtain ⟨address, block, member, rfl, _⟩ := consistent.block_of_live live
      obtain ⟨front, back, rfl, rfl⟩ := exists_split member
      obtain ⟨before, rest⟩ := frugal_append.mp frugal
      exact ⟨_, (consistent.released keeps).1, frugal_compact
        (frugal_append.mpr ⟨before, frugal_cons.mpr
          ⟨block.release_isFree.frugal, (frugal_cons.mp rest).2⟩⟩)⟩
  | write live inside =>
      exact ⟨blocks, (consistent.write live inside).1, frugal⟩
  | elsewhere outside =>
      exact ⟨blocks, (consistent.elsewhere outside).1, frugal⟩

theorem run_frugal {first last : Session} {actions : List Action}
    (run : Run SafeStep first actions last)
    (initial : ∃ blocks, Consistent first blocks ∧ Frugal blocks) :
    ∃ blocks, Consistent last blocks ∧ Frugal blocks := by
  apply run.invariant _ initial
  rintro before action after ⟨blocks, consistent, frugal⟩ ⟨taken, keeps⟩
  exact consistent.step_frugal frugal taken keeps

section Accounts

variable {blocks : List Block}

/-- The payloads of a layout, with the sizes they were requested for. -/
def payloads (start : Nat) (blocks : List Block) : List (Nat × Nat) :=
  (placed Block.size start blocks).filterMap fun entry =>
    entry.2.request.map fun size => (entry.1 + 4, size)

theorem mem_payloads {start payload size : Nat} :
    (payload, size) ∈ payloads start blocks ↔
      ∃ address, payload = address + 4 ∧ Granted start blocks address size := by
  simp only [payloads, List.mem_filterMap, Option.map_eq_some_iff,
    Prod.mk.injEq, Granted]
  constructor
  · rintro ⟨⟨address, block⟩, member, other, request, rfl, rfl⟩
    exact ⟨address, rfl, block, member, request⟩
  · rintro ⟨address, rfl, block, member, request⟩
    exact ⟨(address, block), member, size, request, rfl, rfl⟩

theorem payloads_nodup (start : Nat) (blocks : List Block) :
    (payloads start blocks).Nodup := by
  induction blocks generalizing start with
  | nil => exact List.nodup_nil
  | cons block rest ih =>
      have later := ih (start + block.size)
      cases request : block.request with
      | none => simpa [payloads, request] using later
      | some size =>
          have fresh : (start + 4, size) ∉
              payloads (start + block.size) rest := by
            intro member
            obtain ⟨address, same, granted⟩ := mem_payloads.mp member
            have inside := granted_bounds granted
            have positive := block.size_pos
            omega
          have split : payloads start (block :: rest) =
              (start + 4, size) :: payloads (start + block.size) rest := by
            simp [payloads, request]
          rw [split]
          exact List.nodup_cons.mpr ⟨fresh, later⟩

theorem payloads_sizes (start : Nat) (blocks : List Block) :
    (payloads start blocks).map Prod.snd = blocks.filterMap Block.request := by
  induction blocks generalizing start with
  | nil => rfl
  | cons block rest ih =>
      have later := ih (start + block.size)
      cases request : block.request with
      | none => simpa [payloads, request] using later
      | some size => simpa [payloads, request] using later

theorem Consistent.live_sizes {session : Session}
    (consistent : Consistent session blocks) :
    (session.live.map Prod.snd).Perm (blocks.filterMap Block.request) := by
  have distinct : session.live.Nodup := List.Pairwise.of_map Prod.fst
    (fun _ _ different same => different (congrArg Prod.fst same))
    consistent.distinct
  rw [← payloads_sizes session.heap.start]
  apply List.Perm.map
  apply (List.perm_ext_iff_of_nodup distinct
    (payloads_nodup _ blocks)).mpr
  rintro ⟨payload, size⟩
  rw [consistent.live_iff, mem_payloads]

theorem Settled.next_used {block : Block} {rest : List Block}
    (settled : Settled (block :: rest)) (free : block.IsFree) :
    ∀ next ∈ rest.head?, ¬next.IsFree := by
  intro next member
  cases rest with
  | nil => cases member
  | cons other rest =>
      cases member
      rcases (settled_cons.mp settled).1 with used | used
      · exact (used free).elim
      · exact used

/-- A layout without two free neighbours has at most one free block more than
used ones, and no more of them when it starts with a used one. -/
theorem span_le {most : Nat} (settled : Settled blocks)
    (frugal : Frugal blocks)
    (gaps : ∀ block ∈ blocks, block.IsFree → block.size ≤ most) :
    let sizes := blocks.filterMap Block.request
    span Block.size blocks ≤
        (sizes.map footprint).sum + (sizes.length + 1) * most ∧
      ((∀ first ∈ blocks.head?, ¬first.IsFree) →
        span Block.size blocks ≤
          (sizes.map footprint).sum + sizes.length * most) := by
  intro sizes
  induction blocks with
  | nil => exact ⟨Nat.zero_le _, fun _ => Nat.zero_le _⟩
  | cons block rest ih =>
      obtain ⟨first, others⟩ := frugal_cons.mp frugal
      obtain ⟨gap, later⟩ := List.forall_mem_cons.mp gaps
      obtain ⟨one, none⟩ := ih settled.tail others later
      cases request : block.request with
      | none =>
          have free := Block.isFree_iff.mpr request
          have small := gap free
          have rest := none (settled.next_used free)
          simp only [sizes, List.filterMap_cons_none request, span_cons]
          refine ⟨?_, fun used => (used block rfl free).elim⟩
          rw [Nat.succ_mul]
          omega
      | some size =>
          have small := first size request
          simp only [sizes, List.filterMap_cons_some request, List.map_cons,
            List.sum_cons, List.length_cons, span_cons, Nat.succ_mul] at one ⊢
          exact ⟨by omega, fun _ => by omega⟩

theorem le_span (blocks : List Block) :
    ((blocks.filterMap Block.request).map (· + 8)).sum ≤
      span Block.size blocks := by
  induction blocks with
  | nil => exact Nat.le_refl 0
  | cons block rest ih =>
      cases request : block.request with
      | none =>
          rw [List.filterMap_cons_none request, span_cons]
          omega
      | some size =>
          have room := block.holds size request
          rw [List.filterMap_cons_some request, List.map_cons, List.sum_cons,
            span_cons]
          omega

end Accounts

/-- The bytes that the live payloads need with their headers and footers. -/
def Session.occupied (session : Session) : Nat :=
  (session.live.map fun entry => entry.2 + 8).sum

/-- The most that their blocks may have. -/
def Session.claimed (session : Session) : Nat :=
  (session.live.map fun entry => footprint entry.2).sum

namespace Consistent

variable {session : Session} {blocks : List Block}

theorem sum_live (consistent : Consistent session blocks)
    (weight : Nat → Nat) :
    (session.live.map fun entry => weight entry.2).sum =
      ((blocks.filterMap Block.request).map weight).sum := by
  have sizes := (consistent.live_sizes.map weight).sum_nat
  rw [List.map_map] at sizes
  exact sizes

theorem occupied_le (consistent : Consistent session blocks) :
    (session.occupied : Int) ≤ session.heap.size := by
  have bound := le_span blocks
  rw [← consistent.sum_live] at bound
  rw [consistent.represents.size]
  exact_mod_cast bound

/-- When no block fits a request, the heap is full but for small gaps. -/
theorem size_le (consistent : Consistent session blocks)
    (frugal : Frugal blocks) (request : Request)
    (refused : ∀ block ∈ blocks, ¬block.Fits request) :
    session.heap.size ≤ (session.claimed +
      (session.live.length + 1) * request.bytes : Nat) := by
  have gaps : ∀ block ∈ blocks, block.IsFree → block.size ≤ request.bytes := by
    intro block member free
    have small : ¬request.needed ≤ block.size := fun fits =>
      refused block member ⟨free, fits⟩
    have blockAligned := block.aligned
    have requestAligned := request.aligned
    simp only [Request.needed] at small
    omega
  have bound := (span_le consistent.represents.settled frugal gaps).1
  have count := consistent.live_sizes.length_eq
  rw [List.length_map] at count
  rw [← consistent.sum_live, ← count] at bound
  rw [consistent.represents.size]
  exact_mod_cast bound

end Consistent

/-- A request is refused only when what the live payloads leave of the heap is
cut into gaps that are too small; then nothing has changed.  It is granted only
when there is room for it beside them. -/
theorem session_serves {base : Nat} {area : Int}
    {searchAlg : SearchAlg} {initial memory : Memory} {heap : Heap}
    (created : Created base area searchAlg initial heap memory)
    {actions : List Action} {session : Session}
    (run : Run (guarded Step KeepsCursor)
      { heap := heap, memory := memory, live := [] } actions session)
    (request : Request) :
    ∃ enough, ∀ fuel, enough ≤ fuel →
      ∃ result newHeap newMemory,
        heapMalloc fuel session.heap session.memory request.bytes =
          some (result, newHeap, newMemory) ∧
        (result = none →
          newHeap = session.heap ∧ newMemory = session.memory ∧
            heap.size ≤ (session.claimed +
              (session.live.length + 1) * request.bytes : Nat)) ∧
        (result ≠ none →
          (session.occupied + request.needed : Nat) ≤ heap.size) := by
  have initialFrugal : ∃ blocks, Consistent
      { heap := heap, memory := memory, live := [] } blocks ∧
        Frugal blocks :=
    ⟨_, created.consistent, frugal_cons.mpr
      ⟨(Block.vacant_isFree _ _ _).frugal, fun _ member => nomatch member⟩⟩
  obtain ⟨blocks, consistent, frugal⟩ := run_frugal run initialFrugal
  have sameSize := (run_sameArea run created.initialSound).2
  refine ⟨blocks.length + 1, ?_⟩
  intro fuel enough
  rcases heapMalloc_refines consistent.represents consistent.cursor request
    fuel with ⟨_, short⟩ | ⟨outcome, returned, allocates⟩
  · omega
  · cases allocates with
    | refused refused =>
        have bound := consistent.size_le frugal request refused
        rw [sameSize] at bound
        exact ⟨none, _, _, returned, fun _ => ⟨rfl, rfl, bound⟩,
          fun granted => (granted rfl).elim⟩
    | @served front back block newMemory cursor fits split free represents same
        moved =>
        subst split
        have room := (consistent.served fits free represents same
          moved).1.occupied_le
        refine ⟨_, _, _, returned,
          fun refused => (Option.some_ne_none _ refused).elim, fun _ => ?_⟩
        change ((request.needed + session.occupied : Nat) : Int) ≤
          session.heap.size at room
        rw [sameSize, Nat.add_comm] at room
        exact room

/-- After two requests and a free, a heap of 64 bytes. -/
theorem smallSession_serves :
    ∃ session,
      Run (guarded Step KeepsCursor) (smallSession .nextFit fun _ => 0)
        [.malloc 8, .malloc 8, .free 4136] session ∧
      ∃ enough, ∀ fuel, enough ≤ fuel →
        ∃ result newHeap newMemory,
          heapMalloc fuel session.heap session.memory 16 =
            some (result, newHeap, newMemory) ∧
          (result = none →
            newHeap = session.heap ∧ newMemory = session.memory ∧
              (64 : Int) ≤ (session.claimed +
                (session.live.length + 1) * 16 : Nat)) ∧
          (result ≠ none → ((session.occupied + 24 : Nat) : Int) ≤ 64) := by
  have returned : (replay (restrict KeepsCursor (Session.perform 4))
      (smallSession .nextFit fun _ => 0)
      [.malloc 8, .malloc 8, .free 4136]).isSome := by
    decide +kernel
  obtain ⟨session, replayed⟩ := Option.isSome_iff_exists.mp returned
  have run := Run.of_replay (restrict_sound step_of_perform) replayed
  have created := smallHeap_created .nextFit fun _ => 0
  exact ⟨session, run,
    session_serves created run ⟨16, by decide, by decide⟩⟩

end SystemsLabs.ImplicitHeap

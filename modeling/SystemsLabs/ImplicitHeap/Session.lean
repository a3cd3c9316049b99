import SystemsLabs.ImplicitHeap.Cursor
import SystemsLabs.ImplicitHeap.Malloc
import SystemsLabs.Library.Transition

/-!
# Using a heap: sessions

A session is a heap, the memory, and the payloads that are live, each with the
size it was requested for.  Its steps are the calls a client may make, the
bytes it may write, and arbitrary changes of the memory around the heap area.
-/

namespace SystemsLabs.ImplicitHeap

open Tiling Transition

structure Session where
  heap : Heap
  memory : Memory
  live : List (Nat × Nat)

inductive Action where
  | malloc (size : Nat)
  | free (payload : Nat)
  /-- The client writes a byte of a live payload. -/
  | write (address : Nat) (byte : UInt8)
  /-- A byte outside the heap area changes. -/
  | elsewhere (address : Nat) (byte : UInt8)
  deriving DecidableEq

inductive Step : Session → Action → Session → Prop where
  | malloc {session : Session} {size fuel : Nat} {result : Option Nat}
      {heap : Heap} {memory : Memory} :
      size % 8 = 0 →
      size ≤ 2 ^ 32 - 16 →
      heapMalloc fuel session.heap session.memory size =
        some (result, heap, memory) →
      Step session (.malloc size)
        { heap := heap, memory := memory
          live := (result.map fun payload => (payload, size)).toList ++
            session.live }
  | free {session : Session} {payload size : Nat} :
      (payload, size) ∈ session.live →
      Step session (.free payload)
        { heap := (heapFree session.heap session.memory payload).1
          memory := (heapFree session.heap session.memory payload).2
          live := session.live.filter fun entry => entry.1 ≠ payload }
  | write {session : Session} {payload size index : Nat} {byte : UInt8} :
      (payload, size) ∈ session.live →
      index < size →
      Step session (.write (payload + index) byte)
        { session with
          memory := session.memory.write (payload + index) byte }
  | elsewhere {session : Session} {address : Nat} {byte : UInt8} :
      isWithinHeapRange session.heap address = false →
      Step session (.elsewhere address byte)
        { session with memory := session.memory.write address byte }

namespace Session

/-- The effect of an action: `none` when it is not allowed, or when the request
needs more rounds of a search loop than `fuel`. -/
def perform (fuel : Nat) (session : Session) : Action → Option Session
  | .malloc size =>
      if size % 8 = 0 ∧ size ≤ 2 ^ 32 - 16 then do
        let (result, heap, memory) ←
          heapMalloc fuel session.heap session.memory size
        return {
          heap := heap, memory := memory
          live := (result.map fun payload => (payload, size)).toList ++
            session.live }
      else none
  | .free payload =>
      if payload ∈ session.live.map Prod.fst then
        some {
          heap := (heapFree session.heap session.memory payload).1
          memory := (heapFree session.heap session.memory payload).2
          live := session.live.filter fun entry => entry.1 ≠ payload }
      else none
  | .write address byte =>
      if ∃ entry ∈ session.live,
          entry.1 ≤ address ∧ address < entry.1 + entry.2 then
        some { session with memory := session.memory.write address byte }
      else none
  | .elsewhere address byte =>
      if isWithinHeapRange session.heap address = false then
        some { session with memory := session.memory.write address byte }
      else none

end Session

theorem step_iff_perform {session after : Session} {action : Action} :
    Step session action after ↔
      ∃ fuel, session.perform fuel action = some after := by
  constructor
  · intro taken
    cases taken with
    | @malloc size fuel result heap memory aligned small returned =>
        refine ⟨fuel, ?_⟩
        rw [Session.perform, if_pos ⟨aligned, small⟩, returned]
        rfl
    | @free payload size live =>
        have known : payload ∈ session.live.map Prod.fst :=
          List.mem_map_of_mem live
        exact ⟨0, by simp only [Session.perform, if_pos known]⟩
    | @write payload size index byte live inside =>
        have known : ∃ entry ∈ session.live, entry.1 ≤ payload + index ∧
            payload + index < entry.1 + entry.2 :=
          ⟨_, live, Nat.le_add_right _ _, Nat.add_lt_add_left inside _⟩
        exact ⟨0, by simp only [Session.perform, if_pos known]⟩
    | elsewhere outside =>
        exact ⟨0, by simp only [Session.perform, if_pos outside]⟩
  · rintro ⟨fuel, performed⟩
    cases action with
    | malloc size =>
        simp only [Session.perform] at performed
        split at performed
        · rename_i allowed
          obtain ⟨⟨result, heap, memory⟩, returned, same⟩ :=
            Option.bind_eq_some_iff.mp performed
          cases same
          exact .malloc allowed.1 allowed.2 returned
        · cases performed
    | free payload =>
        simp only [Session.perform] at performed
        split at performed
        · rename_i known
          obtain ⟨⟨_, size⟩, live, rfl⟩ := List.mem_map.mp known
          cases performed
          exact .free live
        · cases performed
    | write address byte =>
        simp only [Session.perform] at performed
        split at performed
        · rename_i known
          obtain ⟨⟨payload, size⟩, live, low, high⟩ := known
          obtain ⟨index, rfl⟩ := Nat.exists_eq_add_of_le low
          cases performed
          exact .write live (Nat.lt_of_add_lt_add_left high)
        · cases performed
    | elsewhere address byte =>
        simp only [Session.perform] at performed
        split at performed
        · rename_i outside
          cases performed
          exact .elsewhere outside
        · cases performed

theorem step_of_perform {fuel : Nat} {session after : Session}
    {action : Action} (performed : session.perform fuel action = some after) :
    Step session action after :=
  step_iff_perform.mpr ⟨fuel, performed⟩

/-- The last value the client wrote at an address, `initial` when none. -/
def lastWritten (address : Nat) : List Action → UInt8 → UInt8
  | [], initial => initial
  | .write position byte :: actions, initial =>
      lastWritten address actions (if position = address then byte else initial)
  | _ :: actions, initial => lastWritten address actions initial

/-- A step of a next-fit session that does not lose the cursor. -/
def KeepsCursor (session : Session) : Action → Prop
  | .free payload => session.heap.searchAlg = .nextFit →
      ¬LosesCursor session.heap session.memory payload
  | _ => True

instance : ∀ session action, Decidable (KeepsCursor session action)
  | session, .free payload => inferInstanceAs (Decidable
      (session.heap.searchAlg = .nextFit →
        ¬LosesCursor session.heap session.memory payload))
  | _, .malloc _ => .isTrue trivial
  | _, .write _ _ => .isTrue trivial
  | _, .elsewhere _ _ => .isTrue trivial

/-- Where the requests of a layout are. -/
def Granted (start : Nat) (blocks : List Block) (address size : Nat) : Prop :=
  ∃ block, (address, block) ∈ placed Block.size start blocks ∧
    block.request = some size

theorem granted_append {start address size : Nat} {front back : List Block} :
    Granted start (front ++ back) address size ↔
      Granted start front address size ∨
        Granted (start + span Block.size front) back address size := by
  simp only [Granted, placed_append, List.mem_append]
  constructor
  · rintro ⟨block, member | member, granted⟩
    · exact .inl ⟨block, member, granted⟩
    · exact .inr ⟨block, member, granted⟩
  · rintro (⟨block, member, granted⟩ | ⟨block, member, granted⟩)
    · exact ⟨block, .inl member, granted⟩
    · exact ⟨block, .inr member, granted⟩

theorem granted_cons {start address size : Nat} {block : Block}
    {rest : List Block} :
    Granted start (block :: rest) address size ↔
      (address = start ∧ block.request = some size) ∨
        Granted (start + block.size) rest address size := by
  simp only [Granted, placed_cons, List.mem_cons]
  constructor
  · rintro ⟨other, same | member, granted⟩
    · cases same
      exact .inl ⟨rfl, granted⟩
    · exact .inr ⟨other, member, granted⟩
  · rintro (⟨rfl, granted⟩ | ⟨other, member, granted⟩)
    · exact ⟨block, .inl rfl, granted⟩
    · exact ⟨other, .inr member, granted⟩

@[simp] theorem granted_nil {start address size : Nat} :
    ¬Granted start [] address size := by
  simp [Granted]

theorem granted_bounds {start address size : Nat} {blocks : List Block}
    (granted : Granted start blocks address size) :
    start ≤ address ∧ address < start + span Block.size blocks := by
  obtain ⟨block, member, _⟩ := granted
  have inside := bounds member
  have positive := block.size_pos
  omega

theorem granted_absorb {start address size : Nat} {block : Block}
    {blocks : List Block} :
    Granted start (absorb block blocks) address size ↔
      Granted start (block :: blocks) address size := by
  cases blocks with
  | nil => exact Iff.rfl
  | cons next rest =>
      by_cases both : block.IsFree ∧ next.IsFree
      · have blockFree := Block.isFree_iff.mp both.1
        have nextFree := Block.isFree_iff.mp both.2
        have joined := Block.isFree_iff.mp (Block.join_isFree block next)
        rw [absorb, if_pos both]
        simp [granted_cons, blockFree, nextFree, joined, Nat.add_assoc]
      · rw [absorb, if_neg both]

theorem granted_compact {start address size : Nat} {blocks : List Block} :
    Granted start (compact blocks) address size ↔
      Granted start blocks address size := by
  induction blocks generalizing start with
  | nil => exact Iff.rfl
  | cons block rest ih =>
      rw [compact, granted_absorb, granted_cons, granted_cons, ih]

theorem granted_carve {start address size : Nat} {block : Block}
    {request : Request} {fits : request.needed ≤ block.size} :
    Granted start (block.carve request fits) address size ↔
      address = start ∧ size = request.bytes := by
  by_cases splits : block.Splits request
  · simp [Block.carve, splits, granted_cons, Block.exact, Block.rest,
      Block.vacant, eq_comm]
  · simp [Block.carve, splits, granted_cons, Block.grant, eq_comm]

/-- The layout a session stands for: the requests in it are the live payloads,
each once, and the cursor of a next-fit heap is at the start of a block. -/
structure Consistent (session : Session) (blocks : List Block) : Prop where
  represents : Represents session.heap session.memory blocks
  live_iff : ∀ payload size, (payload, size) ∈ session.live ↔
    ∃ address, payload = address + 4 ∧
      Granted session.heap.start blocks address size
  distinct : (session.live.map Prod.fst).Nodup
  cursor : session.heap.searchAlg = .nextFit →
    session.heap.next ∈ starts session.heap blocks

/-- What steps leave alone: the search strategy, and the payloads that are not
freed, which hold what the client wrote last. -/
structure Keeps (before : Session) (actions : List Action) (after : Session) :
    Prop where
  searchAlg : after.heap.searchAlg = before.heap.searchAlg
  bytes : ∀ payload size, (payload, size) ∈ before.live →
    .free payload ∉ actions →
    (payload, size) ∈ after.live ∧
      ∀ index, index < size →
        after.memory (payload + index) =
          lastWritten (payload + index) actions
            (before.memory (payload + index))

namespace Consistent

variable {session : Session} {blocks : List Block}

theorem block_of_live (consistent : Consistent session blocks)
    {payload size : Nat} (live : (payload, size) ∈ session.live) :
    ∃ address block,
      (address, block) ∈ placed Block.size session.heap.start blocks ∧
        payload = address + 4 ∧ block.request = some size ∧
        size + 8 ≤ block.size := by
  obtain ⟨address, place, block, member, request⟩ :=
    (consistent.live_iff payload size).mp live
  exact ⟨address, block, member, place, request, block.holds size request⟩

theorem live_bounds (consistent : Consistent session blocks)
    {payload size : Nat} (live : (payload, size) ∈ session.live) :
    session.heap.start + 4 ≤ payload ∧
      payload + size + 4 ≤ session.heap.start + span Block.size blocks := by
  obtain ⟨address, block, member, place, _, room⟩ :=
    consistent.block_of_live live
  have inside := bounds member
  omega

theorem live_apart (consistent : Consistent session blocks)
    {left leftSize right rightSize : Nat}
    (leftLive : (left, leftSize) ∈ session.live)
    (rightLive : (right, rightSize) ∈ session.live)
    (different : left ≠ right) :
    left + leftSize ≤ right ∨ right + rightSize ≤ left := by
  obtain ⟨leftAddress, leftBlock, leftMember, leftPlace, _, leftRoom⟩ :=
    consistent.block_of_live leftLive
  obtain ⟨rightAddress, rightBlock, rightMember, rightPlace, _, rightRoom⟩ :=
    consistent.block_of_live rightLive
  rcases eq_or_apart leftMember rightMember with
    ⟨same, _⟩ | before | behind
  · subst same
    exact (different (leftPlace.trans rightPlace.symm)).elim
  · exact .inl (by omega)
  · exact .inr (by omega)

/-- A change that stays apart from all used blocks keeps the live bytes. -/
theorem live_byte (consistent : Consistent session blocks)
    {newMemory : Memory} {low high : Nat}
    (same : Memory.SameOutside low high session.memory newMemory)
    {payload size : Nat} (live : (payload, size) ∈ session.live)
    (apart : ∀ address block,
      (address, block) ∈ placed Block.size session.heap.start blocks →
        payload = address + 4 → block.request = some size →
          address + block.size ≤ low ∨ high ≤ address)
    {index : Nat} (inside : index < size) :
    newMemory (payload + index) = session.memory (payload + index) := by
  obtain ⟨address, block, member, place, request, room⟩ :=
    consistent.block_of_live live
  have away := apart address block member place request
  exact same _ (by omega)

end Consistent

end SystemsLabs.ImplicitHeap

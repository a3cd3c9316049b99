import SystemsLabs.BlockCache.Geometry
import SystemsLabs.BlockCache.Refines
import SystemsLabs.Library.Transition

/-!
# Reading through a cache: sessions

A session is a cache with the addresses read through it.  Its steps are calls of
`cacheRead`, each with the memory at that moment.  The lines of every set stay
the installed ones, and no two valid lines of a set carry the same tag.
-/

namespace SystemsLabs.BlockCache

open Transition

structure Call where
  memory : Memory
  address : Address
  value : BitVec 64

structure Session where
  cache : Cache
  /-- The addresses read so far, the last one first. -/
  history : List Address

inductive Step : Session → Call → Session → Prop where
  | read {session : Session} {call : Call} {cache : Cache} :
      cacheRead call.memory session.cache call.address =
        some (call.value, cache) →
      Step session call
        { cache := cache, history := call.address :: session.history }

/-- The read of a call, `none` when it is undefined or returns another value. -/
def Session.perform (session : Session) (call : Call) : Option Session := do
  let (value, cache) ← cacheRead call.memory session.cache call.address
  if value = call.value then
    some { cache := cache, history := call.address :: session.history }
  else none

theorem step_of_perform {session after : Session} {call : Call}
    (performed : session.perform call = some after) :
    Step session call after := by
  obtain ⟨⟨value, cache⟩, returned, same⟩ :=
    Option.bind_eq_some_iff.mp performed
  dsimp only at same
  split at same
  · rename_i equal
    cases same
    subst equal
    exact .read returned
  · cases same

/-- The addresses read from a set, as the tags `cacheRead` computes. -/
def tagsRead (cache : Cache) (history : List Address) (index : Nat) :
    List (BitVec 64) :=
  (history.filter fun address => readIndex cache address = index).map
    (readTag cache)

section AfterRead

variable (cache : Cache) (address : Address) (newSet : CacheSet)
  (evicted : Option CacheLine)

theorem getElem?_afterRead {set : CacheSet}
    (here : cache.sets[readIndex cache address]? = some set) (index : Nat) :
    (cache.afterRead address newSet evicted).sets[index]? =
      if readIndex cache address = index then some newSet
      else cache.sets[index]? := by
  have bound := (List.getElem?_eq_some_iff.mp here).1
  rw [Cache.afterRead, List.getElem?_set]
  by_cases same : readIndex cache address = index
  · subst same
    simp [bound]
  · simp [same]

end AfterRead

/-- Every set consists of the installed lines, and a valid line precedes all
invalid lines with its tag. -/
structure Intact (cache : Cache) : Prop where
  positive : 0 < cache.associativity
  installed : ∀ (index : Nat) (set : CacheSet),
    cache.sets[index]? = some set → set.Installed cache.associativity
  tagsOrdered : ∀ (index : Nat) (set : CacheSet),
    cache.sets[index]? = some set → TagsOrdered set.lines

/-- What a step does to an intact cache. -/
theorem Step.inversion {session after : Session} {call : Call}
    (taken : Step session call after) (intact : Intact session.cache) :
    ∃ set newSet evicted line rest,
      session.cache.sets[readIndex session.cache call.address]? = some set ∧
      after = { cache := session.cache.afterRead call.address newSet evicted
                history := call.address :: session.history } ∧
      call.value = cacheLineRetrieveData line
        (readOffset session.cache call.address) ∧
      newSet.lines = line :: rest ∧
      ReadsSet call.memory session.cache call.address set newSet evicted := by
  cases taken with
  | @read cache returned =>
      cases here : session.cache.sets[readIndex session.cache
          call.address]? with
      | none => simp [cacheRead, here] at returned
      | some set =>
          obtain ⟨newSet, evicted, line, rest, result, lines, reads⟩ :=
            cacheRead_spec call.memory here (intact.installed _ _ here)
              intact.positive
          rw [returned] at result
          obtain ⟨value, rfl⟩ := Prod.mk.inj (Option.some.inj result)
          exact ⟨set, newSet, evicted, line, rest, rfl, rfl, value, lines,
            reads⟩

namespace Intact

theorem afterRead {cache : Cache} {memory : Memory} {address : Address}
    {set newSet : CacheSet} {evicted : Option CacheLine}
    (intact : Intact cache)
    (here : cache.sets[readIndex cache address]? = some set)
    (reads : ReadsSet memory cache address set newSet evicted) :
    Intact (cache.afterRead address newSet evicted) := by
  constructor
  · exact intact.positive
  · intro index other place
    rw [getElem?_afterRead _ _ _ _ here] at place
    split at place
    · cases place
      exact reads.installed
    · exact intact.installed index other place
  · intro index other place
    rw [getElem?_afterRead _ _ _ _ here] at place
    split at place
    · cases place
      exact reads.serves.tagsOrdered (fillLine_fills _ _ _ _)
        (intact.tagsOrdered _ _ here)
    · exact intact.tagsOrdered index other place

theorem step {session after : Session} {call : Call}
    (intact : Intact session.cache) (taken : Step session call after) :
    Intact after.cache := by
  obtain ⟨set, newSet, evicted, _, _, here, rfl, _, _, reads⟩ :=
    taken.inversion intact
  exact intact.afterRead here reads

theorem run {first last : Session} {calls : List Call}
    (intact : Intact first.cache) (run : Run Step first calls last) :
    Intact last.cache := by
  apply @Run.invariant _ _ Step (fun session => Intact session.cache) _ _ _ _
    run intact
  intro before call after known taken
  exact known.step taken

theorem created {areas : Nat → Nat → CacheLine}
    {numBlocks blockSize associativity : Nat} {policies : BitVec 32}
    {cache : Cache}
    (returned :
      cacheNew areas numBlocks blockSize associativity policies = some cache) :
    Intact cache := by
  obtain ⟨positive, ways, _⟩ := cacheNew_spec returned
  constructor
  · rw [ways]
    exact positive
  · intro index set place
    rw [cacheNew_set returned place, ways]
    exact List.Perm.refl _
  · intro index set place
    rw [cacheNew_set returned place]
    apply List.pairwise_of_forall_mem_list
    intro earlier _ later member _
    obtain ⟨position, _, rfl⟩ := List.mem_map.mp member
    rfl

end Intact

theorem run_config {first last : Session} {calls : List Call}
    (run : Run Step first calls last) (intact : Intact first.cache) :
    ∃ sets accessCount missCount,
      sets.length = first.cache.sets.length ∧
      last.cache =
        { first.cache with
          sets := sets
          accessCount := accessCount
          missCount := missCount } := by
  induction run with
  | nil => exact ⟨_, _, _, rfl, rfl⟩
  | cons taken _ ih =>
      obtain ⟨sets, accessCount, missCount, length, same⟩ :=
        ih (intact.step taken)
      obtain ⟨_, _, _, _, _, _, rfl, _⟩ := taken.inversion intact
      refine ⟨sets, accessCount, missCount, ?_, same⟩
      rw [length]
      exact List.length_set

theorem Geometry.run {first last : Session} {calls : List Call}
    {blockBits indexBits : Nat}
    (geometry : Geometry first.cache blockBits indexBits)
    (run : Run Step first calls last) (intact : Intact first.cache) :
    Geometry last.cache blockBits indexBits := by
  obtain ⟨_, _, _, _, same⟩ := run_config run intact
  rw [same]
  exact ⟨geometry.blockOffsetMask, geometry.cacheIndexMask,
    geometry.cacheIndexShift, geometry.tagShift, geometry.blockBits_lt,
    geometry.indexBits_lt, geometry.block_room, geometry.block_digits,
    geometry.index_room, geometry.index_digits⟩

/-- In every session the lines of each set are the installed ones in some
order, and valid lines of one set have different tags. -/
theorem session_tags_distinct {areas : Nat → Nat → CacheLine}
    {numBlocks blockSize associativity : Nat} {policies : BitVec 32}
    {cache : Cache}
    (returned :
      cacheNew areas numBlocks blockSize associativity policies = some cache)
    {calls : List Call} {session : Session}
    (run : Run Step { cache := cache, history := [] } calls session) :
    ∀ (index : Nat) (set : CacheSet),
      session.cache.sets[index]? = some set →
      set.cacheLines.Perm
          (cacheSetInit associativity (areas index)).cacheLines ∧
        ∀ left ∈ set.cacheLines, ∀ right ∈ set.cacheLines,
          (set.line left).isValid = true → (set.line right).isValid = true →
            (set.line left).tag = (set.line right).tag → left = right := by
  have initial := Intact.created returned
  have intact := initial.run run
  have ways : session.cache.associativity = associativity := by
    obtain ⟨_, _, _, _, same⟩ := run_config run initial
    rw [same]
    exact (cacheNew_spec returned).2.1
  intro index set place
  constructor
  · have installed := intact.installed index set place
    rw [ways] at installed
    exact installed
  · have ordered := List.pairwise_map.mp (intact.tagsOrdered index set place)
    apply List.Pairwise.forall_of_forall_of_flip
    · intro _ _ _ _ _
      rfl
    · apply ordered.imp
      intro left right earlier _ rightValid same
      rw [earlier same] at rightValid
      cases rightValid
    · apply ordered.imp
      intro left right earlier rightValid _ same
      rw [earlier same.symm] at rightValid
      cases rightValid

/-- One set of three lines of eight bytes. -/
def smallCache (areas : Nat → Nat → CacheLine) : Cache :=
  { numSets := 1
    associativity := 3
    blockSize := 8
    blockOffsetMask := 7
    cacheIndexMask := 0
    cacheIndexShift := 3
    tagShift := 3
    policies := 1
    sets := [cacheSetInit 3 (areas 0)]
    accessCount := 0
    missCount := 0 }

theorem smallCache_new (areas : Nat → Nat → CacheLine) :
    cacheNew areas 3 8 3 1 = some (smallCache areas) := rfl

/-- The tags 5, 105 and 205 are in the lines when they are allocated. -/
def smallAreas (_ position : Nat) : CacheLine :=
  { isValid := false
    tag := BitVec.ofNat 64 (5 + 100 * position)
    data := fun _ => 0 }

/-- Every byte is 1 below address `2 ^ 32` and 2 above it. -/
def smallMemory : Memory :=
  fun address => if address < 2 ^ 32 then 1 else 2

/-- A read that returns eight bytes of value 1. -/
def readOnes (address : Address) : Call :=
  { memory := smallMemory, address := address, value := 0x0101010101010101 }

abbrev smallSession : Session :=
  { cache := smallCache smallAreas, history := [] }

theorem smallSession_tags_distinct :
    ∃ session,
      Run Step smallSession [readOnes 8, readOnes 40] session ∧
      ∀ (index : Nat) (set : CacheSet),
        session.cache.sets[index]? = some set →
        set.cacheLines.Perm (cacheSetInit 3 (smallAreas index)).cacheLines ∧
          ∀ left ∈ set.cacheLines, ∀ right ∈ set.cacheLines,
            (set.line left).isValid = true →
            (set.line right).isValid = true →
              (set.line left).tag = (set.line right).tag → left = right := by
  have returned : (replay Session.perform smallSession
      [readOnes 8, readOnes 40]).isSome := by
    decide +kernel
  obtain ⟨session, replayed⟩ := Option.isSome_iff_exists.mp returned
  have run := Run.of_replay step_of_perform replayed
  exact ⟨session, run, session_tags_distinct (smallCache_new smallAreas) run⟩

end SystemsLabs.BlockCache

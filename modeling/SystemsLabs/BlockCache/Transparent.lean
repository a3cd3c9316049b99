import SystemsLabs.BlockCache.Session
import Mathlib.Data.BitVec

/-!
# Transparency

A cache over a memory that does not change returns the value in memory as long
as no read hits a line that was filled from another block.  Tags are computed
from the low 32 bits of an address, so this happens to addresses that differ
only above them.
-/

namespace SystemsLabs.BlockCache

open Transition

/-- The long at an address. -/
def loadLong (memory : Memory) (address : Address) : BitVec 64 :=
  BitVec.ofNat 64 (memory.load address.toNat 8)

/-- The last address read with an index and a tag. -/
def lastRead (cache : Cache) (history : List Address) (index : Nat)
    (tag : BitVec 64) : Option Address :=
  history.find? fun address =>
    readIndex cache address = index ∧ readTag cache address = tag

/-- A valid line of the selected set carries the tag of the address. -/
def Resident (cache : Cache) (address : Address) : Prop :=
  ∃ set ∈ cache.sets[readIndex cache address]?,
    readTag cache address ∈ validTags set.lines

/-- A read that misses, or whose index and tag were last used by an address of
the same block. -/
def TrueHit (session : Session) (call : Call) : Prop :=
  Resident session.cache call.address →
    ∀ last ∈ lastRead session.cache session.history
        (readIndex session.cache call.address)
        (readTag session.cache call.address),
      blockStart session.cache last = blockStart session.cache call.address

/-- Every valid line holds the block that was last read with its tag. -/
structure Holds (memory : Memory) (session : Session) : Prop where
  intact : Intact session.cache
  block : ∀ (index : Nat) (set : CacheSet),
    session.cache.sets[index]? = some set →
    ∀ line ∈ set.lines, line.isValid = true →
      ∃ last ∈ lastRead session.cache session.history index line.tag,
        ∀ offset, offset < session.cache.blockSize →
          line.data offset =
            memory (blockStart session.cache last + offset)

section LastRead

variable {cache : Cache} {history : List Address} {address : Address}
  {index : Nat} {tag : BitVec 64}

theorem lastRead_cons_self :
    lastRead cache (address :: history) (readIndex cache address)
      (readTag cache address) = some address := by
  simp [lastRead]

theorem lastRead_cons_of_ne
    (different : ¬(readIndex cache address = index ∧
      readTag cache address = tag)) :
    lastRead cache (address :: history) index tag =
      lastRead cache history index tag := by
  simp [lastRead, different]

end LastRead

namespace Holds

variable {memory : Memory} {session after : Session} {call : Call}

theorem step (holds : Holds memory session)
    (taken : Step session call after) (unchanged : call.memory = memory)
    (trueHit : TrueHit session call) : Holds memory after := by
  obtain ⟨set, newSet, evicted, _, _, here, rfl, _, _, reads⟩ :=
    taken.inversion holds.intact
  refine ⟨holds.intact.afterRead here reads, ?_⟩
  intro index other place line member valid
  change ∃ last ∈ lastRead session.cache (call.address :: session.history)
    index line.tag, ∀ offset, offset < session.cache.blockSize →
      line.data offset = memory (blockStart session.cache last + offset)
  rw [getElem?_afterRead _ _ _ _ here] at place
  split at place
  · rename_i same
    cases place
    rcases reads.serves.mem_after member with old | ⟨_, _, _, filled⟩
    · obtain ⟨last, found, bytes⟩ := holds.block _ _ here line old valid
      by_cases sameTag : readTag session.cache call.address = line.tag
      · have resident : Resident session.cache call.address :=
          ⟨set, here, mem_validTags.mpr ⟨line, old, valid, sameTag.symm⟩⟩
        rw [← sameTag] at found
        refine ⟨call.address, ?_, ?_⟩
        · rw [← same, ← sameTag]
          exact lastRead_cons_self
        · rw [← trueHit resident last found]
          exact bytes
      · rw [same] at found
        exact ⟨last, by rwa [lastRead_cons_of_ne fun both =>
          sameTag both.2], bytes⟩
    · subst filled
      refine ⟨call.address, ?_, ?_⟩
      · rw [← same]
        exact lastRead_cons_self
      · intro offset inside
        rw [← unchanged]
        exact if_pos inside
  · rename_i different
    obtain ⟨last, found, bytes⟩ := holds.block index other place line member
      valid
    exact ⟨last, by rwa [lastRead_cons_of_ne fun both =>
      different both.1], bytes⟩

theorem created {areas : Nat → Nat → CacheLine}
    {numBlocks blockSize associativity : Nat} {policies : BitVec 32}
    {cache : Cache}
    (returned :
      cacheNew areas numBlocks blockSize associativity policies = some cache)
    (memory : Memory) : Holds memory { cache := cache, history := [] } := by
  refine ⟨Intact.created returned, ?_⟩
  intro index set place line member valid
  rw [cacheNew_set returned place] at member
  obtain ⟨position, _, rfl⟩ := List.mem_map.mp member
  cases valid

end Holds

theorem retrieve_eq_loadLong {memory : Memory} {cache : Cache}
    {blockBits indexBits power : Nat}
    (geometry : Geometry cache blockBits indexBits) (large : 3 ≤ power)
    (size : cache.blockSize = 2 ^ power) {address last : Address}
    {line : CacheLine} (aligned : address.toNat % 8 = 0)
    (bytes : ∀ offset, offset < cache.blockSize →
      line.data offset = memory (blockStart cache last + offset)) :
    cacheLineRetrieveData line (readOffset cache address) =
      BitVec.ofNat 64 (memory.load
        (blockStart cache last + readOffset cache address) 8) := by
  have room := geometry.offset_fits large size aligned
  have same : line.data.load (readOffset cache address) 8 =
      memory.load (blockStart cache last + readOffset cache address) 8 := by
    apply Memory.load_copy
    intro index inside
    rw [Nat.add_assoc]
    exact bytes _ (by omega)
  rw [cacheLineRetrieveData, same]

theorem Holds.value {memory : Memory} {session after : Session} {call : Call}
    {blockBits indexBits power : Nat}
    (geometry : Geometry session.cache blockBits indexBits)
    (large : 3 ≤ power) (size : session.cache.blockSize = 2 ^ power)
    (holds : Holds memory session) (taken : Step session call after)
    (unchanged : call.memory = memory) (trueHit : TrueHit session call)
    (aligned : call.address.toNat % 8 = 0) :
    call.value = loadLong memory call.address := by
  have later := holds.step taken unchanged trueHit
  obtain ⟨set, newSet, evicted, line, rest, here, rfl, value, lines, reads⟩ :=
    taken.inversion holds.intact
  obtain ⟨front, others, split, sameTag, valid⟩ :=
    reads.serves.front_line (fillLine_fills _ _ _ _)
  rw [lines] at split
  cases split
  have place := getElem?_afterRead session.cache call.address newSet evicted
    here (readIndex session.cache call.address)
  rw [if_pos rfl] at place
  obtain ⟨last, found, bytes⟩ := later.block _ _ place line
    (by rw [lines]; exact List.mem_cons_self) valid
  rw [sameTag] at found
  change last ∈ lastRead session.cache (call.address :: session.history)
    (readIndex session.cache call.address)
      (readTag session.cache call.address) at found
  rw [lastRead_cons_self] at found
  cases found
  rw [value, retrieve_eq_loadLong geometry large size aligned bytes, loadLong,
    blockStart, geometry.blockStart_add]

theorem Holds.resident_value {memory : Memory} {session after : Session}
    {call : Call} {blockBits indexBits power : Nat}
    (geometry : Geometry session.cache blockBits indexBits)
    (large : 3 ≤ power) (size : session.cache.blockSize = 2 ^ power)
    (holds : Holds memory session) (taken : Step session call after)
    (resident : Resident session.cache call.address)
    (aligned : call.address.toNat % 8 = 0) :
    ∃ last ∈ lastRead session.cache session.history
        (readIndex session.cache call.address)
        (readTag session.cache call.address),
      call.value = BitVec.ofNat 64 (memory.load
        (blockStart session.cache last +
          readOffset session.cache call.address) 8) := by
  obtain ⟨owner, ownerHere, found⟩ := resident
  obtain ⟨set, newSet, evicted, line, rest, here, rfl, value, lines, reads⟩ :=
    taken.inversion holds.intact
  rw [Option.mem_def.mp ownerHere] at here
  cases here
  obtain ⟨_, _, split, sameTag, valid⟩ :=
    reads.serves.front_line (fillLine_fills _ _ _ _)
  rw [lines] at split
  cases split
  have hit := reads.serves.evicted_eq_none
    (holds.intact.tagsOrdered _ _ ownerHere) found
  have member : line ∈ newSet.lines := by
    rw [lines]
    exact List.mem_cons_self
  rcases reads.serves.mem_after member with old | ⟨_, evictedSome, _⟩
  · obtain ⟨last, lastFound, bytes⟩ :=
      holds.block _ _ ownerHere line old valid
    rw [sameTag] at lastFound
    refine ⟨last, lastFound, ?_⟩
    rw [value]
    exact retrieve_eq_loadLong geometry large size aligned bytes
  · rw [hit] at evictedSome
    cases evictedSome

/-- Shape of the cache that reads do not change. -/
structure Shaped (cache : Cache) (power : Nat) : Prop where
  geometry : ∃ blockBits indexBits, Geometry cache blockBits indexBits
  size : cache.blockSize = 2 ^ power
  sets : cache.sets.length = cache.numSets

namespace Shaped

theorem created {areas : Nat → Nat → CacheLine}
    {numBlocks power associativity : Nat} {policies : BitVec 32}
    {cache : Cache}
    (returned : cacheNew areas numBlocks (2 ^ power) associativity policies =
      some cache) : Shaped cache power := by
  obtain ⟨_, _, _, size, sets, geometry⟩ := cacheNew_spec returned
  refine ⟨geometry, size, ?_⟩
  rw [sets, List.length_map, List.length_range]

theorem run {first last : Session} {calls : List Call} {power : Nat}
    (shaped : Shaped first.cache power) (run : Run Step first calls last)
    (intact : Intact first.cache) : Shaped last.cache power := by
  obtain ⟨blockBits, indexBits, geometry⟩ := shaped.geometry
  have later := geometry.run run intact
  obtain ⟨sets, accessCount, missCount, length, same⟩ := run_config run intact
  refine ⟨⟨blockBits, indexBits, later⟩, ?_, ?_⟩
  · rw [same]
    exact shaped.size
  · rw [same]
    exact length.trans shaped.sets

theorem read_returns {cache : Cache} {power : Nat}
    (shaped : Shaped cache power) (intact : Intact cache)
    (nonempty : 0 < cache.numSets) (memory : Memory) (address : Address) :
    (cacheRead memory cache address).isSome := by
  obtain ⟨blockBits, indexBits, geometry⟩ := shaped.geometry
  have bound : readIndex cache address < cache.sets.length := by
    rw [shaped.sets]
    exact geometry.readIndex_lt address nonempty
  have here := List.getElem?_eq_getElem bound
  obtain ⟨_, _, _, _, returned, _⟩ := cacheRead_spec memory here
    (intact.installed _ _ here) intact.positive
  rw [returned]
  rfl

end Shaped

theorem Holds.run_values {memory : Memory} {first last : Session}
    {calls : List Call} {power : Nat} (large : 3 ≤ power)
    (run : Run (guarded Step TrueHit) first calls last)
    (unchanged : ∀ call ∈ calls, call.memory = memory)
    (holds : Holds memory first) (shaped : Shaped first.cache power) :
    ∀ call ∈ calls, call.address.toNat % 8 = 0 →
      call.value = loadLong memory call.address := by
  induction run with
  | nil =>
      intro call member
      cases member
  | cons taken _ ih =>
      have same := unchanged _ List.mem_cons_self
      obtain ⟨blockBits, indexBits, geometry⟩ := shaped.geometry
      intro call member aligned
      rcases List.mem_cons.mp member with rfl | later
      · exact holds.value geometry large shaped.size taken.1 same taken.2
          aligned
      · have onward := ih
          (fun call member => unchanged call (List.mem_cons_of_mem _ member))
          (holds.step taken.1 same taken.2)
          (shaped.run (.single taken.1) holds.intact)
        exact onward call later aligned

/-- Addresses that agree above their low 32 bits never meet by mistake. -/
theorem trueHit_of_upper {session : Session} {call : Call}
    {blockBits indexBits : Nat}
    (geometry : Geometry session.cache blockBits indexBits)
    (narrow : session.cache.tagShift < 32)
    (same : ∀ address ∈ session.history,
      address >>> 32 = call.address >>> 32) : TrueHit session call := by
  intro _ last found
  have member := List.mem_of_find?_eq_some found
  have both := List.find?_some found
  simp only [decide_eq_true_eq] at both
  exact (blockStart_eq_iff geometry narrow both.1 both.2).mpr
    (same last member)

/-- A run within one region of 4 GiB meets no false hit. -/
theorem run_trueHit {first last : Session} {calls : List Call}
    {blockBits indexBits : Nat} {upper : BitVec 64}
    (run : Run Step first calls last) (intact : Intact first.cache)
    (geometry : Geometry first.cache blockBits indexBits)
    (narrow : first.cache.tagShift < 32)
    (before : ∀ address ∈ first.history, address >>> 32 = upper)
    (region : ∀ call ∈ calls, call.address >>> 32 = upper) :
    Run (guarded Step TrueHit) first calls last := by
  induction run with
  | nil => exact .nil _
  | @cons session after last call calls taken _ ih =>
      have here := region call List.mem_cons_self
      have trueHit : TrueHit session call := by
        apply trueHit_of_upper geometry narrow
        intro address member
        rw [before address member, here]
      have onward := geometry.run (.single taken) intact
      refine .cons ⟨taken, trueHit⟩
        (ih (intact.step taken) onward ?_ ?_ ?_)
      · rw [onward.tagShift, ← geometry.tagShift]
        exact narrow
      · obtain ⟨_, _, _, _, _, _, rfl, _⟩ := taken.inversion intact
        intro address member
        rcases List.mem_cons.mp member with same | earlier
        · rw [same]
          exact here
        · exact before address earlier
      · intro other member
        exact region other (List.mem_cons_of_mem _ member)

/-- Every session of true hits and misses on a cache with blocks of a power of
two of at least 8 bytes is transparent, and a further read returns. -/
theorem session_transparent {areas : Nat → Nat → CacheLine}
    {numBlocks power associativity : Nat} {policies : BitVec 32}
    {cache : Cache}
    (returned : cacheNew areas numBlocks (2 ^ power) associativity policies =
      some cache)
    (large : 3 ≤ power) (nonempty : 0 < cache.numSets) {memory : Memory}
    {calls : List Call} {session : Session}
    (run : Run (guarded Step TrueHit) { cache := cache, history := [] } calls
      session)
    (unchanged : ∀ call ∈ calls, call.memory = memory) :
    (∀ call ∈ calls, call.address.toNat % 8 = 0 →
      call.value = loadLong memory call.address) ∧
      ∀ address, (cacheRead memory session.cache address).isSome := by
  have holds := Holds.created returned memory
  have shaped := Shaped.created returned
  constructor
  · exact holds.run_values large run unchanged shaped
  · intro address
    have intact := holds.intact.run run.unguarded
    apply (shaped.run run.unguarded holds.intact).read_returns intact
    obtain ⟨_, _, _, _, same⟩ := run_config run.unguarded holds.intact
    rw [same]
    exact nonempty

theorem smallSession_transparent :
    ∃ session,
      Run (guarded Step TrueHit) smallSession
        [readOnes 8, readOnes 40] session ∧
      (∀ call ∈ [readOnes 8, readOnes 40],
        call.address.toNat % 8 = 0 →
          call.value = loadLong smallMemory call.address) ∧
        ∀ address, (cacheRead smallMemory session.cache address).isSome := by
  have returned : (replay Session.perform smallSession
      [readOnes 8, readOnes 40]).isSome := by
    decide +kernel
  obtain ⟨session, replayed⟩ := Option.isSome_iff_exists.mp returned
  have new := smallCache_new smallAreas
  obtain ⟨_, _, _, _, _, _, _, geometry⟩ := cacheNew_spec new
  have region : ∀ call ∈ [readOnes 8, readOnes 40],
      call.address >>> 32 = 0 := by
    decide
  have run := run_trueHit (Run.of_replay step_of_perform replayed)
    (Intact.created new) geometry (by decide) (by simp) region
  exact ⟨session, run, @session_transparent smallAreas 3 3 3 1 _ new
    (by decide) (by decide) smallMemory _ _ run (by simp [readOnes])⟩

/-- Address `8 + 2 ^ 32` hits the line of address 8. -/
theorem smallSession_false_hit :
    ∃ session,
      Run Step smallSession [readOnes 8, readOnes (8 + 2 ^ 32)] session ∧
      loadLong smallMemory (8 + 2 ^ 32) = 0x0202020202020202 ∧
      (readOnes (8 + 2 ^ 32)).value ≠ loadLong smallMemory (8 + 2 ^ 32) := by
  have returned : (replay Session.perform smallSession
      [readOnes 8, readOnes (8 + 2 ^ 32)]).isSome := by
    decide +kernel
  obtain ⟨session, replayed⟩ := Option.isSome_iff_exists.mp returned
  exact ⟨session, Run.of_replay step_of_perform replayed, by decide +kernel,
    by decide +kernel⟩

end SystemsLabs.BlockCache

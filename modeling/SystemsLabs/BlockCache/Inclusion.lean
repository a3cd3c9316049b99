import SystemsLabs.BlockCache.Lru

/-!
# Inclusion

Two caches with the same sets and blocks serve one trace of addresses.  As long
as neither finds a tag on a line that was never filled, both hold the most
recently used tags of every set, and the cache with fewer ways holds the first
ones of the other.
-/

namespace SystemsLabs.BlockCache

open MoveToFront Transition

/-- Both sessions read one address, each from its own memory. -/
inductive Lockstep :
    Session × Session → Call × Call → Session × Session → Prop where
  | both {before after : Session × Session} {calls : Call × Call} :
      calls.1.address = calls.2.address →
      Step before.1 calls.1 after.1 →
      Step before.2 calls.2 after.2 →
      Lockstep before calls after

/-- The two reads, `none` when they are not one step of both sessions. -/
def performBoth (sessions : Session × Session) (calls : Call × Call) :
    Option (Session × Session) := do
  let small ← sessions.1.perform calls.1
  let large ← sessions.2.perform calls.2
  if calls.1.address = calls.2.address then some (small, large) else none

theorem lockstep_of_performBoth {before after : Session × Session}
    {calls : Call × Call} (performed : performBoth before calls = some after) :
    Lockstep before calls after := by
  obtain ⟨small, smallPerformed, onward⟩ :=
    Option.bind_eq_some_iff.mp performed
  obtain ⟨large, largePerformed, same⟩ := Option.bind_eq_some_iff.mp onward
  split at same
  · rename_i equal
    cases same
    exact .both equal (step_of_perform smallPerformed)
      (step_of_perform largePerformed)
  · cases same

/-- No line of the set that the address selects was allocated with its tag. -/
def Unrequested (areas : Nat → Nat → CacheLine) (cache : Cache)
    (address : Address) : Prop :=
  ∀ position < cache.associativity,
    (areas (readIndex cache address) position).tag ≠ readTag cache address

instance (areas : Nat → Nat → CacheLine) (cache : Cache) (address : Address) :
    Decidable (Unrequested areas cache address) :=
  inferInstanceAs (Decidable (∀ position < cache.associativity,
    (areas (readIndex cache address) position).tag ≠ readTag cache address))

/-- The read found its tag on a valid line. -/
def Hits (before after : Session) : Prop :=
  after.cache.missCount = before.cache.missCount

/-- Lines that were never filled have the tags they were allocated with. -/
structure Pristine (areas : Nat → Nat → CacheLine) (session : Session) :
    Prop where
  lru : Lru session
  unfilled : ∀ (index : Nat) (set : CacheSet),
    session.cache.sets[index]? = some set →
    ∀ line ∈ set.lines, line.isValid = false →
      ∃ position < session.cache.associativity,
        line.tag = (areas index position).tag

namespace Pristine

variable {areas : Nat → Nat → CacheLine} {session after : Session}
  {call : Call}

theorem created {numBlocks blockSize associativity : Nat}
    {policies : BitVec 32} {cache : Cache}
    (returned :
      cacheNew areas numBlocks blockSize associativity policies = some cache) :
    Pristine areas { cache := cache, history := [] } := by
  refine ⟨Lru.created returned, ?_⟩
  intro index set place line member _
  rw [cacheNew_set returned place] at member
  obtain ⟨position, inside, rfl⟩ := List.mem_map.mp member
  refine ⟨position, ?_, rfl⟩
  change position < cache.associativity
  rw [(cacheNew_spec returned).2.1]
  exact List.mem_range.mp inside

theorem undisturbed (pristine : Pristine areas session)
    (unrequested : Unrequested areas session.cache call.address) :
    Undisturbed session call := by
  rintro set here ⟨_, ⟨line, member, sameTag⟩, matching⟩
  obtain ⟨position, inside, tag⟩ :=
    pristine.unfilled _ set here line member (matching line member sameTag)
  exact unrequested position inside (tag.symm.trans sameTag)

theorem step (pristine : Pristine areas session)
    (taken : Step session call after)
    (unrequested : Unrequested areas session.cache call.address) :
    Pristine areas after := by
  have undisturbed := pristine.undisturbed unrequested
  refine ⟨(pristine.lru.step taken undisturbed).1, ?_⟩
  obtain ⟨set, newSet, evicted, _, _, here, rfl, _, _, reads⟩ :=
    taken.inversion pristine.lru.intact
  intro index other place line member invalid
  simp only [getElem?_afterRead _ _ _ _ here] at place
  split at place
  · rename_i same
    cases place
    rw [← same]
    rcases reads.serves.mem_after member with kept | ⟨last, _, _, filled⟩
    · exact pristine.unfilled _ set here line kept invalid
    · rw [filled, (fillLine_fills _ _ _ _ last).2] at invalid
      cases invalid
  · exact pristine.unfilled index other place line member invalid

end Pristine

theorem cacheNew_masks {areas : Nat → Nat → CacheLine}
    {numBlocks blockSize associativity : Nat} {policies : BitVec 32}
    {cache : Cache}
    (returned :
      cacheNew areas numBlocks blockSize associativity policies = some cache) :
    getShiftAndMask (toInt blockSize) 0 =
        some (cache.cacheIndexShift, cache.blockOffsetMask) ∧
      getShiftAndMask (toInt cache.numSets) cache.cacheIndexShift =
        some (cache.tagShift, cache.cacheIndexMask) ∧
      cache.missCount = 0 := by
  simp only [cacheNew] at returned
  split at returned
  · cases returned
  · obtain ⟨_, first, onward⟩ := Option.bind_eq_some_iff.mp returned
    obtain ⟨_, second, last⟩ := Option.bind_eq_some_iff.mp onward
    cases last
    exact ⟨first, second, rfl⟩

/-- Two sessions over one trace, the first with at most as many ways. -/
structure Paired (small large : Session) : Prop where
  history : small.history = large.history
  tags : readTag small.cache = readTag large.cache
  indices : readIndex small.cache = readIndex large.cache
  ways : small.cache.associativity ≤ large.cache.associativity
  misses : large.cache.missCount ≤ small.cache.missCount
  counted : small.cache.missCount ≤ small.history.length

namespace Paired

variable {small large : Session}

theorem created {areas moreAreas : Nat → Nat → CacheLine}
    {numBlocks moreBlocks blockSize associativity moreWays : Nat}
    {policies morePolicies : BitVec 32} {cache more : Cache}
    (returned :
      cacheNew areas numBlocks blockSize associativity policies = some cache)
    (moreReturned :
      cacheNew moreAreas moreBlocks blockSize moreWays morePolicies =
        some more)
    (sets : cache.numSets = more.numSets) (ways : associativity ≤ moreWays) :
    Paired { cache := cache, history := [] }
      { cache := more, history := [] } := by
  obtain ⟨block, index, count⟩ := cacheNew_masks returned
  obtain ⟨moreBlock, moreIndex, moreCount⟩ := cacheNew_masks moreReturned
  rw [block] at moreBlock
  obtain ⟨shift, _⟩ := Prod.mk.inj (Option.some.inj moreBlock)
  rw [sets, shift, moreIndex] at index
  obtain ⟨tagShift, mask⟩ := Prod.mk.inj (Option.some.inj index)
  refine ⟨rfl, ?_, ?_, ?_, ?_, ?_⟩
  · funext address
    simp only [readTag, tagShift]
  · funext address
    simp only [readIndex, shift, mask]
  · change cache.associativity ≤ more.associativity
    rw [(cacheNew_spec returned).2.1, (cacheNew_spec moreReturned).2.1]
    exact ways
  · exact (moreCount.trans count.symm).le
  · exact count.le

/-- Both caches see the same tags in a set. -/
theorem tagsRead_eq (paired : Paired small large) (index : Nat) :
    tagsRead small.cache small.history index =
      tagsRead large.cache large.history index := by
  rw [tagsRead, tagsRead, paired.history, paired.tags, paired.indices]

/-- What fits into fewer ways is the front of what fits into more. -/
theorem recent_eq (paired : Paired small large) (index : Nat) :
    recent small.cache.associativity
        (tagsRead small.cache small.history index) =
      (recent large.cache.associativity
        (tagsRead large.cache large.history index)).take
          small.cache.associativity := by
  rw [paired.tagsRead_eq, recent, recent, List.take_take,
    Nat.min_eq_left paired.ways]

theorem validTags_eq (paired : Paired small large) (smallLru : Lru small)
    (largeLru : Lru large) {index : Nat} {set moreSet : CacheSet}
    (here : small.cache.sets[index]? = some set)
    (moreHere : large.cache.sets[index]? = some moreSet) :
    validTags set.lines = (validTags moreSet.lines).take
      (min small.cache.associativity (validTags moreSet.lines).length) := by
  rw [smallLru.recent _ _ here, paired.recent_eq,
    ← largeLru.recent _ _ moreHere, ← List.take_eq_take_min]

theorem step (paired : Paired small large) {call moreCall : Call}
    {after moreAfter : Session} (smallLru : Lru small) (largeLru : Lru large)
    (same : call.address = moreCall.address)
    (taken : Step small call after) (moreTaken : Step large moreCall moreAfter)
    (undisturbed : Undisturbed small call)
    (moreUndisturbed : Undisturbed large moreCall)
    (short : small.history.length < 2 ^ 31) :
    Paired after moreAfter ∧ (Hits small after → Hits large moreAfter) := by
  have misses := (smallLru.step taken undisturbed).2.misses
  have moreMisses := (largeLru.step moreTaken moreUndisturbed).2.misses
  have counted := paired.counted
  have fewer := paired.misses
  have wrap : (small.cache.missCount + 1) % 2 ^ 32 =
      small.cache.missCount + 1 := Nat.mod_eq_of_lt (by omega)
  have moreWrap : (large.cache.missCount + 1) % 2 ^ 32 =
      large.cache.missCount + 1 := Nat.mod_eq_of_lt (by omega)
  rw [paired.recent_eq, paired.tags, paired.indices, same, wrap] at misses
  rw [moreWrap] at moreMisses
  obtain ⟨_, _, _, _, _, _, rfl, _⟩ := taken.inversion smallLru.intact
  obtain ⟨_, newSet, evicted, _, _, _, rfl, _⟩ :=
    moreTaken.inversion largeLru.intact
  have inclusion := List.take_subset small.cache.associativity
    (recent large.cache.associativity (tagsRead large.cache large.history
      (readIndex large.cache moreCall.address)))
  have history : call.address :: small.history =
      moreCall.address :: large.history := by
    rw [same, paired.history]
  split at misses
  · rename_i member
    rw [if_pos (inclusion member)] at moreMisses
    refine ⟨⟨history, paired.tags, paired.indices, paired.ways, ?_, ?_⟩,
      fun _ => moreMisses⟩
    · rw [misses, moreMisses]
      exact fewer
    · rw [misses]
      exact Nat.le_succ_of_le counted
  · have atMost : (large.cache.afterRead moreCall.address newSet
        evicted).missCount ≤ large.cache.missCount + 1 := by
      rw [moreMisses]
      split
      · exact Nat.le_succ _
      · exact Nat.le_refl _
    refine ⟨⟨history, paired.tags, paired.indices, paired.ways, ?_, ?_⟩, ?_⟩
    · rw [misses]
      exact atMost.trans (Nat.succ_le_succ fewer)
    · rw [misses]
      exact Nat.succ_le_succ counted
    · intro hits
      exact absurd (misses.symm.trans hits) (Nat.succ_ne_self _)

end Paired

/-- No line of either cache was allocated with a tag that the call requests. -/
def BothUnrequested (areas moreAreas : Nat → Nat → CacheLine)
    (sessions : Session × Session) (calls : Call × Call) : Prop :=
  Unrequested areas sessions.1.cache calls.1.address ∧
    Unrequested moreAreas sessions.2.cache calls.2.address

/-- The state of both sessions after some reads of the trace. -/
structure Included (areas moreAreas : Nat → Nat → CacheLine)
    (sessions : Session × Session) : Prop where
  small : Pristine areas sessions.1
  large : Pristine moreAreas sessions.2
  paired : Paired sessions.1 sessions.2

namespace Included

variable {areas moreAreas : Nat → Nat → CacheLine}
  {before after : Session × Session}

theorem step (included : Included areas moreAreas before)
    {calls : Call × Call} (taken : Lockstep before calls after)
    (unrequested : BothUnrequested areas moreAreas before calls)
    (short : before.1.history.length < 2 ^ 31) :
    Included areas moreAreas after ∧
      (Hits before.1 after.1 → Hits before.2 after.2) := by
  obtain ⟨same, smallTaken, largeTaken⟩ := taken
  obtain ⟨paired, hits⟩ := included.paired.step included.small.lru
    included.large.lru same smallTaken largeTaken
    (included.small.undisturbed unrequested.1)
    (included.large.undisturbed unrequested.2) short
  exact ⟨⟨included.small.step smallTaken unrequested.1,
    included.large.step largeTaken unrequested.2, paired⟩, hits⟩

theorem step_config (included : Included areas moreAreas before)
    {calls : Call × Call} (taken : Lockstep before calls after) :
    (∀ others, BothUnrequested areas moreAreas after others ↔
        BothUnrequested areas moreAreas before others) ∧
      after.1.cache.associativity = before.1.cache.associativity ∧
      after.1.history.length = before.1.history.length + 1 := by
  obtain ⟨_, smallTaken, largeTaken⟩ := taken
  obtain ⟨_, _, _, _, _, _, small, _⟩ :=
    smallTaken.inversion included.small.lru.intact
  obtain ⟨_, _, _, _, _, _, large, _⟩ :=
    largeTaken.inversion included.large.lru.intact
  refine ⟨?_, ?_, ?_⟩
  · intro others
    rw [BothUnrequested, small, large]
    rfl
  · rw [small]
    rfl
  · rw [small]
    rfl

theorem run {first last : Session × Session} {trace : List (Call × Call)}
    (run : Run Lockstep first trace last)
    (included : Included areas moreAreas first)
    (unrequested : ∀ calls ∈ trace,
      BothUnrequested areas moreAreas first calls)
    (short : first.1.history.length + trace.length < 2 ^ 31) :
    Included areas moreAreas last ∧
      (∀ others, BothUnrequested areas moreAreas last others ↔
        BothUnrequested areas moreAreas first others) ∧
      last.1.cache.associativity = first.1.cache.associativity ∧
      last.1.history.length = first.1.history.length + trace.length := by
  induction run with
  | nil => exact ⟨included, fun _ => Iff.rfl, rfl, rfl⟩
  | @cons first second last calls trace taken _ ih =>
      rw [List.length_cons] at short
      obtain ⟨same, ways, length⟩ := included.step_config taken
      have onward := (included.step taken
        (unrequested calls List.mem_cons_self) (by omega)).1
      obtain ⟨final, sameLast, lastWays, lastLength⟩ := ih onward
        (fun others member => (same others).mpr
          (unrequested others (List.mem_cons_of_mem _ member)))
        (by omega)
      refine ⟨final, fun others => (sameLast others).trans (same others),
        lastWays.trans ways, ?_⟩
      rw [lastLength, length, List.length_cons]
      omega

end Included

/-- `smallCache` with two more ways. -/
def largerCache : Cache :=
  { smallCache smallAreas with
    associativity := 5
    sets := [cacheSetInit 5 (smallAreas 0)] }

theorem largerCache_new :
    cacheNew smallAreas 5 8 5 1 = some largerCache := rfl

abbrev largerSession : Session :=
  { cache := largerCache, history := [] }

/-- After every read of a trace the cache with fewer ways holds, in every set,
the first tags of the other cache, and it hits only where the other one does. -/
theorem trace_included {areas moreAreas : Nat → Nat → CacheLine}
    {numBlocks moreBlocks blockSize ways moreWays : Nat}
    {policies morePolicies : BitVec 32} {cache more : Cache}
    (returned : cacheNew areas numBlocks blockSize ways policies = some cache)
    (moreReturned :
      cacheNew moreAreas moreBlocks blockSize moreWays morePolicies =
        some more)
    (sets : cache.numSets = more.numSets) (fewer : ways ≤ moreWays)
    {trace : List (Call × Call)} {calls : Call × Call}
    {before after : Session × Session}
    (run : Run Lockstep
      ({ cache := cache, history := [] }, { cache := more, history := [] })
      trace before)
    (taken : Lockstep before calls after)
    (short : trace.length + 1 < 2 ^ 31)
    (unrequested : ∀ others ∈ calls :: trace,
      Unrequested areas cache others.1.address ∧
        Unrequested moreAreas more others.2.address) :
    (∀ (index : Nat) (set moreSet : CacheSet),
      after.1.cache.sets[index]? = some set →
      after.2.cache.sets[index]? = some moreSet →
        validTags set.lines = (validTags moreSet.lines).take
          (min ways (validTags moreSet.lines).length)) ∧
      (Hits before.1 after.1 → Hits before.2 after.2) ∧
      after.2.cache.missCount ≤ after.1.cache.missCount := by
  have initial : Included areas moreAreas
      ({ cache := cache, history := [] }, { cache := more, history := [] }) :=
    ⟨Pristine.created returned, Pristine.created moreReturned,
      Paired.created returned moreReturned sets fewer⟩
  obtain ⟨included, same, sameWays, length⟩ := initial.run run
    (fun others member => unrequested others (List.mem_cons_of_mem _ member))
    (by rw [List.length_nil, Nat.zero_add]; omega)
  rw [List.length_nil, Nat.zero_add] at length
  have lastUnrequested := (same calls).mpr
    (unrequested calls List.mem_cons_self)
  obtain ⟨final, hits⟩ :=
    included.step taken lastUnrequested (by omega)
  have lastWays : after.1.cache.associativity = ways :=
    ((included.step_config taken).2.1.trans sameWays).trans
      (cacheNew_spec returned).2.1
  refine ⟨?_, hits, final.paired.misses⟩
  intro index set moreSet place morePlace
  rw [← lastWays]
  exact final.paired.validTags_eq final.small.lru final.large.lru place
    morePlace

theorem smallSession_included :
    ∃ before after,
      Run Lockstep (smallSession, largerSession)
        (([8, 16, 24, 48, 8].map readOnes).map fun call => (call, call))
        before ∧
      Lockstep before (readOnes 48, readOnes 48) after ∧
      (∀ (index : Nat) (set moreSet : CacheSet),
        after.1.cache.sets[index]? = some set →
        after.2.cache.sets[index]? = some moreSet →
          validTags set.lines = (validTags moreSet.lines).take
            (min 3 (validTags moreSet.lines).length)) ∧
        (Hits before.1 after.1 → Hits before.2 after.2) ∧
        after.2.cache.missCount ≤ after.1.cache.missCount := by
  have returned : (replay performBoth (smallSession, largerSession)
      (([8, 16, 24, 48, 8].map readOnes).map fun call => (call, call))).map
        (fun before =>
          (performBoth before (readOnes 48, readOnes 48)).isSome) =
      some true := by
    decide +kernel
  obtain ⟨before, replayed, performed⟩ := Option.map_eq_some_iff.mp returned
  obtain ⟨after, performed⟩ := Option.isSome_iff_exists.mp performed
  have run := Run.of_replay lockstep_of_performBoth replayed
  have taken := lockstep_of_performBoth performed
  have unrequested : ∀ others ∈ (readOnes 48, readOnes 48) ::
      (([8, 16, 24, 48, 8].map readOnes).map fun call => (call, call)),
      Unrequested smallAreas (smallCache smallAreas) others.1.address ∧
        Unrequested smallAreas largerCache others.2.address := by
    decide +kernel
  exact ⟨before, after, run, taken,
    trace_included (smallCache_new smallAreas) largerCache_new rfl (by decide)
      run taken (by decide) unrequested⟩

end SystemsLabs.BlockCache

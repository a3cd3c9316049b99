import SystemsLabs.BlockCache.Recency
import Mathlib.Algebra.BigOperators.Ring.Finset
import Mathlib.Algebra.Order.BigOperators.Group.Finset

/-!
# Least recently used against any other replacement

As long as no read disturbs a set, the miss counter is that of the ideal cache.
No other way to choose the lines to replace, even one that knows the later
reads, misses much less often: with `ways` lines in every set instead of
`ways + spare`, a cache misses at least a fixed fraction as often, up to the
filling of the lines.
-/

namespace SystemsLabs.BlockCache

open MoveToFront Paging Transition

/-- The policy, with the miss counter of the ideal cache. -/
structure CountsLru (session : Session) : Prop where
  lru : Lru session
  missCount : session.cache.missCount =
    idealMisses session.cache.associativity session.cache
      session.history % 2 ^ 32
  inside : ∀ address ∈ session.history,
    readIndex session.cache address < session.cache.sets.length

namespace CountsLru

variable {session after : Session} {call : Call}

theorem step (counts : CountsLru session) (taken : Step session call after)
    (undisturbed : Undisturbed session call) : CountsLru after := by
  obtain ⟨lru, follows⟩ := counts.lru.step taken undisturbed
  have misses := follows.misses
  obtain ⟨set, newSet, evicted, _, _, here, rfl, _, _, _⟩ :=
    taken.inversion counts.lru.intact
  refine ⟨lru, ?_, ?_⟩
  · change (session.cache.afterRead call.address newSet evicted).missCount =
      classMisses session.cache.associativity Prod.fst
        (readKey session.cache call.address ::
          session.history.map (readKey session.cache)) % 2 ^ 32
    rw [misses, classMisses, counts.missCount]
    simp only [stored_iff_tagsRead]
    split
    · rfl
    · rw [Nat.mod_add_mod]
      rfl
  · intro address member
    change readIndex session.cache address <
      (session.cache.sets.set _ newSet).length
    rw [List.length_set]
    rcases List.mem_cons.mp member with rfl | earlier
    · exact (List.getElem?_eq_some_iff.mp here).1
    · exact counts.inside address earlier

theorem run {first last : Session} {calls : List Call}
    (counts : CountsLru first)
    (run : Run (guarded Step Undisturbed) first calls last) :
    CountsLru last :=
  run.invariant (fun known taken => known.step taken.1 taken.2) counts

theorem created {areas : Nat → Nat → CacheLine}
    {numBlocks blockSize associativity : Nat} {policies : BitVec 32}
    {cache : Cache}
    (returned :
      cacheNew areas numBlocks blockSize associativity policies = some cache) :
    CountsLru { cache := cache, history := [] } := by
  refine ⟨Lru.created returned, ?_, ?_⟩
  · exact (cacheNew_counts returned).2
  · intro address member
    cases member

theorem idealMisses_eq_sum (counts : CountsLru session) (ways : Nat) :
    idealMisses ways session.cache session.history =
      ∑ index ∈ Finset.range session.cache.sets.length,
        misses ways (tagsRead session.cache session.history index) := by
  have covered : ∀ key ∈ session.history.map (readKey session.cache),
      key.1 ∈ Finset.range session.cache.sets.length := by
    intro key member
    obtain ⟨address, read, rfl⟩ := List.mem_map.mp member
    exact Finset.mem_range.mpr (counts.inside address read)
  rw [idealMisses, classMisses_eq_sum covered]
  apply Finset.sum_congr rfl
  intro index _
  rw [tagsRead_eq, misses_map]
  intro left leftMember right rightMember same
  have leftHere := of_decide_eq_true (List.mem_filter.mp leftMember).2
  have rightHere := of_decide_eq_true (List.mem_filter.mp rightMember).2
  exact Prod.ext (leftHere.trans rightHere.symm) same

end CountsLru

/-- For every undisturbed session of a cache with `ways + spare` lines in each
set, and every way to serve the same reads with `ways` lines in each set: the
misses of the cache against the loads of the other. -/
theorem session_competitive {areas : Nat → Nat → CacheLine}
    {numBlocks blockSize ways spare : Nat} {policies : BitVec 32}
    {cache : Cache}
    (returned :
      cacheNew areas numBlocks blockSize (ways + spare) policies = some cache)
    {calls : List Call} {session : Session}
    (run : Run (guarded Step Undisturbed)
      { cache := cache, history := [] } calls session)
    {contents : Nat → Finset (BitVec 64)} {cost : Nat → Nat}
    (rival : ∀ index, index < cache.sets.length →
      Served ways (tagsRead cache session.history index) (contents index)
        (cost index)) :
    (spare + 1) * session.cache.missCount ≤
      (ways + spare) * ∑ index ∈ Finset.range cache.sets.length, cost index +
        cache.sets.length * ((spare + 1) * (ways + spare)) := by
  have counts := (CountsLru.created returned).run run
  obtain ⟨sets, _, _, sameLength, same⟩ :=
    run_config run.unguarded (Intact.created returned)
  have length : session.cache.sets.length = cache.sets.length := by
    rw [same]
    exact sameLength
  have size : session.cache.associativity = ways + spare := by
    rw [same]
    exact (cacheNew_spec returned).2.1
  have tags : tagsRead session.cache session.history =
      tagsRead cache session.history := by
    rw [same]
    rfl
  have bound : ∀ index ∈ Finset.range cache.sets.length,
      (spare + 1) *
          misses (ways + spare) (tagsRead cache session.history index) ≤
        (ways + spare) * cost index + (spare + 1) * (ways + spare) :=
    fun index member => misses_le (rival index (Finset.mem_range.mp member))
  have atMost : session.cache.missCount ≤
      ∑ index ∈ Finset.range cache.sets.length,
        misses (ways + spare) (tagsRead cache session.history index) := by
    rw [counts.missCount, counts.idealMisses_eq_sum, size, length, tags]
    exact Nat.mod_le _ _
  calc
    (spare + 1) * session.cache.missCount ≤
        (spare + 1) * ∑ index ∈ Finset.range cache.sets.length,
          misses (ways + spare) (tagsRead cache session.history index) :=
      Nat.mul_le_mul_left _ atMost
    _ = ∑ index ∈ Finset.range cache.sets.length, (spare + 1) *
          misses (ways + spare) (tagsRead cache session.history index) :=
      Finset.mul_sum _ _ _
    _ ≤ ∑ index ∈ Finset.range cache.sets.length,
          ((ways + spare) * cost index + (spare + 1) * (ways + spare)) :=
      Finset.sum_le_sum bound
    _ = _ := by
      rw [Finset.sum_add_distrib, ← Finset.mul_sum,
        Finset.sum_const_nat fun _ _ => rfl, Finset.card_range]

/-- Two reads, also served with a single line. -/
theorem smallSession_competitive :
    ∃ session,
      Run (guarded Step Undisturbed) smallSession [readOnes 8, readOnes 16]
        session ∧
      (2 + 1) * session.cache.missCount ≤ (1 + 2) * 2 + 1 * ((2 + 1) * (1 + 2)) := by
  have returned : (replay (restrict Undisturbed Session.perform) smallSession
      [readOnes 8, readOnes 16]).isSome := by
    decide +kernel
  obtain ⟨session, replayed⟩ := Option.isSome_iff_exists.mp returned
  have run := Run.of_replay (restrict_sound step_of_perform) replayed
  have history : session.history = [16, 8] := run_history run.unguarded
  have rival : ∀ index, index < (smallCache smallAreas).sets.length →
      Served 1 (tagsRead (smallCache smallAreas) session.history index)
        ((fun _ => {2}) index) ((fun _ => 2) index) := by
    intro index inside
    have only : index = 0 := Nat.lt_one_iff.mp inside
    rw [history, only]
    have first : Served 1 [(1 : BitVec 64)] {1} 1 :=
      @Served.load _ _ 1 [] ∅ 0 1 0 (.start (by decide)) (by decide) (by decide)
    exact @Served.load _ _ 1 [1] {1} 1 2 1 first (by decide) (by decide)
  refine ⟨session, run, ?_⟩
  have bound := @session_competitive smallAreas 3 8 1 2 1
    (smallCache smallAreas) (smallCache_new smallAreas) _ session run
    (fun _ => {2}) (fun _ => 2) rival
  exact bound

end SystemsLabs.BlockCache

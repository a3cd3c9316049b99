import SystemsLabs.BlockCache.Session

/-!
# Least recently used replacement

`FollowsLru` is the replacement policy as the comments of the code describe it.
A read follows it exactly when it does not find its tag on a line that was never
filled, in a set that already holds valid lines: the lookup moves such a line
to the front before its valid bit is checked.
-/

namespace SystemsLabs.BlockCache

open MoveToFront Transition

/-- The policy, for one read. -/
structure FollowsLru (before : Session) (call : Call) (after : Session) :
    Prop where
  validFirst : ∀ (index : Nat) (set : CacheSet),
    after.cache.sets[index]? = some set → ValidFirst set.lines
  evicts : ∀ (index : Nat) (set newSet : CacheSet),
    before.cache.sets[index]? = some set →
    after.cache.sets[index]? = some newSet →
    ∀ position ∈ set.cacheLines, (set.line position).isValid = true →
      (newSet.line position).tag ≠ (set.line position).tag →
        ∀ other ∈ set.cacheLines, (set.line other).isValid = true
  misses : after.cache.missCount =
    if readTag before.cache call.address ∈
        recent before.cache.associativity
          (tagsRead before.cache before.history
            (readIndex before.cache call.address)) then
      before.cache.missCount
    else (before.cache.missCount + 1) % 2 ^ 32

/-- A read that does not disturb the set it selects. -/
def Undisturbed (session : Session) (call : Call) : Prop :=
  ∀ set ∈ session.cache.sets[readIndex session.cache call.address]?,
    ¬Disturbs (readTag session.cache call.address) set.lines

instance (session : Session) (call : Call) :
    Decidable (Undisturbed session call) :=
  inferInstanceAs (Decidable (∀ set ∈ session.cache.sets[readIndex
    session.cache call.address]?,
      ¬Disturbs (readTag session.cache call.address) set.lines))

/-- The valid lines of every set are its most recently used tags. -/
structure Lru (session : Session) : Prop where
  intact : Intact session.cache
  validFirst : ∀ (index : Nat) (set : CacheSet),
    session.cache.sets[index]? = some set → ValidFirst set.lines
  recent : ∀ (index : Nat) (set : CacheSet),
    session.cache.sets[index]? = some set →
    validTags set.lines = recent session.cache.associativity
      (tagsRead session.cache session.history index)

theorem tagsRead_cons (cache : Cache) (address : Address)
    (history : List Address) (index : Nat) :
    tagsRead cache (address :: history) index =
      if readIndex cache address = index then
        readTag cache address :: tagsRead cache history index
      else tagsRead cache history index := by
  by_cases same : readIndex cache address = index
  · simp [tagsRead, same]
  · simp [tagsRead, same]

namespace Lru

variable {session after : Session} {call : Call}

theorem created {areas : Nat → Nat → CacheLine}
    {numBlocks blockSize associativity : Nat} {policies : BitVec 32}
    {cache : Cache}
    (returned :
      cacheNew areas numBlocks blockSize associativity policies = some cache) :
    Lru { cache := cache, history := [] } := by
  have invalid : ∀ (index : Nat) (set : CacheSet),
      cache.sets[index]? = some set →
      ∀ line ∈ set.lines, line.isValid = false := by
    intro index set place line member
    rw [cacheNew_set returned place] at member
    obtain ⟨position, _, rfl⟩ := List.mem_map.mp member
    rfl
  constructor
  · exact Intact.created returned
  · intro index set place
    exact ValidFirst.of_all_invalid (invalid index set place)
  · intro index set place
    rw [validTags_eq_nil (invalid index set place)]
    exact (recent_nil _).symm

theorem step (lru : Lru session) (taken : Step session call after)
    (undisturbed : Undisturbed session call) :
    Lru after ∧ FollowsLru session call after := by
  obtain ⟨set, newSet, evicted, _, _, here, rfl, _, _, reads⟩ :=
    taken.inversion lru.intact
  have installed := lru.intact.installed _ _ here
  have ways : set.lines.length = session.cache.associativity := by
    rw [CacheSet.lines, List.length_map, installed.length_eq]
  obtain ⟨validFirst, full, tags, hit⟩ := reads.serves.touches
    (fillLine_fills _ _ _ _) (lru.validFirst _ _ here)
    (lru.intact.tagsOrdered _ _ here) (undisturbed set here)
  rw [ways, lru.recent _ _ here] at tags
  rw [lru.recent _ _ here] at hit
  have newValidFirst : ∀ (index : Nat) (other : CacheSet),
      (session.cache.afterRead call.address newSet evicted).sets[index]? =
        some other → ValidFirst other.lines := by
    intro index other place
    rw [getElem?_afterRead _ _ _ _ here] at place
    split at place
    · cases place
      exact validFirst
    · exact lru.validFirst index other place
  constructor
  · refine ⟨lru.intact.afterRead here reads, newValidFirst, ?_⟩
    intro index other place
    simp only [getElem?_afterRead _ _ _ _ here] at place
    change validTags other.lines = MoveToFront.recent
      session.cache.associativity
        (tagsRead session.cache (call.address :: session.history) index)
    rw [tagsRead_cons]
    split at place
    · rename_i same
      cases place
      rw [if_pos same, recent_cons lru.intact.positive, tags, same]
    · rename_i different
      rw [if_neg different]
      exact lru.recent index other place
  · refine ⟨newValidFirst, ?_, ?_⟩
    · intro index old new oldPlace newPlace position member valid changed
      simp only [getElem?_afterRead _ _ _ _ here] at newPlace
      split at newPlace
      · rename_i same
        cases newPlace
        rw [← same, here] at oldPlace
        cases oldPlace
        rcases reads.kept position with unchanged | taken
        · rw [unchanged] at changed
          exact (changed rfl).elim
        · intro other otherMember
          exact full _ taken valid _ (List.mem_map_of_mem otherMember)
      · rw [oldPlace] at newPlace
        cases newPlace
        exact (changed rfl).elim
    · simp only [Cache.afterRead, ← hit]
      cases evicted with
      | none => rfl
      | some last => rfl

/-- A read follows the policy if and only if it disturbs nothing. -/
theorem follows_iff (lru : Lru session) (taken : Step session call after) :
    FollowsLru session call after ↔ Undisturbed session call := by
  constructor
  · intro follows set here disturbs
    obtain ⟨other, newSet, evicted, _, _, place, rfl, _, _, reads⟩ :=
      taken.inversion lru.intact
    rw [Option.mem_def.mp here] at place
    cases place
    have newPlace : (session.cache.afterRead call.address newSet
        evicted).sets[readIndex session.cache call.address]? =
          some newSet := by
      rw [getElem?_afterRead _ _ _ _ here, if_pos rfl]
    apply reads.serves.disturbed disturbs
    refine ⟨follows.validFirst _ _ newPlace, ?_⟩
    intro last lastEvicted valid line member
    obtain ⟨position, positionMember, rfl, newTag⟩ :=
      reads.taken last lastEvicted
    obtain ⟨otherPosition, otherMember, rfl⟩ := List.mem_map.mp member
    apply follows.evicts _ _ _ here newPlace position positionMember valid
      _ otherPosition otherMember
    intro same
    have invalid := disturbs.2.2 _ (List.mem_map_of_mem positionMember)
      (same.symm.trans newTag)
    rw [valid] at invalid
    cases invalid
  · intro undisturbed
    exact (lru.step taken undisturbed).2

theorem run {first last : Session} {calls : List Call} (lru : Lru first)
    (run : Run (guarded Step Undisturbed) first calls last) : Lru last := by
  apply run.invariant _ lru
  intro before call after known taken
  exact (known.step taken.1 taken.2).1

end Lru

/-- After any session whose reads disturbed nothing, the next read follows the
policy if and only if it disturbs nothing. -/
theorem session_follows_lru {areas : Nat → Nat → CacheLine}
    {numBlocks blockSize associativity : Nat} {policies : BitVec 32}
    {cache : Cache}
    (returned :
      cacheNew areas numBlocks blockSize associativity policies = some cache)
    {calls : List Call} {session after : Session} {call : Call}
    (run : Run (guarded Step Undisturbed)
      { cache := cache, history := [] } calls session)
    (taken : Step session call after) :
    FollowsLru session call after ↔ Undisturbed session call :=
  ((Lru.created returned).run run).follows_iff taken

theorem smallSession_follows_lru :
    ∃ session after,
      Run (guarded Step Undisturbed) smallSession [readOnes 8, readOnes 16]
        session ∧
      Step session (readOnes 48) after ∧
      (FollowsLru session (readOnes 48) after ↔
        Undisturbed session (readOnes 48)) := by
  have returned : (replay (restrict Undisturbed Session.perform) smallSession
      [readOnes 8, readOnes 16]).map (fun session =>
        (session.perform (readOnes 48)).isSome) = some true := by
    decide +kernel
  obtain ⟨session, replayed, performed⟩ := Option.map_eq_some_iff.mp returned
  obtain ⟨after, performed⟩ := Option.isSome_iff_exists.mp performed
  have run := Run.of_replay (restrict_sound step_of_perform) replayed
  have taken := step_of_perform performed
  exact ⟨session, after, run, taken,
    session_follows_lru (smallCache_new smallAreas) run taken⟩

/-- The second read finds its tag 5 on a line that was never filled: the line
stays in front of the valid line of the first read, the third read evicts that
one, and the fourth misses although only three tags were used. -/
theorem smallSession_disturbed :
    ∃ session later last,
      Run Step smallSession [readOnes 8, readOnes 40] session ∧
      (session.cache.sets.map fun set => set.lines.map CacheLine.isValid) =
        [[true, false, true]] ∧
      Run Step session [readOnes 48] later ∧
      readTag later.cache 8 ∈ recent later.cache.associativity
        (tagsRead later.cache later.history (readIndex later.cache 8)) ∧
      Step later (readOnes 8) last ∧
      later.cache.missCount = 3 ∧ last.cache.missCount = 4 := by
  have returned : (replay Session.perform smallSession
      [readOnes 8, readOnes 40]).map (fun session =>
        (session.cache.sets.map fun set => set.lines.map CacheLine.isValid,
          (replay Session.perform session [readOnes 48]).map fun later =>
            (decide (readTag later.cache 8 ∈ recent later.cache.associativity
              (tagsRead later.cache later.history (readIndex later.cache 8))),
              later.cache.missCount, (later.perform (readOnes 8)).map
                fun last => last.cache.missCount))) =
      some ([[true, false, true]], some (true, 3, some 4)) := by
    decide +kernel
  obtain ⟨session, replayed, pair⟩ := Option.map_eq_some_iff.mp returned
  obtain ⟨valid, laterRuns⟩ := Prod.mk.inj pair
  obtain ⟨later, laterReplayed, triple⟩ := Option.map_eq_some_iff.mp laterRuns
  simp only [Prod.mk.injEq] at triple
  obtain ⟨known, before, lastRuns⟩ := triple
  obtain ⟨last, performed, after⟩ := Option.map_eq_some_iff.mp lastRuns
  exact ⟨session, later, last, Run.of_replay step_of_perform replayed, valid,
    Run.of_replay step_of_perform laterReplayed, of_decide_eq_true known,
    step_of_perform performed, before, after⟩

end SystemsLabs.BlockCache

import SystemsLabs.BlockCache.Lru
import SystemsLabs.Library.Paging

/-!
# The miss counter between two ideal caches

The lookup may disturb the replacement policy, but it never loses the order in
which tags were read: the valid lines of a set are its most recently read tags,
only possibly fewer than there is room for, and never none.  The cache
therefore misses at least as often as the ideal cache of its size and at most
as often as the ideal cache with one line for every set.
-/

namespace SystemsLabs.BlockCache

open MoveToFront Paging Transition

theorem prefix_erase {α : Type*} [DecidableEq α] {items all : List α}
    (item : α) (front : items <+: all) :
    items.erase item <+: all.erase item := by
  obtain ⟨rest, rfl⟩ := front
  by_cases member : item ∈ items
  · rw [List.erase_append_left _ member]
    exact List.prefix_append _ _
  · rw [List.erase_append_right _ member, List.erase_of_not_mem member]
    exact List.prefix_append _ _

/-- The tag of a read is in front, and the valid tags behind it keep their
order and lose none but the last ones. -/
theorem Serves.newest {tag : BitVec 64} {fill : CacheLine → CacheLine}
    {before after : List CacheLine} {evicted : Option CacheLine}
    (serves : Serves tag fill before after evicted) (fills : Fills tag fill)
    (ordered : TagsOrdered before) :
    ∃ kept, validTags after = tag :: kept ∧
      kept <+: (validTags before).erase tag ∧
      (evicted = none ↔ tag ∈ validTags before) := by
  cases serves with
  | @hit front back line absent same valid =>
      have notFront : tag ∉ validTags front := by
        intro member
        obtain ⟨other, otherMember, _, otherTag⟩ := mem_validTags.mp member
        exact absent other otherMember otherTag
      have found : tag ∈ validTags (front ++ line :: back) :=
        mem_validTags.mpr ⟨line, by simp, valid, same⟩
      refine ⟨validTags (front ++ back), ?_, ?_, iff_of_true rfl found⟩
      · rw [validTags_cons_valid valid, same]
      · rw [validTags_append, validTags_append, validTags_cons_valid valid,
          same, List.erase_append_right _ notFront, List.erase_cons_head]
  | @stale front back init line last absent same invalid split =>
      have matching := ordered.matching_invalid absent same invalid
      have notFound : tag ∉ validTags (front ++ line :: back) := by
        intro member
        obtain ⟨other, otherMember, valid, otherTag⟩ := mem_validTags.mp member
        rw [matching other otherMember otherTag] at valid
        cases valid
      have moved : validTags init ++ validTags [last] =
          validTags (front ++ line :: back) := by
        rw [← validTags_append, ← split, validTags_cons_invalid invalid,
          validTags_append, validTags_append, validTags_cons_invalid invalid]
      refine ⟨validTags init, ?_, ?_,
        iff_of_false (Option.some_ne_none _) notFound⟩
      · rw [validTags_cons_valid (fills last).2, (fills last).1]
      · rw [List.erase_of_not_mem notFound, ← moved]
        exact List.prefix_append _ _
  | @miss init last absent =>
      have notFound : tag ∉ validTags (init ++ [last]) := by
        intro member
        obtain ⟨other, otherMember, _, otherTag⟩ := mem_validTags.mp member
        exact absent other otherMember otherTag
      refine ⟨validTags init, ?_, ?_,
        iff_of_false (Option.some_ne_none _) notFound⟩
      · rw [validTags_cons_valid (fills last).2, (fills last).1]
      · rw [List.erase_of_not_mem notFound, validTags_append]
        exact List.prefix_append _ _

/-- The set and the tag by which `cacheRead` looks for an address. -/
def readKey (cache : Cache) (address : Address) : Nat × BitVec 64 :=
  (readIndex cache address, readTag cache address)

/-- The misses of an ideal cache with the sets of `cache` and `ways` lines in
each of them. -/
def idealMisses (ways : Nat) (cache : Cache) (history : List Address) : Nat :=
  classMisses ways Prod.fst (history.map (readKey cache))

theorem tagsRead_eq (cache : Cache) (history : List Address) (index : Nat) :
    tagsRead cache history index =
      ((history.map (readKey cache)).filter fun key => key.1 = index).map
        Prod.snd := by
  rw [tagsRead, List.filter_map, List.map_map]
  rfl

theorem stored_iff_tagsRead {ways : Nat} {cache : Cache}
    {history : List Address} {address : Address} :
    Stored ways Prod.fst (history.map (readKey cache))
        (readKey cache address) ↔
      readTag cache address ∈
        recent ways (tagsRead cache history (readIndex cache address)) := by
  rw [tagsRead_eq, Stored]
  refine (@mem_recent_map _ _ _ _ Prod.snd ways _ (readKey cache address)
    ?_).symm
  have here : ∀ key ∈ readKey cache address ::
      (history.map (readKey cache)).filter (fun key =>
        decide (key.1 = readIndex cache address)),
        key.1 = readIndex cache address := by
    intro key member
    rcases List.mem_cons.mp member with rfl | inHistory
    · rfl
    · exact of_decide_eq_true (List.mem_filter.mp inHistory).2
  intro left leftMember right rightMember same
  exact Prod.ext ((here left leftMember).trans (here right rightMember).symm)
    same

/-- The valid tags of a set, in the order of its lines, are the tags that were
read last. -/
structure Recency (session : Session) : Prop where
  intact : Intact session.cache
  newest : ∀ (index : Nat) (set : CacheSet),
    session.cache.sets[index]? = some set →
    validTags set.lines <+:
      (tagsRead session.cache session.history index).eraseDups
  occupied : ∀ (index : Nat) (set : CacheSet),
    session.cache.sets[index]? = some set →
    tagsRead session.cache session.history index ≠ [] →
      validTags set.lines ≠ []
  counted : session.cache.accessCount = session.history.length % 2 ^ 32 ∧
    ∃ total, session.cache.missCount = total % 2 ^ 32 ∧
      idealMisses session.cache.associativity session.cache
        session.history ≤ total ∧
      total ≤ idealMisses 1 session.cache session.history

theorem cacheNew_counts {areas : Nat → Nat → CacheLine}
    {numBlocks blockSize associativity : Nat} {policies : BitVec 32}
    {cache : Cache}
    (returned :
      cacheNew areas numBlocks blockSize associativity policies = some cache) :
    cache.accessCount = 0 ∧ cache.missCount = 0 := by
  simp only [cacheNew] at returned
  split at returned
  · cases returned
  · obtain ⟨_, _, onward⟩ := Option.bind_eq_some_iff.mp returned
    obtain ⟨_, _, last⟩ := Option.bind_eq_some_iff.mp onward
    cases last
    exact ⟨rfl, rfl⟩

namespace Recency

variable {session after : Session} {call : Call}

theorem created {areas : Nat → Nat → CacheLine}
    {numBlocks blockSize associativity : Nat} {policies : BitVec 32}
    {cache : Cache}
    (returned :
      cacheNew areas numBlocks blockSize associativity policies = some cache) :
    Recency { cache := cache, history := [] } := by
  obtain ⟨noAccess, noMiss⟩ := cacheNew_counts returned
  refine ⟨Intact.created returned, ?_, ?_, noAccess, 0, noMiss,
    Nat.le_refl 0, Nat.le_refl 0⟩
  · intro index set place
    rw [validTags_eq_nil]
    · exact List.nil_prefix
    · intro line member
      rw [cacheNew_set returned place] at member
      obtain ⟨position, _, rfl⟩ := List.mem_map.mp member
      rfl
  · intro index set _ read
    exact (read rfl).elim

/-- A hit is one of the ideal cache of the same size, a miss is one of the ideal
cache with a line for every set. -/
theorem hit_bounds (recency : Recency session) {set : CacheSet}
    (here : session.cache.sets[readIndex session.cache call.address]? =
      some set) :
    (readTag session.cache call.address ∈ validTags set.lines →
      Stored session.cache.associativity Prod.fst
        (session.history.map (readKey session.cache))
        (readKey session.cache call.address)) ∧
    (Stored 1 Prod.fst (session.history.map (readKey session.cache))
        (readKey session.cache call.address) →
      readTag session.cache call.address ∈ validTags set.lines) := by
  have front := recency.newest _ set here
  have installed := recency.intact.installed _ _ here
  have room : (validTags set.lines).length ≤ session.cache.associativity := by
    calc
      _ ≤ set.lines.length := length_validTags_le _
      _ = session.cache.associativity := by
        rw [CacheSet.lines, List.length_map, installed.length_eq]
  constructor
  · intro found
    rw [stored_iff_tagsRead, recent]
    have within := (List.prefix_take_iff.mpr ⟨front, room⟩)
    exact within.subset found
  · intro stored
    rw [stored_iff_tagsRead, recent] at stored
    have read : tagsRead session.cache session.history
        (readIndex session.cache call.address) ≠ [] := by
      intro nothing
      rw [nothing] at stored
      cases stored
    obtain ⟨first, rest, valid⟩ :=
      List.exists_cons_of_ne_nil (recency.occupied _ set here read)
    rw [valid] at front ⊢
    obtain ⟨others, whole⟩ := front
    rw [← whole, List.cons_append, List.take_succ_cons] at stored
    rcases List.mem_cons.mp stored with same | nothing
    · rw [same]
      exact List.mem_cons_self
    · cases nothing

theorem step (recency : Recency session) (taken : Step session call after) :
    Recency after := by
  obtain ⟨set, newSet, evicted, _, _, here, rfl, _, _, reads⟩ :=
    taken.inversion recency.intact
  obtain ⟨kept, valid, behind, hit⟩ := reads.serves.newest
    (fillLine_fills _ _ _ _) (recency.intact.tagsOrdered _ _ here)
  have bounds := recency.hit_bounds here
  refine ⟨recency.intact.afterRead here reads, ?_, ?_, ?_, ?_⟩
  · intro index other place
    simp only [getElem?_afterRead _ _ _ _ here] at place
    change validTags other.lines <+:
      (tagsRead session.cache (call.address :: session.history)
        index).eraseDups
    rw [tagsRead_cons]
    split at place
    · rename_i same
      cases place
      rw [if_pos same, eraseDups_cons_erase, valid]
      apply List.prefix_cons_inj _ |>.mpr
      rw [← same]
      exact behind.trans (prefix_erase _ (recency.newest _ _ here))
    · rename_i different
      rw [if_neg different]
      exact recency.newest index other place
  · intro index other place read
    simp only [getElem?_afterRead _ _ _ _ here] at place
    change tagsRead session.cache (call.address :: session.history) index ≠ []
      at read
    rw [tagsRead_cons] at read
    split at place
    · cases place
      rw [valid]
      exact List.cons_ne_nil _ _
    · rename_i different
      rw [if_neg different] at read
      exact recency.occupied index other place read
  · change (session.cache.accessCount + 1) % 2 ^ 32 =
      (session.history.length + 1) % 2 ^ 32
    rw [recency.counted.1, Nat.mod_add_mod]
  · obtain ⟨_, total, counter, low, high⟩ := recency.counted
    refine ⟨total + if evicted.isSome then 1 else 0, ?_, ?_, ?_⟩
    · change (if evicted.isSome then (session.cache.missCount + 1) % 2 ^ 32
        else session.cache.missCount) = _
      rw [counter]
      split
      · rw [Nat.mod_add_mod]
      · rfl
    · change classMisses session.cache.associativity Prod.fst
        (readKey session.cache call.address ::
          session.history.map (readKey session.cache)) ≤ _
      rw [classMisses]
      apply Nat.add_le_add low
      cases evicted with
      | none =>
          rw [if_pos (bounds.1 (hit.mp rfl))]
          exact Nat.zero_le _
      | some last =>
          split
          · exact Nat.zero_le _
          · exact Nat.le_refl 1
    · change _ ≤ classMisses 1 Prod.fst
        (readKey session.cache call.address ::
          session.history.map (readKey session.cache))
      rw [classMisses]
      apply Nat.add_le_add high
      cases evicted with
      | none => exact Nat.zero_le _
      | some last =>
          have missed : ¬Stored 1 Prod.fst
              (session.history.map (readKey session.cache))
              (readKey session.cache call.address) := fun stored =>
            Option.some_ne_none last (hit.mpr (bounds.2 stored))
          rw [if_neg missed]
          exact Nat.le_refl 1

theorem run {first last : Session} {calls : List Call}
    (recency : Recency first) (run : Run Step first calls last) :
    Recency last :=
  run.invariant (fun known taken => known.step taken) recency

theorem counters (recency : Recency session)
    (short : session.history.length < 2 ^ 32) :
    session.cache.accessCount = session.history.length ∧
      idealMisses session.cache.associativity session.cache
        session.history ≤ session.cache.missCount ∧
      session.cache.missCount ≤
        idealMisses 1 session.cache session.history := by
  obtain ⟨accesses, total, misses, low, high⟩ := recency.counted
  have few : total < 2 ^ 32 := by
    calc
      total ≤ idealMisses 1 session.cache session.history := high
      _ ≤ (session.history.map (readKey session.cache)).length :=
        classMisses_le_length
      _ = session.history.length := List.length_map _
      _ < 2 ^ 32 := short
  rw [Nat.mod_eq_of_lt short] at accesses
  rw [Nat.mod_eq_of_lt few] at misses
  rw [misses]
  exact ⟨accesses, low, high⟩

end Recency

theorem run_history {first last : Session} {calls : List Call}
    (run : Run Step first calls last) :
    last.history = (calls.map Call.address).reverse ++ first.history := by
  induction run with
  | nil => rfl
  | cons taken _ ih =>
      cases taken with
      | read _ =>
          rw [ih, List.map_cons, List.reverse_cons, List.append_assoc]
          rfl

/-- In every session, whatever was in the lines before they were filled, the
valid tags of a set are the tags read last in it, in that order, and the miss
counter lies between two ideal caches. -/
theorem session_misses_between {areas : Nat → Nat → CacheLine}
    {numBlocks blockSize associativity : Nat} {policies : BitVec 32}
    {cache : Cache}
    (returned :
      cacheNew areas numBlocks blockSize associativity policies = some cache)
    {calls : List Call} {session : Session}
    (run : Run Step { cache := cache, history := [] } calls session)
    (short : calls.length < 2 ^ 32) :
    (∀ (index : Nat) (set : CacheSet),
      session.cache.sets[index]? = some set →
      validTags set.lines <+:
        (tagsRead session.cache session.history index).eraseDups) ∧
      session.cache.accessCount = calls.length ∧
      idealMisses associativity session.cache session.history ≤
        session.cache.missCount ∧
      session.cache.missCount ≤
        idealMisses 1 session.cache session.history := by
  have initial := Recency.created returned
  have recency := initial.run run
  have length : session.history.length = calls.length := by
    rw [run_history run, List.append_nil, List.length_reverse,
      List.length_map]
  have ways : session.cache.associativity = associativity := by
    obtain ⟨_, _, _, _, same⟩ := run_config run initial.intact
    rw [same]
    exact (cacheNew_spec returned).2.1
  have counters := recency.counters (by rw [length]; exact short)
  rw [length, ways] at counters
  exact ⟨recency.newest, counters⟩

/-- The session in which the replacement policy is disturbed, with the two ideal
caches it lies between. -/
theorem smallSession_misses_between :
    ∃ session,
      Run Step smallSession [readOnes 8, readOnes 40, readOnes 48, readOnes 8]
        session ∧
      (∀ (index : Nat) (set : CacheSet),
        session.cache.sets[index]? = some set →
        validTags set.lines <+:
          (tagsRead session.cache session.history index).eraseDups) ∧
      session.cache.accessCount = 4 ∧
      idealMisses 3 session.cache session.history ≤
        session.cache.missCount ∧
      session.cache.missCount ≤
        idealMisses 1 session.cache session.history := by
  have returned : (replay Session.perform smallSession
      [readOnes 8, readOnes 40, readOnes 48, readOnes 8]).isSome := by
    decide +kernel
  obtain ⟨session, replayed⟩ := Option.isSome_iff_exists.mp returned
  have run := Run.of_replay step_of_perform replayed
  exact ⟨session, run,
    session_misses_between (smallCache_new smallAreas) run (by decide)⟩

end SystemsLabs.BlockCache

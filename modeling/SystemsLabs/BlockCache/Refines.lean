import SystemsLabs.BlockCache.Lines
import Mathlib.Data.List.Induction

/-!
# `cacheRead` on the lines of a set

Each function of the cache on the pointers of a set, and `cacheRead` as one of
the reads of `Serves` on its lines.
-/

namespace SystemsLabs.BlockCache

open MoveToFront

/-- The lines of a set in the order of `cacheLines`. -/
def CacheSet.lines (set : CacheSet) : List CacheLine :=
  set.cacheLines.map set.line

/-- `cacheLines` holds every line of the set once. -/
def CacheSet.Installed (associativity : Nat) (set : CacheSet) : Prop :=
  set.cacheLines.Perm (List.range associativity)

theorem shiftLines_spec (line : Nat) :
    ∀ (front : List Nat) (moved : Nat) (back : List Nat),
      (shiftLines (front ++ moved :: back) front.length).set 0 line =
        line :: (front ++ back) := by
  intro front
  induction front using List.reverseRecOn with
  | nil =>
      intro moved back
      rfl
  | append_singleton init last ih =>
      intro moved back
      have step : ((init ++ [last]) ++ moved :: back).set (init.length + 1)
          (((init ++ [last]) ++ moved :: back).getD init.length 0) =
            init ++ last :: (last :: back) := by
        simp [List.getD_eq_getElem?_getD]
      rw [List.length_append, List.length_singleton, shiftLines, step, ih,
        List.append_assoc, List.singleton_append]

theorem cacheLineMakeMru_spec (set : CacheSet) {front back : List Nat}
    {line : Nat} (split : set.cacheLines = front ++ line :: back) :
    cacheLineMakeMru set front.length =
      some (line, { set with cacheLines := line :: (front ++ back) }) := by
  have here : (front ++ line :: back)[front.length]? = some line := by
    simp
  rw [cacheLineMakeMru, split, here, ← shiftLines_spec line front line back]
  rfl

theorem findAvailableCacheLine_spec {cache : Cache} (set : CacheSet)
    {init : List Nat} {last : Nat} (split : set.cacheLines = init ++ [last])
    (size : set.cacheLines.length = cache.associativity) :
    findAvailableCacheLine cache set =
      some (last, { set with cacheLines := last :: init }) := by
  have index : cache.associativity - 1 = init.length := by
    rw [← size, split, List.length_append]
    rfl
  rw [findAvailableCacheLine, index, cacheLineMakeMru_spec set split,
    List.append_nil]

/-- What a miss makes of the line it takes. -/
def fillLine (memory : Memory) (cache : Cache) (address : Address)
    (tag : BitVec 64) (line : CacheLine) : CacheLine :=
  { isValid := true
    tag := tag
    data := copyBlock line.data memory
      (address &&& ~~~cache.blockOffsetMask).toNat cache.blockSize }

theorem fillLine_fills (memory : Memory) (cache : Cache) (address : Address)
    (tag : BitVec 64) : Fills tag (fillLine memory cache address tag) :=
  fun _ => ⟨rfl, rfl⟩

theorem cacheSetAdd_spec (memory : Memory) {cache : Cache} (set : CacheSet)
    (address : Address) (tag : BitVec 64) {init : List Nat} {last : Nat}
    (split : set.cacheLines = init ++ [last])
    (size : set.cacheLines.length = cache.associativity) :
    cacheSetAdd memory cache set address tag =
      some (last,
        { cacheLines := last :: init
          line := Function.update set.line last
            (fillLine memory cache address tag (set.line last)) }) := by
  rw [cacheSetAdd, findAvailableCacheLine_spec set split size]
  rfl

theorem map_update_line {init : List Nat} {last : Nat}
    (distinct : (last :: init).Nodup) (line : Nat → CacheLine)
    (filled : CacheLine) :
    (last :: init).map (Function.update line last filled) =
      filled :: init.map line := by
  rw [List.map_cons, Function.update_self]
  congr 1
  apply List.map_congr_left
  intro other member
  apply Function.update_of_ne
  intro same
  subst same
  exact (List.nodup_cons.mp distinct).1 member

theorem cacheSetFindMatchingLine_spec (cache : Cache) (set : CacheSet)
    (tag : BitVec 64)
    (size : set.cacheLines.length = cache.associativity) :
    ((∀ line ∈ set.cacheLines, (set.line line).tag ≠ tag) ∧
      cacheSetFindMatchingLine cache set tag = some (none, set)) ∨
    ∃ front line back, set.cacheLines = front ++ line :: back ∧
      (∀ other ∈ front, (set.line other).tag ≠ tag) ∧
      (set.line line).tag = tag ∧
      cacheSetFindMatchingLine cache set tag =
        some (some line,
          { set with cacheLines := line :: (front ++ back) }) := by
  have whole : set.cacheLines.take cache.associativity = set.cacheLines :=
    List.take_of_length_le (by rw [size])
  cases found : set.cacheLines.findIdx?
      fun line => decide ((set.line line).tag = tag) with
  | none =>
      refine .inl ⟨?_, ?_⟩
      · simpa using found
      · rw [cacheSetFindMatchingLine, whole, found]
        rfl
  | some index =>
      obtain ⟨front, line, back, split, rfl, same, absent⟩ :=
        exists_split_findIdx found
      refine .inr ⟨front, line, back, split, by simpa using absent,
        by simpa using same, ?_⟩
      rw [cacheSetFindMatchingLine, whole, found]
      simp [cacheLineMakeMru_spec set split]

/-- What a read does to the set it selects. -/
structure ReadsSet (memory : Memory) (cache : Cache) (address : Address)
    (set newSet : CacheSet) (evicted : Option CacheLine) : Prop where
  serves : Serves (readTag cache address)
    (fillLine memory cache address (readTag cache address))
    set.lines newSet.lines evicted
  installed : newSet.Installed cache.associativity
  kept : ∀ position, newSet.line position = set.line position ∨
    evicted = some (set.line position)
  taken : ∀ last ∈ evicted, ∃ position ∈ set.cacheLines,
    set.line position = last ∧ (newSet.line position).tag =
      readTag cache address

/-- The cache after a read that turned `set` into `newSet`. -/
def Cache.afterRead (cache : Cache) (address : Address) (newSet : CacheSet)
    (evicted : Option CacheLine) : Cache :=
  { cache with
    sets := cache.sets.set (readIndex cache address) newSet
    accessCount := (cache.accessCount + 1) % 2 ^ 32
    missCount :=
      if evicted.isSome then (cache.missCount + 1) % 2 ^ 32
      else cache.missCount }

theorem CacheSet.Installed.length_eq {associativity : Nat} {set : CacheSet}
    (installed : set.Installed associativity) :
    set.cacheLines.length = associativity := by
  rw [List.Perm.length_eq installed, List.length_range]

theorem CacheSet.Installed.nodup {associativity : Nat} {set : CacheSet}
    (installed : set.Installed associativity) : set.cacheLines.Nodup :=
  (List.Perm.nodup_iff installed).mpr List.nodup_range

/-- A miss on the set as the search left it. -/
theorem cacheSetAdd_reads (memory : Memory) {cache : Cache} {set : CacheSet}
    (address : Address) (tag : BitVec 64)
    (installed : set.Installed cache.associativity)
    (positive : 0 < cache.associativity) :
    ∃ init last newSet,
      set.cacheLines = init ++ [last] ∧
      cacheSetAdd memory cache set address tag = some (last, newSet) ∧
      newSet.lines = fillLine memory cache address tag (set.line last) ::
        init.map set.line ∧
      newSet.line last = fillLine memory cache address tag (set.line last) ∧
      newSet.Installed cache.associativity ∧
      ∀ position, newSet.line position = set.line position ∨
        position = last := by
  have size := installed.length_eq
  rcases List.eq_nil_or_concat set.cacheLines with empty | ⟨init, last, split⟩
  · rw [empty] at size
    exact absurd size positive.ne
  · rw [List.concat_eq_append] at split
    have permutes : (last :: init).Perm set.cacheLines := by
      rw [split]
      exact (List.perm_append_singleton last init).symm
    have distinct := permutes.nodup_iff.mpr installed.nodup
    refine ⟨init, last, _, split,
      cacheSetAdd_spec memory set address tag split size, ?_, ?_, ?_, ?_⟩
    · exact map_update_line distinct set.line _
    · exact Function.update_self _ _ _
    · exact permutes.trans installed
    · intro position
      by_cases same : position = last
      · exact .inr same
      · exact .inl (Function.update_of_ne same _ _)

theorem readsSet_of_fill {memory : Memory} {cache : Cache}
    {address : Address} {set newSet : CacheSet} {last : Nat}
    (serves : Serves (readTag cache address)
      (fillLine memory cache address (readTag cache address))
      set.lines newSet.lines (some (set.line last)))
    (installed : newSet.Installed cache.associativity)
    (member : last ∈ set.cacheLines)
    (filled : newSet.line last =
      fillLine memory cache address (readTag cache address) (set.line last))
    (kept : ∀ position, newSet.line position = set.line position ∨
      position = last) :
    ReadsSet memory cache address set newSet (some (set.line last)) := by
  refine ⟨serves, installed, ?_, ?_⟩
  · intro position
    rcases kept position with unchanged | rfl
    · exact .inl unchanged
    · exact .inr rfl
  · rintro _ ⟨⟩
    refine ⟨last, member, rfl, ?_⟩
    rw [filled]
    rfl

theorem cacheRead_spec (memory : Memory) {cache : Cache} {address : Address}
    {set : CacheSet}
    (here : cache.sets[readIndex cache address]? = some set)
    (installed : set.Installed cache.associativity)
    (positive : 0 < cache.associativity) :
    ∃ newSet evicted line rest,
      cacheRead memory cache address =
        some (cacheLineRetrieveData line (readOffset cache address),
          cache.afterRead address newSet evicted) ∧
      newSet.lines = line :: rest ∧
      ReadsSet memory cache address set newSet evicted := by
  rcases cacheSetFindMatchingLine_spec cache set (readTag cache address)
    installed.length_eq with ⟨absent, found⟩ |
      ⟨front, line, back, split, absent, same, found⟩
  · obtain ⟨init, last, newSet, split, added, lines, filled, newInstalled,
      kept⟩ := cacheSetAdd_reads memory address (readTag cache address)
      installed positive
    have before : set.lines = init.map set.line ++ [set.line last] := by
      rw [CacheSet.lines, split, List.map_append]
      rfl
    have isLast : last ∈ set.cacheLines := by
      rw [split]
      exact List.mem_append_right _ List.mem_cons_self
    refine ⟨newSet, some (set.line last), _, _, ?_, lines,
      readsSet_of_fill ?_ newInstalled isLast filled kept⟩
    · rw [cacheRead, here, ← filled]
      simp [found, added, Cache.afterRead]
    · rw [before, lines]
      apply Serves.miss
      intro other member
      rw [← before, CacheSet.lines] at member
      obtain ⟨position, positionMember, rfl⟩ := List.mem_map.mp member
      exact absent position positionMember
  · let moved : CacheSet :=
      { set with cacheLines := line :: (front ++ back) }
    have movedInstalled : moved.Installed cache.associativity := by
      have permutes := perm_front front back line
      rw [← split] at permutes
      exact permutes.trans installed
    have before : set.lines =
        front.map set.line ++ set.line line :: back.map set.line := by
      rw [CacheSet.lines, split, List.map_append, List.map_cons]
    have frontAbsent : ∀ other ∈ front.map set.line,
        other.tag ≠ readTag cache address := by
      intro other member
      obtain ⟨position, positionMember, rfl⟩ := List.mem_map.mp member
      exact absent position positionMember
    have movedLines : moved.lines =
        set.line line :: (front.map set.line ++ back.map set.line) := by
      rw [CacheSet.lines, List.map_cons, List.map_append]
    cases valid : (set.line line).isValid with
    | true =>
        refine ⟨moved, none, _, _, ?_, movedLines, ?_, movedInstalled,
          fun _ => .inl rfl, ?_⟩
        · rw [cacheRead, here]
          simp [found, Option.filter_some, cacheLineCheckValidityAndTag, same,
            valid, moved, Cache.afterRead]
        · rw [before, movedLines]
          exact .hit frontAbsent same valid
        · intro last member
          cases member
    | false =>
        obtain ⟨init, last, newSet, movedSplit, added, lines, filled,
          newInstalled, kept⟩ :=
            cacheSetAdd_reads memory address (readTag cache address)
              movedInstalled positive
        have isLast : last ∈ set.cacheLines := by
          have member : last ∈ moved.cacheLines := by
            rw [movedSplit]
            exact List.mem_append_right _ List.mem_cons_self
          rw [split]
          exact (perm_front front back line).mem_iff.mp member
        refine ⟨newSet, some (set.line last), _, _, ?_, lines,
          readsSet_of_fill ?_ newInstalled isLast filled kept⟩
        · rw [cacheRead, here, ← filled]
          simp only [moved] at added
          simp [found, Option.filter_some, cacheLineCheckValidityAndTag, same,
            valid, added, Cache.afterRead]
        · rw [before, lines]
          apply Serves.stale frontAbsent same valid
          rw [← movedLines, CacheSet.lines, movedSplit, List.map_append]
          rfl

end SystemsLabs.BlockCache

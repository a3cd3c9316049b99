import SystemsLabs.BlockCache.Code
import SystemsLabs.Library.MoveToFront

/-!
# What a read does to the lines of a set

`Serves` lists the three things a read can do to the lines of a set in the
order of `cacheLines`.  The invariants of a set and its agreement with the
least-recently-used policy follow from it.
-/

namespace SystemsLabs.BlockCache

open MoveToFront

/-- A read of `tag`; `fill` is what a miss makes of the line it evicts. -/
inductive Serves (tag : BitVec 64) (fill : CacheLine → CacheLine) :
    List CacheLine → List CacheLine → Option CacheLine → Prop where
  | hit {front back : List CacheLine} {line : CacheLine} :
      (∀ other ∈ front, other.tag ≠ tag) →
      line.tag = tag →
      line.isValid = true →
      Serves tag fill (front ++ line :: back) (line :: (front ++ back)) none
  /-- A line that was never filled matches and moves to the front. -/
  | stale {front back init : List CacheLine} {line last : CacheLine} :
      (∀ other ∈ front, other.tag ≠ tag) →
      line.tag = tag →
      line.isValid = false →
      line :: (front ++ back) = init ++ [last] →
      Serves tag fill (front ++ line :: back) (fill last :: init) (some last)
  | miss {init : List CacheLine} {last : CacheLine} :
      (∀ other ∈ init ++ [last], other.tag ≠ tag) →
      Serves tag fill (init ++ [last]) (fill last :: init) (some last)

/-- What every miss does to the line it takes. -/
def Fills (tag : BitVec 64) (fill : CacheLine → CacheLine) : Prop :=
  ∀ line, (fill line).tag = tag ∧ (fill line).isValid = true

/-- Of two lines with one tag the first may be valid, the other is not. -/
def TagsOrdered (lines : List CacheLine) : Prop :=
  lines.Pairwise fun earlier later =>
    earlier.tag = later.tag → later.isValid = false

/-- No valid line is behind an invalid one. -/
def ValidFirst (lines : List CacheLine) : Prop :=
  lines.Pairwise fun earlier later =>
    later.isValid = true → earlier.isValid = true

def validTags (lines : List CacheLine) : List (BitVec 64) :=
  (lines.filter CacheLine.isValid).map CacheLine.tag

/-- A read that finds its tag only on lines that were never filled, in a set
that holds valid lines. -/
def Disturbs (tag : BitVec 64) (lines : List CacheLine) : Prop :=
  (∃ line ∈ lines, line.isValid = true) ∧
    (∃ line ∈ lines, line.tag = tag) ∧
      ∀ line ∈ lines, line.tag = tag → line.isValid = false

instance (tag : BitVec 64) (lines : List CacheLine) :
    Decidable (Disturbs tag lines) :=
  inferInstanceAs (Decidable (_ ∧ _))

section ValidTags

variable {front back lines : List CacheLine} {line : CacheLine}
  {tag : BitVec 64}

@[simp] theorem validTags_append :
    validTags (front ++ back) = validTags front ++ validTags back := by
  simp [validTags]

@[simp] theorem validTags_cons_valid (valid : line.isValid = true) :
    validTags (line :: lines) = line.tag :: validTags lines := by
  simp [validTags, valid]

@[simp] theorem validTags_cons_invalid (invalid : line.isValid = false) :
    validTags (line :: lines) = validTags lines := by
  simp [validTags, invalid]

@[simp] theorem validTags_nil : validTags [] = [] := rfl

theorem mem_validTags :
    tag ∈ validTags lines ↔
      ∃ line ∈ lines, line.isValid = true ∧ line.tag = tag := by
  simp [validTags, and_assoc]

theorem validTags_eq_nil (invalid : ∀ line ∈ lines, line.isValid = false) :
    validTags lines = [] := by
  apply List.eq_nil_iff_forall_not_mem.mpr
  intro tag member
  obtain ⟨line, lineMember, valid, _⟩ := mem_validTags.mp member
  rw [invalid line lineMember] at valid
  cases valid

theorem length_validTags_le (lines : List CacheLine) :
    (validTags lines).length ≤ lines.length := by
  rw [validTags, List.length_map]
  exact List.length_filter_le _ _

/-- Without its last line a set with the valid lines first loses the tag that
does not fit any more. -/
theorem take_validTags {init : List CacheLine} {last : CacheLine}
    (validFirst : ValidFirst (init ++ [last])) :
    (validTags (init ++ [last])).take init.length = validTags init := by
  cases valid : last.isValid with
  | false =>
      rw [validTags_append, validTags_cons_invalid valid, validTags_nil,
        List.append_nil, List.take_of_length_le]
      exact length_validTags_le init
  | true =>
      have lastBehind := (List.pairwise_append.mp validFirst).2.2
      have allValid : ∀ other ∈ init, other.isValid = true :=
        fun other member =>
          lastBehind other member last List.mem_cons_self valid
      have full : (validTags init).length = init.length := by
        rw [validTags, List.filter_eq_self.mpr allValid, List.length_map]
      rw [validTags_append, List.take_left' full]

end ValidTags

theorem ValidFirst.of_all_invalid {lines : List CacheLine}
    (invalid : ∀ line ∈ lines, line.isValid = false) : ValidFirst lines := by
  apply List.pairwise_of_forall_mem_list
  intro earlier _ later member valid
  rw [invalid later member] at valid
  cases valid

/-- When the first line with a tag is invalid, all lines with it are. -/
theorem TagsOrdered.matching_invalid {tag : BitVec 64}
    {front back : List CacheLine} {line : CacheLine}
    (ordered : TagsOrdered (front ++ line :: back))
    (absent : ∀ other ∈ front, other.tag ≠ tag) (same : line.tag = tag)
    (invalid : line.isValid = false) :
    ∀ other ∈ front ++ line :: back, other.tag = tag →
      other.isValid = false := by
  have lineFirst := (List.pairwise_cons.mp
    (List.pairwise_append.mp ordered).2.1).1
  intro other member otherTag
  rcases List.mem_append.mp member with inFront | behind
  · exact (absent other inFront otherTag).elim
  · rcases List.mem_cons.mp behind with here | inBack
    · rw [here]
      exact invalid
    · exact lineFirst other inBack (same.trans otherTag.symm)

namespace Serves

variable {tag : BitVec 64} {fill : CacheLine → CacheLine}
  {before after : List CacheLine} {evicted : Option CacheLine}

/-- A read permutes the lines, up to the one it fills. -/
theorem perm (serves : Serves tag fill before after evicted) :
    match evicted with
    | none => after.Perm before
    | some last => ∃ init, after = fill last :: init ∧
        (last :: init).Perm before := by
  cases serves with
  | hit _ _ _ => exact perm_front _ _ _
  | @stale front back init line last _ _ _ split =>
      refine ⟨init, rfl, ?_⟩
      have moved := perm_front front back line
      rw [split] at moved
      exact (List.perm_append_singleton last init).symm.trans moved
  | @miss init last _ =>
      exact ⟨init, rfl, (List.perm_append_singleton last init).symm⟩

theorem mem_after (serves : Serves tag fill before after evicted)
    {line : CacheLine} (member : line ∈ after) :
    line ∈ before ∨ ∃ last ∈ evicted, last ∈ before ∧ line = fill last := by
  have permutes := serves.perm
  cases evicted with
  | none => exact .inl (permutes.mem_iff.mp member)
  | some last =>
      obtain ⟨init, rfl, permutes⟩ := permutes
      rcases List.mem_cons.mp member with filled | kept
      · exact .inr ⟨last, rfl, permutes.mem_iff.mp List.mem_cons_self, filled⟩
      · exact .inl (permutes.mem_iff.mp (List.mem_cons_of_mem _ kept))

theorem front_line (serves : Serves tag fill before after evicted)
    (fills : Fills tag fill) :
    ∃ line rest, after = line :: rest ∧ line.tag = tag ∧
      line.isValid = true := by
  cases serves with
  | hit _ same valid => exact ⟨_, _, rfl, same, valid⟩
  | stale _ _ _ _ => exact ⟨_, _, rfl, fills _⟩
  | miss _ => exact ⟨_, _, rfl, fills _⟩

theorem tagsOrdered (serves : Serves tag fill before after evicted)
    (fills : Fills tag fill) (ordered : TagsOrdered before) :
    TagsOrdered after := by
  cases serves with
  | hit absent same _ =>
      apply pairwise_front ordered
      intro other member equal
      exact (absent other member (equal.symm.trans same)).elim
  | @stale front back init line last absent same invalid split =>
      have moved : TagsOrdered (line :: (front ++ back)) := by
        apply pairwise_front ordered
        intro other member equal
        exact (absent other member (equal.symm.trans same)).elim
      have matching := ordered.matching_invalid absent same invalid
      apply List.pairwise_cons.mpr
      rw [split] at moved
      constructor
      · intro other member equal
        have inMoved : other ∈ line :: (front ++ back) := by
          rw [split]
          exact List.mem_append_left _ member
        exact matching other ((perm_front front back line).mem_iff.mp inMoved)
          (equal.symm.trans (fills last).1)
      · exact (List.pairwise_append.mp moved).1
  | @miss init last absent =>
      apply List.pairwise_cons.mpr
      constructor
      · intro other member equal
        have different := absent other (List.mem_append_left _ member)
        exact (different (equal.symm.trans (fills last).1)).elim
      · exact (List.pairwise_append.mp ordered).1

theorem evicted_eq_none (serves : Serves tag fill before after evicted)
    (ordered : TagsOrdered before) (found : tag ∈ validTags before) :
    evicted = none := by
  obtain ⟨owner, member, valid, ownerTag⟩ := mem_validTags.mp found
  cases serves with
  | hit _ _ _ => rfl
  | stale absent same invalid _ =>
      have matching := ordered.matching_invalid absent same invalid
      rw [matching owner member ownerTag] at valid
      cases valid
  | miss absent => exact (absent owner member ownerTag).elim

/-- The least-recently-used policy: under the invariants, a read that disturbs
nothing keeps the valid lines first, evicts a valid line only from a full set,
uses the tag as `touch` does, and misses when the tag is not there. -/
theorem touches (serves : Serves tag fill before after evicted)
    (fills : Fills tag fill) (validFirst : ValidFirst before)
    (ordered : TagsOrdered before) (undisturbed : ¬Disturbs tag before) :
    ValidFirst after ∧
      (∀ last ∈ evicted, last.isValid = true →
        ∀ line ∈ before, line.isValid = true) ∧
      validTags after = touch before.length tag (validTags before) ∧
      (evicted = none ↔ tag ∈ validTags before) := by
  cases serves with
  | @hit front back line absent same valid =>
      have notFront : tag ∉ validTags front := by
        intro member
        obtain ⟨other, otherMember, _, otherTag⟩ := mem_validTags.mp member
        exact absent other otherMember otherTag
      have found : tag ∈ validTags (front ++ line :: back) :=
        mem_validTags.mpr ⟨line, by simp, valid, same⟩
      refine ⟨?_, ?_, ?_, ?_⟩
      · apply pairwise_front validFirst
        intro other _ _
        exact valid
      · intro last member
        cases member
      · rw [touch, if_pos found, validTags_append, validTags_cons_valid valid,
          validTags_cons_valid valid, validTags_append, same,
          List.erase_append_right _ notFront, List.erase_cons_head]
      · exact iff_of_true rfl found
  | @stale front back init line last absent same invalid split =>
      have matching := ordered.matching_invalid absent same invalid
      have allInvalid : ∀ other ∈ front ++ line :: back,
          other.isValid = false := by
        intro other member
        apply eq_false_of_ne_true
        intro valid
        exact undisturbed
          ⟨⟨other, member, valid⟩, ⟨line, by simp, same⟩, matching⟩
      have initInvalid : ∀ other ∈ init, other.isValid = false := by
        intro other member
        have inMoved : other ∈ line :: (front ++ back) := by
          rw [split]
          exact List.mem_append_left _ member
        exact allInvalid other
          ((perm_front front back line).mem_iff.mp inMoved)
      have nothing := validTags_eq_nil allInvalid
      refine ⟨?_, ?_, ?_, ?_⟩
      · apply List.pairwise_cons.mpr
        exact ⟨fun _ _ _ => (fills last).2, ValidFirst.of_all_invalid initInvalid⟩
      · rintro _ ⟨⟩ valid
        have inMoved : last ∈ line :: (front ++ back) := by
          rw [split]
          exact List.mem_append_right _ List.mem_cons_self
        rw [allInvalid last
          ((perm_front front back line).mem_iff.mp inMoved)] at valid
        cases valid
      · rw [nothing, touch, if_neg List.not_mem_nil,
          validTags_cons_valid (fills last).2, (fills last).1,
          validTags_eq_nil initInvalid, List.length_append, List.length_cons,
          ← Nat.add_assoc, List.take_succ_cons, List.take_nil]
      · rw [nothing]
        exact iff_of_false (Option.some_ne_none _) List.not_mem_nil
  | @miss init last absent =>
      have lastBehind := (List.pairwise_append.mp validFirst).2.2
      have notFound : tag ∉ validTags (init ++ [last]) := by
        intro member
        obtain ⟨other, otherMember, _, otherTag⟩ := mem_validTags.mp member
        exact absent other otherMember otherTag
      refine ⟨?_, ?_, ?_, ?_⟩
      · apply List.pairwise_cons.mpr
        exact ⟨fun _ _ _ => (fills last).2,
          (List.pairwise_append.mp validFirst).1⟩
      · rintro _ ⟨⟩ valid other member
        rcases List.mem_append.mp member with inInit | isLast
        · exact lastBehind other inInit last List.mem_cons_self valid
        · rw [List.mem_singleton.mp isLast]
          exact valid
      · rw [touch, if_neg notFound, validTags_cons_valid (fills last).2,
          (fills last).1, List.length_append, List.length_singleton,
          List.take_succ_cons]
        congr 1
        exact (take_validTags validFirst).symm
      · exact iff_of_false (Option.some_ne_none _) notFound

/-- A read that disturbs the set leaves an invalid line in front of a valid
one, or evicts a valid line from a set that is not full. -/
theorem disturbed (serves : Serves tag fill before after evicted)
    (disturbs : Disturbs tag before) :
    ¬(ValidFirst after ∧
      ∀ last ∈ evicted, last.isValid = true →
        ∀ line ∈ before, line.isValid = true) := by
  obtain ⟨⟨valid, validMember, isValid⟩, ⟨owner, ownerMember, ownerTag⟩,
    matching⟩ := disturbs
  cases serves with
  | hit _ same lineValid =>
      rw [matching _ (by simp) same] at lineValid
      cases lineValid
  | miss absent => exact (absent owner ownerMember ownerTag).elim
  | @stale front back init line last absent same invalid split =>
      rintro ⟨validFirst, full⟩
      have validMoved : valid ∈ init ++ [last] := by
        rw [← split]
        exact (perm_front front back line).mem_iff.mpr validMember
      have lastInvalid : last.isValid = false := by
        apply eq_false_of_ne_true
        intro lastValid
        have lineValid := full last rfl lastValid line (by simp)
        rw [invalid] at lineValid
        cases lineValid
      rcases List.mem_append.mp validMoved with inInit | isLast
      · cases init with
        | nil => cases inInit
        | cons first rest =>
            obtain ⟨rfl, _⟩ := List.cons.inj split
            rcases List.mem_cons.mp inInit with here | behind
            · rw [here, invalid] at isValid
              cases isValid
            · have inOrder := (List.pairwise_cons.mp
                (List.pairwise_cons.mp validFirst).2).1 valid behind isValid
              rw [invalid] at inOrder
              cases inOrder
      · rw [List.mem_singleton.mp isLast, lastInvalid] at isValid
        cases isValid

end Serves

end SystemsLabs.BlockCache

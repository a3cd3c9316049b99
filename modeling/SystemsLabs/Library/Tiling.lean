import Mathlib.Data.List.Basic

/-!
# Segments laid end to end

A list of segments, each with a width, tiles a range of addresses: every
segment starts where the one before it ends.  `placed` pairs the segments with
their start addresses.
-/

namespace SystemsLabs.Tiling

variable {β : Type} (width : β → Nat)

/-- The number of addresses a list of segments covers. -/
def span : List β → Nat
  | [] => 0
  | segment :: rest => width segment + span rest

/-- The segments with their start addresses, the first one at `address`. -/
def placed (address : Nat) : List β → List (Nat × β)
  | [] => []
  | segment :: rest =>
      (address, segment) :: placed (address + width segment) rest

/-- The start addresses of the segments. -/
def addresses (address : Nat) (segments : List β) : List Nat :=
  (placed width address segments).map Prod.fst

variable {width}

@[simp] theorem span_nil : span width [] = 0 := rfl

@[simp] theorem span_cons (segment : β) (rest : List β) :
    span width (segment :: rest) = width segment + span width rest := rfl

@[simp] theorem span_append (front back : List β) :
    span width (front ++ back) = span width front + span width back := by
  induction front with
  | nil => simp
  | cons segment rest ih => simp [ih, Nat.add_assoc]

@[simp] theorem placed_nil (address : Nat) : placed width address [] = [] := rfl

@[simp] theorem placed_cons (address : Nat) (segment : β) (rest : List β) :
    placed width address (segment :: rest) =
      (address, segment) :: placed width (address + width segment) rest := rfl

@[simp] theorem placed_append (address : Nat) (front back : List β) :
    placed width address (front ++ back) =
      placed width address front ++
        placed width (address + span width front) back := by
  induction front generalizing address with
  | nil => simp
  | cons segment rest ih => simp [ih, Nat.add_assoc]

theorem exists_split {address position : Nat} {segment : β}
    {segments : List β} (member : (position, segment) ∈
      placed width address segments) :
    ∃ front back, segments = front ++ segment :: back ∧
      position = address + span width front := by
  induction segments generalizing address with
  | nil => cases member
  | cons head rest ih =>
      rcases List.mem_cons.mp member with first | later
      · cases first
        exact ⟨[], rest, rfl, rfl⟩
      · obtain ⟨front, back, split, offset⟩ := ih later
        refine ⟨head :: front, back, by rw [split]; rfl, ?_⟩
        rw [offset, span_cons, Nat.add_assoc]

theorem mem_placed (address : Nat) (front : List β) (segment : β)
    (back : List β) : (address + span width front, segment) ∈
      placed width address (front ++ segment :: back) := by
  simp

theorem exists_placed (address : Nat) {segment : β} {segments : List β}
    (member : segment ∈ segments) :
    ∃ position, (position, segment) ∈ placed width address segments := by
  obtain ⟨front, back, rfl⟩ := List.append_of_mem member
  exact ⟨_, mem_placed address front segment back⟩

theorem bounds {address position : Nat} {segment : β} {segments : List β}
    (member : (position, segment) ∈ placed width address segments) :
    address ≤ position ∧
      position + width segment ≤ address + span width segments := by
  obtain ⟨front, back, rfl, rfl⟩ := exists_split member
  simp only [span_append, span_cons]
  omega

/-- Two placed segments are the same one or do not overlap. -/
theorem eq_or_apart {address x y : Nat} {left right : β}
    {segments : List β}
    (leftMember : (x, left) ∈ placed width address segments)
    (rightMember : (y, right) ∈ placed width address segments) :
    (x = y ∧ left = right) ∨ x + width left ≤ y ∨ y + width right ≤ x := by
  induction segments generalizing address with
  | nil => cases leftMember
  | cons head rest ih =>
      rcases List.mem_cons.mp leftMember with leftFirst | leftLater
      · rcases List.mem_cons.mp rightMember with rightFirst | rightLater
        · cases leftFirst
          cases rightFirst
          exact .inl ⟨rfl, rfl⟩
        · have room := bounds rightLater
          cases leftFirst
          exact .inr (.inl room.1)
      · rcases List.mem_cons.mp rightMember with rightFirst | rightLater
        · have room := bounds leftLater
          cases rightFirst
          exact .inr (.inr room.1)
        · exact ih leftLater rightLater

/-- When segments are not empty, the address determines the segment. -/
theorem eq_of_same_address (positive : ∀ segment, 0 < width segment)
    {address position : Nat} {left right : β} {segments : List β}
    (leftMember : (position, left) ∈ placed width address segments)
    (rightMember : (position, right) ∈ placed width address segments) :
    left = right := by
  have leftWide := positive left
  have rightWide := positive right
  rcases eq_or_apart leftMember rightMember with same | before | after
  · exact same.2
  · omega
  · omega

@[simp] theorem addresses_cons (address : Nat) (segment : β)
    (rest : List β) :
    addresses width address (segment :: rest) =
      address :: addresses width (address + width segment) rest := rfl

@[simp] theorem addresses_append (address : Nat) (front back : List β) :
    addresses width address (front ++ back) =
      addresses width address front ++
        addresses width (address + span width front) back := by
  simp [addresses]

theorem mem_addresses {address position : Nat} {segments : List β} :
    position ∈ addresses width address segments ↔
      ∃ segment, (position, segment) ∈ placed width address segments := by
  simp [addresses]

theorem addresses_bounds (positive : ∀ segment, 0 < width segment)
    {address position : Nat} {segments : List β}
    (member : position ∈ addresses width address segments) :
    address ≤ position ∧ position < address + span width segments := by
  obtain ⟨segment, placedMember⟩ := mem_addresses.mp member
  have room := bounds placedMember
  have wide := positive segment
  omega

end SystemsLabs.Tiling

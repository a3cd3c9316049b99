import SystemsLabs.Library.Tiling
import Mathlib.Algebra.Group.Nat.Defs
import Mathlib.Data.List.Chain

/-!
# What the allocator is for: layouts

The abstract state of the allocator is the list of its blocks in address
order.  A block knows the request it was handed out for, if any.  Allocation
replaces one free block by the pieces that `Block.carve` cuts from it; freeing
marks a block free and merges every run of free blocks (`compact`).
-/

namespace SystemsLabs.ImplicitHeap

open Tiling

/-- A request the allocator can serve without rounding. -/
structure Request where
  bytes : Nat
  aligned : bytes % 8 = 0
  small : bytes ≤ 2 ^ 32 - 16
  deriving DecidableEq

/-- Header, payload and footer. -/
def Request.needed (request : Request) : Nat := request.bytes + 8

/-- A block, free or handed out for a request that fits. -/
structure Block where
  size : Nat
  request : Option Nat
  aligned : size % 8 = 0
  large : 8 ≤ size
  holds : ∀ bytes, request = some bytes → bytes + 8 ≤ size
  deriving DecidableEq

namespace Block

@[ext] theorem ext {left right : Block} (size : left.size = right.size)
    (request : left.request = right.request) : left = right := by
  cases left
  cases right
  cases size
  cases request
  rfl

def IsFree (block : Block) : Prop := block.request = none

instance (block : Block) : Decidable block.IsFree :=
  inferInstanceAs (Decidable (block.request = none))

/-- The word stored at both ends of the block. -/
def header (block : Block) : Nat :=
  block.size + if block.IsFree then 0 else 1

/-- A free block. -/
def vacant (size : Nat) (aligned : size % 8 = 0) (large : 8 ≤ size) : Block :=
  { size := size, request := none, aligned := aligned, large := large,
    holds := by simp }

/-- The same block, no longer handed out. -/
def release (block : Block) : Block :=
  vacant block.size block.aligned block.large

/-- Two neighbours as one free block. -/
def join (left right : Block) : Block :=
  vacant (left.size + right.size)
    (by have := left.aligned; have := right.aligned; omega)
    (by have := left.large; omega)

@[simp] theorem vacant_size (size : Nat) (aligned : size % 8 = 0)
    (large : 8 ≤ size) : (vacant size aligned large).size = size := rfl

@[simp] theorem vacant_isFree (size : Nat) (aligned : size % 8 = 0)
    (large : 8 ≤ size) : (vacant size aligned large).IsFree := rfl

@[simp] theorem release_size (block : Block) :
    block.release.size = block.size := rfl

@[simp] theorem release_isFree (block : Block) : block.release.IsFree := rfl

@[simp] theorem join_size (left right : Block) :
    (left.join right).size = left.size + right.size := rfl

@[simp] theorem join_isFree (left right : Block) :
    (left.join right).IsFree := rfl

theorem isFree_iff {block : Block} :
    block.IsFree ↔ block.request = none := Iff.rfl

theorem size_pos (block : Block) : 0 < block.size := by
  have large := block.large
  omega

/-- The block handed out whole for a request. -/
def grant (block : Block) (request : Request)
    (fits : request.needed ≤ block.size) : Block :=
  { size := block.size
    request := some request.bytes
    aligned := block.aligned
    large := block.large
    holds := by
      intro bytes granted
      cases granted
      exact fits }

/-- A used block that is just large enough for a request. -/
def exact (request : Request) : Block :=
  { size := request.needed
    request := some request.bytes
    aligned := by have := request.aligned; simp only [Request.needed]; omega
    large := by simp [Request.needed]
    holds := by
      intro bytes granted
      cases granted
      exact Nat.le_refl _ }

/-- A block is split when it is more than twice as large as needed or more
than 128 bytes larger. -/
def Splits (block : Block) (request : Request) : Prop :=
  request.needed + 128 < block.size ∨ request.needed * 2 < block.size

instance (block : Block) (request : Request) :
    Decidable (block.Splits request) :=
  inferInstanceAs (Decidable (_ ∨ _))

theorem Splits.lt {block : Block} {request : Request}
    (splits : block.Splits request) : request.needed < block.size := by
  rcases splits with wide | twice
  · omega
  · omega

/-- What is left of a block behind the piece cut for a request. -/
def rest (block : Block) (request : Request)
    (splits : block.Splits request) : Block :=
  vacant (block.size - request.needed)
    (by
      have blockAligned := block.aligned
      have requestAligned := request.aligned
      simp only [Request.needed]
      omega)
    (by
      have blockAligned := block.aligned
      have requestAligned := request.aligned
      have room := splits.lt
      simp only [Request.needed] at room ⊢
      omega)

/-- The blocks that replace a free block from which a request is served. -/
def carve (block : Block) (request : Request)
    (fits : request.needed ≤ block.size) : List Block :=
  if splits : block.Splits request then
    [Block.exact request, block.rest request splits]
  else
    [block.grant request fits]

/-- The first of the carved blocks, the one the caller gets. -/
def granted (block : Block) (request : Request)
    (fits : request.needed ≤ block.size) : Block :=
  if block.Splits request then Block.exact request
  else block.grant request fits

theorem span_carve (block : Block) (request : Request)
    (fits : request.needed ≤ block.size) :
    span Block.size (block.carve request fits) = block.size := by
  by_cases splits : block.Splits request
  · have room := splits.lt
    simp only [carve, splits, dif_pos, span_cons, span_nil, Block.exact, rest,
      vacant_size]
    omega
  · simp [carve, splits, grant]

theorem carve_head (block : Block) (request : Request)
    (fits : request.needed ≤ block.size) :
    ∃ tail, block.carve request fits = block.granted request fits :: tail := by
  by_cases splits : block.Splits request
  · exact ⟨[block.rest request splits], by simp [carve, granted, splits]⟩
  · exact ⟨[], by simp [carve, granted, splits]⟩

theorem granted_request (block : Block) (request : Request)
    (fits : request.needed ≤ block.size) :
    (block.granted request fits).request = some request.bytes := by
  by_cases splits : block.Splits request
  · simp [granted, splits, Block.exact]
  · simp [granted, splits, grant]

end Block

/-- No two neighbours are both free. -/
def Settled (blocks : List Block) : Prop :=
  blocks.IsChain fun left right => ¬left.IsFree ∨ ¬right.IsFree

/-- Put a block in front of a list, merging it with the first block of the
list when both are free. -/
def absorb (block : Block) : List Block → List Block
  | [] => [block]
  | next :: rest =>
      if block.IsFree ∧ next.IsFree then block.join next :: rest
      else block :: next :: rest

/-- The first block of `absorb block blocks`. -/
def absorbHead (block : Block) : List Block → Block
  | [] => block
  | next :: _ =>
      if block.IsFree ∧ next.IsFree then block.join next else block

/-- Merge every run of free blocks. -/
def compact : List Block → List Block
  | [] => []
  | block :: rest => absorb block (compact rest)

theorem absorb_eq_cons (block : Block) (blocks : List Block) :
    ∃ rest, absorb block blocks = absorbHead block blocks :: rest := by
  cases blocks with
  | nil => exact ⟨[], rfl⟩
  | cons next rest =>
      by_cases both : block.IsFree ∧ next.IsFree
      · exact ⟨rest, by simp [absorb, absorbHead, both]⟩
      · exact ⟨next :: rest, by simp [absorb, absorbHead, both]⟩

theorem absorbHead_join {block next : Block} (free : block.IsFree)
    (nextFree : next.IsFree) (rest : List Block) :
    absorbHead block (next :: rest) = block.join next := by
  rw [absorbHead, if_pos ⟨free, nextFree⟩]

theorem absorbHead_isFree {block : Block} (free : block.IsFree)
    (blocks : List Block) : (absorbHead block blocks).IsFree := by
  cases blocks with
  | nil => exact free
  | cons next rest =>
      by_cases nextFree : next.IsFree
      · simp [absorbHead, free, nextFree]
      · simp [absorbHead, free, nextFree]

theorem size_le_absorbHead (block : Block) (blocks : List Block) :
    block.size ≤ (absorbHead block blocks).size := by
  cases blocks with
  | nil => exact Nat.le_refl _
  | cons next rest =>
      by_cases both : block.IsFree ∧ next.IsFree
      · simp [absorbHead, both]
      · simp [absorbHead, both]

@[simp] theorem span_absorb (block : Block) (blocks : List Block) :
    span Block.size (absorb block blocks) =
      block.size + span Block.size blocks := by
  cases blocks with
  | nil => simp [absorb]
  | cons next rest =>
      by_cases both : block.IsFree ∧ next.IsFree
      · simp [absorb, both, Nat.add_assoc]
      · simp [absorb, both]

theorem compact_append (front back : List Block) :
    compact (front ++ back) = front.foldr absorb (compact back) := by
  induction front with
  | nil => rfl
  | cons block rest ih => simp [compact, ih]

theorem settled_nil : Settled [] := List.isChain_nil

theorem settled_cons {left right : Block} {rest : List Block} :
    Settled (left :: right :: rest) ↔
      (¬left.IsFree ∨ ¬right.IsFree) ∧ Settled (right :: rest) :=
  List.isChain_cons_cons

/-- Only the seam between two settled lists has to be looked at. -/
theorem settled_append {front back : List Block} :
    Settled (front ++ back) ↔ Settled front ∧ Settled back ∧
      ∀ left ∈ front.getLast?, ∀ right ∈ back.head?,
        ¬left.IsFree ∨ ¬right.IsFree :=
  List.isChain_append

theorem settled_absorb {block : Block} {blocks : List Block}
    (settled : Settled blocks) : Settled (absorb block blocks) := by
  cases blocks with
  | nil => exact List.isChain_singleton _
  | cons next rest =>
      by_cases both : block.IsFree ∧ next.IsFree
      · rw [absorb, if_pos both]
        cases rest with
        | nil => exact List.isChain_singleton _
        | cons third rest =>
            obtain ⟨seam, tail⟩ := settled_cons.mp settled
            rcases seam with used | used
            · exact (used both.2).elim
            · exact settled_cons.mpr ⟨.inr used, tail⟩
      · rw [absorb, if_neg both]
        exact settled_cons.mpr ⟨not_and_or.mp both, settled⟩

theorem settled_compact (blocks : List Block) : Settled (compact blocks) := by
  induction blocks with
  | nil => exact settled_nil
  | cons block rest ih => exact settled_absorb ih

theorem absorb_of_used {block : Block} (used : ¬block.IsFree)
    (blocks : List Block) : absorb block blocks = block :: blocks := by
  cases blocks with
  | nil => rfl
  | cons next rest => simp [absorb, used]

theorem compact_of_settled {blocks : List Block} (settled : Settled blocks) :
    compact blocks = blocks := by
  induction blocks with
  | nil => rfl
  | cons block rest ih =>
      cases rest with
      | nil => rfl
      | cons next rest =>
          obtain ⟨seam, tail⟩ := settled_cons.mp settled
          rw [compact, ih tail, absorb, if_neg (not_and_or.mpr seam)]

/-- Folding a settled list over another one changes only the last block. -/
theorem foldr_absorb_of_settled {front : List Block} {last : Block}
    (settled : Settled (front ++ [last])) (blocks : List Block) :
    (front ++ [last]).foldr absorb blocks = front ++ absorb last blocks := by
  induction front with
  | nil => rfl
  | cons block rest ih =>
      have tail : Settled (rest ++ [last]) := by
        cases rest with
        | nil => exact List.isChain_singleton _
        | cons next rest => exact (settled_cons.mp settled).2
      rw [List.cons_append, List.foldr_cons, ih tail]
      cases rest with
      | nil =>
          have seam := (settled_cons.mp settled).1
          by_cases free : block.IsFree
          · have used : ¬last.IsFree := by
              rcases seam with blockUsed | lastUsed
              · exact (blockUsed free).elim
              · exact lastUsed
            rw [absorb_of_used used]
            simp [absorb, used]
          · simp [absorb_of_used free]
      | cons next rest =>
          have seam := (settled_cons.mp settled).1
          simp [absorb, not_and_or.mpr seam]

theorem Settled.tail {block : Block} {rest : List Block}
    (settled : Settled (block :: rest)) : Settled rest := by
  cases rest with
  | nil => exact settled_nil
  | cons next rest => exact (settled_cons.mp settled).2

/-- Compaction after a release starts at the released block. -/
theorem compact_release {front back : List Block} {block : Block}
    (settled : Settled (front ++ block :: back)) :
    compact (front ++ block.release :: back) =
      front.foldr absorb (absorb block.release back) := by
  have backSettled := (settled_append.mp settled).2.1.tail
  rw [compact_append, compact, compact_of_settled backSettled]

theorem compact_release_concat {init back : List Block}
    {previous block : Block}
    (settled : Settled ((init ++ [previous]) ++ block :: back)) :
    compact ((init ++ [previous]) ++ block.release :: back) =
      init ++ absorb previous (absorb block.release back) := by
  have frontSettled := (settled_append.mp settled).1
  rw [compact_release settled, foldr_absorb_of_settled frontSettled]

/-- Any block may stand in the place of a free one: its neighbours are in
use. -/
theorem Settled.replace_free {block : Block} {back : List Block}
    (settled : Settled (block :: back)) (free : block.IsFree)
    (other : Block) : Settled (other :: back) := by
  cases back with
  | nil => exact List.isChain_singleton _
  | cons next rest =>
      obtain ⟨seam, tail⟩ := settled_cons.mp settled
      rcases seam with used | nextUsed
      · exact (used free).elim
      · exact settled_cons.mpr ⟨.inr nextUsed, tail⟩

theorem settled_carve {front back : List Block} {block : Block}
    (settled : Settled (front ++ block :: back)) (free : block.IsFree)
    (request : Request) (fits : request.needed ≤ block.size) :
    Settled (front ++ (block.carve request fits ++ back)) := by
  obtain ⟨frontSettled, backSettled, _⟩ := settled_append.mp settled
  have carvedSettled : Settled (block.carve request fits ++ back) := by
    by_cases splits : block.Splits request
    · have used : ¬(Block.exact request).IsFree := by
        simp [Block.isFree_iff, Block.exact]
      rw [Block.carve, dif_pos splits]
      exact settled_cons.mpr ⟨.inl used, backSettled.replace_free free _⟩
    · rw [Block.carve, dif_neg splits]
      exact backSettled.replace_free free _
  obtain ⟨tail, carved⟩ := block.carve_head request fits
  have granted : ¬(block.granted request fits).IsFree := by
    simp [Block.isFree_iff, Block.granted_request]
  apply settled_append.mpr
  refine ⟨frontSettled, carvedSettled, ?_⟩
  intro left _ right member
  rw [carved] at member
  cases member
  exact .inr granted

end SystemsLabs.ImplicitHeap

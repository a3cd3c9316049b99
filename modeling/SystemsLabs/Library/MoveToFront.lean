import Mathlib.Data.List.Basic
import Mathlib.Data.List.Dedup

/-!
# Most recently used items

Two views of a bounded store that keeps the items used last.  `moveToFront`
reorders a list when one of its items is used; `recent` is the history of uses,
newest first, reduced to the distinct items that fit.  `recent_cons` is the
step of the store.
-/

namespace SystemsLabs.MoveToFront

section Order

variable {α : Type*} {R : α → α → Prop} {front back : List α} {item : α}

/-- An order survives when the item that moves may precede those it passes. -/
theorem pairwise_front (ordered : (front ++ item :: back).Pairwise R)
    (passes : ∀ other ∈ front, R item other) :
    (item :: (front ++ back)).Pairwise R := by
  obtain ⟨frontOrdered, rest, between⟩ := List.pairwise_append.mp ordered
  obtain ⟨itemFirst, backOrdered⟩ := List.pairwise_cons.mp rest
  apply List.pairwise_cons.mpr
  constructor
  · intro other member
    rcases List.mem_append.mp member with inFront | inBack
    · exact passes other inFront
    · exact itemFirst other inBack
  · apply List.pairwise_append.mpr
    refine ⟨frontOrdered, backOrdered, ?_⟩
    intro left leftMember right rightMember
    exact between left leftMember right (List.mem_cons_of_mem _ rightMember)

theorem perm_front (front back : List α) (item : α) :
    (item :: (front ++ back)).Perm (front ++ item :: back) :=
  List.perm_middle.symm

theorem exists_split_findIdx {property : α → Bool} {items : List α}
    {index : Nat} (found : items.findIdx? property = some index) :
    ∃ front item back, items = front ++ item :: back ∧
      front.length = index ∧ property item = true ∧
      ∀ other ∈ front, property other = false := by
  obtain ⟨small, holds, first⟩ := List.findIdx?_eq_some_iff_getElem.mp found
  refine ⟨items.take index, items[index], items.drop (index + 1), ?_, ?_,
    holds, ?_⟩
  · rw [List.getElem_cons_drop, List.take_append_drop]
  · rw [List.length_take]
    omega
  · intro other member
    obtain ⟨place, inside, rfl⟩ := List.getElem_of_mem member
    rw [List.length_take] at inside
    rw [List.getElem_take]
    exact eq_false_of_ne_true (by simpa using first place (by omega))

end Order

section Recent

variable {α : Type*} [DecidableEq α]

theorem filter_eraseDups (property : α → Bool) (items : List α) :
    (items.filter property).eraseDups = items.eraseDups.filter property := by
  induction size : items.length using Nat.strongRecOn
    generalizing items with
  | ind bound ih =>
      cases items with
      | nil => rfl
      | cons item rest =>
          have smaller : (rest.filter fun other => !other == item).length <
              bound := by
            have atMost := List.length_filter_le
              (fun other => !other == item) rest
            rw [List.length_cons] at size
            omega
          have inner := ih _ smaller _ rfl
          rw [List.eraseDups_cons]
          cases holds : property item with
          | true =>
              rw [List.filter_cons_of_pos holds, List.filter_cons_of_pos holds,
                List.eraseDups_cons, ← inner, List.filter_comm]
          | false =>
              rw [List.filter_cons_of_neg (by simp [holds]),
                List.filter_cons_of_neg (by simp [holds]), ← inner,
                List.filter_filter]
              congr 1
              apply List.filter_congr
              intro other _
              by_cases same : other = item
              · simp [same, holds]
              · simp [same]

theorem nodup_eraseDups (items : List α) : items.eraseDups.Nodup := by
  induction size : items.length using Nat.strongRecOn
    generalizing items with
  | ind bound ih =>
      cases items with
      | nil => exact List.nodup_nil
      | cons item rest =>
          rw [List.eraseDups_cons]
          apply List.nodup_cons.mpr
          constructor
          · simp
          · apply ih _ _ _ rfl
            have atMost := List.length_filter_le
              (fun other => !other == item) rest
            rw [List.length_cons] at size
            omega

theorem eraseDups_cons_erase (item : α) (history : List α) :
    (item :: history).eraseDups = item :: history.eraseDups.erase item := by
  rw [List.eraseDups_cons, filter_eraseDups,
    (nodup_eraseDups history).erase_eq_filter]
  rfl

/-- The distinct items of a history, newest first, that a store of the given
capacity holds. -/
def recent (capacity : Nat) (history : List α) : List α :=
  history.eraseDups.take capacity

/-- Using an item of a bounded store. -/
def touch (capacity : Nat) (item : α) (items : List α) : List α :=
  if item ∈ items then item :: items.erase item
  else (item :: items).take capacity

@[simp] theorem recent_nil (capacity : Nat) :
    recent capacity ([] : List α) = [] := List.take_nil

/-- One use: an item of the store moves to the front, another one displaces
the item used longest ago when the store is full. -/
theorem recent_cons {capacity : Nat} (positive : 0 < capacity) (item : α)
    (history : List α) :
    recent capacity (item :: history) =
      touch capacity item (recent capacity history) := by
  obtain ⟨room, rfl⟩ := Nat.exists_eq_add_of_le' positive
  rw [recent, eraseDups_cons_erase, touch, recent, List.take_succ_cons]
  generalize history.eraseDups = items
  have whole := List.take_append_drop (room + 1) items
  have behind : (items.take (room + 1)).length = room + 1 ∨
      items.drop (room + 1) = [] := by
    rw [List.length_take, List.drop_eq_nil_iff]
    omega
  by_cases member : item ∈ items.take (room + 1)
  · rw [if_pos member]
    congr 1
    conv_lhs => rw [← whole, List.erase_append_left _ member]
    have size := List.length_erase_of_mem member
    rcases behind with full | nothing
    · exact List.take_left' (by omega)
    · rw [nothing, List.append_nil, List.take_of_length_le]
      have short := List.length_take_le (room + 1) items
      omega
  · rw [if_neg member, List.take_succ_cons]
    congr 1
    conv_lhs => rw [← whole, List.erase_append_right _ member]
    rcases behind with full | nothing
    · exact List.take_append_of_le_length (by omega)
    · rw [nothing, List.erase_nil, List.append_nil]

end Recent

end SystemsLabs.MoveToFront

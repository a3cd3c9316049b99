import SystemsLabs.Library.MoveToFront
import Mathlib.Algebra.BigOperators.Group.Finset.Basic
import Mathlib.Algebra.BigOperators.Group.Finset.Piecewise
import Mathlib.Data.Finset.Card

/-!
# Replacement schedules

A store of bounded size serves a sequence of requests.  `Served` allows every
choice of what to give up when an item is loaded, also with knowledge of later
requests; `misses` counts the loads of the store that keeps the items used
last.  `misses_le` bounds one by the other, with the potential `debt`: each
item of the store counts by how recently it was used, unless the other store
holds it too.

A store that is divided into classes keeps the last items of every class;
`classMisses` counts its loads.

Histories are written newest first.
-/

namespace SystemsLabs.Paging

open MoveToFront

variable {α : Type*} [DecidableEq α]

/-- A store of the given capacity has served a history; `cost` is the number of
items it loaded.  It loads what is requested and nothing else, and gives up at
most one item for it. -/
inductive Served (capacity : Nat) : List α → Finset α → Nat → Prop where
  | start {contents : Finset α} : contents.card ≤ capacity →
      Served capacity [] contents 0
  | hit {history : List α} {contents : Finset α} {cost : Nat} {item : α} :
      Served capacity history contents cost →
      item ∈ contents →
      Served capacity (item :: history) contents cost
  | load {history : List α} {contents : Finset α} {cost : Nat}
      {item victim : α} :
      Served capacity history contents cost →
      item ∉ contents →
      (insert item (contents.erase victim)).card ≤ capacity →
      Served capacity (item :: history)
        (insert item (contents.erase victim)) (cost + 1)

/-- How often a request is not among the items used last. -/
def misses (capacity : Nat) : List α → Nat
  | [] => 0
  | item :: history =>
      misses capacity history +
        if item ∈ recent capacity history then 0 else 1

/-- The items that are not in `contents`, each counted with its rank: the first
one with `rank`, every later one with one less. -/
def debt (contents : Finset α) : Nat → List α → Nat
  | _, [] => 0
  | rank, item :: rest =>
      (if item ∈ contents then 0 else rank) + debt contents (rank - 1) rest

section Debt

variable {contents : Finset α}

theorem debt_zero (items : List α) : debt contents 0 items = 0 := by
  induction items with
  | nil => rfl
  | cons item rest ih =>
      rw [debt, ite_self, Nat.zero_sub, ih]

theorem debt_take (items : List α) (rank : Nat) :
    debt contents rank (items.take rank) = debt contents rank items := by
  induction items generalizing rank with
  | nil => rw [List.take_nil]
  | cons item rest ih =>
      cases rank with
      | zero => rw [List.take_zero, debt_zero, debt_zero]
      | succ rank =>
          rw [List.take_succ_cons, debt, debt, Nat.add_sub_cancel, ih]

theorem debt_succ {items : List α} {rank : Nat}
    (fits : items.length ≤ rank + 1) :
    debt contents (rank + 1) items =
      debt contents rank items +
        (items.filter fun item => item ∉ contents).length := by
  induction items generalizing rank with
  | nil => rfl
  | cons item rest ih =>
      cases rank with
      | zero =>
          have last : rest = [] := by
            apply List.eq_nil_of_length_eq_zero
            rw [List.length_cons] at fits
            omega
          subst last
          by_cases member : item ∈ contents
          · simp [debt, member]
          · simp [debt, member]
      | succ rank =>
          have shorter : rest.length ≤ rank + 1 := by
            rw [List.length_cons] at fits
            exact Nat.le_of_succ_le_succ fits
          have step := ih shorter
          by_cases member : item ∈ contents
          · simp [debt, member, step]
          · simp [debt, member, step]
            omega

theorem debt_front_le {item : α} {items : List α} (rank : Nat)
    (shared : item ∈ contents) (member : item ∈ items) :
    debt contents rank (item :: items.erase item) ≤
      debt contents rank items := by
  induction items generalizing rank with
  | nil => cases member
  | cons other rest ih =>
      by_cases same : other = item
      · subst same
        rw [List.erase_cons_head]
      · have inRest : item ∈ rest := by
          rcases List.mem_cons.mp member with equal | inRest
          · exact (same equal.symm).elim
          · exact inRest
        have step := ih (rank - 1) inRest
        have unequal : ¬(other == item) = true := by simpa using same
        rw [List.erase_cons_tail unequal]
        simp only [debt, if_pos shared] at step ⊢
        split
        · omega
        · omega

theorem debt_load_le {item victim : α} {items : List α} (rank : Nat)
    (distinct : items.Nodup) :
    debt (insert item (contents.erase victim)) rank items ≤
      debt contents rank items + rank := by
  have absent : ∀ (others : List α) (low : Nat), victim ∉ others →
      debt (insert item (contents.erase victim)) low others ≤
        debt contents low others := by
    intro others
    induction others with
    | nil => exact fun _ _ => Nat.le_refl 0
    | cons other rest ih =>
        intro low notMember
        obtain ⟨different, notInRest⟩ := List.ne_and_not_mem_of_not_mem_cons
          notMember
        have step := ih (low - 1) notInRest
        have kept : other ∈ contents →
            other ∈ insert item (contents.erase victim) := fun member =>
          Finset.mem_insert_of_mem
            (Finset.mem_erase.mpr ⟨different.symm, member⟩)
        rw [debt, debt]
        by_cases member : other ∈ contents
        · rw [if_pos member, if_pos (kept member)]
          omega
        · rw [if_neg member]
          split
          · omega
          · omega
  induction items generalizing rank with
  | nil => exact Nat.zero_le _
  | cons other rest ih =>
      obtain ⟨notInRest, distinct⟩ := List.nodup_cons.mp distinct
      rw [debt, debt]
      by_cases same : other = victim
      · subst same
        have step := absent rest (rank - 1) notInRest
        split
        · omega
        · omega
      · have step := ih (rank - 1) distinct
        have kept : other ∈ contents →
            other ∈ insert item (contents.erase victim) := fun member =>
          Finset.mem_insert_of_mem (Finset.mem_erase.mpr ⟨same, member⟩)
        by_cases member : other ∈ contents
        · rw [if_pos member, if_pos (kept member)]
          omega
        · rw [if_neg member]
          split
          · omega
          · omega

end Debt

theorem Served.card_le {capacity cost : Nat} {history : List α}
    {contents : Finset α} (served : Served capacity history contents cost) :
    contents.card ≤ capacity := by
  induction served with
  | start small => exact small
  | hit _ _ ih => exact ih
  | load _ _ small _ => exact small

theorem length_recent_le (capacity : Nat) (history : List α) :
    (recent capacity history).length ≤ capacity :=
  List.length_take_le _ _

theorem nodup_recent (capacity : Nat) (history : List α) :
    (recent capacity history).Nodup :=
  (nodup_eraseDups history).sublist (List.take_sublist _ _)

/-- A full store that lacks an item of the other one holds many items that the
other one lacks. -/
theorem outside_le {contents : Finset α} {items : List α} {item : α}
    {ways : Nat} (distinct : items.Nodup) (small : contents.card ≤ ways)
    (held : item ∈ contents) (absent : item ∉ items) :
    items.length + 1 ≤
      ways + (items.filter fun other => other ∉ contents).length := by
  have inside : (items.filter fun other => other ∈ contents).length + 1 ≤
      contents.card := by
    have nodup := (List.nodup_cons.mpr
      ⟨fun member => absent (List.mem_of_mem_filter member),
        distinct.filter fun other => other ∈ contents⟩)
    have subset : (item :: items.filter fun other =>
        other ∈ contents).toFinset ⊆ contents := by
      intro other member
      rcases List.mem_cons.mp (List.mem_toFinset.mp member) with rfl | member
      · exact held
      · simpa using List.of_mem_filter member
    have card := Finset.card_le_card subset
    rw [List.toFinset_card_of_nodup nodup, List.length_cons] at card
    exact card
  have split := List.length_eq_length_filter_add
    (l := items) fun other => decide (other ∈ contents)
  simp only [← decide_not] at split
  omega

/-- The store that keeps the items used last serves an item of the other store:
a miss is paid by the debt, or by the room that it takes. -/
theorem debt_touch {contents : Finset α} {items : List α} {item : α}
    {ways spare : Nat} (positive : 0 < ways) (distinct : items.Nodup)
    (fits : items.length ≤ ways + spare) (small : contents.card ≤ ways)
    (held : item ∈ contents) :
    (spare + 1) * (if item ∈ items then 0 else 1) +
        debt contents (ways + spare) (touch (ways + spare) item items) +
        (spare + 1) * items.length ≤
      debt contents (ways + spare) items +
        (spare + 1) * (touch (ways + spare) item items).length := by
  by_cases member : item ∈ items
  · have front := debt_front_le (ways + spare) held member
    have size : (item :: items.erase item).length = items.length := by
      have erased := List.length_erase_of_mem member
      have nonempty := List.length_pos_of_mem member
      rw [List.length_cons, erased]
      omega
    rw [touch, if_pos member, if_pos member, size]
    omega
  · obtain ⟨rank, total⟩ : ∃ rank, ways + spare = rank + 1 :=
      ⟨ways + spare - 1, by omega⟩
    have after : debt contents (ways + spare)
        (touch (ways + spare) item items) = debt contents rank items := by
      rw [touch, if_neg member, debt_take, debt, if_pos held, Nat.zero_add,
        total, Nat.add_sub_cancel]
    have rises := @debt_succ _ _ contents items rank (total ▸ fits)
    rw [if_neg member, after, Nat.mul_one, total, rises]
    have outside := outside_le distinct small held member
    rw [touch, if_neg member, List.length_take, List.length_cons]
    by_cases full : items.length = rank + 1
    · -- the store is full, and every item left behind pays one
      rw [full, Nat.min_eq_left (by omega)]
      omega
    · have room : items.length + 1 ≤ rank + 1 := by omega
      rw [Nat.min_eq_right room, Nat.mul_succ]
      omega

/-- What the misses have cost so far, with the debt that is left. -/
theorem Served.invariant {ways spare cost : Nat} {history : List α}
    {contents : Finset α} (served : Served ways history contents cost) :
    (spare + 1) * misses (ways + spare) history +
        debt contents (ways + spare) (recent (ways + spare) history) ≤
      (ways + spare) * cost +
        (spare + 1) * (recent (ways + spare) history).length := by
  induction served with
  | start _ => simp [misses, debt]
  | @hit history contents cost item before member ih =>
      have positive : 0 < ways :=
        lt_of_lt_of_le (Finset.card_pos.mpr ⟨item, member⟩) before.card_le
      have moved := @debt_touch _ _ contents (recent (ways + spare) history)
        item ways spare positive (nodup_recent _ _) (length_recent_le _ _)
        before.card_le member
      rw [misses, recent_cons (by omega), Nat.mul_add]
      omega
  | @load history contents cost item victim before absent small ih =>
      have member : item ∈ insert item (contents.erase victim) :=
        Finset.mem_insert_self _ _
      have positive : 0 < ways :=
        lt_of_lt_of_le (Finset.card_pos.mpr ⟨item, member⟩) small
      have moved := @debt_touch _ _ (insert item (contents.erase victim))
        (recent (ways + spare) history) item ways spare positive
        (nodup_recent _ _) (length_recent_le _ _) small member
      have loaded := @debt_load_le _ _ contents item victim
        (recent (ways + spare) history) (ways + spare) (nodup_recent _ _)
      rw [misses, recent_cons (by omega), Nat.mul_add, Nat.mul_succ]
      omega

/-- The store that keeps the items used last, with room for `ways + spare` of
them, against any other one with room for `ways`. -/
theorem misses_le {ways spare cost : Nat} {history : List α}
    {contents : Finset α} (served : Served ways history contents cost) :
    (spare + 1) * misses (ways + spare) history ≤
      (ways + spare) * cost + (spare + 1) * (ways + spare) := by
  have invariant := @Served.invariant _ _ ways spare _ _ _ served
  have room := Nat.mul_le_mul_left (spare + 1)
    (length_recent_le (ways + spare) history)
  omega

/-- An item is kept as long as few other items were used since. -/
theorem mem_recent_iff {ways : Nat} {newer older : List α} {item : α}
    (unused : item ∉ newer) :
    item ∈ recent ways (newer ++ item :: older) ↔
      newer.toFinset.card < ways := by
  have size : newer.eraseDups.length = newer.toFinset.card := by
    rw [← List.toFinset_card_of_nodup (nodup_eraseDups newer)]
    congr 1
    ext other
    rw [List.mem_toFinset, List.mem_toFinset, List.mem_eraseDups]
  have outside : (item :: older).removeAll newer =
      item :: older.removeAll newer := by
    simp [List.cons_removeAll, unused]
  have front : item ∉ newer.eraseDups := fun member =>
    unused (List.mem_eraseDups.mp member)
  rw [recent, List.eraseDups_append, outside, List.eraseDups_cons,
    List.take_append, ← size, List.mem_append]
  constructor
  · rintro (inFront | behind)
    · exact (front (List.mem_of_mem_take inFront)).elim
    · by_contra full
      rw [Nat.sub_eq_zero_of_le (Nat.le_of_not_lt full)] at behind
      cases behind
  · intro room
    obtain ⟨rest, same⟩ : ∃ rest, ways - newer.eraseDups.length = rest + 1 :=
      ⟨ways - newer.eraseDups.length - 1, by omega⟩
    rw [same, List.take_succ_cons]
    exact .inr List.mem_cons_self

theorem mem_of_mem_recent {ways : Nat} {history : List α} {item : α}
    (kept : item ∈ recent ways history) : item ∈ history :=
  List.mem_eraseDups.mp (List.mem_of_mem_take kept)

/-- Every request made twice in a row. -/
def doubled (history : List α) : List α :=
  history.flatMap fun item => [item, item]

omit [DecidableEq α] in
@[simp] theorem doubled_nil : doubled ([] : List α) = [] := rfl

omit [DecidableEq α] in
@[simp] theorem doubled_cons (item : α) (history : List α) :
    doubled (item :: history) = item :: item :: doubled history := rfl

omit [DecidableEq α] in
@[simp] theorem doubled_append (newer older : List α) :
    doubled (newer ++ older) = doubled newer ++ doubled older :=
  List.flatMap_append

theorem eraseDups_doubled (history : List α) :
    (doubled history).eraseDups = history.eraseDups := by
  induction history with
  | nil => rfl
  | cons item history ih =>
      rw [doubled_cons, List.eraseDups_cons,
        List.filter_cons_of_neg (by simp), filter_eraseDups, ih,
        ← filter_eraseDups, ← List.eraseDups_cons]

theorem misses_doubled {ways : Nat} (positive : 0 < ways)
    (history : List α) : misses ways (doubled history) = misses ways history := by
  induction history with
  | nil => rfl
  | cons item history ih =>
      have front : item ∈ recent ways (item :: doubled history) := by
        have kept := @mem_recent_iff _ _ ways [] (doubled history) item
          List.not_mem_nil
        exact kept.mpr positive
      have same : recent ways (doubled history) = recent ways history := by
        rw [recent, recent, eraseDups_doubled]
      rw [doubled_cons, misses, if_pos front, Nat.add_zero, misses, misses, ih,
        same]

section Classes

variable {κ : Type*} [DecidableEq κ]

/-- The item is among those of its class that were used last. -/
def Stored (ways : Nat) (classOf : α → κ) (history : List α) (item : α) :
    Prop :=
  item ∈ recent ways (history.filter fun other =>
    classOf other = classOf item)

instance (ways : Nat) (classOf : α → κ) (history : List α) (item : α) :
    Decidable (Stored ways classOf history item) :=
  inferInstanceAs (Decidable (_ ∈ _))

/-- The misses of a store with `ways` places for the items of every class. -/
def classMisses (ways : Nat) (classOf : α → κ) : List α → Nat
  | [] => 0
  | item :: history =>
      classMisses ways classOf history +
        if Stored ways classOf history item then 0 else 1

variable {ways : Nat} {classOf : α → κ} {history : List α} {item : α}

theorem stored_iff {newer older : List α} (unused : item ∉ newer) :
    Stored ways classOf (newer ++ item :: older) item ↔
      (newer.filter fun other => classOf other = classOf item).toFinset.card <
        ways := by
  have here : (item :: older).filter (fun other =>
      decide (classOf other = classOf item)) =
        item :: older.filter fun other => classOf other = classOf item :=
    List.filter_cons_of_pos (decide_eq_true rfl)
  rw [Stored, List.filter_append, here]
  exact mem_recent_iff fun member => unused (List.mem_of_mem_filter member)

theorem not_stored_of_new (unused : item ∉ history) :
    ¬Stored ways classOf history item := fun stored =>
  unused (List.mem_of_mem_filter (mem_of_mem_recent stored))

theorem classMisses_le_length :
    classMisses ways classOf history ≤ history.length := by
  induction history with
  | nil => exact Nat.le_refl 0
  | cons item history ih =>
      rw [classMisses, List.length_cons]
      apply Nat.add_le_add ih
      split
      · exact Nat.zero_le 1
      · exact Nat.le_refl 1

/-- The classes do not see each other. -/
theorem classMisses_eq_sum {classes : Finset κ}
    (covered : ∀ item ∈ history, classOf item ∈ classes) :
    classMisses ways classOf history =
      ∑ here ∈ classes,
        misses ways (history.filter fun item => classOf item = here) := by
  induction history with
  | nil => simp [classMisses, misses]
  | cons item history ih =>
      have step := ih fun other member =>
        covered other (List.mem_cons_of_mem _ member)
      have inside := covered item List.mem_cons_self
      have each : ∀ here ∈ classes,
          misses ways ((item :: history).filter fun other =>
              classOf other = here) =
            misses ways (history.filter fun other => classOf other = here) +
              if here = classOf item then
                if Stored ways classOf history item then 0 else 1
              else 0 := by
        intro here _
        by_cases same : here = classOf item
        · subst same
          have front : (item :: history).filter (fun other =>
              decide (classOf other = classOf item)) =
                item :: history.filter fun other =>
                  classOf other = classOf item :=
            List.filter_cons_of_pos (decide_eq_true rfl)
          rw [front, if_pos rfl]
          rfl
        · have other : ¬classOf item = here := fun equal => same equal.symm
          rw [List.filter_cons_of_neg (by simpa using other), if_neg same,
            Nat.add_zero]
      rw [classMisses, step, Finset.sum_congr rfl each, Finset.sum_add_distrib,
        Finset.sum_ite_eq' classes (classOf item), if_pos inside]

end Classes

section Names

variable {β κ : Type*} [DecidableEq β] [DecidableEq κ] {name : β → α}

theorem eraseDups_map {items : List β}
    (injective : ∀ left ∈ items, ∀ right ∈ items,
      name left = name right → left = right) :
    (items.map name).eraseDups = items.eraseDups.map name := by
  induction size : items.length using Nat.strongRecOn
    generalizing items with
  | ind bound ih =>
      cases items with
      | nil => rfl
      | cons item rest =>
          have same : (rest.map name).filter (fun other => !other == name item) =
              (rest.filter fun other => !other == item).map name := by
            rw [List.filter_map]
            congr 1
            apply List.filter_congr
            intro other member
            have equal : name other = name item ↔ other = item :=
              ⟨injective other (List.mem_cons_of_mem _ member) item
                List.mem_cons_self, congrArg name⟩
            simp [equal]
          have smaller : (rest.filter fun other => !other == item).length <
              bound := by
            have atMost := List.length_filter_le
              (fun other => !other == item) rest
            rw [List.length_cons] at size
            omega
          have inner := @ih _ smaller (rest.filter fun other => !other == item)
            (fun left leftMember right rightMember =>
              injective left (List.mem_cons_of_mem _
                  (List.mem_of_mem_filter leftMember)) right
                (List.mem_cons_of_mem _ (List.mem_of_mem_filter rightMember)))
            rfl
          rw [List.map_cons, List.eraseDups_cons, same, inner,
            List.eraseDups_cons, List.map_cons]

theorem mem_recent_map {ways : Nat} {history : List β} {item : β}
    (injective : ∀ other ∈ item :: history, ∀ another ∈ item :: history,
      name other = name another → other = another) :
    name item ∈ recent ways (history.map name) ↔
      item ∈ recent ways history := by
  have inner : ∀ left ∈ history, ∀ right ∈ history,
      name left = name right → left = right :=
    fun left leftMember right rightMember =>
      injective left (List.mem_cons_of_mem _ leftMember) right
        (List.mem_cons_of_mem _ rightMember)
  rw [recent, eraseDups_map inner, ← List.map_take, List.mem_map]
  constructor
  · rintro ⟨other, member, same⟩
    have inHistory := List.mem_eraseDups.mp (List.mem_of_mem_take member)
    have equal := injective other (List.mem_cons_of_mem _ inHistory) item
      List.mem_cons_self same
    exact equal ▸ member
  · intro member
    exact ⟨item, member, rfl⟩

theorem misses_map {ways : Nat} {history : List β}
    (injective : ∀ left ∈ history, ∀ right ∈ history,
      name left = name right → left = right) :
    misses ways (history.map name) = misses ways history := by
  induction history with
  | nil => rfl
  | cons item history ih =>
      have step := ih fun left leftMember right rightMember =>
        injective left (List.mem_cons_of_mem _ leftMember) right
          (List.mem_cons_of_mem _ rightMember)
      rw [List.map_cons, misses, misses, step]
      simp only [mem_recent_map injective]

theorem classMisses_map {ways : Nat} {classOf : α → κ} {history : List β}
    (injective : ∀ left ∈ history, ∀ right ∈ history,
      name left = name right → left = right) :
    classMisses ways classOf (history.map name) =
      classMisses ways (fun item => classOf (name item)) history := by
  induction history with
  | nil => rfl
  | cons item history ih =>
      have step := ih fun left leftMember right rightMember =>
        injective left (List.mem_cons_of_mem _ leftMember) right
          (List.mem_cons_of_mem _ rightMember)
      have members : ∀ other ∈ item :: history.filter (fun other =>
          decide (classOf (name other) = classOf (name item))),
            other ∈ item :: history := by
        intro other member
        rcases List.mem_cons.mp member with rfl | inHistory
        · exact List.mem_cons_self
        · exact List.mem_cons_of_mem _ (List.mem_of_mem_filter inHistory)
      have stored : Stored ways classOf (history.map name) (name item) ↔
          Stored ways (fun item => classOf (name item)) history item := by
        rw [Stored, Stored, List.filter_map]
        exact mem_recent_map fun left leftMember right rightMember =>
          injective left (members left leftMember) right
            (members right rightMember)
      rw [List.map_cons, classMisses, classMisses, step]
      simp only [stored]

end Names

end SystemsLabs.Paging

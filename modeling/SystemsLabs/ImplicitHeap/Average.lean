import SystemsLabs.ImplicitHeap.Undo

/-!
# The average size of the free blocks

The loop of `heap_find_avg_free_block_size` is a fold over the blocks that a
walk shows.  On every reachable heap its sums are exact; the division traps
when no block is free, which a request that takes the last free block whole
brings about.
-/

namespace SystemsLabs.ImplicitHeap

open Tiling Transition

/-- The sizes of the free blocks in a list of blocks. -/
def freeSizes (rows : List (Nat × Nat × Bool)) : List Nat :=
  (rows.filter fun row => !row.2.2).map fun row => row.2.1

theorem freeSizes_cons (row : Nat × Nat × Bool)
    (rows : List (Nat × Nat × Bool)) :
    freeSizes (row :: rows) =
      if row.2.2 then freeSizes rows else row.2.1 :: freeSizes rows := by
  cases used : row.2.2 with
  | true => simp [freeSizes, used]
  | false => simp [freeSizes, used]

/-- The free blocks of a layout cover no more than the layout does. -/
theorem freeSizes_rows (blocks : List Block) :
    ∀ address, (freeSizes (rows address blocks)).sum ≤ span Block.size blocks ∧
      (freeSizes (rows address blocks)).length ≤ span Block.size blocks := by
  induction blocks with
  | nil =>
      intro address
      exact ⟨Nat.le_refl _, Nat.le_refl _⟩
  | cons block rest ih =>
      intro address
      obtain ⟨sum, count⟩ := ih (address + block.size)
      have positive := block.size_pos
      have split : rows address (block :: rest) =
          (address, block.size, !block.IsFree) ::
            rows (address + block.size) rest := rfl
      rw [split, freeSizes_cons]
      by_cases free : block.IsFree
      · simp only [free, decide_true, Bool.not_true, Bool.false_eq_true,
          if_false, List.sum_cons, List.length_cons, span_cons]
        omega
      · simp only [free, decide_false, Bool.not_false, if_true, span_cons]
        omega

theorem freeSizes_eq_nil_iff (rows : List (Nat × Nat × Bool)) :
    freeSizes rows = [] ↔ ¬∃ row ∈ rows, row.2.2 = false := by
  simp [freeSizes]

/-- The loop adds up what the walk shows, as long as the sums are `int`
values. -/
theorem averageLoop_of_blocksFrom {heap : Heap} {memory : Memory} {fuel : Nat} :
    ∀ {current size count : Nat} {found : List (Nat × Nat × Bool)},
      blocksFrom heap memory fuel current = some found →
      size + (freeSizes found).sum < 2 ^ 31 →
      count + (freeSizes found).length < 2 ^ 31 →
      averageLoop heap memory fuel current size count =
        some (((size + (freeSizes found).sum : Nat) : Int),
          ((count + (freeSizes found).length : Nat) : Int)) := by
  induction fuel with
  | zero =>
      intro current size count found shown
      cases shown
  | succ fuel ih =>
      intro current size count found shown
      rw [blocksFrom] at shown
      rw [averageLoop]
      split at shown
      · rename_i within
        obtain ⟨rest, onward, same⟩ := Option.bind_eq_some_iff.mp shown
        cases same
        rw [if_pos within, freeSizes_cons]
        by_cases free : blockIsInUse memory current = 0
        · simp only [free, ne_eq, not_true_eq_false, decide_false,
            Bool.false_eq_true, if_false, List.sum_cons, List.length_cons]
          intro sumSmall countSmall
          have total : toInt ((size : Int) + getBlockSize memory current) =
              ((size + getBlockSize memory current : Nat) : Int) :=
            toInt_of_nat _ (by omega) (by omega)
          have number : toInt ((count : Int) + 1) = ((count + 1 : Nat) : Int) :=
            toInt_of_nat _ (by omega) (by omega)
          rw [if_pos trivial, total, number, ih onward (by omega) (by omega),
            Nat.add_assoc size, Nat.add_assoc count, Nat.add_comm 1]
        · simp only [free, ne_eq, not_false_eq_true, decide_true, if_true]
          intro sumSmall countSmall
          exact ih onward sumSmall countSmall
      · rename_i outside
        cases shown
        rw [if_neg outside]
        intro _ _
        simp [freeSizes]

theorem Tiles.average {heap : Heap} {memory : Memory} {blocks : List Block}
    (tiles : Tiles heap memory blocks) {fuel : Nat}
    (enough : blocks.length < fuel) :
    heapFindAvgFreeBlockSize fuel heap memory =
      some (if freeSizes (rows heap.start blocks) = [] then .traps
        else .returns ((freeSizes (rows heap.start blocks)).sum /
          (freeSizes (rows heap.start blocks)).length)) := by
  have shown := tiles.blockList enough
  obtain ⟨sum, count⟩ := freeSizes_rows blocks heap.start
  have small := tiles.small
  have summed := @averageLoop_of_blocksFrom heap memory fuel heap.start 0 0
    (rows heap.start blocks) shown (by omega) (by omega)
  rw [Nat.zero_add, Nat.zero_add] at summed
  rw [heapFindAvgFreeBlockSize]
  generalize freeSizes (rows heap.start blocks) = sizes at *
  change ((averageLoop heap memory fuel heap.start (0 : Nat) (0 : Nat)).bind
    _) = _
  rw [summed, Option.bind_some]
  cases sizes with
  | nil => rfl
  | cons size rest =>
      dsimp only
      have some_block : ((size :: rest).length : Int) ≠ 0 := by
        simp only [List.length_cons]
        omega
      have quotient : ((size :: rest).sum : Int).tdiv (size :: rest).length =
          (((size :: rest).sum / (size :: rest).length : Nat) : Int) := by
        rw [Int.tdiv_eq_ediv_of_nonneg (Int.natCast_nonneg _)]
        rfl
      have bounded : (size :: rest).sum / (size :: rest).length < 2 ^ 32 :=
        Nat.lt_of_le_of_lt (Nat.div_le_self _ _) (by omega)
      rw [if_neg some_block, quotient, if_neg (List.cons_ne_nil _ _),
        toUint32_of_nat _ rfl bounded]
      rfl

/-- In every session on a first-fit or best-fit heap the average is right
exactly when some block is free. -/
theorem heapFindAvgFreeBlockSize_correct_iff {base : Nat} {size : Int}
    {searchAlg : SearchAlg} {initial memory : Memory} {heap : Heap}
    (created : Created base size searchAlg initial heap memory)
    (policy : searchAlg ≠ .nextFit) {actions : List Action}
    {session : Session}
    (run : Run Step { heap := heap, memory := memory, live := [] } actions
      session) :
    ∃ blocks enough,
      (∀ rounds, enough ≤ rounds →
        blockList rounds session.heap session.memory = some blocks) ∧
      ((∀ rounds, enough ≤ rounds →
        heapFindAvgFreeBlockSize rounds session.heap session.memory =
          some (.returns
            ((freeSizes blocks).sum / (freeSizes blocks).length))) ↔
        ∃ row ∈ blocks, row.2.2 = false) := by
  obtain ⟨layout, consistent⟩ := created.sound policy run
  have tiles := consistent.represents.toTiles
  refine ⟨rows session.heap.start layout, layout.length + 1, ?_, ?_⟩
  · intro rounds enough
    exact tiles.blockList enough
  · constructor
    · intro correct
      by_contra noneFree
      have returned := correct (layout.length + 1) (Nat.le_refl _)
      rw [tiles.average (Nat.lt_succ_self _),
        if_pos ((freeSizes_eq_nil_iff _).mpr noneFree)] at returned
      cases returned
    · intro someFree rounds enough
      rw [tiles.average enough, if_neg]
      intro empty
      exact (freeSizes_eq_nil_iff _).mp empty someFree

theorem smallSession_average :
    ∃ session blocks enough,
      Run Step (smallSession .firstFit fun _ => 255) [.malloc 8] session ∧
      (∀ rounds, enough ≤ rounds →
        blockList rounds session.heap session.memory = some blocks) ∧
      ((∀ rounds, enough ≤ rounds →
        heapFindAvgFreeBlockSize rounds session.heap session.memory =
          some (.returns
            ((freeSizes blocks).sum / (freeSizes blocks).length))) ↔
        ∃ row ∈ blocks, row.2.2 = false) := by
  have served : (replay (Session.perform 4)
      (smallSession .firstFit fun _ => 255) [.malloc 8]).map Session.live =
        some [(4136, 8)] := by
    decide +kernel
  obtain ⟨session, replayed, _⟩ := Option.map_eq_some_iff.mp served
  have run := Run.of_replay step_of_perform replayed
  obtain ⟨blocks, enough, average⟩ := heapFindAvgFreeBlockSize_correct_iff
    (smallHeap_created .firstFit fun _ => 255) SearchAlg.noConfusion run
  exact ⟨session, blocks, enough, run, average⟩

/-- A request for all 56 bytes of the one free block: the next call of
`heap_find_avg_free_block_size` divides by zero. -/
theorem smallSession_divides_by_zero :
    ∃ session,
      Run Step (smallSession .firstFit fun _ => 255) [.malloc 56] session ∧
      blockList 4 session.heap session.memory = some [(4132, 64, true)] ∧
      heapFindAvgFreeBlockSize 4 session.heap session.memory =
        some .traps := by
  have served : (replay (Session.perform 4)
      (smallSession .firstFit fun _ => 255) [.malloc 56]).map (fun session =>
        (blockList 4 session.heap session.memory,
          heapFindAvgFreeBlockSize 4 session.heap session.memory)) =
      some (some [(4132, 64, true)], some .traps) := by
    decide +kernel
  obtain ⟨session, replayed, shown⟩ := Option.map_eq_some_iff.mp served
  obtain ⟨blocks, average⟩ := Prod.mk.inj shown
  exact ⟨session, Run.of_replay step_of_perform replayed, blocks, average⟩

end SystemsLabs.ImplicitHeap

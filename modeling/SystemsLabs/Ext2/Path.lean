import SystemsLabs.Ext2.Directory

/-!
# Paths

`resolve` follows the components of a path from the root directory, given the
directories and the inodes of a volume.  `findFileFromPath` starts at whatever
inode the caller left in `dest_inode`, and never looks up the last component.
-/

namespace SystemsLabs.Ext2

/-- The path with the given components. -/
def render : List (List UInt8) → List UInt8
  | [] => [slash]
  | components => components.flatMap fun component => slash :: component

/-- A component that fits the array for names. -/
structure ValidName (name : List UInt8) : Prop where
  nonempty : name ≠ []
  length_le : name.length ≤ 255
  no_slash : slash ∉ name
  no_nul : 0 ∉ name

section Names

/-- The array for names after some bytes were stored from `i` on. -/
def fill (name : Memory) (i : Nat) : List UInt8 → Memory
  | [] => name
  | byte :: rest => fill ((name.write i byte).write (i + 1) 0) (i + 1) rest

theorem fill_before (bytes : List UInt8) :
    ∀ name i j, j < i → fill name i bytes j = name j := by
  induction bytes with
  | nil =>
      intro name i j _
      rfl
  | cons byte rest ih =>
      intro name i j before
      rw [fill, ih _ _ _ (by omega), Memory.write, Memory.write,
        if_neg (by omega), if_neg (by omega)]

theorem fill_inside (bytes : List UInt8) :
    ∀ name i j (inside : j < bytes.length),
      fill name i bytes (i + j) = bytes[j] := by
  induction bytes with
  | nil =>
      intro name i j inside
      cases inside
  | cons byte rest ih =>
      intro name i j inside
      cases j with
      | zero =>
          rw [Nat.add_zero, fill, fill_before rest _ _ _ (Nat.lt_succ_self i)]
          simp [Memory.write]
      | succ j =>
          have place : i + (j + 1) = i + 1 + j := by omega
          rw [fill, place, ih _ _ _ (Nat.lt_of_succ_lt_succ inside)]
          rfl

theorem fill_end (bytes : List UInt8) (nonempty : bytes ≠ []) :
    ∀ name i, fill name i bytes (i + bytes.length) = 0 := by
  induction bytes with
  | nil => exact absurd rfl nonempty
  | cons byte rest ih =>
      intro name i
      cases rest with
      | nil => simp [fill, Memory.write]
      | cons next rest =>
          have last := ih (List.cons_ne_nil _ _)
            ((name.write i byte).write (i + 1) 0) (i + 1)
          rw [fill]
          rwa [Nat.add_assoc, Nat.add_comm 1] at last

theorem cString_eq {memory : Memory} {text : List UInt8}
    (short : text.length ≤ 255) (no_nul : 0 ∉ text)
    (same : ∀ j (inside : j < text.length), memory j = text[j])
    (nul : memory text.length = 0) : cString memory = text := by
  obtain ⟨rest, total⟩ :=
    Nat.exists_eq_add_of_le (show text.length + 1 ≤ 256 by omega)
  have front : (List.range text.length).map memory = text := by
    apply List.ext_getElem
    · simp
    · intro j inside _
      simpa using same j (by simpa using inside)
  have split : (List.range 256).map memory =
      text ++ (0 :: (List.range rest).map
        fun index => memory (text.length + 1 + index)) := by
    rw [total, List.range_add, List.range_succ]
    simp [front, nul, Function.comp_def]
  rw [cString, split, List.takeWhile_append_of_pos]
  · simp
  · intro byte member
    have different : byte ≠ 0 := fun zero => no_nul (zero ▸ member)
    simpa using different

theorem cString_fill {text : List UInt8} (valid : ValidName text)
    (name : Memory) : cString (fill name 0 text) = text := by
  apply cString_eq valid.length_le valid.no_nul
  · intro j inside
    have byte := fill_inside text name 0 j inside
    rwa [Nat.zero_add] at byte
  · have byte := fill_end text valid.nonempty name 0
    rwa [Nat.zero_add] at byte

end Names

section Loop

variable (find : Memory → List UInt8 → Nat → Nat × Nat)
  (read : Nat → Memory → Int × Memory)

theorem pathLoop_fill (rest bytes : List UInt8) :
    ∀ name i destInode buffer, slash ∉ bytes → i + bytes.length < 256 →
      pathLoop find read (bytes ++ rest) name i destInode buffer =
        pathLoop find read rest (fill name i bytes) (i + bytes.length)
          destInode buffer := by
  induction bytes with
  | nil =>
      intro name i destInode buffer _ _
      rfl
  | cons byte bytes ih =>
      intro name i destInode buffer no_slash short
      rw [List.mem_cons, not_or] at no_slash
      rw [List.length_cons] at short
      rw [List.cons_append, pathLoop, if_neg (Ne.symm no_slash.1),
        if_pos (by omega), ih _ _ _ _ no_slash.2 (by omega), fill,
        List.length_cons, Nat.add_assoc, Nat.add_comm 1]

theorem pathLoop_last {last : List UInt8} (valid : ValidName last)
    (name destInode : Memory) (buffer : Nat) :
    pathLoop find read last name 0 destInode buffer =
      some (buffer, destInode) := by
  have short := valid.length_le
  have stored := pathLoop_fill find read [] last name 0 destInode buffer
    valid.no_slash (by omega)
  rw [List.append_nil] at stored
  rw [stored, pathLoop]

theorem pathLoop_component {component : List UInt8}
    (valid : ValidName component) (rest : List UInt8)
    (name destInode : Memory) (buffer : Nat) :
    ∃ name', pathLoop find read (component ++ slash :: rest) name 0 destInode
        buffer =
      let (inode, buffer) := find destInode component buffer
      if toInt inode ≤ 0 then some (0, destInode)
      else
        pathLoop find read rest name' 0 (read inode destInode).2 buffer := by
  have short := valid.length_le
  refine ⟨fill name 0 component, ?_⟩
  rw [pathLoop_fill find read _ component name 0 destInode buffer
    valid.no_slash (by omega), pathLoop, if_pos rfl, cString_fill valid]

end Loop

/-- The same content of an `inode_t`. -/
def SameInode (first second : Memory) : Prop :=
  ∀ index < sizeofInode, first index = second index

/-- What `findFileInDirectory` promises, where `lookup` gives the inode number
of a name in the directory with a given inode. -/
structure FindContract (find : Memory → List UInt8 → Nat → Nat × Nat)
    (lookup : Memory → List UInt8 → Option Nat) : Prop where
  number : ∀ {inode name inodeNo}, lookup inode name = some inodeNo →
    0 < inodeNo ∧ inodeNo < 2 ^ 32
  directory : ∀ {inode} name, iMode inode >>> 12 ≠ 4 →
    lookup inode name = none
  content : ∀ {first second} name, SameInode first second →
    lookup first name = lookup second name
  found : ∀ {inode name inodeNo} buffer, lookup inode name = some inodeNo →
    find inode name buffer = (inodeNo, inodeNo)
  missing : ∀ {inode name} buffer, lookup inode name = none →
    (find inode name buffer).1 = 0

section Correct

variable (super : Memory) (find : Memory → List UInt8 → Nat → Nat × Nat)
  (read : Nat → Memory → Int × Memory)
  (lookup : Memory → List UInt8 → Option Nat)
  (contents : Nat → Option Memory)

/-- Each component is looked up in the directory the ones before it lead to. -/
def resolve : Nat → List (List UInt8) → Option Nat
  | inodeNo, [] => some inodeNo
  | inodeNo, component :: rest => do
      let inode ← contents inodeNo
      let next ← lookup inode component
      resolve next rest

/-- The number and the content of the inode behind the path, from the root
directory on. -/
def target (components : List (List UInt8)) : Option (Nat × Memory) := do
  let inodeNo ← resolve lookup contents 2 components
  let inode ← contents inodeNo
  return (inodeNo, inode)

/-- The result for a path, whatever the memory held before. -/
def PathCorrect (path : List UInt8) (expected : Option (Nat × Memory)) :
    Prop :=
  ∀ inode buffer name destInode, ∃ result final,
    findFileFromPath super find read inode buffer name path destInode =
        some (result, final) ∧
      match expected with
      | none => result = 0
      | some (inodeNo, content) => result = inodeNo ∧ SameInode final content

/-- From an inode all components are found, with numbers that are positive as
an `int`. -/
def Follows : Memory → List (List UInt8) → Prop
  | _, [] => True
  | inode, component :: rest =>
      ∃ inodeNo, lookup inode component = some inodeNo ∧ inodeNo < 2 ^ 31 ∧
        Follows (read inodeNo inode).2 rest

/-- There are two components at least, they lead nowhere, and all but the last
one lead nowhere from any inode. -/
def PathSound (components : List (List UInt8)) : Prop :=
  2 ≤ components.length ∧ target lookup contents components = none ∧
    ∀ inode, ¬ Follows read lookup inode components.dropLast

variable {super find read lookup contents}

theorem pathLoop_found (contract : FindContract find lookup)
    {component : List UInt8} (valid : ValidName component)
    {destInode : Memory} {inodeNo : Nat}
    (found : lookup destInode component = some inodeNo)
    (short : inodeNo < 2 ^ 31) (rest : List UInt8) (name : Memory)
    (buffer : Nat) :
    ∃ name', pathLoop find read (component ++ slash :: rest) name 0 destInode
        buffer =
      pathLoop find read rest name' 0 (read inodeNo destInode).2 inodeNo := by
  obtain ⟨name', step⟩ :=
    pathLoop_component find read valid rest name destInode buffer
  have value : toInt inodeNo = inodeNo := toInt_of_nat _ rfl short
  have positive := (contract.number found).1
  refine ⟨name', ?_⟩
  rw [step, contract.found buffer found]
  simp only [value]
  rw [if_neg (by omega)]

theorem pathLoop_missing (contract : FindContract find lookup)
    {component : List UInt8} (valid : ValidName component)
    {destInode : Memory}
    (missing : ∀ inodeNo, lookup destInode component = some inodeNo →
      2 ^ 31 ≤ inodeNo)
    (rest : List UInt8) (name : Memory) (buffer : Nat) :
    pathLoop find read (component ++ slash :: rest) name 0 destInode buffer =
      some (0, destInode) := by
  obtain ⟨name', step⟩ :=
    pathLoop_component find read valid rest name destInode buffer
  have negative : toInt (find destInode component buffer).1 ≤ 0 := by
    cases result : lookup destInode component with
    | none =>
        rw [contract.missing buffer result]
        decide
    | some inodeNo =>
        rw [contract.found buffer result]
        by_contra positive
        have short := toInt_positive inodeNo (contract.number result).2
          (Int.not_le.mp positive)
        exact absurd short.2 (Nat.not_lt.mpr (missing inodeNo result))
  rw [step]
  simp only [if_pos negative]

/-- The loop returns a number where all but the last component are found, and
zero where one of them is not. -/
theorem pathLoop_result (contract : FindContract find lookup)
    (rest : List (List UInt8)) :
    ∀ component name destInode buffer,
      (∀ name ∈ component :: rest, ValidName name) →
      ∃ result final,
        pathLoop find read
            (component ++ rest.flatMap fun component => slash :: component)
            name 0 destInode buffer = some (result, final) ∧
          (Follows read lookup destInode (component :: rest).dropLast →
            buffer ≠ 0 → result ≠ 0) ∧
          (¬ Follows read lookup destInode (component :: rest).dropLast →
            result = 0) := by
  induction rest with
  | nil =>
      intro component name destInode buffer valid
      refine ⟨buffer, destInode, ?_, fun _ more => more, ?_⟩
      · rw [List.flatMap_nil, List.append_nil]
        exact pathLoop_last find read (valid _ List.mem_cons_self) _ _ _
      · intro stuck
        exact absurd trivial stuck
  | cons next rest ih =>
      intro component name destInode buffer valid
      have first := valid _ List.mem_cons_self
      have others : ∀ name ∈ next :: rest, ValidName name :=
        fun name member => valid name (List.mem_cons_of_mem _ member)
      rw [List.flatMap_cons, List.cons_append, List.dropLast_cons_cons]
      by_cases entered : ∃ inodeNo,
          lookup destInode component = some inodeNo ∧ inodeNo < 2 ^ 31
      · obtain ⟨inodeNo, found, short⟩ := entered
        obtain ⟨name', step⟩ := pathLoop_found contract first found short
          (next ++ rest.flatMap fun component => slash :: component)
          name buffer
        obtain ⟨result, final, run, along, astray⟩ :=
          ih next name' (read inodeNo destInode).2 inodeNo others
        refine ⟨result, final, step.trans run, ?_, ?_⟩
        · rintro ⟨other, same, _, onward⟩ _
          obtain rfl := Option.some.inj (found.symm.trans same)
          exact along onward (Nat.ne_of_gt (contract.number found).1)
        · intro stuck
          apply astray
          intro onward
          exact stuck ⟨inodeNo, found, short, onward⟩
      · refine ⟨0, destInode, ?_, ?_, fun _ => rfl⟩
        · apply pathLoop_missing contract first
          intro inodeNo found
          exact Nat.not_lt.mp fun short => entered ⟨inodeNo, found, short⟩
        · rintro ⟨inodeNo, found, short, _⟩
          exact absurd ⟨inodeNo, found, short⟩ entered

theorem resolve_ne_zero (contract : FindContract find lookup)
    (components : List (List UInt8)) :
    ∀ start inodeNo, start ≠ 0 →
      resolve lookup contents start components = some inodeNo →
      inodeNo ≠ 0 := by
  induction components with
  | nil =>
      intro start inodeNo positive same
      rw [resolve] at same
      rwa [← Option.some.inj same]
  | cons component rest ih =>
      intro start inodeNo _ same
      rw [resolve] at same
      obtain ⟨inode, _, onward⟩ := Option.bind_eq_some_iff.mp same
      obtain ⟨next, found, last⟩ := Option.bind_eq_some_iff.mp onward
      exact ih next inodeNo (Nat.ne_of_gt (contract.number found).1) last

theorem findFileFromPath_components (inode : Memory) (buffer : Nat)
    (name destInode : Memory) {component : List UInt8}
    (valid : ValidName component) (rest : List (List UInt8)) :
    findFileFromPath super find read inode buffer name
        (render (component :: rest)) destInode =
      pathLoop find read
        (component ++ rest.flatMap fun component => slash :: component)
        name 0 destInode buffer := by
  have more :
      component ++ (rest.flatMap fun component => slash :: component) ≠ [] :=
    List.append_ne_nil_of_left_ne_nil valid.nonempty _
  rw [render, List.flatMap_cons, List.cons_append, findFileFromPath]
  simp only [ne_eq, not_true_eq_false, if_false, if_neg more]
  exact fun impossible => absurd impossible (List.cons_ne_nil _ _)

theorem pathCorrect_relative {path : List UInt8}
    (relative : path.head? ≠ some slash) :
    PathCorrect super find read path none := by
  intro inode buffer name destInode
  refine ⟨0, destInode, ?_, rfl⟩
  cases path with
  | nil => rfl
  | cons first rest =>
      have different : first ≠ slash := by
        intro same
        exact relative (congrArg some same)
      rw [findFileFromPath, if_pos different]

theorem pathCorrect_of_sound (contract : FindContract find lookup)
    {components : List (List UInt8)}
    (valid : ∀ name ∈ components, ValidName name)
    (sound : PathSound read lookup contents components) :
    PathCorrect super find read (render components)
      (target lookup contents components) := by
  obtain ⟨two, nowhere, lost⟩ := sound
  rw [nowhere]
  intro inode buffer name destInode
  cases components with
  | nil => exact absurd two (by decide)
  | cons component rest =>
      obtain ⟨result, final, run, _, astray⟩ :=
        pathLoop_result contract rest component name destInode buffer valid
      refine ⟨result, final, ?_, astray (lost destInode)⟩
      rw [findFileFromPath_components inode buffer name destInode
        (valid _ List.mem_cons_self) rest]
      exact run

/-- The root directory is copied from memory that nothing was read into. -/
theorem not_pathCorrect_root (expected : Option (Nat × Memory)) :
    ¬ PathCorrect super find read (render []) expected := by
  intro correct
  have run : ∀ byte : UInt8, findFileFromPath super find read (fun _ => byte)
      0 (fun _ => 0) (render []) (fun _ => byte) =
        some (2, fun _ => byte) := by
    intro byte
    have same : Memory.copy (fun _ => byte) 0 (fun _ => byte) 0
        (sInodeSize super) = fun _ => byte := by
      funext place
      rw [Memory.copy, ite_self]
    have copied : findFileFromPath super find read (fun _ => byte) 0
        (fun _ => 0) (render []) (fun _ => byte) =
          some (2, Memory.copy (fun _ => byte) 0 (fun _ => byte) 0
            (sInodeSize super)) := rfl
    rw [copied, same]
  cases expected with
  | none =>
      obtain ⟨result, final, found, zero⟩ :=
        correct (fun _ => 0) 0 (fun _ => 0) (fun _ => 0)
      rw [run 0] at found
      obtain ⟨two, _⟩ := Prod.mk.inj (Option.some.inj found)
      exact absurd (two.trans zero) (by decide)
  | some pair =>
      obtain ⟨inodeNo, content⟩ := pair
      obtain ⟨result, final, found, _, same⟩ :=
        correct (fun _ => content 0 + 1) 0 (fun _ => 0)
          (fun _ => content 0 + 1)
      rw [run (content 0 + 1)] at found
      obtain ⟨_, rfl⟩ := Prod.mk.inj (Option.some.inj found)
      have clash : content 0 + 1 = content 0 := same 0 (by decide)
      exact absurd clash (by simp)

/-- With one component the result is what the new buffer happens to hold. -/
theorem not_pathCorrect_single {component : List UInt8}
    (valid : ValidName component) (expected : Option (Nat × Memory)) :
    ¬ PathCorrect super find read (render [component]) expected := by
  intro correct
  have returned : ∀ buffer, ∃ result,
      result = buffer ∧
        match expected with
        | none => result = 0
        | some (inodeNo, _) => result = inodeNo := by
    intro buffer
    obtain ⟨result, final, run, meets⟩ :=
      correct (fun _ => 0) buffer (fun _ => 0) (fun _ => 0)
    rw [findFileFromPath_components _ _ _ _ valid [], List.flatMap_nil,
      List.append_nil, pathLoop_last find read valid] at run
    obtain ⟨rfl, _⟩ := Prod.mk.inj (Option.some.inj run)
    refine ⟨buffer, rfl, ?_⟩
    cases expected with
    | none => exact meets
    | some pair => exact meets.1
  cases expected with
  | none =>
      obtain ⟨result, rfl, zero⟩ := returned 1
      exact absurd zero (by decide)
  | some pair =>
      obtain ⟨_, rfl, zero⟩ := returned 0
      obtain ⟨_, rfl, one⟩ := returned 1
      exact absurd (zero.trans one.symm) (by decide)

/-- A first component that is found from somewhere is not found from an inode
that is not a directory. -/
theorem sound_of_pathCorrect (contract : FindContract find lookup)
    {component next : List UInt8} {rest : List (List UInt8)}
    (valid : ∀ name ∈ component :: next :: rest, ValidName name)
    (correct : PathCorrect super find read
      (render (component :: next :: rest))
      (target lookup contents (component :: next :: rest))) :
    PathSound read lookup contents (component :: next :: rest) := by
  have outcome : ∀ destInode, ∃ result final,
      (match target lookup contents (component :: next :: rest) with
        | none => result = 0
        | some (inodeNo, content) =>
            result = inodeNo ∧ SameInode final content) ∧
        (Follows read lookup destInode (component :: next :: rest).dropLast →
          result ≠ 0) ∧
        (¬ Follows read lookup destInode
          (component :: next :: rest).dropLast → result = 0) := by
    intro destInode
    obtain ⟨result, final, run, meets⟩ :=
      correct (fun _ => 0) 1 (fun _ => 0) destInode
    obtain ⟨other, last, code, along, astray⟩ := pathLoop_result contract
      (next :: rest) component (fun _ => 0) destInode 1 valid
    rw [findFileFromPath_components _ _ _ _ (valid _ List.mem_cons_self),
      code] at run
    obtain ⟨rfl, rfl⟩ := Prod.mk.inj (Option.some.inj run)
    exact ⟨_, _, meets, fun follows => along follows (by decide), astray⟩
  have nowhere :
      target lookup contents (component :: next :: rest) = none := by
    cases wanted : target lookup contents (component :: next :: rest) with
    | none => rfl
    | some pair =>
        obtain ⟨result, final, meets, _, astray⟩ := outcome fun _ => 0
        rw [wanted] at meets
        have plain : lookup (fun _ => 0) component = none :=
          contract.directory component (by decide)
        have zero : result = 0 := by
          apply astray
          rintro ⟨_, found, _⟩
          rw [plain] at found
          cases found
        obtain ⟨inodeNo, resolved, read⟩ := Option.bind_eq_some_iff.mp wanted
        obtain ⟨inode, _, made⟩ := Option.bind_eq_some_iff.mp read
        obtain rfl := Option.some.inj made
        have positive := resolve_ne_zero contract
          (component :: next :: rest) 2 inodeNo (by decide) resolved
        exact absurd (meets.1.symm.trans zero) positive
  refine ⟨Nat.le_add_left 2 rest.length, nowhere, ?_⟩
  intro inode follows
  obtain ⟨result, final, meets, along, _⟩ := outcome inode
  rw [nowhere] at meets
  exact along follows meets

/-- Paths that are not absolute are rejected.  Absolute ones are resolved as
they should if they lead nowhere from the root directory and all but their
last components lead nowhere from any inode, and only then. -/
theorem path_correct (contract : FindContract find lookup)
    {components : List (List UInt8)}
    (valid : ∀ name ∈ components, ValidName name) :
    (∀ path : List UInt8, path.head? ≠ some slash →
        PathCorrect super find read path none) ∧
      (PathCorrect super find read (render components)
          (target lookup contents components) ↔
        PathSound read lookup contents components) := by
  refine ⟨fun path => pathCorrect_relative, ?_, pathCorrect_of_sound contract
    valid⟩
  intro correct
  match components with
  | [] => exact absurd correct (not_pathCorrect_root _)
  | [component] =>
      exact absurd correct
        (not_pathCorrect_single (valid _ List.mem_cons_self) _)
  | component :: next :: rest => exact sound_of_pathCorrect contract valid correct

end Correct

/-- The directories are those of `directoryInode`; they hold the file `a` with
inode 11. -/
def smallLookup (inode : Memory) (name : List UInt8) : Option Nat :=
  if iMode inode >>> 12 = 4 ∧ name = [97] then some 11 else none

def smallFind (inode : Memory) (name : List UInt8) (buffer : Nat) :
    Nat × Nat :=
  match smallLookup inode name with
  | some inodeNo => (inodeNo, inodeNo)
  | none => (0, buffer)

def smallContents (inodeNo : Nat) : Option Memory :=
  if inodeNo = 2 then some (directoryInode 24)
  else if inodeNo = 11 then some (twoBlocks 3 5)
  else none

def smallRead (inodeNo : Nat) (buffer : Memory) : Int × Memory :=
  match smallContents inodeNo with
  | some inode => (sizeofInode, inode)
  | none => (-1, buffer)

theorem smallFind_contract : FindContract smallFind smallLookup where
  number found := by
    rw [smallLookup] at found
    split at found
    · obtain rfl := Option.some.inj found
      decide
    · cases found
  directory name plain := if_neg fun both => plain both.1
  content := by
    intro first second name same
    have mode : iMode first = iMode second := by
      apply Memory.load_congr
      intro place _ inside
      exact same place (by rw [sizeofInode]; omega)
    rw [smallLookup, smallLookup, mode]
  found buffer found := by
    rw [smallFind, found]
  missing buffer missing := by
    rw [smallFind, missing]

/-- There is no `/x/y`, and no directory with an `x`. -/
theorem smallTree_correct :
    PathCorrect (fun _ => 0) smallFind smallRead (render [[120], [121]])
      (target smallLookup smallContents [[120], [121]]) := by
  refine (path_correct smallFind_contract ?_).2.mpr ⟨by decide, ?_, ?_⟩
  · intro name member
    rw [List.mem_cons, List.mem_singleton] at member
    rcases member with rfl | rfl
    · exact ⟨by decide, by decide, by decide, by decide⟩
    · exact ⟨by decide, by decide, by decide, by decide⟩
  · rfl
  · rintro inode ⟨inodeNo, found, _⟩
    rw [smallLookup, if_neg (by simp)] at found
    cases found

/-- The file `/a` exists, but the lookup of its name is never made. -/
theorem smallTree_incorrect :
    target smallLookup smallContents [[97]] = some (11, twoBlocks 3 5) ∧
      ¬ PathCorrect (fun _ => 0) smallFind smallRead (render [[97]])
        (target smallLookup smallContents [[97]]) := by
  refine ⟨rfl, ?_⟩
  apply not_pathCorrect_single
  exact ⟨by decide, by decide, by decide, by decide⟩

end SystemsLabs.Ext2

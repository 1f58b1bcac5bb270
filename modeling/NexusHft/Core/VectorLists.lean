import NexusHft.Core.SmallVector
import NexusHft.Foundations.StorageOwners

namespace NexusHft

open Foundations

/-!
# Small vectors are lists

`Stored` says that a vector has the elements of a list in its data and nothing
anywhere else.  Each operation is given its effect on the list, and changes only
storage that the vector owns before or after it.
-/

variable {T : Type}

namespace SmallVector

/-- The elements of a vector are those of a list, where its capacity says.  A
vector on the heap keeps its inline storage too, empty, for the time after a move.
-/
structure Stored (N : Nat) (type : ElementType T) (storage : VectorStorage T) (id : Nat)
    (vector : SmallVector) (values : List T) : Prop where
  size : vector.size = values.length
  inlineCapacity : vector.heapData = none -> vector.capacity = N
  heapCapacity : vector.heapData ≠ none -> N < vector.capacity
  data : Exists fun extent => storage (vector.data id) = some extent ∧
    extent.capacity = vector.capacity ∧ extent.Holds type.trivial values
  spare : vector.heapData ≠ none -> Exists fun extent =>
    storage (.inlineStorage id) = some extent ∧ extent.capacity = N ∧
      extent.Holds type.trivial []

/-- What growth to a new block does to the storage: the list is stored there, the
old block is given up, and nothing can be read any more where the elements were.
-/
structure GrownTo (N : Nat) (type : ElementType T) (id block : Nat) (vector : SmallVector)
    (values : List T) (storage storage' : VectorStorage T) : Prop where
  grown : vector.grow type id storage (some block) =
    some ⟨true, storage', ⟨vector.size, vector.capacity * 2, some block⟩⟩
  stored : Stored N type storage' id ⟨vector.size, vector.capacity * 2, some block⟩ values
  replaces : Replaces (vector.Owns id) (Owns id ⟨vector.size, vector.capacity * 2, some block⟩)
    storage storage'
  gone : forall i, i < vector.size -> storage'.read (vector.data id) i = none

/-- What a move to the memory of a new vector does to the storage: the new vector
stores the list and the old one is empty, whether elements or the block were
moved. -/
structure MovedTo (N : Nat) (type : ElementType T) (id dst : Nat) (vector : SmallVector)
    (values : List T) (storage storage' : VectorStorage T) : Prop where
  moved : vector.moveConstruct type N dst id
    (Function.update storage (.inlineStorage dst) (some (.raw N))) = some (storage', vector, empty N)
  stored : Stored N type storage' dst vector values
  emptied : Stored N type storage' id (empty N) []
  replaces : Replaces (vector.Owns id)
    (fun region => vector.Owns dst region ∨ Owns id (empty N) region) storage storage'

section Vectors

variable {N : Nat} {type : ElementType T} {storage : VectorStorage T} {id : Nat}
  {vector : SmallVector} {values : List T}

theorem data_owned (id : Nat) (vector : SmallVector) : vector.Owns id (vector.data id) := by
  unfold data
  cases heap : vector.heapData with
  | none => exact rfl
  | some block => exact heap

theorem owns_resized (id : Nat) (vector : SmallVector) (size : Nat) (region : Region) :
    Owns id { vector with size := size } region <-> vector.Owns id region := by
  cases region with
  | inlineStorage other => exact Iff.rfl
  | heapBlock block => exact Iff.rfl

/-- A new block is all that a vector owns besides what it did. -/
theorem owns_grown {block size capacity : Nat} (fresh : storage (.heapBlock block) = none)
    (region : Region) (owned : Owns id ⟨size, capacity, some block⟩ region) :
    vector.Owns id region ∨ storage region = none := by
  cases region with
  | inlineStorage other => exact Or.inl owned
  | heapBlock other =>
      have same : block = other := Option.some.inj owned
      rw [← same]
      exact Or.inr fresh

/-- The region that is not the data of a heap vector. -/
theorem spare_ne_data (heap : vector.heapData ≠ none) : Region.inlineStorage id ≠ vector.data id := by
  rcases Option.ne_none_iff_exists'.mp heap with ⟨block, isBlock⟩
  rw [data, isBlock]
  exact nofun

theorem empty_stored {extent : Extent T} (found : storage (.inlineStorage id) = some extent)
    (capacity : extent.capacity = N) (holds : extent.Holds type.trivial []) :
    Stored N type storage id (empty N) [] where
  size := rfl
  inlineCapacity _ := rfl
  heapCapacity isHeap := absurd rfl isHeap
  data := ⟨extent, found, capacity, holds⟩
  spare isHeap := absurd rfl isHeap

/-- Nothing is given up in a move. -/
theorem owns_moved {dst : Nat} {region : Region} (owned : vector.Owns id region) :
    vector.Owns dst region ∨ Owns id (empty N) region := by
  cases region with
  | inlineStorage other => exact Or.inr owned
  | heapBlock other => exact Or.inl owned

/-- What is moved is apart from what is left. -/
theorem owns_empty_apart {dst : Nat} (different : dst ≠ id) {region : Region}
    (owned : vector.Owns dst region) (owned' : Owns id (empty N) region) : False := by
  cases region with
  | inlineStorage other =>
      have isNew : other = dst := owned
      have isOld : other = id := owned'
      exact different (isNew.symm.trans isOld)
  | heapBlock block => exact absurd owned' nofun

theorem owns_moved_fresh {dst : Nat} (fresh : storage (.inlineStorage dst) = none) (region : Region)
    (owned : vector.Owns dst region ∨ Owns id (empty N) region) :
    vector.Owns id region ∨ storage region = none := by
  cases region with
  | inlineStorage other =>
      rcases owned with isNew | isOld
      · have same : other = dst := isNew
        rw [same]
        exact Or.inr fresh
      · exact Or.inl isOld
  | heapBlock other =>
      rcases owned with isNew | isOld
      · exact Or.inl isNew
      · exact absurd isOld nofun

/-- An operation on a vector does not change an argument from elsewhere. -/
theorem evaluate_elsewhere {owned' : Region -> Prop} {storage' : VectorStorage T}
    (replaces : Replaces (vector.Owns id) owned' storage storage') {argument : Argument T}
    (elsewhere : argument.Elsewhere id vector) {value : Option T}
    (evaluated : argument.evaluate storage = some value) :
    argument.evaluate storage' = some value := by
  cases argument with
  | made result => exact evaluated
  | reference region i =>
      have notOwned : ¬ vector.Owns id region := elsewhere
      have allocated : storage region ≠ none := by
        intro absent
        rw [Argument.evaluate, ObjectStorage.read, absent] at evaluated
        exact absurd evaluated.symm (Option.some_ne_none value)
      have notTaken : ¬ owned' region := by
        intro taken
        exact (replaces.fresh region taken).elim notOwned allocated
      rw [← evaluated, Argument.evaluate, Argument.evaluate, ObjectStorage.read,
        ObjectStorage.read, replaces.frame region notOwned notTaken]

namespace Stored

variable (stored : Stored N type storage id vector values)
include stored

theorem size_le : vector.size ≤ vector.capacity := by
  rcases stored.data with ⟨extent, -, capacity, holds⟩
  rw [stored.size, ← capacity]
  exact holds.fits

theorem heap_iff : vector.heapData ≠ none <-> N < vector.capacity := by
  refine ⟨stored.heapCapacity, ?_⟩
  intro large isInline
  rw [stored.inlineCapacity isInline] at large
  exact Nat.lt_irrefl N large

theorem inline_le_capacity : N ≤ vector.capacity := by
  by_cases isInline : vector.heapData = none
  · exact Nat.le_of_eq (stored.inlineCapacity isInline).symm
  · exact Nat.le_of_lt (stored.heapCapacity isInline)

theorem element_eq {i : Nat} (lt : i < values.length) :
    vector.element storage id i = some values[i] := by
  rcases stored.data with ⟨extent, found, -, holds⟩
  exact ObjectStorage.read_holds found holds lt

theorem allocated {region : Region} (owned : vector.Owns id region) : storage region ≠ none := by
  rcases stored.data with ⟨extent, found, -⟩
  cases region with
  | inlineStorage other =>
      have same : other = id := owned
      rw [same]
      cases heap : vector.heapData with
      | none =>
          rw [SmallVector.data, heap] at found
          rw [found]
          exact Option.some_ne_none extent
      | some block =>
          rcases stored.spare (by rw [heap]; exact Option.some_ne_none block) with ⟨spare, isSpare, -⟩
          rw [isSpare]
          exact Option.some_ne_none spare
  | heapBlock block =>
      have heap : vector.heapData = some block := owned
      rw [SmallVector.data, heap] at found
      rw [found]
      exact Option.some_ne_none extent

/-- No objects but the elements, unless they need not be destroyed.  A region that
is given up has therefore no object left in it. -/
theorem object_iff (managed : type.trivial = false) {region : Region}
    (owned : vector.Owns id region) (i : Nat) :
    storage.read region i ≠ none <-> region = vector.data id ∧ i < vector.size := by
  by_cases isData : region = vector.data id
  · rcases stored.data with ⟨extent, found, -, holds⟩
    rw [isData, ObjectStorage.read, found, stored.size]
    dsimp only
    rw [holds.object_iff managed]
    exact (and_iff_right rfl).symm
  · refine ⟨?_, fun both => absurd both.1 isData⟩
    intro isObject
    exfalso
    cases region with
    | inlineStorage other =>
        have same : other = id := owned
        rw [same] at isData isObject
        have notInline : vector.heapData ≠ none := by
          intro isInline
          exact isData (by rw [SmallVector.data, isInline])
        rcases stored.spare notInline with ⟨spare, found, -, holds⟩
        rw [ObjectStorage.read, found] at isObject
        exact Nat.not_lt_zero i ((holds.object_iff managed i).mp isObject)
    | heapBlock block =>
        have heap : vector.heapData = some block := owned
        exact isData (by rw [SmallVector.data, heap])

/-- Only the regions of the vector matter. -/
theorem congr {storage' : VectorStorage T}
    (same : forall region, vector.Owns id region -> storage' region = storage region) :
    Stored N type storage' id vector values where
  size := stored.size
  inlineCapacity := stored.inlineCapacity
  heapCapacity := stored.heapCapacity
  data := by
    rw [same _ (data_owned id vector)]
    exact stored.data
  spare heap := by
    rw [same (.inlineStorage id) rfl]
    exact stored.spare heap

/-- New contents of the data. -/
theorem write {extent : Extent T} {size : Nat} {values' : List T}
    (capacity : extent.capacity = vector.capacity) (holds : extent.Holds type.trivial values')
    (length : size = values'.length) :
    Stored N type (Function.update storage (vector.data id) (some extent)) id
      { vector with size := size } values' where
  size := length
  inlineCapacity := stored.inlineCapacity
  heapCapacity := stored.heapCapacity
  data := ⟨extent, Function.update_self _ _ _, capacity, holds⟩
  spare heap := by
    have elsewhere : Region.inlineStorage id ≠ SmallVector.data id vector := spare_ne_data heap
    rw [Function.update_of_ne elsewhere]
    exact stored.spare heap

/-! ## Operations on one vector -/

theorem constructBack_value (room : vector.size < vector.capacity) {argument : Argument T}
    {value : T} (evaluated : argument.evaluate storage = some (some value)) :
    Exists fun storage' =>
      vector.constructBack type id storage argument =
        some ⟨true, storage', { vector with size := vector.size + 1 }⟩ ∧
      Stored N type storage' id { vector with size := vector.size + 1 } (values ++ [value]) ∧
      Replaces (vector.Owns id) (Owns id { vector with size := vector.size + 1 }) storage storage' := by
  rcases stored.data with ⟨extent, found, capacity, holds⟩
  rcases ObjectStorage.construct_holds found holds (by rw [capacity, ← stored.size]; exact room) value
    with ⟨extent', constructed, sameCapacity, grown⟩
  refine ⟨_, ?_, stored.write (sameCapacity.trans capacity) grown ?_,
    Replaces.write (data_owned id vector) (owns_resized id vector _) _⟩
  · rw [constructBack, evaluated]
    dsimp only
    rw [stored.size, constructed]
    rfl
  · rw [List.length_append, List.length_singleton, stored.size]

/-- The elements are gone, whether or not they had to be destroyed. -/
theorem destroyElements : Exists fun extent =>
    vector.destroyElements type id storage =
      some (Function.update storage (vector.data id) (some extent)) ∧
    extent.capacity = vector.capacity ∧ extent.Holds type.trivial [] := by
  rcases stored.data with ⟨extent, found, capacity, holds⟩
  unfold SmallVector.destroyElements
  cases trivial : type.trivial with
  | true =>
      refine ⟨extent, ?_, capacity, Nat.zero_le _, fun _ lt => absurd lt (Nat.not_lt_zero _), nofun⟩
      rw [if_pos rfl, ← found, Function.update_eq_self]
  | false =>
      rw [trivial] at holds
      rcases ObjectStorage.destroyAll_clears found holds (Nat.le_refl _) with
        ⟨cleared, destroyed, clear⟩
      refine ⟨cleared, ?_, clear.1.trans capacity, clear.holds holds⟩
      rw [if_neg Bool.false_ne_true, stored.size, destroyed]

theorem clear : Exists fun storage' =>
    vector.clear type id storage = some (storage', { vector with size := 0 }) ∧
    Stored N type storage' id { vector with size := 0 } [] ∧
    Replaces (vector.Owns id) (Owns id { vector with size := 0 }) storage storage' := by
  rcases stored.destroyElements with ⟨extent, destroyed, capacity, holds⟩
  refine ⟨_, ?_, stored.write capacity holds rfl,
    Replaces.write (data_owned id vector) (owns_resized id vector _) _⟩
  rw [SmallVector.clear, destroyed]
  rfl

/-! ## Growth -/

theorem double_room : values.length ≤ vector.capacity * 2 := by
  have fits := stored.size_le
  rw [stored.size] at fits
  exact Nat.le_trans fits (Nat.le_mul_of_pos_right _ Nat.two_pos)

section Growth

variable {block : Nat} {storage' : VectorStorage T}

/-- The elements in the new block, and the memory of the object without any. -/
theorem grown_stored (positive : 0 < N) {filled spare : Extent T}
    (isFilled : storage' (.heapBlock block) = some filled)
    (filledCapacity : filled.capacity = vector.capacity * 2)
    (filledHolds : filled.Holds type.trivial values)
    (isSpare : storage' (.inlineStorage id) = some spare) (spareCapacity : spare.capacity = N)
    (spareHolds : spare.Holds type.trivial []) :
    Stored N type storage' id ⟨vector.size, vector.capacity * 2, some block⟩ values where
  size := stored.size
  inlineCapacity isInline := absurd isInline (Option.some_ne_none block)
  heapCapacity _ := by
    have large := stored.inline_le_capacity
    dsimp only
    omega
  data := ⟨filled, isFilled, filledCapacity, filledHolds⟩
  spare _ := ⟨spare, isSpare, spareCapacity, spareHolds⟩

omit stored in
theorem grown_replaces (fresh : storage (.heapBlock block) = none)
    (same : forall region, region ≠ vector.data id -> region ≠ .heapBlock block ->
      storage' region = storage region)
    (released : forall old, vector.heapData = some old -> storage' (.heapBlock old) = none) :
    Replaces (vector.Owns id) (Owns id ⟨vector.size, vector.capacity * 2, some block⟩)
      storage storage' := by
  refine ⟨?_, ?_, owns_grown fresh⟩
  · intro region notBefore notAfter
    apply same region
    · rintro rfl
      exact notBefore (data_owned id vector)
    · rintro rfl
      exact notAfter rfl
  · intro region owned notAfter
    cases region with
    | inlineStorage other => exact absurd owned notAfter
    | heapBlock other => exact released other owned

variable (positive : 0 < N) (fresh : storage (.heapBlock block) = none)
include positive fresh

/-- The inline elements move to the heap; the memory of the object stays, without
them, as the vector may come back to it when it is moved from. -/
theorem grow_inline (isInline : vector.heapData = none) :
    Exists fun storage' => GrownTo N type id block vector values storage storage' := by
  rcases stored.data with ⟨extent, found, capacity, holds⟩
  have isData : vector.data id = .inlineStorage id := by rw [SmallVector.data, isInline]
  have elsewhere : Region.inlineStorage id ≠ .heapBlock block := nofun
  rw [isData] at found
  rcases ObjectStorage.relocate_fresh type.moved found holds fresh stored.double_room with
    ⟨cleared, filled, relocated, clear, filledCapacity, filledHolds⟩
  have isCleared : Function.update (Function.update storage (.inlineStorage id) (some cleared))
      (.heapBlock block) (some filled) (.inlineStorage id) = some cleared := by
    rw [Function.update_of_ne elsewhere, Function.update_self]
  refine ⟨_, ⟨?_, stored.grown_stored positive (Function.update_self _ _ _) filledCapacity
    filledHolds isCleared ?_ (clear.holds holds), grown_replaces fresh ?_ ?_, ?_⟩⟩
  · rw [SmallVector.grow, ObjectStorage.allocate_fresh fresh, Option.bind_some, isData,
      stored.size, relocated, Option.bind_some, releaseHeap, isInline]
    rfl
  · rw [clear.1, capacity, stored.inlineCapacity isInline]
  · intro region notData notBlock
    rw [isData] at notData
    rw [Function.update_of_ne notBlock, Function.update_of_ne notData]
  · intro old isHeap
    exact absurd (isInline.symm.trans isHeap).symm (Option.some_ne_none old)
  · intro i lt
    rw [stored.size] at lt
    rw [isData, ObjectStorage.read, isCleared]
    dsimp only
    rw [clear.2 i, if_pos lt]

/-- The elements move to the new block, and the old one is released.  The loop
destroys each source as it goes, so the old block has no objects by then. -/
theorem grow_heap {old : Nat} (isHeap : vector.heapData = some old) :
    Exists fun storage' => GrownTo N type id block vector values storage storage' := by
  rcases stored.data with ⟨extent, found, -, holds⟩
  have notInline : vector.heapData ≠ none := by
    rw [isHeap]
    exact Option.some_ne_none old
  rcases stored.spare notInline with ⟨spare, isSpare, spareCapacity, spareHolds⟩
  have isData : vector.data id = .heapBlock old := by rw [SmallVector.data, isHeap]
  rw [isData] at found
  have different : Region.heapBlock old ≠ .heapBlock block := by
    intro same
    rw [same, fresh] at found
    exact absurd found.symm (Option.some_ne_none extent)
  rcases ObjectStorage.relocate_fresh type.moved found holds fresh stored.double_room with
    ⟨cleared, filled, relocated, clear, filledCapacity, filledHolds⟩
  have leftOver : Function.update (Function.update storage (.heapBlock old) (some cleared))
      (.heapBlock block) (some filled) (.heapBlock old) = some cleared := by
    rw [Function.update_of_ne different, Function.update_self]
  have unchanged : forall region, region ≠ .heapBlock old -> region ≠ .heapBlock block ->
      Function.update (Function.update (Function.update storage (.heapBlock old) (some cleared))
        (.heapBlock block) (some filled)) (.heapBlock old) none region = storage region := by
    intro region notOld notBlock
    rw [Function.update_of_ne notOld, Function.update_of_ne notBlock, Function.update_of_ne notOld]
  have stillSpare := (unchanged (.inlineStorage id) nofun nofun).trans isSpare
  refine ⟨_, ⟨?_, stored.grown_stored positive ?_ filledCapacity filledHolds stillSpare
    spareCapacity spareHolds, grown_replaces fresh ?_ ?_, ?_⟩⟩
  · rw [SmallVector.grow, ObjectStorage.allocate_fresh fresh, Option.bind_some, isData,
      stored.size, relocated, Option.bind_some, releaseHeap, isHeap]
    dsimp only
    rw [ObjectStorage.release_holds leftOver (clear.holds holds)]
    rfl
  · rw [Function.update_of_ne different.symm, Function.update_self]
  · rw [isData]
    exact unchanged
  · intro other isHeap'
    rw [← Option.some.inj (isHeap.symm.trans isHeap'), Function.update_self]
  · intro i _
    rw [isData, ObjectStorage.read, Function.update_self]

theorem grow : Exists fun storage' => GrownTo N type id block vector values storage storage' := by
  cases heap : vector.heapData with
  | none => exact stored.grow_inline positive fresh heap
  | some old => exact stored.grow_heap positive fresh heap

end Growth

/-! ## Insertion at the end -/

theorem constructBack (room : vector.size < vector.capacity) {argument : Argument T}
    {value : Option T} (evaluated : argument.evaluate storage = some value) :
    Exists fun answer => vector.constructBack type id storage argument = some answer ∧
      (answer.returned = true <-> value ≠ none) ∧
      Stored N type answer.storage id answer.vector (appended values value answer.returned) ∧
      Replaces (vector.Owns id) (answer.vector.Owns id) storage answer.storage := by
  cases value with
  | none =>
      refine ⟨⟨false, storage, vector⟩, ?_, by simp, stored, Replaces.refl _ _⟩
      rw [SmallVector.constructBack, evaluated]
  | some value =>
      rcases stored.constructBack_value room evaluated with
        ⟨storage', constructed, stored', replaces⟩
      exact ⟨⟨true, storage', { vector with size := vector.size + 1 }⟩, constructed, by simp,
        stored', replaces⟩

/-- After every call the vector has its elements, with the new one if the call
returned.  If the construction throws after a growth, the grown vector has just
the old ones. -/
theorem emplaceBack (positive : 0 < N) {argument : Argument T} {value : Option T}
    (evaluated : argument.evaluate storage = some value) (elsewhere : argument.Elsewhere id vector)
    {operatorNew : Option Nat}
    (fresh : forall block, operatorNew = some block -> storage (.heapBlock block) = none) :
    Exists fun answer =>
      vector.emplaceBack type id storage argument operatorNew = some answer ∧
      (answer.returned = true <->
        value ≠ none ∧ (vector.size = vector.capacity -> operatorNew ≠ none)) ∧
      Stored N type answer.storage id answer.vector (appended values value answer.returned) ∧
      Replaces (vector.Owns id) (answer.vector.Owns id) storage answer.storage := by
  by_cases full : vector.size = vector.capacity
  · cases operatorNew with
    | none =>
        refine ⟨⟨false, storage, vector⟩, ?_, by simp [full], ?_, Replaces.refl _ _⟩
        · rw [SmallVector.emplaceBack, if_pos full]
          rfl
        · cases value with
          | none => exact stored
          | some value => exact stored
    | some block =>
        rcases stored.grow positive (fresh block rfl) with ⟨between, grown, stored', first, -⟩
        have room : vector.size < vector.capacity * 2 := by
          have large := stored.inline_le_capacity
          omega
        have stillThere := evaluate_elsewhere first elsewhere evaluated
        rcases stored'.constructBack room stillThere with
          ⟨answer, constructed, returns, stored'', second⟩
        refine ⟨answer, ?_, by simp [returns], stored'', first.trans second⟩
        rw [SmallVector.emplaceBack, if_pos full, grown, Option.bind_some]
        exact constructed
  · have room := Nat.lt_of_le_of_ne stored.size_le full
    rcases stored.constructBack room evaluated with
      ⟨answer, constructed, returns, stored', replaces⟩
    refine ⟨answer, ?_, by simp [returns, full], stored', replaces⟩
    rw [SmallVector.emplaceBack, if_neg full]
    exact constructed

section OwnElement

variable {i : Nat} (lt : i < vector.size)
include lt

/-- A reference to an element is good until the vector grows. -/
theorem pushBack_own (room : vector.size ≠ vector.capacity) (operatorNew : Option Nat) :
    Exists fun storage' => Exists fun value =>
      vector.element storage id i = some value ∧
      vector.pushBack type id storage (.reference (vector.data id) i) operatorNew =
        some ⟨true, storage', { vector with size := vector.size + 1 }⟩ ∧
      Stored N type storage' id { vector with size := vector.size + 1 } (values ++ [value]) := by
  rw [stored.size] at lt
  have isElement := stored.element_eq lt
  have evaluated : (Argument.reference (vector.data id) i).evaluate storage =
      some (some values[i]) := congrArg (Option.map some) isElement
  rcases stored.constructBack_value (Nat.lt_of_le_of_ne stored.size_le room) evaluated with
    ⟨storage', constructed, stored', -⟩
  refine ⟨storage', values[i], isElement, ?_, stored'⟩
  rw [pushBack, SmallVector.emplaceBack, if_neg room]
  exact constructed

/-- The growth destroys the element before it is read. -/
theorem pushBack_own_full (positive : 0 < N) (full : vector.size = vector.capacity) {block : Nat}
    (fresh : storage (.heapBlock block) = none) :
    vector.pushBack type id storage (.reference (vector.data id) i) (some block) = none := by
  rcases stored.grow positive fresh with ⟨between, grown, -, -, gone⟩
  have noObject : (Argument.reference (vector.data id) i).evaluate between = none :=
    congrArg (Option.map some) (gone i lt)
  rw [pushBack, SmallVector.emplaceBack, if_pos full, grown, Option.bind_some, if_pos rfl,
    SmallVector.constructBack, noObject]

end OwnElement

/-! ## The memory of an object -/

omit stored in
theorem all_given_up {storage' : VectorStorage T} (inlineGone : storage' (.inlineStorage id) = none)
    (heapGone : forall block, vector.heapData = some block -> storage' (.heapBlock block) = none)
    (same : forall region, ¬ vector.Owns id region -> storage' region = storage region) :
    Replaces (vector.Owns id) (fun _ => False) storage storage' := by
  refine ⟨fun region notOwned _ => same region notOwned, ?_, fun _ owned => owned.elim⟩
  intro region owned _
  cases region with
  | inlineStorage other =>
      have isInline : other = id := owned
      rw [isInline]
      exact inlineGone
  | heapBlock block => exact heapGone block owned

theorem destruct_inline (isInline : vector.heapData = none) : Exists fun storage' =>
    ((vector.destruct type id storage).bind fun storage =>
      storage.release type.trivial (.inlineStorage id)) = some storage' ∧
    Replaces (vector.Owns id) (fun _ => False) storage storage' := by
  rcases stored.destroyElements with ⟨extent, destroyed, -, holds⟩
  have isData : vector.data id = .inlineStorage id := by rw [SmallVector.data, isInline]
  rw [isData] at destroyed
  refine ⟨Function.update storage (.inlineStorage id) none, ?_,
    all_given_up (Function.update_self _ _ _) ?_ ?_⟩
  · rw [SmallVector.destruct, destroyed, Option.bind_some, releaseHeap, isInline]
    dsimp only
    rw [Option.bind_some, ObjectStorage.release_holds (Function.update_self _ _ _) holds,
      Function.update_idem]
  · intro block isHeap
    exact absurd (isInline.symm.trans isHeap).symm (Option.some_ne_none block)
  · intro region notOwned
    apply Function.update_of_ne
    rintro rfl
    exact notOwned rfl

theorem destruct_heap {block : Nat} (isHeap : vector.heapData = some block) :
    Exists fun storage' =>
      ((vector.destruct type id storage).bind fun storage =>
        storage.release type.trivial (.inlineStorage id)) = some storage' ∧
      Replaces (vector.Owns id) (fun _ => False) storage storage' := by
  rcases stored.destroyElements with ⟨extent, destroyed, -, holds⟩
  have isData : vector.data id = .heapBlock block := by rw [SmallVector.data, isHeap]
  have elsewhere : Region.inlineStorage id ≠ .heapBlock block := nofun
  rcases stored.spare (by rw [isHeap]; exact Option.some_ne_none block) with
    ⟨spare, isSpare, -, spareHolds⟩
  have stillSpare : Function.update storage (.heapBlock block) none (.inlineStorage id) =
      some spare := by
    rw [Function.update_of_ne elsewhere, isSpare]
  rw [isData] at destroyed
  refine ⟨Function.update (Function.update storage (.heapBlock block) none)
    (.inlineStorage id) none, ?_, all_given_up (Function.update_self _ _ _) ?_ ?_⟩
  · rw [SmallVector.destruct, destroyed, Option.bind_some, releaseHeap, isHeap]
    dsimp only
    rw [ObjectStorage.release_holds (Function.update_self _ _ _) holds, Function.update_idem,
      Option.bind_some, ObjectStorage.release_holds stillSpare spareHolds]
  · intro other isHeap'
    rw [← Option.some.inj (isHeap.symm.trans isHeap'), Function.update_of_ne elsewhere.symm,
      Function.update_self]
  · intro region notOwned
    rw [Function.update_of_ne, Function.update_of_ne]
    · rintro rfl
      exact notOwned isHeap
    · rintro rfl
      exact notOwned rfl

/-- The destructor gives up everything, without an object left in it. -/
theorem destruct : Exists fun storage' =>
    ((vector.destruct type id storage).bind fun storage =>
      storage.release type.trivial (.inlineStorage id)) = some storage' ∧
    Replaces (vector.Owns id) (fun _ => False) storage storage' := by
  cases heap : vector.heapData with
  | none => exact stored.destruct_inline heap
  | some block => exact stored.destruct_heap heap

section Moves

variable {dst : Nat} (fresh : storage (.inlineStorage dst) = none)
include fresh

theorem dst_ne : dst ≠ id := by
  intro same
  rw [same] at fresh
  have owned : vector.Owns id (.inlineStorage id) := rfl
  exact stored.allocated owned fresh

/-- A heap vector gives its block away. -/
theorem moveConstruct_heap {block : Nat} (isHeap : vector.heapData = some block) :
    Exists fun storage' => MovedTo N type id dst vector values storage storage' := by
  have notInline : vector.heapData ≠ none := by
    rw [isHeap]
    exact Option.some_ne_none block
  have isData : forall owner, vector.data owner = .heapBlock block := by
    intro owner
    rw [SmallVector.data, isHeap]
  have elsewhere : Region.heapBlock block ≠ .inlineStorage dst := nofun
  have another : Region.inlineStorage id ≠ .inlineStorage dst := by
    intro same
    exact stored.dst_ne fresh (Region.inlineStorage.inj same).symm
  rcases stored.data with ⟨extent, found, capacity, holds⟩
  rcases stored.spare notInline with ⟨spare, isSpare, spareCapacity, spareHolds⟩
  rw [isData] at found
  refine ⟨Function.update storage (.inlineStorage dst) (some (.raw N)), ?_,
    ⟨stored.size, stored.inlineCapacity, stored.heapCapacity, ⟨extent, ?_, capacity, holds⟩,
      fun _ => ⟨.raw N, Function.update_self _ _ _, rfl, Extent.raw_holds _ _⟩⟩,
    empty_stored ?_ spareCapacity spareHolds, ⟨?_, ?_, ?_⟩⟩
  · rw [SmallVector.moveConstruct, isHeap]
    dsimp only
    rw [← isHeap]
  · rw [isData, Function.update_of_ne elsewhere, found]
  · rw [Function.update_of_ne another, isSpare]
  · intro region _ notOwned
    apply Function.update_of_ne
    rintro rfl
    exact notOwned (Or.inl rfl)
  · exact fun region owned notOwned => absurd (owns_moved owned) notOwned
  · exact owns_moved_fresh fresh

/-- The elements of an inline vector move to the memory of the new one, and their
sources are destroyed; both vectors are inline then. -/
theorem moveConstruct_inline (isInline : vector.heapData = none) :
    Exists fun storage' => MovedTo N type id dst vector values storage storage' := by
  have isData : forall owner, vector.data owner = .inlineStorage owner := by
    intro owner
    rw [SmallVector.data, isInline]
  have another : Region.inlineStorage id ≠ .inlineStorage dst := by
    intro same
    exact stored.dst_ne fresh (Region.inlineStorage.inj same).symm
  rcases stored.data with ⟨extent, found, capacity, holds⟩
  have room : values.length ≤ N := by
    rw [← stored.inlineCapacity isInline, ← stored.size]
    exact stored.size_le
  rw [isData] at found
  rw [stored.inlineCapacity isInline] at capacity
  rcases ObjectStorage.relocate_fresh type.moved found holds fresh room with
    ⟨cleared, filled, relocated, clear, filledCapacity, filledHolds⟩
  refine ⟨Function.update (Function.update storage (.inlineStorage id) (some cleared))
    (.inlineStorage dst) (some filled), ?_,
    ⟨stored.size, stored.inlineCapacity, stored.heapCapacity, ⟨filled, ?_, ?_, filledHolds⟩,
      fun isHeap => absurd isInline isHeap⟩,
    empty_stored ?_ (clear.1.trans capacity) (clear.holds holds), ⟨?_, ?_, ?_⟩⟩
  · rw [SmallVector.moveConstruct, isInline]
    dsimp only
    rw [stored.size, relocated, ← isInline, ← stored.size]
    rfl
  · rw [isData, Function.update_self]
  · rw [filledCapacity, stored.inlineCapacity isInline]
  · rw [Function.update_of_ne another, Function.update_self]
  · intro region notBefore notAfter
    rw [Function.update_of_ne, Function.update_of_ne]
    · rintro rfl
      exact notBefore rfl
    · rintro rfl
      exact notAfter (Or.inl rfl)
  · exact fun region owned notOwned => absurd (owns_moved owned) notOwned
  · exact owns_moved_fresh fresh

theorem moveConstruct :
    Exists fun storage' => MovedTo N type id dst vector values storage storage' := by
  cases heap : vector.heapData with
  | none => exact stored.moveConstruct_inline fresh heap
  | some block => exact stored.moveConstruct_heap fresh heap

end Moves

end Stored
end Vectors
end SmallVector
end NexusHft

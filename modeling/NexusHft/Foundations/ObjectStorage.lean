import Mathlib.Data.List.TakeDrop
import Mathlib.Logic.Function.Basic

namespace NexusHft
namespace Foundations

/-!
# Storage with object lifetimes

Regions of storage are allocated and released; between the two, objects are
constructed and destroyed in their cells.  A cell without an object has no value.
An operation that a program must not make has no result: to read or destroy where
no object is, to construct over an object, to release or allocate a region twice,
and to release one with objects in it.

Objects whose destructor does nothing need not be destroyed: with `reuse`, a new
object may be constructed over them and their region released.
-/

universe u v

/-- An allocated region: the number of its cells, and the objects in them.  A cell
without an object is raw memory, which nothing may read. -/
structure Extent (T : Type v) where
  capacity : Nat
  cells : Nat -> Option T

abbrev ObjectStorage (Region : Type u) (T : Type v) := Region -> Option (Extent T)

variable {Region : Type u} {T : Type v}

namespace Extent

def raw (capacity : Nat) : Extent T := ⟨capacity, fun _ => none⟩

/-- The objects of the extent are the values of a list, from the first cell on,
and behind them is none, unless the objects are of the kind that is never
destroyed. -/
structure Holds (reuse : Bool) (extent : Extent T) (values : List T) : Prop where
  fits : values.length ≤ extent.capacity
  object : forall i, i < values.length -> extent.cells i = values[i]?
  none : reuse = false -> forall i, values.length ≤ i -> extent.cells i = none

theorem raw_holds (reuse : Bool) (capacity : Nat) : (raw capacity : Extent T).Holds reuse [] :=
  ⟨Nat.zero_le _, fun _ lt => absurd lt (Nat.not_lt_zero _), fun _ _ _ => rfl⟩

theorem Holds.object_iff {reuse : Bool} {extent : Extent T} {values : List T}
    (holds : extent.Holds reuse values) (noReuse : reuse = false) (i : Nat) :
    extent.cells i ≠ Option.none <-> i < values.length := by
  constructor
  · intro isObject
    by_contra behind
    exact isObject (holds.none noReuse i (Nat.le_of_not_lt behind))
  · intro lt
    rw [holds.object i lt, List.getElem?_eq_getElem lt]
    exact Option.some_ne_none _

/-- An extent whose first objects are gone. -/
def Cleared (count : Nat) (extent cleared : Extent T) : Prop :=
  cleared.capacity = extent.capacity ∧
    forall i, cleared.cells i = if i < count then none else extent.cells i

theorem Cleared.succ {count : Nat} {extent cleared : Extent T}
    (clear : Cleared count extent cleared) : Cleared (count + 1) extent
      { cleared with cells := Function.update cleared.cells count none } := by
  apply And.intro clear.1
  intro i
  dsimp only
  rcases Nat.lt_trichotomy i count with less | same | more
  · rw [Function.update_of_ne (Nat.ne_of_lt less), clear.2 i, if_pos less,
      if_pos (Nat.lt_succ_of_lt less)]
  · rw [same, Function.update_self, if_pos (Nat.lt_succ_self count)]
  · rw [Function.update_of_ne (Nat.ne_of_gt more), clear.2 i, if_neg (Nat.lt_asymm more),
      if_neg (Nat.not_lt_of_le more)]

/-- The cell after the last object may be constructed in. -/
theorem Holds.free_at_length {reuse : Bool} {extent : Extent T} {values : List T}
    (holds : extent.Holds reuse values) :
    reuse = true ∨ extent.cells values.length = Option.none := by
  cases reuse with
  | true => exact Or.inl rfl
  | false => exact Or.inr (holds.none rfl _ (Nat.le_refl _))

theorem Holds.concat {reuse : Bool} {extent : Extent T} {values : List T}
    (holds : extent.Holds reuse values) (room : values.length < extent.capacity) (value : T) :
    Holds reuse { extent with cells := Function.update extent.cells values.length (some value) }
      (values ++ [value]) := by
  refine ⟨?_, ?_, ?_⟩
  · rw [List.length_append]
    exact room
  · intro i lt
    rw [List.length_append, List.length_singleton] at lt
    dsimp only
    rcases Nat.lt_or_eq_of_le (Nat.le_of_lt_succ lt) with earlier | last
    · rw [Function.update_of_ne (Nat.ne_of_lt earlier), List.getElem?_append_left earlier]
      exact holds.object i earlier
    · rw [last, Function.update_self, List.getElem?_concat_length]
  · intro noReuse i le
    rw [List.length_append, List.length_singleton] at le
    dsimp only
    rw [Function.update_of_ne (Nat.ne_of_gt le)]
    exact holds.none noReuse i (Nat.le_of_succ_le le)

theorem Cleared.holds {reuse : Bool} {extent cleared : Extent T} {values : List T}
    (holds : extent.Holds reuse values) (clear : Cleared values.length extent cleared) :
    cleared.Holds reuse [] := by
  refine ⟨Nat.zero_le _, fun _ lt => absurd lt (Nat.not_lt_zero _), ?_⟩
  intro noReuse i _
  rw [clear.2 i]
  by_cases lt : i < values.length
  · exact if_pos lt
  · rw [if_neg lt]
    exact holds.none noReuse i (Nat.le_of_not_lt lt)

end Extent

namespace ObjectStorage

variable [DecidableEq Region] (reuse : Bool) (moved : T -> T)

def read (storage : ObjectStorage Region T) (region : Region) (i : Nat) : Option T :=
  match storage region with
  | none => none
  | some extent => extent.cells i

def construct (storage : ObjectStorage Region T) (region : Region) (i : Nat) (value : T) :
    Option (ObjectStorage Region T) :=
  match storage region with
  | none => none
  | some extent =>
      if i < extent.capacity ∧ (reuse = true ∨ extent.cells i = none) then
        some (Function.update storage region
          (some { extent with cells := Function.update extent.cells i (some value) }))
      else none

def destroy (storage : ObjectStorage Region T) (region : Region) (i : Nat) :
    Option (ObjectStorage Region T) :=
  match storage region with
  | none => none
  | some extent =>
      if extent.cells i = none then none
      else some (Function.update storage region
        (some { extent with cells := Function.update extent.cells i none }))

/-- Construct from an object of another region, which is left as `moved` leaves it. -/
def moveConstruct (storage : ObjectStorage Region T) (src dst : Region) (i : Nat) :
    Option (ObjectStorage Region T) :=
  match storage src with
  | none => none
  | some extent =>
      match extent.cells i with
      | none => none
      | some value =>
          construct reuse (Function.update storage src
            (some { extent with cells := Function.update extent.cells i (some (moved value)) }))
            dst i value

/-- `for (i = 0; i < count; ++i)`: move an object to the other region and destroy
what is left of it. -/
def relocate (storage : ObjectStorage Region T) (src dst : Region) :
    Nat -> Option (ObjectStorage Region T)
  | 0 => some storage
  | i + 1 =>
      (relocate storage src dst i).bind fun before =>
        (moveConstruct reuse moved before src dst i).bind fun between => between.destroy src i

/-- `for (i = 0; i < count; ++i)`: destroy an object. -/
def destroyAll (storage : ObjectStorage Region T) (region : Region) :
    Nat -> Option (ObjectStorage Region T)
  | 0 => some storage
  | i + 1 => (destroyAll storage region i).bind fun before => before.destroy region i

def allocate (storage : ObjectStorage Region T) (region : Region) (capacity : Nat) :
    Option (ObjectStorage Region T) :=
  match storage region with
  | none => some (Function.update storage region (some (.raw capacity)))
  | some _ => none

def release (storage : ObjectStorage Region T) (region : Region) :
    Option (ObjectStorage Region T) :=
  match storage region with
  | none => none
  | some extent =>
      if reuse = true ∨ forall i, i < extent.capacity -> extent.cells i = none then
        some (Function.update storage region none)
      else none

/-! ## What the operations do to the values -/

variable {reuse} {moved} {storage : ObjectStorage Region T} {region : Region} {extent : Extent T}
  {values : List T}

omit [DecidableEq Region] in
theorem read_holds (found : storage region = some extent) (holds : extent.Holds reuse values)
    {i : Nat} (lt : i < values.length) : storage.read region i = some values[i] := by
  rw [read, found]
  exact (holds.object i lt).trans (List.getElem?_eq_getElem lt)

/-- A new object after the last one. -/
theorem construct_holds (found : storage region = some extent)
    (holds : extent.Holds reuse values) (room : values.length < extent.capacity) (value : T) :
    Exists fun extent' => construct reuse storage region values.length value =
        some (Function.update storage region (some extent')) ∧
      extent'.capacity = extent.capacity ∧ extent'.Holds reuse (values ++ [value]) := by
  have constructed : construct reuse storage region values.length value =
      some (Function.update storage region (some { extent with
        cells := Function.update extent.cells values.length (some value) })) := by
    rw [construct, found]
    exact if_pos ⟨room, holds.free_at_length⟩
  exact ⟨_, constructed, rfl, holds.concat room value⟩

theorem destroyAll_clears (found : storage region = some extent)
    (holds : extent.Holds reuse values) {count : Nat} (le : count ≤ values.length) :
    Exists fun cleared => storage.destroyAll region count =
        some (Function.update storage region (some cleared)) ∧
      extent.Cleared count cleared := by
  induction count with
  | zero =>
      refine ⟨extent, ?_, rfl, fun i => (if_neg (Nat.not_lt_zero i)).symm⟩
      rw [← found, Function.update_eq_self]
      rfl
  | succ i inductionHypothesis =>
      rcases inductionHypothesis (Nat.le_of_succ_le le) with ⟨cleared, before, clear⟩
      have isObject : cleared.cells i ≠ none := by
        rw [clear.2 i, if_neg (Nat.lt_irrefl i), holds.object i le, List.getElem?_eq_getElem le]
        exact Option.some_ne_none _
      refine ⟨_, ?_, clear.succ⟩
      rw [destroyAll, before, Option.bind_some, destroy, Function.update_self]
      dsimp only
      rw [if_neg isObject, Function.update_idem]

theorem release_holds (found : storage region = some extent) (holds : extent.Holds reuse []) :
    release reuse storage region = some (Function.update storage region none) := by
  have allowed : reuse = true ∨ forall i, i < extent.capacity -> extent.cells i = none := by
    cases reuse with
    | true => exact Or.inl rfl
    | false => exact Or.inr fun i _ => holds.none rfl i (Nat.zero_le i)
  rw [release, found]
  exact if_pos allowed

theorem allocate_fresh (fresh : storage region = none) (capacity : Nat) :
    storage.allocate region capacity =
      some (Function.update storage region (some (.raw capacity))) := by
  rw [allocate, fresh]

section Relocation

variable {src dst : Region} {target : Extent T} (different : src ≠ dst)
include different

/-- Rewriting two regions forgets what was written to them before. -/
theorem update_pair (storage : ObjectStorage Region T) (first first' second second' : Option (Extent T)) :
    Function.update (Function.update (Function.update (Function.update storage src first) dst second)
      src first') dst second' = Function.update (Function.update storage src first') dst second' := by
  rw [Function.update_comm different.symm, Function.update_idem, Function.update_idem]

/-- One object changes its region. -/
theorem move_one {i : Nat} {value : T} (found : storage src = some extent)
    (isObject : extent.cells i = some value) (foundTarget : storage dst = some target)
    (room : i < target.capacity) (free : reuse = true ∨ target.cells i = none) :
    ((moveConstruct reuse moved storage src dst i).bind fun between => between.destroy src i) =
      some (Function.update
        (Function.update storage src
          (some { extent with cells := Function.update extent.cells i none }))
        dst (some { target with cells := Function.update target.cells i (some value) })) := by
  have targetThere : forall left, Function.update storage src left dst = some target := by
    intro left
    rw [Function.update_of_ne different.symm, foundTarget]
  rw [moveConstruct, found]
  dsimp only
  rw [isObject]
  dsimp only
  rw [construct, targetThere]
  dsimp only
  rw [if_pos ⟨room, free⟩, Option.bind_some, destroy, Function.update_of_ne different,
    Function.update_self]
  dsimp only
  rw [if_neg (by rw [Function.update_self]; exact Option.some_ne_none _), Function.update_idem,
    Function.update_comm different.symm, Function.update_idem]

variable (moved) in
/-- The relocation loop takes the values over one by one: before each pass the new
region has the first values, and the old one has lost just these. -/
theorem relocate_holds (found : storage src = some extent) (holds : extent.Holds reuse values)
    (foundTarget : storage dst = some target) (empty : target.Holds reuse [])
    (room : values.length ≤ target.capacity) {count : Nat} (le : count ≤ values.length) :
    Exists fun cleared => Exists fun filled =>
      relocate reuse moved storage src dst count =
        some (Function.update (Function.update storage src (some cleared)) dst (some filled)) ∧
      extent.Cleared count cleared ∧ filled.capacity = target.capacity ∧
        filled.Holds reuse (values.take count) := by
  induction count with
  | zero =>
      refine ⟨extent, target, ?_, ⟨rfl, fun i => (if_neg (Nat.not_lt_zero i)).symm⟩, rfl, empty⟩
      rw [← found, Function.update_eq_self, ← foundTarget, Function.update_eq_self]
      rfl
  | succ i inductionHypothesis =>
      rcases inductionHypothesis (Nat.le_of_succ_le le) with
        ⟨cleared, filled, before, clear, capacity, filledHolds⟩
      have length : (values.take i).length = i := List.length_take_of_le (Nat.le_of_succ_le le)
      have isObject : cleared.cells i = some values[i] := by
        rw [clear.2 i, if_neg (Nat.lt_irrefl i), holds.object i le, List.getElem?_eq_getElem le]
      have within : i < filled.capacity := by
        rw [capacity]
        exact Nat.lt_of_lt_of_le le room
      have free := filledHolds.free_at_length
      rw [length] at free
      have grown := filledHolds.concat (by rw [length]; exact within) values[i]
      rw [length, List.take_append_getElem le] at grown
      have source : Function.update (Function.update storage src (some cleared)) dst (some filled)
          src = some cleared := by
        rw [Function.update_of_ne different, Function.update_self]
      refine ⟨_, { filled with cells := Function.update filled.cells i (some values[i]) }, ?_,
        clear.succ, capacity, grown⟩
      rw [relocate, before, Option.bind_some, move_one different source isObject
        (Function.update_self _ _ _) within free, update_pair different]

end Relocation

variable (moved) in
/-- Relocation to a region that was just allocated leaves the old one without objects. -/
theorem relocate_fresh {src dst : Region} (found : storage src = some extent)
    (holds : extent.Holds reuse values) (fresh : storage dst = none) {capacity : Nat}
    (room : values.length ≤ capacity) :
    Exists fun cleared => Exists fun filled =>
      relocate reuse moved (Function.update storage dst (some (.raw capacity))) src dst
          values.length =
        some (Function.update (Function.update storage src (some cleared)) dst (some filled)) ∧
      extent.Cleared values.length cleared ∧ filled.capacity = capacity ∧
        filled.Holds reuse values := by
  have different : src ≠ dst := by
    intro same
    rw [same, fresh] at found
    exact absurd found.symm (Option.some_ne_none extent)
  have stillFound : Function.update storage dst (some (.raw capacity)) src = some extent := by
    rw [Function.update_of_ne different, found]
  rcases relocate_holds moved different stillFound holds
      (Function.update_self dst (some (.raw capacity)) storage)
      (Extent.raw_holds reuse capacity) room (Nat.le_refl _) with
    ⟨cleared, filled, relocated, clear, filledCapacity, filledHolds⟩
  rw [List.take_length] at filledHolds
  refine ⟨cleared, filled, ?_, clear, filledCapacity, filledHolds⟩
  rw [relocated, Function.update_comm different.symm, Function.update_idem]

end ObjectStorage
end Foundations
end NexusHft

import NexusHft.Foundations.ObjectStorage

namespace NexusHft

open Foundations

/-!
# The small vector

A vector of at most `N` elements keeps them in its own memory and a larger one in a
block of the heap.  Elements live in storage with lifetimes: what a vector does
with objects that are not there, or with storage it does not have, has no result.

The argument of `emplace_back` is evaluated where the new element is constructed.
It may be a value from elsewhere, whose construction may throw, or a reference to
an object, which is read then and not before.  Sizes are natural numbers: the
storage of a vector is smaller than half the address space, so that twice its
capacity is still a `size_t`.
-/

/-- What the vector uses of its element type: whether its destructor is trivial,
so that it is not called, and what a move leaves behind in the object moved out
of. -/
structure ElementType (T : Type) where
  trivial : Bool
  moved : T -> T

/-- The memory of a vector object, or a block that `operator new` returned.  A
vector's data is in one or the other, and the difference is what a move has to
respect. -/
inductive Region where
  | inlineStorage (id : Nat)
  | heapBlock (block : Nat)
  deriving DecidableEq, Repr

abbrev VectorStorage (T : Type) := ObjectStorage Region T

/-- The argument of a construction: a value that was made before the call (or
whose making throws), or a reference to an element, perhaps of the very vector
that grows. -/
inductive Argument (T : Type) where
  | made (result : Option T)
  | reference (region : Region) (i : Nat)

/-- A vector whose object has the number `id` in what follows.  Without a heap
block its data is the inline storage, which has room for `N` objects. -/
structure SmallVector where
  size : Nat
  capacity : Nat
  heapData : Option Nat
  deriving DecidableEq, Repr

/-- How a call ends: it returns or is left by an exception, with the storage and
the vector as they are then.  A call that reads destroyed storage has no answer.
-/
structure VectorAnswer (T : Type) where
  returned : Bool
  storage : VectorStorage T
  vector : SmallVector

variable {T : Type}

/-- A construction that throws has the value none; one that reads where no object is
has no result. -/
def Argument.evaluate (storage : VectorStorage T) : Argument T -> Option (Option T)
  | .made result => some result
  | .reference region i => (storage.read region i).map some

namespace SmallVector

def empty (N : Nat) : SmallVector := ⟨0, N, none⟩

def data (id : Nat) (vector : SmallVector) : Region :=
  match vector.heapData with
  | none => .inlineStorage id
  | some block => .heapBlock block

/-- The memory of the object, and its block of the heap. -/
def Owns (id : Nat) (vector : SmallVector) : Region -> Prop
  | .inlineStorage other => other = id
  | .heapBlock block => vector.heapData = some block

/-- `operator[]`. -/
def element (storage : VectorStorage T) (id : Nat) (vector : SmallVector) (i : Nat) : Option T :=
  storage.read (vector.data id) i

section Operations

variable (type : ElementType T)

def destroyElements (id : Nat) (vector : SmallVector) (storage : VectorStorage T) :
    Option (VectorStorage T) :=
  if type.trivial then some storage else storage.destroyAll (vector.data id) vector.size

def clear (id : Nat) (vector : SmallVector) (storage : VectorStorage T) :
    Option (VectorStorage T × SmallVector) :=
  (vector.destroyElements type id storage).map fun storage => (storage, { vector with size := 0 })

/-- `operator delete` of the heap block, if there is one. -/
def releaseHeap (vector : SmallVector) (storage : VectorStorage T) : Option (VectorStorage T) :=
  match vector.heapData with
  | none => some storage
  | some block => storage.release type.trivial (.heapBlock block)

def destruct (id : Nat) (vector : SmallVector) (storage : VectorStorage T) :
    Option (VectorStorage T) :=
  (vector.destroyElements type id storage).bind fun storage => vector.releaseHeap type storage

/-- Move the elements to a block of twice the capacity; `operator new` may throw. -/
def grow (id : Nat) (vector : SmallVector) (storage : VectorStorage T) (operatorNew : Option Nat) :
    Option (VectorAnswer T) :=
  match operatorNew with
  | none => some ⟨false, storage, vector⟩
  | some block =>
      let newCap := vector.capacity * 2
      (storage.allocate (.heapBlock block) newCap).bind fun storage =>
        (storage.relocate type.trivial type.moved (vector.data id) (.heapBlock block)
          vector.size).bind fun storage =>
            (vector.releaseHeap type storage).map fun storage =>
              ⟨true, storage, { vector with heapData := some block, capacity := newCap }⟩

/-- Construct the new element behind the last one. -/
def constructBack (id : Nat) (vector : SmallVector) (storage : VectorStorage T)
    (argument : Argument T) : Option (VectorAnswer T) :=
  match argument.evaluate storage with
  | none => none
  | some none => some ⟨false, storage, vector⟩
  | some (some value) =>
      (storage.construct type.trivial (vector.data id) vector.size value).map fun storage =>
        ⟨true, storage, { vector with size := vector.size + 1 }⟩

def emplaceBack (id : Nat) (vector : SmallVector) (storage : VectorStorage T)
    (argument : Argument T) (operatorNew : Option Nat) : Option (VectorAnswer T) :=
  if vector.size = vector.capacity then
    (vector.grow type id storage operatorNew).bind fun grown =>
      if grown.returned then grown.vector.constructBack type id grown.storage argument
      else some grown
  else vector.constructBack type id storage argument

def pushBack (id : Nat) (vector : SmallVector) (storage : VectorStorage T)
    (argument : Argument T) (operatorNew : Option Nat) : Option (VectorAnswer T) :=
  vector.emplaceBack type id storage argument operatorNew

/-- The new vector `id`, and what is left of the vector `other`. -/
def moveConstruct (N id other : Nat) (source : SmallVector) (storage : VectorStorage T) :
    Option (VectorStorage T × SmallVector × SmallVector) :=
  match source.heapData with
  | some block => some (storage, ⟨source.size, source.capacity, some block⟩, empty N)
  | none =>
      (storage.relocate type.trivial type.moved (.inlineStorage other) (.inlineStorage id)
        source.size).map fun storage =>
          (storage, ⟨source.size, source.capacity, none⟩, empty N)

end Operations
end SmallVector

/-- The argument does not refer into the vector. -/
def Argument.Elsewhere (id : Nat) (vector : SmallVector) : Argument T -> Prop
  | .made _ => True
  | .reference region _ => ¬ vector.Owns id region

/-! ## Programs that use vectors -/

/-- The operations on vectors, by the numbers of the objects they are called on.
What decides a call from outside is part of it: the argument, and the answer of
`operator new` if it is asked. -/
inductive VectorCall (T : Type) where
  | construct (id : Nat)
  | emplaceBack (id : Nat) (argument : Argument T) (operatorNew : Option Nat)
  | pushBack (id : Nat) (argument : Argument T) (operatorNew : Option Nat)
  | clear (id : Nat)
  | moveConstruct (id other : Nat)
  | destruct (id : Nat)

/-- All memory that vectors use, and the vectors that are alive.  A region that is
not allocated has no content, so a leak or a double release would be seen. -/
structure VectorsState (T : Type) where
  storage : VectorStorage T
  vectors : Nat -> Option SmallVector

namespace VectorsState

variable (N : Nat) (type : ElementType T)

/-- A call on an existing vector. -/
def callOn (state : VectorsState T) (id : Nat)
    (call : SmallVector -> Option (VectorAnswer T)) : Option (Bool × VectorsState T) :=
  match state.vectors id with
  | none => none
  | some vector => (call vector).map fun answer =>
      (answer.returned, ⟨answer.storage,
        Function.update state.vectors id (some answer.vector)⟩)

/-- The memory of an object is there from before its constructor until after its
destructor. -/
def apply (state : VectorsState T) : VectorCall T -> Option (Bool × VectorsState T)
  | .construct id => (state.storage.allocate (.inlineStorage id) N).map fun storage =>
      (true, ⟨storage, Function.update state.vectors id (some (.empty N))⟩)
  | .emplaceBack id argument operatorNew => state.callOn id fun vector =>
      vector.emplaceBack type id state.storage argument operatorNew
  | .pushBack id argument operatorNew => state.callOn id fun vector =>
      vector.pushBack type id state.storage argument operatorNew
  | .clear id => state.callOn id fun vector =>
      (vector.clear type id state.storage).map fun cleared => ⟨true, cleared.1, cleared.2⟩
  | .moveConstruct id other =>
      match state.vectors other with
      | none => none
      | some source =>
          (state.storage.allocate (.inlineStorage id) N).bind fun storage =>
            (source.moveConstruct type N id other storage).map fun moved =>
              (true, ⟨moved.1, Function.update
                (Function.update state.vectors id (some moved.2.1)) other (some moved.2.2)⟩)
  | .destruct id =>
      match state.vectors id with
      | none => none
      | some vector =>
          (vector.destruct type id state.storage).bind fun storage =>
            (storage.release type.trivial (.inlineStorage id)).map fun storage =>
              (true, ⟨storage, Function.update state.vectors id none⟩)

/-- The argument is an object, but none of the vector that it is inserted in, and
`operator new` returns blocks that nobody has. -/
def LegalInsertion (state : VectorsState T) (id : Nat) (argument : Argument T)
    (operatorNew : Option Nat) : Prop :=
  (Exists fun vector => state.vectors id = some vector ∧ argument.Elsewhere id vector) ∧
    argument.evaluate state.storage ≠ none ∧
      forall block, operatorNew = some block -> state.storage (.heapBlock block) = none

/-- Calls that a program may make, on vectors that exist. -/
def Legal (state : VectorsState T) : VectorCall T -> Prop
  | .construct id => state.vectors id = none
  | .emplaceBack id argument operatorNew => state.LegalInsertion id argument operatorNew
  | .pushBack id argument operatorNew => state.LegalInsertion id argument operatorNew
  | .clear id => state.vectors id ≠ none
  | .moveConstruct id other => state.vectors id = none ∧ state.vectors other ≠ none
  | .destruct id => state.vectors id ≠ none

/-- An insertion is left by an exception of the constructor, or of `operator new` if
the vector is full. -/
def InsertionThrows (state : VectorsState T) (id : Nat) (argument : Argument T)
    (operatorNew : Option Nat) : Prop :=
  argument.evaluate state.storage = some none ∨
    operatorNew = none ∧ Exists fun vector =>
      state.vectors id = some vector ∧ vector.size = vector.capacity

def Throws (state : VectorsState T) : VectorCall T -> Prop
  | .emplaceBack id argument operatorNew => state.InsertionThrows id argument operatorNew
  | .pushBack id argument operatorNew => state.InsertionThrows id argument operatorNew
  | _ => False

end VectorsState

/-- A list after an insertion at its end; one that an exception leaves changes nothing. -/
def appended (values : List T) (value : Option T) (returned : Bool) : List T :=
  match value, returned with
  | some value, true => values ++ [value]
  | _, _ => values

def listsAfter (storage : VectorStorage T) (lists : Nat -> List T) (call : VectorCall T)
    (returned : Bool) : Nat -> List T :=
  match call with
  | .construct id => Function.update lists id []
  | .emplaceBack id argument _ =>
      Function.update lists id (appended (lists id) (argument.evaluate storage).join returned)
  | .pushBack id argument _ =>
      Function.update lists id (appended (lists id) (argument.evaluate storage).join returned)
  | .clear id => Function.update lists id []
  | .moveConstruct id other => Function.update (Function.update lists id (lists other)) other []
  | .destruct id => Function.update lists id []

end NexusHft

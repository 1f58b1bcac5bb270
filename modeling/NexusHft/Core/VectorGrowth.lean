import NexusHft.Core.VectorPrograms
import NexusHft.Foundations.Doubling

namespace NexusHft

open Foundations

/-!
# The growth of small vectors

A vector that is full when an element is to be inserted doubles its storage: `grow`
asks `operator new` for a block and moves the elements there.  Beside each vector
stands what it has been used for since its construction.  A vector that is moved
takes the storage along, and with it the account.
-/

/-- What the storage of a vector has been used for: the most elements it was to
hold at once, how often it has grown, and how many objects were moved for it. -/
structure Usage where
  peak : Nat := 0
  growths : Nat := 0
  relocated : Nat := 0
  deriving DecidableEq, Repr

/-- An insertion asks for room for one more element; without memory it is refused. -/
def Usage.insertion (usage : Usage) (vector : SmallVector) (operatorNew : Option Nat) : Usage :=
  if vector.size = vector.capacity then
    match operatorNew with
    | none => usage
    | some _ => ⟨max usage.peak (vector.size + 1), usage.growths + 1, usage.relocated + vector.size⟩
  else { usage with peak := max usage.peak (vector.size + 1) }

namespace Usage

variable {usage : Usage} {vector : SmallVector}

theorem insertion_room (notFull : vector.size ≠ vector.capacity) (operatorNew : Option Nat) :
    usage.insertion vector operatorNew = { usage with peak := max usage.peak (vector.size + 1) } :=
  if_neg notFull

theorem insertion_refused (full : vector.size = vector.capacity) :
    usage.insertion vector none = usage :=
  if_pos full

theorem insertion_grows (full : vector.size = vector.capacity) (block : Nat) :
    usage.insertion vector (some block) =
      ⟨max usage.peak (vector.size + 1), usage.growths + 1, usage.relocated + vector.size⟩ :=
  if_pos full

end Usage

variable {T : Type}

namespace VectorsState

def insertionUsage (state : VectorsState T) (usages : Nat -> Usage) (id : Nat)
    (operatorNew : Option Nat) : Nat -> Usage :=
  match state.vectors id with
  | none => usages
  | some vector => Function.update usages id ((usages id).insertion vector operatorNew)

def usagesAfter (state : VectorsState T) (usages : Nat -> Usage) : VectorCall T -> Nat -> Usage
  | .construct id => Function.update usages id {}
  | .emplaceBack id _ operatorNew => state.insertionUsage usages id operatorNew
  | .pushBack id _ operatorNew => state.insertionUsage usages id operatorNew
  | .clear _ => usages
  | .moveConstruct id other => Function.update (Function.update usages id (usages other)) other {}
  | .destruct _ => usages

/-- Programs that use vectors, with the lists and the accounts beside them. -/
def accounted (N : Nat) (type : ElementType T) :
    LabelledSystem ((VectorsState T × (Nat -> List T)) × (Nat -> Usage)) (VectorCall T × Bool) where
  starts state := (system N type).starts state.1 ∧ state.2 = fun _ => {}
  step state label next := (system N type).step state.1 label next.1 ∧
    next.2 = state.1.1.usagesAfter state.2 label.1

end VectorsState

/-! ## One vector -/

/-- The storage of a vector is as large as its use requires: `N` doubled as often
as the most elements it was to hold at any time demand, and not once more. -/
structure SmallVector.Grown (N : Nat) (usage : Usage) (vector : SmallVector) : Prop where
  size : vector.size ≤ usage.peak
  doublings : Doublings N usage.peak usage.growths
  capacity : vector.capacity = N * 2 ^ usage.growths
  relocated : usage.relocated + N = vector.capacity

namespace SmallVector

section Insertion

variable {type : ElementType T} {id : Nat} {vector : SmallVector} {storage : VectorStorage T}
  {argument : Argument T} {answer : VectorAnswer T}

/-- A construction behind the last element adds at most one. -/
theorem constructBack_vector
    (constructed : vector.constructBack type id storage argument = some answer) :
    answer.vector.size ≤ vector.size + 1 ∧ answer.vector.capacity = vector.capacity := by
  unfold constructBack at constructed
  cases evaluated : argument.evaluate storage with
  | none => simp [evaluated] at constructed
  | some result =>
      cases result with
      | none =>
          simp only [evaluated, Option.some.injEq] at constructed
          simp [← constructed]
      | some value =>
          simp only [evaluated, Option.map_eq_some_iff] at constructed
          rcases constructed with ⟨storage', -, rfl⟩
          simp

/-- With memory a growth returns, and the capacity is doubled. -/
theorem grow_vector {block : Nat} (grown : vector.grow type id storage (some block) = some answer) :
    answer.returned = true ∧ answer.vector.size = vector.size ∧
      answer.vector.capacity = vector.capacity * 2 := by
  simp only [grow, Option.bind_eq_some_iff, Option.map_eq_some_iff] at grown
  rcases grown with ⟨_, -, _, -, _, -, rfl⟩
  exact ⟨rfl, rfl, rfl⟩

/-- An insertion adds at most one element; it doubles the capacity of a full vector
that gets the memory for it, and leaves any other one. -/
theorem emplaceBack_vector {operatorNew : Option Nat}
    (inserted : vector.emplaceBack type id storage argument operatorNew = some answer) :
    (vector.size ≠ vector.capacity ∧ answer.vector.size ≤ vector.size + 1 ∧
        answer.vector.capacity = vector.capacity) ∨
      (vector.size = vector.capacity ∧ operatorNew = none ∧ answer.vector = vector) ∨
      (vector.size = vector.capacity ∧ operatorNew ≠ none ∧
        answer.vector.size ≤ vector.size + 1 ∧
        answer.vector.capacity = vector.capacity * 2) := by
  unfold emplaceBack at inserted
  by_cases full : vector.size = vector.capacity
  · simp only [if_pos full, Option.bind_eq_some_iff] at inserted
    rcases inserted with ⟨grown, grew, rest⟩
    cases operatorNew with
    | none =>
        cases grew
        simp only [Bool.false_eq_true, if_false, Option.some.injEq] at rest
        exact Or.inr (Or.inl ⟨full, rfl, by rw [← rest]⟩)
    | some block =>
        rcases grow_vector grew with ⟨returned, size, capacity⟩
        simp only [if_pos returned] at rest
        rcases constructBack_vector rest with ⟨size', capacity'⟩
        exact Or.inr (Or.inr ⟨full, nofun, by rw [← size]; exact size', capacity'.trans capacity⟩)
  · rw [if_neg full] at inserted
    exact Or.inl ⟨full, constructBack_vector inserted⟩

end Insertion

namespace Grown

variable {N : Nat} {usage : Usage} {vector : SmallVector}

theorem of_empty (N : Nat) : Grown N {} (empty N) :=
  ⟨Nat.le_refl 0, Doublings.nothing N, by simp [empty], by simp [empty]⟩

theorem clear (grown : Grown N usage vector) : Grown N usage { vector with size := 0 } :=
  ⟨Nat.zero_le _, grown.doublings, grown.capacity, grown.relocated⟩

theorem emplaceBack (positive : 0 < N) (grown : Grown N usage vector) {type : ElementType T}
    {id : Nat} {storage : VectorStorage T} {argument : Argument T} {operatorNew : Option Nat}
    {answer : VectorAnswer T}
    (inserted : vector.emplaceBack type id storage argument operatorNew = some answer) :
    Grown N (usage.insertion vector operatorNew) answer.vector := by
  have fits := grown.doublings.fits
  have size := grown.size
  rw [← grown.capacity] at fits
  rcases emplaceBack_vector inserted with ⟨notFull, size', capacity'⟩ |
    ⟨full, refused, same⟩ | ⟨full, got, size', capacity'⟩
  · -- there is room for one more
    rw [Usage.insertion_room notFull]
    refine ⟨?_, ?_, capacity'.trans grown.capacity, grown.relocated.trans capacity'.symm⟩
    · exact Nat.le_trans size' (Nat.le_max_right _ _)
    · apply grown.doublings.within (Nat.le_max_left _ _)
      rw [← grown.capacity]
      omega
  · rw [refused, Usage.insertion_refused full, same]
    exact grown
  · -- the vector is full: as many elements as the capacity, and one more
    rcases Option.ne_none_iff_exists'.mp got with ⟨block, isBlock⟩
    have asked : max usage.peak (vector.size + 1) = N * 2 ^ usage.growths + 1 := by
      rw [← grown.capacity]
      omega
    rw [isBlock, Usage.insertion_grows full]
    refine ⟨?_, ?_, ?_, ?_⟩
    · exact Nat.le_trans size' (Nat.le_max_right _ _)
    · dsimp only
      rw [asked]
      exact Doublings.double positive usage.growths
    · rw [capacity', grown.capacity, pow_succ, Nat.mul_assoc]
    · have before := grown.relocated
      dsimp only
      omega

/-- The vector has left its own memory exactly when it was to hold more. -/
theorem outgrown_iff (positive : 0 < N) (grown : Grown N usage vector) :
    N < vector.capacity <-> N < usage.peak := by
  rw [← grown.doublings.ne_zero_iff, grown.capacity]
  constructor
  · rintro larger none
    simp [none] at larger
  · intro doubled
    exact (Nat.lt_mul_iff_one_lt_right positive).mpr (Nat.one_lt_two_pow doubled)

/-- Fewer objects have been moved than twice the elements it was to hold. -/
theorem relocated_le (grown : Grown N usage vector) : usage.relocated ≤ 2 * usage.peak := by
  have moved := grown.relocated
  rw [grown.capacity] at moved
  by_cases doubled : usage.growths = 0
  · simp [doubled] at moved
    omega
  · have less := grown.doublings.lt_twice doubled
    omega

/-- Where the elements are does not matter. -/
theorem congr (grown : Grown N usage vector) {other : SmallVector} (size : other.size = vector.size)
    (capacity : other.capacity = vector.capacity) : Grown N usage other :=
  ⟨size.trans_le grown.size, grown.doublings, capacity.trans grown.capacity,
    grown.relocated.trans capacity.symm⟩

end Grown

/-- A move hands over the size and the capacity, and leaves an empty vector. -/
theorem moveConstruct_vectors {N id other : Nat} {type : ElementType T} {source : SmallVector}
    {storage : VectorStorage T} {moved : VectorStorage T × SmallVector × SmallVector}
    (constructed : source.moveConstruct type N id other storage = some moved) :
    moved.2.1.size = source.size ∧ moved.2.1.capacity = source.capacity ∧ moved.2.2 = empty N := by
  unfold moveConstruct at constructed
  cases isHeap : source.heapData with
  | none =>
      simp only [isHeap, Option.map_eq_some_iff] at constructed
      rcases constructed with ⟨_, -, rfl⟩
      simp
  | some block =>
      simp only [isHeap, Option.some.injEq] at constructed
      simp [← constructed]

end SmallVector

/-! ## Runs -/

namespace VectorsState

/-- Every vector is as large as its account says. -/
def AllGrown (N : Nat) (vectors : Nat -> Option SmallVector) (usages : Nat -> Usage) : Prop :=
  forall id vector, vectors id = some vector -> vector.Grown N (usages id)

namespace AllGrown

variable {N : Nat} {type : ElementType T} {state next : VectorsState T} {usages : Nat -> Usage}

theorem change {vectors : Nat -> Option SmallVector} (grown : AllGrown N vectors usages) {id : Nat}
    {vector : Option SmallVector} {usage : Usage}
    (changed : forall changed, vector = some changed -> changed.Grown N usage) :
    AllGrown N (Function.update vectors id vector) (Function.update usages id usage) := by
  intro other found isFound
  by_cases same : other = id
  · subst same
    rw [Function.update_self] at isFound ⊢
    exact changed found isFound
  · rw [Function.update_of_ne same] at isFound ⊢
    exact grown other found isFound

/-- A change that the account does not notice. -/
theorem keep {vectors : Nat -> Option SmallVector} (grown : AllGrown N vectors usages) {id : Nat}
    {vector : Option SmallVector}
    (kept : forall changed, vector = some changed -> changed.Grown N (usages id)) :
    AllGrown N (Function.update vectors id vector) usages := by
  have changed := @change N usages vectors grown id vector (usages id) kept
  rwa [Function.update_eq_self] at changed

variable (grown : AllGrown N state.vectors usages)
include grown

theorem insertion (positive : 0 < N) {id : Nat} {argument : Argument T} {operatorNew : Option Nat}
    {returned : Bool}
    (applied : (state.callOn id fun vector =>
      vector.emplaceBack type id state.storage argument operatorNew) = some (returned, next)) :
    AllGrown N next.vectors (state.insertionUsage usages id operatorNew) := by
  unfold callOn at applied
  cases found : state.vectors id with
  | none => simp [found] at applied
  | some vector =>
      simp only [found, Option.map_eq_some_iff] at applied
      rcases applied with ⟨answer, inserted, isNext⟩
      cases isNext
      simp only [insertionUsage, found]
      apply grown.change
      rintro _ ⟨⟩
      exact (grown id vector found).emplaceBack positive inserted

theorem apply (positive : 0 < N) {call : VectorCall T} {returned : Bool}
    (applied : state.apply N type call = some (returned, next)) :
    AllGrown N next.vectors (state.usagesAfter usages call) := by
  cases call with
  | construct id =>
      simp only [VectorsState.apply, Option.map_eq_some_iff] at applied
      rcases applied with ⟨storage, -, isNext⟩
      cases isNext
      apply grown.change
      rintro _ ⟨⟩
      exact SmallVector.Grown.of_empty N
  | emplaceBack id argument operatorNew => exact grown.insertion positive applied
  | pushBack id argument operatorNew => exact grown.insertion positive applied
  | clear id =>
      unfold VectorsState.apply callOn at applied
      cases found : state.vectors id with
      | none => simp [found] at applied
      | some vector =>
          simp only [found, SmallVector.clear, Option.map_map, Option.map_eq_some_iff] at applied
          rcases applied with ⟨storage, -, isNext⟩
          cases isNext
          apply grown.keep
          rintro _ ⟨⟩
          exact (grown id vector found).clear
  | moveConstruct id other =>
      unfold VectorsState.apply at applied
      cases found : state.vectors other with
      | none => simp [found] at applied
      | some source =>
          simp only [found, Option.bind_eq_some_iff, Option.map_eq_some_iff] at applied
          rcases applied with ⟨storage, -, moved, constructed, isNext⟩
          cases isNext
          rcases SmallVector.moveConstruct_vectors constructed with ⟨size, capacity, left⟩
          apply AllGrown.change
          · apply grown.change
            rintro _ ⟨⟩
            exact (grown other source found).congr size capacity
          · rintro _ ⟨⟩
            rw [left]
            exact SmallVector.Grown.of_empty N
  | destruct id =>
      unfold VectorsState.apply at applied
      cases found : state.vectors id with
      | none => simp [found] at applied
      | some vector =>
          simp only [found, Option.bind_eq_some_iff, Option.map_eq_some_iff] at applied
          rcases applied with ⟨_, -, _, -, isNext⟩
          cases isNext
          apply grown.keep
          rintro _ ⟨⟩

end AllGrown

section Runs

variable {N : Nat} (positive : 0 < N) {type : ElementType T}
  {calls : List (VectorCall T × Bool)} {state : VectorsState T} {lists : Nat -> List T}
  {usages : Nat -> Usage}
include positive

theorem accounted_run (run : (accounted N type).Run calls ((state, lists), usages)) :
    Sound N type state lists ∧ AllGrown N state.vectors usages := by
  apply run.stateInvariant fun state =>
    Sound N type state.1.1 state.1.2 ∧ AllGrown N state.1.1.vectors state.2
  · rintro ⟨_, _⟩ ⟨rfl, rfl⟩
    exact ⟨none_sound N type, nofun⟩
  · rintro ⟨⟨before, listed⟩, used⟩ label ⟨next, used'⟩ ⟨sound, grown⟩ ⟨moved, account⟩
    refine ⟨step_sound positive sound moved, ?_⟩
    dsimp only at account ⊢
    rw [account]
    exact grown.apply positive moved.2.1

/-- In every state of every program: a vector has grown exactly as often as the most
elements it was to hold require, fewer than twice as many objects were moved for
it, and it is on the heap exactly when these were more than fit in its own memory.
The blocks of these vectors are all the blocks there are. -/
theorem vectors_grow (run : (accounted N type).Run calls ((state, lists), usages)) :
    (forall id vector, state.vectors id = some vector ->
      (lists id).length ≤ (usages id).peak ∧
      vector.capacity = N * 2 ^ (usages id).growths ∧
      Doublings N (usages id).peak (usages id).growths ∧
      (usages id).relocated + N = vector.capacity ∧
      (usages id).relocated ≤ 2 * (usages id).peak ∧
      (vector.heapData ≠ none <-> N < (usages id).peak)) ∧
    forall block, state.storage (.heapBlock block) ≠ none <->
      Exists fun id => Exists fun vector => state.vectors id = some vector ∧
        vector.heapData = some block ∧ N < (usages id).peak := by
  rcases accounted_run positive run with ⟨sound, grown⟩
  have heap : forall id vector, state.vectors id = some vector ->
      (vector.heapData ≠ none <-> N < (usages id).peak) := by
    intro id vector found
    exact (sound.stored id vector found).heap_iff.trans ((grown id vector found).outgrown_iff positive)
  constructor
  · intro id vector found
    have isGrown := grown id vector found
    have size := isGrown.size
    rw [(sound.stored id vector found).size] at size
    exact ⟨size, isGrown.capacity, isGrown.doublings, isGrown.relocated, isGrown.relocated_le,
      heap id vector found⟩
  · intro block
    constructor
    · intro allocated
      rcases sound.partitioned.covered _ allocated with ⟨id, vector, found, owned⟩
      have isBlock : vector.heapData = some block := owned
      exact ⟨id, vector, found, isBlock, (heap id vector found).mp (by simp [isBlock])⟩
    · rintro ⟨id, vector, found, isBlock, -⟩
      exact sound.partitioned.allocated id _ ⟨vector, found, isBlock⟩

omit positive in
/-- The second element of a vector for one is on the heap, and the first was moved there. -/
theorem grown_run : Exists fun state => Exists fun lists => Exists fun usages =>
    (accounted 1 emptied).Run [(.construct 0, true), (.pushBack 0 (.made (some 5)) none, true),
      (.pushBack 0 (.made (some 7)) (some 4), true)] ((state, lists), usages) ∧
    usages 0 = ⟨2, 1, 1⟩ := by
  have begins : (accounted 1 emptied).Run [] ((⟨fun _ => none, fun _ => none⟩, fun _ => []),
      fun _ => {}) := .start ⟨rfl, rfl⟩
  have first := begins.step (show (accounted 1 emptied).step _
    (.construct 0, true) ((⟨_, _⟩, _), _) from ⟨⟨rfl, rfl, rfl⟩, rfl⟩)
  have second := first.step (show (accounted 1 emptied).step _
    (.pushBack 0 (.made (some 5)) none, true) ((⟨_, _⟩, _), _) from
      ⟨⟨⟨⟨_, rfl, trivial⟩, nofun, nofun⟩, rfl, rfl⟩, rfl⟩)
  have third := second.step (show (accounted 1 emptied).step _
    (.pushBack 0 (.made (some 7)) (some 4), true) ((⟨_, _⟩, _), _) from
      ⟨⟨⟨⟨_, rfl, trivial⟩, nofun, fun block isNew => by cases isNew; rfl⟩, rfl, rfl⟩, rfl⟩)
  exact ⟨_, _, _, third, rfl⟩

omit positive in
theorem vectors_grow_second : Exists fun calls => Exists fun state => Exists fun lists =>
    Exists fun usages : Nat -> Usage =>
      (accounted 1 emptied).Run calls ((state, lists), usages) ∧ usages 0 = ⟨2, 1, 1⟩ ∧
      forall vector, state.vectors 0 = some vector -> vector.capacity = 2 ∧ vector.heapData ≠ none := by
  rcases grown_run with ⟨state, lists, usages, run, account⟩
  refine ⟨_, state, lists, usages, run, account, ?_⟩
  intro vector found
  have grown := (vectors_grow Nat.one_pos run).1 0 vector found
  simp only [account] at grown
  exact ⟨grown.2.1, grown.2.2.2.2.2.mpr (by decide)⟩

end Runs
end VectorsState
end NexusHft

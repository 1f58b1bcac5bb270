import NexusHft.Core.VectorLists
import NexusHft.Foundations.LabelledRun

namespace NexusHft

open Foundations

/-!
# Programs that use small vectors

Over many vectors each allocated region has one owner, so a call on one of them
leaves the others as they are.  Every call that a program may make has a result,
and its effect is that of the same call on lists.
-/

variable {T : Type}

namespace VectorsState

def OwnedBy (vectors : Nat -> Option SmallVector) (id : Nat) (region : Region) : Prop :=
  Exists fun vector => vectors id = some vector ∧ vector.Owns id region

/-- The invariant of programs over vectors: every vector that is alive stores its
list, and every region that is allocated belongs to exactly one of them. -/
structure Sound (N : Nat) (type : ElementType T) (state : VectorsState T) (lists : Nat -> List T) :
    Prop where
  stored : forall id vector, state.vectors id = some vector ->
    vector.Stored N type state.storage id (lists id)
  partitioned : Partitioned (OwnedBy state.vectors) state.storage

theorem ownedBy_some {vectors : Nat -> Option SmallVector} {id : Nat} {vector : SmallVector}
    (found : vectors id = some vector) : OwnedBy vectors id = vector.Owns id := by
  funext region
  apply propext
  constructor
  · rintro ⟨other, found', owned⟩
    rw [found] at found'
    rw [Option.some.inj found']
    exact owned
  · exact fun owned => ⟨vector, found, owned⟩

theorem ownedBy_none {vectors : Nat -> Option SmallVector} {id : Nat} (absent : vectors id = none) :
    OwnedBy vectors id = fun _ => False := by
  funext region
  apply propext
  refine ⟨?_, False.elim⟩
  rintro ⟨vector, found, -⟩
  exact absurd (absent.symm.trans found) nofun

theorem ownedBy_congr {vectors vectors' : Nat -> Option SmallVector} {id : Nat}
    (same : vectors' id = vectors id) : OwnedBy vectors' id = OwnedBy vectors id := by
  funext region
  rw [OwnedBy, OwnedBy, same]

namespace Sound

variable {N : Nat} {type : ElementType T} {state : VectorsState T} {lists : Nat -> List T}
  (sound : Sound N type state lists)
include sound

/-- A call that touches some of the vectors keeps the others: their regions are
not owned by those, so nothing about them has changed. -/
theorem touch {storage' : VectorStorage T} {vectors' : Nat -> Option SmallVector}
    {lists' : Nat -> List T} (touched : Nat -> Prop)
    (same : forall id, ¬ touched id -> vectors' id = state.vectors id ∧ lists' id = lists id)
    (stored : forall id vector, touched id -> vectors' id = some vector ->
      vector.Stored N type storage' id (lists' id))
    (apart : forall id other, touched id -> touched other -> forall region,
      OwnedBy vectors' id region -> OwnedBy vectors' other region -> id = other)
    (replaces : Replaces (Together (OwnedBy state.vectors) touched)
      (Together (OwnedBy vectors') touched) state.storage storage') :
    Sound N type ⟨storage', vectors'⟩ lists' := by
  constructor
  · intro id vector found
    by_cases isTouched : touched id
    · exact stored id vector isTouched found
    · rcases same id isTouched with ⟨sameVector, sameList⟩
      have found' : state.vectors id = some vector := sameVector.symm.trans found
      dsimp only
      rw [sameList]
      apply (sound.stored id vector found').congr
      intro region owned
      exact sound.partitioned.unchanged replaces isTouched ⟨vector, found', owned⟩
  · apply sound.partitioned.replace replaces
    · exact fun id untouched => ownedBy_congr (same id untouched).1
    · rintro id isTouched region ⟨vector, found, owned⟩
      exact (stored id vector isTouched found).allocated owned
    · exact apart

/-- A call on one vector. -/
theorem change {id : Nat} {storage' : VectorStorage T} {vector' : Option SmallVector}
    {values : List T}
    (stored : forall vector, vector' = some vector -> vector.Stored N type storage' id values)
    (replaces : Replaces (OwnedBy state.vectors id)
      (OwnedBy (Function.update state.vectors id vector') id) state.storage storage') :
    Sound N type ⟨storage', Function.update state.vectors id vector'⟩
      (Function.update lists id values) := by
  apply sound.touch (fun party => party = id)
  · exact fun other untouched =>
      ⟨Function.update_of_ne untouched _ _, Function.update_of_ne untouched _ _⟩
  · rintro other vector rfl found
    rw [Function.update_self] at found ⊢
    exact stored vector found
  · rintro first second rfl rfl _ _ _
    rfl
  · rw [together_one, together_one]
    exact replaces

theorem inline_fresh {id : Nat} (absent : state.vectors id = none) :
    state.storage (.inlineStorage id) = none := by
  by_contra allocated
  rcases sound.partitioned.covered _ allocated with ⟨other, vector, found, owned⟩
  have same : id = other := owned
  rw [← same, absent] at found
  exact absurd found nofun

/-- An operation on one vector that keeps it a list. -/
theorem callOn {id : Nat} {vector : SmallVector} (found : state.vectors id = some vector)
    (operation : SmallVector -> Option (VectorAnswer T)) {answer : VectorAnswer T}
    (called : operation vector = some answer) {values : List T}
    (stored : answer.vector.Stored N type answer.storage id values)
    (replaces : Replaces (vector.Owns id) (answer.vector.Owns id) state.storage answer.storage) :
    Exists fun next => state.callOn id operation = some (answer.returned, next) ∧
      Sound N type next (Function.update lists id values) := by
  refine ⟨⟨answer.storage, Function.update state.vectors id (some answer.vector)⟩, ?_, ?_⟩
  · rw [VectorsState.callOn, found]
    dsimp only
    rw [called]
    rfl
  · apply sound.change
    · intro vector' same
      rw [← Option.some.inj same]
      exact stored
    · rw [ownedBy_some found, ownedBy_some (Function.update_self id _ _)]
      exact replaces

theorem insertion (positive : 0 < N) {id : Nat} {argument : Argument T} {operatorNew : Option Nat}
    (legal : state.LegalInsertion id argument operatorNew) :
    Exists fun returned => Exists fun next =>
      (state.callOn id fun vector => vector.emplaceBack type id state.storage argument operatorNew) =
        some (returned, next) ∧
      (returned = true <-> ¬ state.InsertionThrows id argument operatorNew) ∧
      Sound N type next (Function.update lists id
        (appended (lists id) (argument.evaluate state.storage).join returned)) := by
  rcases legal with ⟨⟨vector, found, elsewhere⟩, evaluates, fresh⟩
  rcases Option.ne_none_iff_exists'.mp evaluates with ⟨value, evaluated⟩
  rcases (sound.stored id vector found).emplaceBack positive evaluated elsewhere fresh with
    ⟨answer, called, returns, stored, replaces⟩
  rcases sound.callOn found (fun vector =>
      vector.emplaceBack type id state.storage argument operatorNew) called stored replaces with
    ⟨next, applied, sound'⟩
  rw [evaluated]
  refine ⟨answer.returned, next, applied, ?_, sound'⟩
  rw [returns, InsertionThrows, evaluated, found]
  simp [not_or, imp_not_comm]

theorem construct {id : Nat} (absent : state.vectors id = none) :
    Exists fun next => state.apply N type (.construct id) = some (true, next) ∧
      Sound N type next (Function.update lists id []) := by
  have fresh := sound.inline_fresh absent
  refine ⟨⟨Function.update state.storage (.inlineStorage id) (some (.raw N)),
    Function.update state.vectors id (some (.empty N))⟩, ?_, ?_⟩
  · rw [VectorsState.apply, ObjectStorage.allocate_fresh fresh]
    rfl
  · apply sound.change
    · intro vector same
      rw [← Option.some.inj same]
      exact SmallVector.empty_stored (Function.update_self _ _ _) rfl (Extent.raw_holds _ _)
    · rw [ownedBy_none absent, ownedBy_some (Function.update_self id _ _)]
      refine ⟨?_, fun _ owned => owned.elim, ?_⟩
      · intro region _ notOwned
        apply Function.update_of_ne
        rintro rfl
        exact notOwned rfl
      · intro region owned
        cases region with
        | inlineStorage other =>
            have same : other = id := owned
            rw [same]
            exact Or.inr fresh
        | heapBlock block => exact absurd owned nofun

theorem destruct {id : Nat} (present : state.vectors id ≠ none) :
    Exists fun next => state.apply N type (.destruct id) = some (true, next) ∧
      Sound N type next (Function.update lists id []) := by
  rcases Option.ne_none_iff_exists'.mp present with ⟨vector, found⟩
  rcases (sound.stored id vector found).destruct with ⟨storage', destructed, replaces⟩
  refine ⟨⟨storage', Function.update state.vectors id none⟩, ?_, ?_⟩
  · rw [VectorsState.apply, found]
    have answered := congrArg (Option.map fun storage =>
      (true, VectorsState.mk storage (Function.update state.vectors id none))) destructed
    rw [Option.map_bind] at answered
    exact answered
  · apply sound.change
    · intro vector' absent
      cases absent
    · rw [ownedBy_some found, ownedBy_none (Function.update_self id _ _)]
      exact replaces

/-- A move touches two vectors: what the new one takes is apart from what the old
one keeps, whether that is the block or the elements. -/
theorem moved {id other : Nat} {source : SmallVector} (absent : state.vectors id = none)
    (found : state.vectors other = some source) {storage' : VectorStorage T}
    (movedTo : source.MovedTo N type other id (lists other) state.storage storage') :
    Sound N type ⟨storage', Function.update (Function.update state.vectors id (some source)) other
        (some (.empty N))⟩
      (Function.update (Function.update lists id (lists other)) other []) := by
  have different : id ≠ other := by
    rintro rfl
    rw [absent] at found
    exact absurd found.symm (Option.some_ne_none source)
  have isNew : Function.update (Function.update state.vectors id (some source)) other
      (some (.empty N)) id = some source := by
    rw [Function.update_of_ne different, Function.update_self]
  apply sound.touch (fun party => party = id ∨ party = other)
  · intro party untouched
    rcases not_or.mp untouched with ⟨notNew, notOld⟩
    constructor
    · rw [Function.update_of_ne notOld, Function.update_of_ne notNew]
    · rw [Function.update_of_ne notOld, Function.update_of_ne notNew]
  · rintro party vector (rfl | rfl) holder
    · rw [isNew] at holder
      rw [← Option.some.inj holder, Function.update_of_ne different, Function.update_self]
      exact movedTo.stored
    · rw [Function.update_self] at holder ⊢
      rw [← Option.some.inj holder]
      exact movedTo.emptied
  · rintro first second (rfl | rfl) (rfl | rfl) region owned owned'
    · rfl
    · rw [ownedBy_some isNew] at owned
      rw [ownedBy_some (Function.update_self _ _ _)] at owned'
      exact (SmallVector.owns_empty_apart different owned owned').elim
    · rw [ownedBy_some isNew] at owned'
      rw [ownedBy_some (Function.update_self _ _ _)] at owned
      exact (SmallVector.owns_empty_apart different owned' owned).elim
    · rfl
  · rw [together_two, together_two, ownedBy_none absent, ownedBy_some found, ownedBy_some isNew,
      ownedBy_some (Function.update_self _ _ _)]
    simp only [false_or]
    exact movedTo.replaces

theorem moveConstruct {id other : Nat} (absent : state.vectors id = none)
    (present : state.vectors other ≠ none) :
    Exists fun next => state.apply N type (.moveConstruct id other) = some (true, next) ∧
      next.vectors other = some (.empty N) ∧
      Sound N type next
        (Function.update (Function.update lists id (lists other)) other []) := by
  rcases Option.ne_none_iff_exists'.mp present with ⟨source, found⟩
  have fresh := sound.inline_fresh absent
  rcases (sound.stored other source found).moveConstruct fresh with ⟨storage', movedTo⟩
  refine ⟨_, ?_, Function.update_self _ _ _, sound.moved absent found movedTo⟩
  rw [VectorsState.apply, found]
  dsimp only
  rw [ObjectStorage.allocate_fresh fresh, Option.bind_some, movedTo.moved]
  rfl

/-- A call that a program may make has a result, and it does to the lists what it
says.  This is the step lemma of every run of vectors. -/
theorem call (positive : 0 < N) {call : VectorCall T} (legal : state.Legal call) :
    Exists fun returned => Exists fun next =>
      state.apply N type call = some (returned, next) ∧ (returned = true <-> ¬ state.Throws call) ∧
        Sound N type next (listsAfter state.storage lists call returned) := by
  cases call with
  | construct id =>
      rcases sound.construct legal with ⟨next, applied, sound'⟩
      exact ⟨true, next, applied, by simp [Throws], sound'⟩
  | emplaceBack id argument operatorNew => exact sound.insertion positive legal
  | pushBack id argument operatorNew => exact sound.insertion positive legal
  | clear id =>
      rcases Option.ne_none_iff_exists'.mp legal with ⟨vector, found⟩
      rcases (sound.stored id vector found).clear with ⟨storage', cleared, stored, replaces⟩
      have called := congrArg (Option.map fun cleared =>
        VectorAnswer.mk true cleared.1 cleared.2) cleared
      rcases sound.callOn found (fun vector => (vector.clear type id state.storage).map
          fun cleared => ⟨true, cleared.1, cleared.2⟩) called stored replaces with
        ⟨next, applied, sound'⟩
      exact ⟨true, next, applied, by simp [Throws], sound'⟩
  | moveConstruct id other =>
      rcases sound.moveConstruct legal.1 legal.2 with ⟨next, applied, -, sound'⟩
      exact ⟨true, next, applied, by simp [Throws], sound'⟩
  | destruct id =>
      rcases sound.destruct legal with ⟨next, applied, sound'⟩
      exact ⟨true, next, applied, by simp [Throws], sound'⟩

theorem live_iff (managed : type.trivial = false) (region : Region) (i : Nat) :
    state.storage.read region i ≠ none <-> Exists fun id => Exists fun vector =>
      state.vectors id = some vector ∧ region = vector.data id ∧ i < vector.size := by
  constructor
  · intro isObject
    have allocated : state.storage region ≠ none := by
      intro absent
      rw [ObjectStorage.read, absent] at isObject
      exact isObject rfl
    rcases sound.partitioned.covered region allocated with ⟨id, vector, found, owned⟩
    exact ⟨id, vector, found, ((sound.stored id vector found).object_iff managed owned i).mp isObject⟩
  · rintro ⟨id, vector, found, isData, lt⟩
    have owned := SmallVector.data_owned id vector
    rw [← isData] at owned
    exact ((sound.stored id vector found).object_iff managed owned i).mpr ⟨isData, lt⟩

end Sound

/-! ## Runs -/

/-- Programs that use vectors, beside the lists that the same calls build.  A
label is a call and whether it returned.  The calls are in any order and on any
vectors, as long as each is legal where it stands. -/
def system (N : Nat) (type : ElementType T) :
    LabelledSystem (VectorsState T × (Nat -> List T)) (VectorCall T × Bool) where
  starts state := state = (⟨fun _ => none, fun _ => none⟩, fun _ => [])
  step state label next := state.1.Legal label.1 ∧
    state.1.apply N type label.1 = some (label.2, next.1) ∧
    next.2 = listsAfter state.1.storage state.2 label.1 label.2

theorem none_sound (N : Nat) (type : ElementType T) :
    Sound N type ⟨fun _ => none, fun _ => none⟩ fun _ => [] := by
  refine ⟨nofun, ⟨?_, ?_, ?_⟩⟩
  · rintro party region ⟨vector, found, -⟩
    exact absurd found nofun
  · rintro party other region ⟨vector, found, -⟩
    exact absurd found nofun
  · exact fun region allocated => absurd rfl allocated

/-- Elements whose destructor is not trivial, and that a move leaves without a value. -/
def emptied : ElementType Nat := ⟨false, fun _ => 0⟩

theorem noVectors_run (N : Nat) :
    (system N emptied).Run [] (⟨fun _ => none, fun _ => none⟩, fun _ => []) := .start rfl

section Runs

variable {N : Nat} (positive : 0 < N) {type : ElementType T}
  {calls : List (VectorCall T × Bool)} {state : VectorsState T} {lists : Nat -> List T}
include positive

theorem step_sound {label : VectorCall T × Bool} {next : VectorsState T × (Nat -> List T)}
    (sound : Sound N type state lists) (moved : (system N type).step (state, lists) label next) :
    Sound N type next.1 next.2 := by
  rcases moved with ⟨legal, applied, after⟩
  rcases sound.call positive legal with ⟨returned, reached, applied', -, sound'⟩
  rw [applied'] at applied
  have both := Prod.mk.inj (Option.some.inj applied)
  rw [after, ← both.1, ← both.2]
  exact sound'

theorem run_sound (run : (system N type).Run calls (state, lists)) : Sound N type state lists := by
  apply run.stateInvariant (fun state => Sound N type state.1 state.2)
  · rintro state rfl
    exact none_sound N type
  · exact fun state label next sound moved => step_sound positive sound moved

/-- In every state of every program, the vectors are the lists that the same calls
build: no call fails, the elements are all the objects there are, and a vector that
was moved from is empty. -/
theorem refines_lists (run : (system N type).Run calls (state, lists)) :
    (forall id vector, state.vectors id = some vector ->
      vector.size = (lists id).length ∧
      (forall i (lt : i < (lists id).length),
        vector.element state.storage id i = some (lists id)[i]) ∧
      vector.size ≤ vector.capacity ∧ (vector.heapData ≠ none <-> N < vector.capacity)) ∧
    (forall call, state.Legal call -> Exists fun returned => Exists fun next =>
      state.apply N type call = some (returned, next) ∧
        (returned = true <-> ¬ state.Throws call)) ∧
    (type.trivial = false -> forall region i, state.storage.read region i ≠ none <->
      Exists fun id => Exists fun vector =>
        state.vectors id = some vector ∧ region = vector.data id ∧ i < vector.size) ∧
    (forall region, state.storage region ≠ none <->
      Exists fun id => OwnedBy state.vectors id region ∧
        forall other, OwnedBy state.vectors other region -> other = id) ∧
    (forall past id other returned, calls = past ++ [(.moveConstruct id other, returned)] ->
      state.vectors other = some (.empty N) ∧ lists other = []) := by
  have sound := run_sound positive run
  refine ⟨?_, ?_, ?_, ?_, ?_⟩
  · intro id vector found
    have stored := sound.stored id vector found
    exact ⟨stored.size, fun i lt => stored.element_eq lt, stored.size_le, stored.heap_iff⟩
  · intro call legal
    rcases sound.call positive legal with ⟨returned, next, applied, returns, -⟩
    exact ⟨returned, next, applied, returns⟩
  · exact fun managed => sound.live_iff managed
  · intro region
    constructor
    · intro allocated
      rcases sound.partitioned.covered region allocated with ⟨id, owned⟩
      exact ⟨id, owned, fun other owned' => sound.partitioned.apart other id region owned' owned⟩
    · rintro ⟨id, owned, -⟩
      exact sound.partitioned.allocated id region owned
  · rintro past id other returned rfl
    rcases run.last with ⟨before, earlier, legal, applied, after⟩
    rcases (run_sound positive earlier).moveConstruct legal.1 legal.2 with
      ⟨next, moved, emptied, -⟩
    rw [moved] at applied
    have both := Prod.mk.inj (Option.some.inj applied)
    dsimp only at both after
    rw [← both.2, after]
    exact ⟨emptied, Function.update_self _ _ _⟩

omit positive in
/-- Two elements, the second of them on the heap, are moved to another vector. -/
theorem refines_lists_moved : Exists fun state => Exists fun lists =>
    (system 1 emptied).Run [(.construct 0, true), (.pushBack 0 (.made (some 5)) none, true),
      (.pushBack 0 (.made (some 7)) (some 0), true), (.moveConstruct 1 0, true)] (state, lists) ∧
    lists 1 = [5, 7] ∧ state.vectors 0 = some (.empty 1) ∧ lists 0 = [] := by
  have first := (noVectors_run 1).step (show (system 1 emptied).step _
    (.construct 0, true) (⟨_, _⟩, _) from ⟨rfl, rfl, rfl⟩)
  have second := first.step (show (system 1 emptied).step _
    (.pushBack 0 (.made (some 5)) none, true) (⟨_, _⟩, _) from
      ⟨⟨⟨_, rfl, trivial⟩, nofun, nofun⟩, rfl, rfl⟩)
  have third := second.step (show (system 1 emptied).step _
    (.pushBack 0 (.made (some 7)) (some 0), true) (⟨_, _⟩, _) from
      ⟨⟨⟨_, rfl, trivial⟩, nofun, fun _ _ => rfl⟩, rfl, rfl⟩)
  have last := third.step (show (system 1 emptied).step _
    (.moveConstruct 1 0, true) (⟨_, _⟩, _) from ⟨⟨rfl, nofun⟩, rfl, rfl⟩)
  refine ⟨_, _, last, rfl, ?_⟩
  exact (refines_lists Nat.one_pos last).2.2.2.2 _ _ _ _ rfl

/-- `v.push_back(v[i])` returns, with a copy of the element as it was behind the
elements that were there. -/
def AppendsOwn (N : Nat) (type : ElementType T) (state : VectorsState T) (id : Nat)
    (vector : SmallVector) (i : Nat) (operatorNew : Option Nat) : Prop :=
  Exists fun next => Exists fun vector' =>
    state.apply N type (.pushBack id (.reference (vector.data id) i) operatorNew) =
      some (true, next) ∧
    next.vectors id = some vector' ∧ vector'.size = vector.size + 1 ∧
    vector'.element next.storage id vector.size = vector.element state.storage id i ∧
    forall j, j < vector.size ->
      vector'.element next.storage id j = vector.element state.storage id j

/-- An element can be appended to its own vector unless the vector is full: then, even
if there is memory to grow to, the call reads where no object is. -/
theorem appendsOwn_iff (run : (system N type).Run calls (state, lists)) {id : Nat}
    {vector : SmallVector} (found : state.vectors id = some vector) {i : Nat}
    (lt : i < vector.size) {operatorNew : Option Nat}
    (fresh : forall block, operatorNew = some block -> state.storage (.heapBlock block) = none) :
    AppendsOwn N type state id vector i operatorNew <-> vector.size ≠ vector.capacity := by
  have stored := (run_sound positive run).stored id vector found
  constructor
  · rintro ⟨next, vector', applied, -⟩ full
    rw [apply, VectorsState.callOn, found] at applied
    dsimp only at applied
    cases operatorNew with
    | none =>
        rw [SmallVector.pushBack, SmallVector.emplaceBack, if_pos full] at applied
        exact Bool.false_ne_true (Prod.mk.inj (Option.some.inj applied)).1
    | some block =>
        rw [stored.pushBack_own_full lt positive full (fresh block rfl)] at applied
        exact absurd applied.symm (Option.some_ne_none _)
  · intro room
    rcases stored.pushBack_own lt room operatorNew with
      ⟨storage', value, isElement, pushed, stored'⟩
    refine ⟨⟨storage', Function.update state.vectors id
      (some { vector with size := vector.size + 1 })⟩, { vector with size := vector.size + 1 },
      ?_, Function.update_self _ _ _, rfl, ?_, ?_⟩
    · rw [apply, VectorsState.callOn, found]
      dsimp only
      rw [pushed]
      rfl
    · have last : vector.size < (lists id ++ [value]).length := by
        rw [List.length_append, List.length_singleton, stored.size]
        exact Nat.lt_succ_self _
      rw [isElement, stored'.element_eq last]
      simp [stored.size]
    · intro j before
      rw [stored.size] at before
      have within : j < (lists id ++ [value]).length := by
        rw [List.length_append]
        exact Nat.lt_add_right _ before
      rw [stored'.element_eq within, stored.element_eq before, List.getElem_append_left before]

end Runs

/-- A vector with room for another element. -/
theorem appendsOwn_room : Exists fun calls => Exists fun state => Exists fun lists =>
    (system 2 emptied).Run calls (state, lists) ∧ AppendsOwn 2 emptied state 0 ⟨1, 2, none⟩ 0 none := by
  have first := (noVectors_run 2).step (show (system 2 emptied).step _
    (.construct 0, true) (⟨_, _⟩, _) from ⟨rfl, rfl, rfl⟩)
  have second := first.step (show (system 2 emptied).step _
    (.pushBack 0 (.made (some 5)) none, true) (⟨_, _⟩, _) from
      ⟨⟨⟨_, rfl, trivial⟩, nofun, nofun⟩, rfl, rfl⟩)
  refine ⟨_, _, _, second, ?_⟩
  apply (appendsOwn_iff Nat.two_pos second rfl Nat.one_pos ?_).mpr
  · decide
  · exact fun block absent => absurd absent nofun

/-- A full vector of one element. -/
theorem own_element_lost : ¬ forall (N : Nat) (type : ElementType Nat)
    (calls : List (VectorCall Nat × Bool)) (state : VectorsState Nat) (lists : Nat -> List Nat),
    0 < N -> (system N type).Run calls (state, lists) ->
    forall id vector, state.vectors id = some vector -> forall i, i < vector.size ->
    forall block, state.storage (.heapBlock block) = none ->
      AppendsOwn N type state id vector i (some block) := by
  intro all
  have first := (noVectors_run 1).step (show (system 1 emptied).step _
    (.construct 0, true) (⟨_, _⟩, _) from ⟨rfl, rfl, rfl⟩)
  have second := first.step (show (system 1 emptied).step _
    (.pushBack 0 (.made (some 5)) none, true) (⟨_, _⟩, _) from
      ⟨⟨⟨_, rfl, trivial⟩, nofun, nofun⟩, rfl, rfl⟩)
  rcases all 1 emptied _ _ _ Nat.one_pos second 0 _ rfl 0 Nat.one_pos 0 rfl with
    ⟨next, vector', applied, -⟩
  exact absurd applied nofun
end VectorsState
end NexusHft

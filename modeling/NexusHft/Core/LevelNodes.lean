import NexusHft.Core.OrderBook
import NexusHft.Core.PoolAllocator

namespace NexusHft

open Foundations

/-!
# The nodes of the price maps

A `std::map` keeps each of its entries in a node, and the two maps of a book take their
nodes from an arena each.  An operation on the book needs a node for every new price
level and gives the node of an erased level back.  In between the map writes to its
nodes as it likes.
-/

/-- What an operation on the book does to the entries of its maps.  Only these two
reach the allocator; every other change of a level happens inside its node. -/
inductive MapCall where
  | emplace (side : Side) (price : Price)
  | erase (side : Side) (price : Price)
  deriving DecidableEq, Repr

/-- The prices at which the maps have an entry. -/
abbrev BookPrices := (side : Side) -> OrderedMap Price Unit side.precedes

def OrderBook.prices (book : OrderBook) : BookPrices := fun side =>
  (book.levels side).withoutValues

/-- A price is emplaced only where it is absent. -/
def MapCall.StepTo (prices : BookPrices) (call : MapCall) (next : BookPrices) : Prop :=
  match call with
  | .emplace side price => (prices side).find price = none ∧
      next = Function.update prices side ((prices side).emplace price ())
  | .erase side price => next = Function.update prices side ((prices side).erase price)

/-- The prices of the two maps, as emplacing and erasing entries change them. -/
def MapCall.system (prices : BookPrices) : LabelledSystem BookPrices MapCall where
  starts start := start = prices
  step := MapCall.StepTo

/-! ## Nodes -/

def maxPriceLevels : UInt64 := 512

def mapSlotMaxBytes : UInt64 := 256

/-- `alignof(std::max_align_t)`. -/
def mapSlotAlign : UInt64 := 16

def arenaBytes : UInt64 := maxPriceLevels * mapSlotMaxBytes

/-- The two arena buffers of a book, which lie apart, and the size of a map node.
The size depends on the standard library; all that is used of it is that a slot
has room for a node. -/
structure BookArenas where
  buffer : Side -> Buffer
  bytes : forall side, (buffer side).bytes = arenaBytes
  apart : forall side, (buffer side).block.Apart (buffer side.opposite).block
  nodeSize : UInt64
  fits : nodeSize ≤ mapSlotMaxBytes

/-- The allocator of one map, and the node of each entry.  The nodes are kept by
price, in the order of the map, beside the entries of which nothing else is used
here. -/
structure LevelNodes (side : Side) where
  allocator : AllocatorState
  nodes : OrderedMap Price Holding side.precedes

abbrev BookNodes := (side : Side) -> LevelNodes side

/-- What happens to the nodes; an entry that is emplaced has got this node.  A
client may also write any byte of a node it holds, which is all that the map and
the levels ever do to the memory. -/
inductive NodeCall where
  | emplace (side : Side) (price : Price) (holding : Holding)
  | erase (side : Side) (price : Price)
  | write (side : Side) (price : Price) (offset : Nat) (byte : Byte)

namespace NodeCall

def mapCall : NodeCall -> Option MapCall
  | emplace side price _ => some (.emplace side price)
  | erase side price => some (.erase side price)
  | write _ _ _ _ => none

/-- `operator new` has been called for a node. -/
def FromHeap : NodeCall -> Prop
  | emplace _ _ holding => holding.origin = .heap
  | erase _ _ => False
  | write _ _ _ _ => False

/-- A node is asked for one at a time, and one from the heap lies apart from everything
that is in use.  Writes stay inside of a node. -/
def StepTo (arenas : BookArenas) (nodes : BookNodes) (call : NodeCall) (next : BookNodes) : Prop :=
  match call with
  | .emplace side price holding => Exists fun operatorNew => Exists fun allocator =>
      AllocatorState.StepTo (arenas.buffer side) (nodes side).allocator
        (.allocate 1 arenas.nodeSize operatorNew) allocator ∧
      allocator.live = holding :: (nodes side).allocator.live ∧
      (holding.origin = .heap -> forall other, AllocatorState.Fresh (arenas.buffer other)
        (nodes other).allocator.heap holding.block) ∧
      next = Function.update nodes side ⟨allocator, (nodes side).nodes.emplace price holding⟩
  | .erase side price => next = Function.update nodes side
      (match (nodes side).nodes.find price with
        | none => nodes side
        | some holding =>
            ⟨(nodes side).allocator.deallocate holding, (nodes side).nodes.erase price⟩)
  | .write side price offset byte => Exists fun holding => Exists fun allocator =>
      (nodes side).nodes.find price = some holding ∧
      AllocatorState.StepTo (arenas.buffer side) (nodes side).allocator
        (.store holding offset byte) allocator ∧
      next = Function.update nodes side ⟨allocator, (nodes side).nodes⟩

/-- The nodes of the two maps from any state on.  A step is one call of a map,
served by the allocator of its side, or a write to a node that is held. -/
def system (arenas : BookArenas) (nodes : BookNodes) : LabelledSystem BookNodes NodeCall where
  starts start := start = nodes
  step := StepTo arenas

end NodeCall

/-- The constructor of the book cuts both arenas, over memory of any content. -/
def BookNodes.init (arenas : BookArenas) (memory : Side -> Memory) : BookNodes := fun side =>
  let cut := ArenaState.init (arenas.buffer side) mapSlotMaxBytes mapSlotAlign (memory side)
  ⟨⟨cut.1, cut.2, [], []⟩, OrderedMap.empty⟩

/-! ## One call of an allocator -/

namespace AllocatorState

variable {buffer : Buffer} {state next : AllocatorState} {holding : Holding}

/-- A single object comes from the arena unless that has no slot left. -/
theorem allocate_one (state : AllocatorState) (sizeofT : UInt64) (operatorNew : UInt64 -> Option Nat) :
    (Exists fun slot => state.arena.freelist = some slot ∧
      state.allocate 1 sizeofT operatorNew = { state with
        arena := { state.arena with freelist := state.memory.loadPointer slot }
        live := ⟨slot, 1, sizeofT, .arena⟩ :: state.live }) ∨
    (state.arena.freelist = none ∧ (state.allocate 1 sizeofT operatorNew = state ∨
      Exists fun p => state.allocate 1 sizeofT operatorNew = { state with
        heap := ⟨p, (1 * sizeofT).toNat⟩ :: state.heap
        live := ⟨p, 1, sizeofT, .heap⟩ :: state.live })) := by
  unfold allocate PoolAllocator.allocate ArenaState.allocate
  cases head : state.arena.freelist with
  | some slot => exact Or.inl ⟨slot, rfl, rfl⟩
  | none =>
      refine Or.inr ⟨rfl, ?_⟩
      cases answer : operatorNew (1 * sizeofT) with
      | none => exact Or.inl rfl
      | some p => exact Or.inr ⟨p, rfl⟩

/-- What a single object is held as, and that the heap is not asked before the arena is used up. -/
theorem allocate_holding {sizeofT : UInt64} {operatorNew : UInt64 -> Option Nat}
    (grown : (state.allocate 1 sizeofT operatorNew).live = holding :: state.live) :
    holding.n = 1 ∧ holding.sizeofT = sizeofT ∧
      (holding.origin = .heap -> state.arena.freelist = none) := by
  rcases allocate_one state sizeofT operatorNew with ⟨slot, -, same⟩ | ⟨none, same | ⟨p, same⟩⟩
  · rw [same] at grown
    rw [← (List.cons.inj grown).1]
    exact ⟨rfl, rfl, by simp⟩
  · rw [same] at grown
    exact absurd (congrArg List.length grown) (by simp)
  · rw [same] at grown
    rw [← (List.cons.inj grown).1]
    exact ⟨rfl, rfl, fun _ => none⟩

/-- No call cuts the arena anew. -/
theorem arena_relinked {call : AllocatorCall} (moved : StepTo buffer state call next) :
    Exists fun freelist => next.arena = { state.arena with freelist := freelist } := by
  cases call with
  | allocate n sizeofT operatorNew =>
      rw [moved.2, allocate]
      rcases PoolAllocator.allocate_cases state.arena state.memory n sizeofT operatorNew with
        ⟨slot, -, -, served⟩ | served
      · rw [served]
        exact ⟨_, rfl⟩
      · rw [served]
        cases operatorNew (n * sizeofT) <;> exact ⟨_, rfl⟩
  | deallocate freed =>
      rw [moved.2, deallocate, PoolAllocator.deallocate]
      by_cases owned : state.arena.Owns freed.address
      · rw [if_pos owned]
        exact ⟨_, rfl⟩
      · rw [if_neg owned]
        exact ⟨_, rfl⟩
  | store written offset byte =>
      rw [moved.2.2]
      exact ⟨_, rfl⟩

/-- An arena without a free slot has a holding for each of its slots. -/
theorem Sound.used_up {free : List Nat} (sound : Sound buffer state free)
    (none : state.arena.freelist = none) : (state.held .arena).length = state.arena.slots.length := by
  have threaded := sound.parted.threaded
  have whole := sound.parted.whole.length_eq
  rw [none] at threaded
  have empty : free = [] := by
    cases free with
    | nil => rfl
    | cons slot free => exact absurd threaded.1 (Option.some_ne_none slot).symm
  rw [empty, List.nil_append, List.length_map] at whole
  exact whole

/-- What two allocators with buffers of their own have given out lies apart: slots
of different buffers, or a block of the heap, which is outside of both. -/
theorem apart_across {buffer buffer' : Buffer} {state state' : AllocatorState} {free free' : List Nat}
    (sound : Sound buffer state free) (sound' : Sound buffer' state' free')
    (buffers : buffer.block.Apart buffer'.block) {first second : Holding}
    (isLive : first ∈ state.live) (isLive' : second ∈ state'.live)
    (outside : first.origin = .heap -> first.block.room.Apart buffer'.block)
    (outside' : second.origin = .heap -> second.block.room.Apart buffer.block)
    (blocks : first.origin = .heap -> second.origin = .heap ->
      first.block.room.Apart second.block.room) :
    (first.space state.arena.slotSize).Apart (second.space state'.arena.slotSize) := by
  unfold Holding.space
  cases origin : first.origin with
  | arena =>
      have slot := sound.held_slot (mem_held.mpr ⟨isLive, origin⟩)
      cases origin' : second.origin with
      | arena =>
          have slot' := sound'.held_slot (mem_held.mpr ⟨isLive', origin'⟩)
          exact (sound.slot_apart slot (sound'.slot_apart slot' buffers).symm).symm
      | heap => exact (sound.slot_apart slot (outside' origin')).symm
  | heap =>
      cases origin' : second.origin with
      | arena => exact sound'.slot_apart (sound'.held_slot (mem_held.mpr ⟨isLive', origin'⟩)) (outside origin)
      | heap => exact blocks origin origin'

end AllocatorState

/-! ## One node for every price -/

/-- The nodes of a map are what its allocator has given out, one for each price.
The allocator's own invariant is part of it, and so is that the arena was cut into
as many slots as the map may have levels. -/
structure LevelNodes.Sound (arenas : BookArenas) {side : Side} (nodes : LevelNodes side)
    (prices : OrderedMap Price Unit side.precedes) : Prop where
  allocated : Exists (AllocatorState.Sound (arenas.buffer side) nodes.allocator)
  keyed : nodes.nodes.withoutValues = prices
  live : nodes.allocator.live.Perm (nodes.nodes.entries.map Prod.snd)
  single : forall holding, holding ∈ nodes.allocator.live ->
    holding.n = 1 ∧ holding.sizeofT = arenas.nodeSize
  slots : nodes.allocator.arena.slots.length = maxPriceLevels.toNat
  slotSize : nodes.allocator.arena.slotSize = mapSlotMaxBytes

namespace LevelNodes.Sound

variable {arenas : BookArenas} {side : Side} {nodes : LevelNodes side}
  {prices : OrderedMap Price Unit side.precedes} {price : Price} {holding : Holding}
  {allocator : AllocatorState} (sound : nodes.Sound arenas prices)
include sound

theorem length_live : nodes.allocator.live.length = prices.entries.length := by
  rw [sound.live.length_eq, List.length_map, ← sound.keyed, OrderedMap.withoutValues_length]

theorem find_prices (price : Price) :
    prices.find price = (nodes.nodes.find price).map fun _ => () := by
  rw [← sound.keyed, OrderedMap.withoutValues_find]

theorem emplace {operatorNew : UInt64 -> Option Nat} (absent : prices.find price = none)
    (moved : AllocatorState.StepTo (arenas.buffer side) nodes.allocator
      (.allocate 1 arenas.nodeSize operatorNew) allocator)
    (grown : allocator.live = holding :: nodes.allocator.live) :
    Sound arenas ⟨allocator, nodes.nodes.emplace price holding⟩ (prices.emplace price ()) := by
  have absentNode : nodes.nodes.find price = none := by
    rw [sound.find_prices] at absent
    exact Option.map_eq_none_iff.mp absent
  rcases sound.allocated with ⟨free, isSound⟩
  rcases AllocatorState.arena_relinked moved with ⟨freelist, relinked⟩
  rcases OrderedMap.emplace_entries absentNode holding with ⟨front, back, entries, inserted⟩
  refine ⟨isSound.step moved, ?_, ?_, ?_, ?_, ?_⟩
  · rw [OrderedMap.withoutValues_emplace, sound.keyed]
  · have live := sound.live
    rw [entries, List.map_append] at live
    rw [grown, inserted, List.map_append, List.map_cons]
    exact (live.cons holding).trans List.perm_middle.symm
  · intro other isLive
    rw [grown] at isLive
    rcases List.mem_cons.mp isLive with same | earlier
    · have answer := moved.2 ▸ grown
      rw [same]
      exact ⟨(AllocatorState.allocate_holding answer).1, (AllocatorState.allocate_holding answer).2.1⟩
    · exact sound.single other earlier
  · rw [relinked, ArenaState.slots_relink]
    exact sound.slots
  · rw [relinked]
    exact sound.slotSize

theorem erase (price : Price) : Sound arenas (match nodes.nodes.find price with
    | none => nodes
    | some holding => ⟨nodes.allocator.deallocate holding, nodes.nodes.erase price⟩)
    (prices.erase price) := by
  have erased : (nodes.nodes.erase price).withoutValues = prices.erase price := by
    rw [OrderedMap.withoutValues_erase, sound.keyed]
  cases found : nodes.nodes.find price with
  | none =>
      rw [OrderedMap.erase_of_absent found, sound.keyed] at erased
      rw [← erased]
      exact sound
  | some holding =>
      rcases OrderedMap.find_eq_some found with ⟨front, back, entries⟩
      have live := sound.live
      rw [entries, List.map_append, List.map_cons] at live
      have isLive : holding ∈ nodes.allocator.live :=
        live.mem_iff.mpr (List.mem_append_right _ List.mem_cons_self)
      have moved : AllocatorState.StepTo (arenas.buffer side) nodes.allocator (.deallocate holding)
        (nodes.allocator.deallocate holding) := ⟨isLive, rfl⟩
      rcases sound.allocated with ⟨free, isSound⟩
      rcases AllocatorState.arena_relinked moved with ⟨freelist, relinked⟩
      refine ⟨isSound.step moved, erased, ?_, ?_, ?_, ?_⟩
      · have rest := (live.trans List.perm_middle).erase holding
        rw [List.erase_cons_head, ← List.map_append] at rest
        rw [OrderedMap.erase_entries entries]
        exact rest
      · exact fun other member => sound.single other (List.mem_of_mem_erase member)
      · rw [relinked, ArenaState.slots_relink]
        exact sound.slots
      · rw [relinked]
        exact sound.slotSize

theorem write {offset : Nat} {byte : Byte}
    (moved : AllocatorState.StepTo (arenas.buffer side) nodes.allocator
      (.store holding offset byte) allocator) : Sound arenas ⟨allocator, nodes.nodes⟩ prices := by
  rcases sound.allocated with ⟨free, isSound⟩
  rcases AllocatorState.arena_relinked moved with ⟨freelist, relinked⟩
  have same : allocator.live = nodes.allocator.live := by rw [moved.2.2]
  refine ⟨isSound.step moved, sound.keyed, ?_, ?_, ?_, ?_⟩
  · rw [same]
    exact sound.live
  · rw [same]
    exact sound.single
  · rw [relinked, ArenaState.slots_relink]
    exact sound.slots
  · rw [relinked]
    exact sound.slotSize

/-- A node comes from the heap only when the arena has given out all of its slots. -/
theorem full_of_heap {operatorNew : UInt64 -> Option Nat}
    (moved : AllocatorState.StepTo (arenas.buffer side) nodes.allocator
      (.allocate 1 arenas.nodeSize operatorNew) allocator)
    (grown : allocator.live = holding :: nodes.allocator.live) (fromHeap : holding.origin = .heap) :
    maxPriceLevels.toNat ≤ prices.entries.length := by
  rcases sound.allocated with ⟨free, isSound⟩
  have none := (AllocatorState.allocate_holding (moved.2 ▸ grown)).2.2 fromHeap
  calc maxPriceLevels.toNat
      = (nodes.allocator.held .arena).length := by rw [isSound.used_up none, sound.slots]
    _ ≤ nodes.allocator.live.length := List.length_filter_le _ _
    _ = prices.entries.length := sound.length_live

/-- Below this number of prices the arena has a slot for the next node. -/
theorem emplace_served (room : prices.entries.length < maxPriceLevels.toNat) :
    Exists fun holding => Exists fun allocator =>
      AllocatorState.StepTo (arenas.buffer side) nodes.allocator
        (.allocate 1 arenas.nodeSize fun _ => none) allocator ∧
      allocator.live = holding :: nodes.allocator.live ∧ holding.origin = .arena := by
  have moved : AllocatorState.StepTo (arenas.buffer side) nodes.allocator
      (.allocate 1 arenas.nodeSize fun _ => none)
      (nodes.allocator.allocate 1 arenas.nodeSize fun _ => none) :=
    ⟨fun _ answer => absurd answer (by simp), rfl⟩
  rcases AllocatorState.allocate_one nodes.allocator arenas.nodeSize fun _ => none with
    ⟨slot, -, same⟩ | ⟨none, -⟩
  · exact ⟨_, _, moved, by rw [same], rfl⟩
  · rcases sound.allocated with ⟨free, isSound⟩
    have held : (nodes.allocator.held .arena).length ≤ nodes.allocator.live.length :=
      List.length_filter_le _ _
    rw [isSound.used_up none, sound.slots, sound.length_live] at held
    exact absurd held (Nat.not_le.mpr room)

end LevelNodes.Sound

def BookNodes.Sound (arenas : BookArenas) (nodes : BookNodes) (prices : BookPrices) : Prop :=
  forall side, (nodes side).Sound arenas (prices side)

section Nodes

variable {arenas : BookArenas} {nodes next : BookNodes} {prices : BookPrices}

/-- A change of the nodes and the prices of one map. -/
theorem BookNodes.Sound.update (sound : nodes.Sound arenas prices) {side : Side}
    {changed : LevelNodes side} {prices' : OrderedMap Price Unit side.precedes}
    (isSound : changed.Sound arenas prices') :
    BookNodes.Sound arenas (Function.update nodes side changed)
      (Function.update prices side prices') := by
  intro other
  by_cases same : other = side
  · subst same
    rw [Function.update_self, Function.update_self]
    exact isSound
  · rw [Function.update_of_ne same, Function.update_of_ne same]
    exact sound other

/-- The prices change only by the calls of the book. -/
theorem BookNodes.Sound.step (sound : nodes.Sound arenas prices) {call : NodeCall}
    (moved : call.StepTo arenas nodes next) {prices' : BookPrices}
    (changed : call.mapCall.elim (prices' = prices) fun mapCall => mapCall.StepTo prices prices') :
    next.Sound arenas prices' := by
  cases call with
  | emplace side price holding =>
      rcases moved with ⟨operatorNew, allocator, allocated, grown, -, same⟩
      rw [same, changed.2]
      exact sound.update ((sound side).emplace changed.1 allocated grown)
  | erase side price =>
      have isChanged : prices' = Function.update prices side ((prices side).erase price) := changed
      have isNext : next = _ := moved
      rw [isNext, isChanged]
      exact sound.update ((sound side).erase price)
  | write side price offset byte =>
      rcases moved with ⟨holding, allocator, -, stored, same⟩
      have isChanged : prices' = prices := changed
      rw [same, isChanged, ← Function.update_eq_self side prices]
      exact sound.update ((sound side).write stored)

/-! ## No two nodes overlap -/

/-- The nodes of the two maps lie apart from each other: a block of the heap is
outside both buffers, and no node of one map has memory in common with one of the
other. -/
structure BookNodes.Apart (arenas : BookArenas) (nodes : BookNodes) : Prop where
  outside : forall side other holding, holding ∈ (nodes side).allocator.live ->
    holding.origin = .heap -> holding.block.room.Apart (arenas.buffer other).block
  across : forall side first second, first ∈ (nodes side).allocator.live ->
    second ∈ (nodes side.opposite).allocator.live ->
      (first.space mapSlotMaxBytes).Apart (second.space mapSlotMaxBytes)

/-- Nodes that are given back leave the others where they are. -/
theorem BookNodes.Apart.shrink (apart : nodes.Apart arenas)
    (fewer : forall side, (next side).allocator.live ⊆ (nodes side).allocator.live) :
    next.Apart arenas where
  outside side other holding isLive := apart.outside side other holding (fewer side isLive)
  across side first second isLive isLive' :=
    apart.across side first second (fewer side isLive) (fewer side.opposite isLive')

theorem BookNodes.Apart.emplace (apart : nodes.Apart arenas) (sound : nodes.Sound arenas prices)
    {side : Side} {price : Price} {holding : Holding} {allocator : AllocatorState}
    {operatorNew : UInt64 -> Option Nat}
    (moved : AllocatorState.StepTo (arenas.buffer side) (nodes side).allocator
      (.allocate 1 arenas.nodeSize operatorNew) allocator)
    (grown : allocator.live = holding :: (nodes side).allocator.live)
    (fresh : holding.origin = .heap -> forall other, AllocatorState.Fresh (arenas.buffer other)
      (nodes other).allocator.heap holding.block) :
    BookNodes.Apart arenas
      (Function.update nodes side ⟨allocator, (nodes side).nodes.emplace price holding⟩) := by
  have own : (Function.update nodes side
      ⟨allocator, (nodes side).nodes.emplace price holding⟩ side).allocator.live =
        holding :: (nodes side).allocator.live := by
    rw [Function.update_self]
    exact grown
  have others (other : Side) (different : other ≠ side) : (Function.update nodes side
      ⟨allocator, (nodes side).nodes.emplace price holding⟩ other).allocator.live =
        (nodes other).allocator.live := by
    rw [Function.update_of_ne different]
  have facing (second : Holding) (isLive : second ∈ (nodes side.opposite).allocator.live) :
      (holding.space mapSlotMaxBytes).Apart (second.space mapSlotMaxBytes) := by
    rcases (sound side).allocated with ⟨free, isSound⟩
    rcases isSound.step moved with ⟨free', isSound'⟩
    rcases (sound side.opposite).allocated with ⟨free'', isSound''⟩
    rcases AllocatorState.arena_relinked moved with ⟨freelist, relinked⟩
    have slotSize : allocator.arena.slotSize = mapSlotMaxBytes := by
      rw [relinked]
      exact (sound side).slotSize
    have blocks : holding.origin = .heap -> second.origin = .heap ->
        holding.block.room.Apart second.block.room := by
      intro fromHeap fromHeap'
      refine (fresh fromHeap side.opposite).2.2 second.block ?_
      exact isSound''.blocks.mem_iff.mpr
        (List.mem_map_of_mem (AllocatorState.mem_held.mpr ⟨isLive, fromHeap'⟩))
    have spaces := AllocatorState.apart_across isSound' isSound'' (arenas.apart side)
      (grown ▸ List.mem_cons_self) isLive (fun fromHeap => (fresh fromHeap _).2.1)
      (fun fromHeap => apart.outside _ side second isLive fromHeap) blocks
    rw [slotSize, (sound side.opposite).slotSize] at spaces
    exact spaces
  constructor
  · intro at' other found isLive fromHeap
    by_cases same : at' = side
    · rw [same, own] at isLive
      rcases List.mem_cons.mp isLive with isNew | earlier
      · rw [isNew] at fromHeap ⊢
        exact (fresh fromHeap other).2.1
      · exact apart.outside side other found earlier fromHeap
    · rw [others at' same] at isLive
      exact apart.outside at' other found isLive fromHeap
  · intro at' first second isFirst isSecond
    by_cases same : at' = side
    · subst same
      rw [own] at isFirst
      rw [others _ at'.opposite_ne] at isSecond
      rcases List.mem_cons.mp isFirst with isNew | earlier
      · rw [isNew]
        exact facing second isSecond
      · exact apart.across at' first second earlier isSecond
    · have opposite : at'.opposite = side := by
        cases at' <;> cases side <;> first | rfl | exact absurd rfl same
      rw [others at' same] at isFirst
      rw [opposite, own] at isSecond
      rcases List.mem_cons.mp isSecond with isNew | earlier
      · rw [isNew]
        refine (facing first ?_).symm
        rw [← opposite, Side.opposite_opposite]
        exact isFirst
      · refine apart.across at' first second isFirst ?_
        rw [opposite]
        exact earlier

theorem BookNodes.Apart.step (apart : nodes.Apart arenas) (sound : nodes.Sound arenas prices)
    {call : NodeCall} (moved : call.StepTo arenas nodes next) : next.Apart arenas := by
  cases call with
  | emplace side price holding =>
      rcases moved with ⟨operatorNew, allocator, allocated, grown, fresh, same⟩
      rw [same]
      exact apart.emplace sound allocated grown fresh
  | erase side price =>
      refine apart.shrink fun other => ?_
      have isNext : next = _ := moved
      rw [isNext]
      by_cases same : other = side
      · subst same
        rw [Function.update_self]
        split
        · exact List.Subset.refl _
        · exact List.erase_subset
      · rw [Function.update_of_ne same]
        exact List.Subset.refl _
  | write side price offset byte =>
      rcases moved with ⟨holding, allocator, -, stored, same⟩
      refine apart.shrink fun other => ?_
      rw [same]
      by_cases here : other = side
      · subst here
        rw [Function.update_self, stored.2.2]
        exact List.Subset.refl _
      · rw [Function.update_of_ne here]
        exact List.Subset.refl _

/-! ## Runs of node calls -/

/-- The nodes at the end of a run, if what the run asked for accounts for the
prices.  The two maps are followed together, since a block of the heap may go to
either. -/
theorem BookNodes.Sound.run (sound : nodes.Sound arenas prices) (apart : nodes.Apart arenas)
    {calls : List NodeCall} (run : (NodeCall.system arenas nodes).Run calls next)
    {prices' : BookPrices}
    (changed : (MapCall.system prices).Run (calls.filterMap NodeCall.mapCall) prices') :
    next.Sound arenas prices' ∧ next.Apart arenas := by
  refine run.invariant (fun calls next => forall prices',
    (MapCall.system prices).Run (calls.filterMap NodeCall.mapCall) prices' ->
      next.Sound arenas prices' ∧ next.Apart arenas) ?_ ?_ prices' changed
  · intro start isStart prices' changed
    have same : prices' = prices := changed.begins
    rw [same, show start = nodes from isStart]
    exact ⟨sound, apart⟩
  · intro past state call next _ inductionHypothesis moved prices' changed
    rw [List.filterMap_append] at changed
    cases asks : call.mapCall with
    | none =>
        rw [List.filterMap_cons_none asks, List.filterMap_nil, List.append_nil] at changed
        rcases inductionHypothesis prices' changed with ⟨isSound, isApart⟩
        refine ⟨isSound.step moved ?_, isApart.step isSound moved⟩
        rw [asks]
        rfl
    | some mapCall =>
        rw [List.filterMap_cons_some asks, List.filterMap_nil] at changed
        rcases changed.last with ⟨before, earlier, isStep⟩
        rcases inductionHypothesis before earlier with ⟨isSound, isApart⟩
        refine ⟨isSound.step moved ?_, isApart.step isSound moved⟩
        rw [asks]
        exact isStep

end Nodes
end NexusHft

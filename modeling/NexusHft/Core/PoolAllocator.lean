import NexusHft.Core.ArenaState
import NexusHft.Foundations.LabelledRun

namespace NexusHft

open Foundations

/-!
# The allocator with a fallback to the heap

`PoolAllocator` serves single objects from the arena while it has a slot and
everything else from `operator new`; where a pointer came from is not recorded, and
`deallocate` tells it by the address.

`operator new` belongs to the environment: it answers with memory that lies apart
from the buffer and from every block it has not got back.  Clients write to the
memory they hold.
-/

/-- Where memory comes from: a slot of the arena, or the global heap that the
allocator falls back to. -/
inductive Origin where
  | arena
  | heap
  deriving DecidableEq, Repr

namespace PoolAllocator

/-- Memory for `n` objects of a size, or the exception of `operator new`. -/
def allocate (arena : ArenaState) (memory : Memory) (n sizeofT : UInt64)
    (operatorNew : UInt64 -> Option Nat) : Option (Nat × Origin) × ArenaState :=
  let fallback := (operatorNew (n * sizeofT)).map fun p => (p, Origin.heap)
  if n = 1 then
    match arena.allocate memory with
    | (some slot, arena) => (some (slot, .arena), arena)
    | (none, arena) => (fallback, arena)
  else (fallback, arena)

/-- The pointer goes back to the arena or is left to `operator delete`. -/
def deallocate (arena : ArenaState) (memory : Memory) (ptr : Nat) :
    (ArenaState × Memory) × Option Nat :=
  if arena.Owns ptr then (arena.deallocate memory ptr, none) else ((arena, memory), some ptr)

/-- Either the arena hands out the head of its freelist, or `operator new` answers
and the arena stays as it is. -/
theorem allocate_cases (arena : ArenaState) (memory : Memory) (n sizeofT : UInt64)
    (operatorNew : UInt64 -> Option Nat) :
    (Exists fun slot => n = 1 ∧ arena.freelist = some slot ∧
      allocate arena memory n sizeofT operatorNew =
        (some (slot, .arena), { arena with freelist := memory.loadPointer slot })) ∨
    allocate arena memory n sizeofT operatorNew =
      ((operatorNew (n * sizeofT)).map fun p => (p, Origin.heap), arena) := by
  unfold allocate ArenaState.allocate
  by_cases one : n = 1
  · cases head : arena.freelist with
    | none => exact Or.inr (if_pos one)
    | some slot => exact Or.inl ⟨slot, one, rfl, if_pos one⟩
  · exact Or.inr (if_neg one)

end PoolAllocator

/-- Consecutive addresses.  Blocks are compared by the addresses they contain,
whatever they are used for. -/
structure Block where
  address : Nat
  bytes : Nat
  deriving DecidableEq, Repr

namespace Block

/-- `operator new` gives also an empty block an address of its own. -/
def room (block : Block) : Block := ⟨block.address, max 1 block.bytes⟩

def Apart (first second : Block) : Prop :=
  Memory.Apart first.address first.bytes second.address second.bytes

instance (first second : Block) : Decidable (first.Apart second) :=
  inferInstanceAs (Decidable (_ ∨ _))

theorem Apart.symm {first second : Block} (apart : first.Apart second) : second.Apart first :=
  Or.symm apart

/-- Parts of blocks that lie apart lie apart. -/
theorem Apart.shrink {first second : Block} (apart : first.Apart second) {firstBytes secondBytes : Nat}
    (firstLe : firstBytes ≤ first.bytes) (secondLe : secondBytes ≤ second.bytes) :
    Apart ⟨first.address, firstBytes⟩ ⟨second.address, secondBytes⟩ := by
  unfold Apart Memory.Apart at apart ⊢
  dsimp only
  omega

end Block

def Buffer.block (buffer : Buffer) : Block := ⟨buffer.base, buffer.bytes.toNat⟩

/-- What a client got for `n` objects of a size, and where it came from.  The
source does not record the origin; `deallocate` infers it from the address, which
is proved to be right. -/
structure Holding where
  address : Nat
  n : UInt64
  sizeofT : UInt64
  origin : Origin
  deriving DecidableEq, Repr

namespace Holding

/-- The memory of the objects. -/
def objects (holding : Holding) : Block :=
  ⟨holding.address, holding.n.toNat * holding.sizeofT.toNat⟩

/-- The block that `operator new` was asked for. -/
def block (holding : Holding) : Block :=
  ⟨holding.address, (holding.n * holding.sizeofT).toNat⟩

/-- The memory that nobody else uses. -/
def space (slotSize : UInt64) (holding : Holding) : Block :=
  match holding.origin with
  | .arena => ⟨holding.address, slotSize.toNat⟩
  | .heap => holding.block.room

theorem space_address (slotSize : UInt64) (holding : Holding) :
    (holding.space slotSize).address = holding.address := by
  unfold space
  cases holding.origin <;> rfl

theorem space_positive {slotSize : UInt64} (node : 8 ≤ slotSize.toNat) (holding : Holding) :
    0 < (holding.space slotSize).bytes := by
  unfold space
  cases holding.origin with
  | arena => exact Nat.lt_of_lt_of_le (by decide) node
  | heap => exact Nat.lt_of_lt_of_le (by decide) (Nat.le_max_left 1 _)

end Holding

/-- The allocator, the blocks that `operator new` has not got back, and what the
clients hold.  The last two are not in the program: they say what its calls have
been answered so far. -/
structure AllocatorState where
  arena : ArenaState
  memory : Memory
  heap : List Block
  live : List Holding

/-- What clients do: they allocate, with some answer of `operator new` should it
be asked, they deallocate what they hold, or they write to it. -/
inductive AllocatorCall where
  | allocate (n sizeofT : UInt64) (operatorNew : UInt64 -> Option Nat)
  | deallocate (holding : Holding)
  | store (holding : Holding) (offset : Nat) (byte : Byte)

namespace AllocatorState

/-- The addresses that the clients hold of one origin. -/
def held (state : AllocatorState) (origin : Origin) : List Holding :=
  state.live.filter fun holding => holding.origin = origin

def allocate (state : AllocatorState) (n sizeofT : UInt64) (operatorNew : UInt64 -> Option Nat) :
    AllocatorState :=
  match PoolAllocator.allocate state.arena state.memory n sizeofT operatorNew with
  | (none, arena) => { state with arena := arena }
  | (some (address, .arena), arena) =>
      { state with arena := arena, live := ⟨address, n, sizeofT, .arena⟩ :: state.live }
  | (some (address, .heap), arena) =>
      { state with
        arena := arena
        heap := ⟨address, (n * sizeofT).toNat⟩ :: state.heap
        live := ⟨address, n, sizeofT, .heap⟩ :: state.live }

/-- `operator delete` takes the block at its argument back. -/
def deallocate (state : AllocatorState) (holding : Holding) : AllocatorState :=
  let freed := PoolAllocator.deallocate state.arena state.memory holding.address
  { arena := freed.1.1
    memory := freed.1.2
    heap := match freed.2 with
      | none => state.heap
      | some p => state.heap.filter fun block => block.address ≠ p
    live := state.live.erase holding }

/-- A block that `operator new` may answer with. -/
def Fresh (buffer : Buffer) (heap : List Block) (block : Block) : Prop :=
  0 < block.address ∧ block.room.Apart buffer.block ∧
    forall other, other ∈ heap -> block.room.Apart other.room

def StepTo (buffer : Buffer) (state : AllocatorState) (call : AllocatorCall)
    (next : AllocatorState) : Prop :=
  match call with
  | .allocate n sizeofT operatorNew =>
      (forall p, operatorNew (n * sizeofT) = some p ->
        Fresh buffer state.heap ⟨p, (n * sizeofT).toNat⟩) ∧
        next = state.allocate n sizeofT operatorNew
  | .deallocate holding => holding ∈ state.live ∧ next = state.deallocate holding
  | .store holding offset byte =>
      holding ∈ state.live ∧ offset < (holding.space state.arena.slotSize).bytes ∧
        next = { state with memory := state.memory.store (holding.address + offset) [byte] }

/-- An arena cut for objects of one size and alignment, over memory of any
content, and the clients of its allocator.  Objects of other sizes may be asked
for too; the heap answers with any block that is apart from all others. -/
def system (buffer : Buffer) (objSize objAlign : UInt64) :
    LabelledSystem AllocatorState AllocatorCall where
  starts state := Exists fun memory =>
    state = ⟨(ArenaState.init buffer objSize objAlign memory).1,
      (ArenaState.init buffer objSize objAlign memory).2, [], []⟩
  step := StepTo buffer

/-! ## The invariant -/

/-- The invariant of the allocator: the slots are parted into the freelist and the
arena holdings, the heap has the blocks of the heap holdings and is outside the
buffer, and no two holdings have memory in common. -/
structure Sound (buffer : Buffer) (state : AllocatorState) (free : List Nat) : Prop where
  cut : state.arena.CutFrom buffer
  parted : Parted state.memory.loadPointer state.arena.freelist state.arena.slots free
    ((state.held .arena).map Holding.address)
  blocks : state.heap.Perm ((state.held .heap).map Holding.block)
  apart : state.live.Pairwise fun first second =>
    (first.space state.arena.slotSize).Apart (second.space state.arena.slotSize)
  outside : forall holding, holding ∈ state.held .heap -> holding.block.room.Apart buffer.block
  single : forall holding, holding ∈ state.held .arena -> holding.n = 1

theorem mem_held {state : AllocatorState} {origin : Origin} {holding : Holding} :
    holding ∈ state.held origin <-> holding ∈ state.live ∧ holding.origin = origin := by
  rw [held, List.mem_filter, decide_eq_true_eq]

namespace Sound

variable {buffer : Buffer} {state : AllocatorState} {free : List Nat} {holding : Holding}
  (sound : Sound buffer state free)
include sound

theorem free_slot {q : Nat} (isFree : q ∈ free) : q ∈ state.arena.slots :=
  (sound.parted.mem_iff q).mpr (Or.inl isFree)

theorem held_slot (held : holding ∈ state.held .arena) : holding.address ∈ state.arena.slots :=
  (sound.parted.mem_iff _).mpr (Or.inr (List.mem_map_of_mem held))

/-- What lies apart from the buffer lies apart from its slots. -/
theorem slot_apart {q : Nat} (isSlot : q ∈ state.arena.slots) {block : Block}
    (outside : block.Apart buffer.block) : block.Apart ⟨q, state.arena.slotSize.toNat⟩ := by
  rcases ArenaState.CutFrom.mem_slots.mp isSlot with ⟨i, lt, same⟩
  have inside := sound.cut.slotAt_within lt
  have within := sound.cut.within
  rw [same] at inside
  unfold Block.Apart Memory.Apart Buffer.block at outside
  unfold Block.Apart Memory.Apart
  dsimp only at outside ⊢
  omega

/-- No client holds memory of a free slot. -/
theorem free_apart (isLive : holding ∈ state.live) {q : Nat} (isFree : q ∈ free) :
    (holding.space state.arena.slotSize).Apart ⟨q, state.arena.slotSize.toNat⟩ := by
  unfold Holding.space
  cases origin : holding.origin with
  | arena =>
      have held := mem_held.mpr ⟨isLive, origin⟩
      apply sound.cut.slots_apart (sound.held_slot held) (sound.free_slot isFree)
      intro same
      exact sound.parted.not_live sound.cut.slots_nodup isFree (same ▸ List.mem_map_of_mem held)
  | heap =>
      exact sound.slot_apart (sound.free_slot isFree)
        (sound.outside holding (mem_held.mpr ⟨isLive, origin⟩))

/-- The address tells where a pointer came from. -/
theorem owns_iff (isLive : holding ∈ state.live) :
    state.arena.Owns holding.address <-> holding.origin = .arena := by
  cases origin : holding.origin with
  | arena =>
      exact iff_of_true (sound.cut.slot_owned (sound.held_slot (mem_held.mpr ⟨isLive, origin⟩))) rfl
  | heap =>
      have outside := sound.outside holding (mem_held.mpr ⟨isLive, origin⟩)
      have within := sound.cut.within
      refine iff_of_false ?_ (by decide)
      rw [sound.cut.owns_iff]
      unfold Block.Apart Memory.Apart Buffer.block Block.room Holding.block at outside
      dsimp only at outside
      omega

/-- The other holdings have memory and addresses of their own. -/
theorem others_apart (isLive : holding ∈ state.live) {other : Holding}
    (isOther : other ∈ state.live.erase holding) :
    (holding.space state.arena.slotSize).Apart (other.space state.arena.slotSize) := by
  have apart := (List.perm_cons_erase isLive).pairwise_iff (fun apart => apart.symm) |>.mp sound.apart
  exact List.rel_of_pairwise_cons apart isOther

theorem others_address (isLive : holding ∈ state.live) {other : Holding}
    (isOther : other ∈ state.live.erase holding) : other.address ≠ holding.address := by
  have apart := sound.others_apart isLive isOther
  have first := holding.space_positive sound.cut.node
  have second := other.space_positive sound.cut.node
  unfold Block.Apart Memory.Apart at apart
  rw [Holding.space_address, Holding.space_address] at apart
  omega

omit sound in
theorem held_erase (state : AllocatorState) (holding : Holding) (origin : Origin) :
    (state.live.erase holding).filter (fun other => other.origin = origin) =
      (state.held origin).erase holding :=
  List.erase_filter.symm

omit sound in
/-- Erasing a holding from those of another origin does nothing. -/
theorem held_erase_other {origin : Origin} (other : holding.origin ≠ origin) :
    (state.held origin).erase holding = state.held origin :=
  List.erase_of_not_mem fun held => other (mem_held.mp held).2

omit sound in
theorem held_cons_self (live : List Holding) {new : Holding} {origin : Origin}
    (same : new.origin = origin) :
    (new :: live).filter (fun holding => holding.origin = origin) =
      new :: live.filter fun holding => holding.origin = origin :=
  List.filter_cons_of_pos (decide_eq_true same)

omit sound in
theorem held_cons_other (live : List Holding) {new : Holding} {origin : Origin}
    (other : new.origin ≠ origin) :
    (new :: live).filter (fun holding => holding.origin = origin) =
      live.filter fun holding => holding.origin = origin :=
  List.filter_cons_of_neg (by rw [decide_eq_true_eq]; exact other)

omit sound in
/-- The freelist hands out its first slot. -/
theorem allocate_arena {slot : Nat} {free : List Nat} (sound : Sound buffer state (slot :: free))
    (sizeofT : UInt64) :
    Sound buffer { state with
      arena := { state.arena with freelist := state.memory.loadPointer slot }
      live := ⟨slot, 1, sizeofT, .arena⟩ :: state.live } free := by
  refine ⟨sound.cut.relink _, ?_, ?_, ?_, ?_, ?_⟩
  · dsimp only [AllocatorState.held]
    rw [held_cons_self _ (by rfl)]
    rw [ArenaState.slots_relink]
    exact sound.parted.take fun _ _ => rfl
  · dsimp only [AllocatorState.held]
    rw [held_cons_other _ (by simp)]
    exact sound.blocks
  · exact List.pairwise_cons.mpr
      ⟨fun _ isLive => (sound.free_apart isLive List.mem_cons_self).symm, sound.apart⟩
  · dsimp only [AllocatorState.held]
    rw [held_cons_other _ (by simp)]
    exact sound.outside
  · dsimp only [AllocatorState.held]
    rw [held_cons_self _ (by rfl)]
    intro holding isHeld
    rcases List.mem_cons.mp isHeld with same | earlier
    · rw [same]
    · exact sound.single holding earlier

/-- `operator new` hands out a block of its own, apart from the buffer and from
all blocks that are held, so the invariant only has one more holding. -/
theorem allocate_heap {p : Nat} {n sizeofT : UInt64}
    (fresh : Fresh buffer state.heap ⟨p, (n * sizeofT).toNat⟩) :
    Sound buffer { state with
      heap := ⟨p, (n * sizeofT).toNat⟩ :: state.heap
      live := ⟨p, n, sizeofT, .heap⟩ :: state.live } free := by
  refine ⟨sound.cut, ?_, ?_, List.pairwise_cons.mpr ⟨?_, sound.apart⟩, ?_, ?_⟩
  · dsimp only [AllocatorState.held]
    rw [held_cons_other _ (by simp)]
    exact sound.parted
  · dsimp only [AllocatorState.held]
    rw [held_cons_self _ (by rfl)]
    exact sound.blocks.cons _
  · intro other isLive
    unfold Holding.space
    cases origin : other.origin with
    | arena =>
        exact sound.slot_apart (sound.held_slot (mem_held.mpr ⟨isLive, origin⟩)) fresh.2.1
    | heap =>
        have isBlock : other.block ∈ (state.held .heap).map Holding.block :=
          List.mem_map_of_mem (mem_held.mpr ⟨isLive, origin⟩)
        exact fresh.2.2 other.block (sound.blocks.mem_iff.mpr isBlock)
  · dsimp only [AllocatorState.held]
    rw [held_cons_self _ (by rfl)]
    intro holding isHeld
    rcases List.mem_cons.mp isHeld with same | earlier
    · rw [same]
      exact fresh.2.1
    · exact sound.outside holding earlier
  · dsimp only [AllocatorState.held]
    rw [held_cons_other _ (by simp)]
    exact sound.single

theorem deallocate_arena (isLive : holding ∈ state.live) (origin : holding.origin = .arena) :
    Sound buffer (state.deallocate holding) (holding.address :: free) := by
  have held := mem_held.mpr ⟨isLive, origin⟩
  have isSlot := sound.held_slot held
  have address := List.mem_map_of_mem (f := Holding.address) held
  have fresh : holding.address ∉ free := fun isFree =>
    sound.parted.not_live sound.cut.slots_nodup isFree address
  rcases sound.cut.push_threaded sound.parted.threaded (fun _ => sound.free_slot) isSlot fresh with
    ⟨same, link⟩
  have rest : (((state.held .arena).map Holding.address).erase holding.address).Perm
      (((state.held .arena).erase holding).map Holding.address) := by
    have moved := ((List.perm_cons_erase held).map Holding.address).erase holding.address
    rw [List.map_cons, List.erase_cons_head] at moved
    exact moved
  have routed : state.deallocate holding =
      { arena := (state.arena.deallocate state.memory holding.address).1
        memory := (state.arena.deallocate state.memory holding.address).2
        heap := state.heap
        live := state.live.erase holding } := by
    rw [AllocatorState.deallocate, PoolAllocator.deallocate,
      if_pos ((sound.owns_iff isLive).mpr origin)]
  rw [routed]
  refine ⟨sound.cut.relink _, ?_, ?_, sound.apart.sublist List.erase_sublist, ?_, ?_⟩
  · rw [AllocatorState.held, held_erase]
    exact (sound.parted.give address same link).of_perm rest
  · rw [AllocatorState.held, held_erase, held_erase_other (by rw [origin]; decide)]
    exact sound.blocks
  · intro other isHeld
    rcases mem_held.mp isHeld with ⟨member, origin⟩
    exact sound.outside other (mem_held.mpr ⟨List.mem_of_mem_erase member, origin⟩)
  · intro other isHeld
    rcases mem_held.mp isHeld with ⟨member, origin⟩
    exact sound.single other (mem_held.mpr ⟨List.mem_of_mem_erase member, origin⟩)

theorem deallocate_heap (isLive : holding ∈ state.live) (origin : holding.origin = .heap) :
    Sound buffer (state.deallocate holding) free := by
  have held := mem_held.mpr ⟨isLive, origin⟩
  have notOwned : ¬ state.arena.Owns holding.address := by
    rw [sound.owns_iff isLive, origin]
    decide
  have routed : state.deallocate holding =
      { state with
        heap := state.heap.filter fun block => block.address ≠ holding.address
        live := state.live.erase holding } := by
    rw [AllocatorState.deallocate, PoolAllocator.deallocate, if_neg notOwned]
  rw [routed]
  refine ⟨sound.cut, ?_, ?_, sound.apart.sublist List.erase_sublist, ?_, ?_⟩
  · rw [AllocatorState.held, held_erase, held_erase_other (by rw [origin]; decide)]
    exact sound.parted
  · rw [AllocatorState.held, held_erase]
    have moved := sound.blocks.trans ((List.perm_cons_erase held).map Holding.block)
    have others : (((state.held .heap).erase holding).map Holding.block).filter
        (fun block => block.address ≠ holding.address) =
          ((state.held .heap).erase holding).map Holding.block := by
      apply List.filter_eq_self.mpr
      intro block isBlock
      rcases List.mem_map.mp isBlock with ⟨other, isOther, same⟩
      rw [← held_erase] at isOther
      rw [← same, decide_eq_true_eq]
      exact sound.others_address isLive (List.mem_filter.mp isOther).1
    have kept := moved.filter fun block => block.address ≠ holding.address
    rw [List.map_cons, List.filter_cons_of_neg (by simp [Holding.block]), others] at kept
    exact kept
  · intro other isHeld
    rcases mem_held.mp isHeld with ⟨member, origin⟩
    exact sound.outside other (mem_held.mpr ⟨List.mem_of_mem_erase member, origin⟩)
  · intro other isHeld
    rcases mem_held.mp isHeld with ⟨member, origin⟩
    exact sound.single other (mem_held.mpr ⟨List.mem_of_mem_erase member, origin⟩)

/-- What a client writes into its memory misses the links of the free slots. -/
theorem store (isLive : holding ∈ state.live) {offset : Nat}
    (within : offset < (holding.space state.arena.slotSize).bytes) (byte : Byte) :
    Sound buffer { state with
      memory := state.memory.store (holding.address + offset) [byte] } free := by
  refine ⟨sound.cut, sound.parted.write ?_, sound.blocks, sound.apart, sound.outside, sound.single⟩
  intro q isFree
  apply Memory.loadPointer_store_apart
  have apart := sound.free_apart isLive isFree
  have node := sound.cut.node
  unfold Block.Apart Memory.Apart at apart
  rw [Holding.space_address] at apart
  unfold Memory.Apart
  dsimp only [List.length_singleton] at apart ⊢
  omega

theorem allocate {n sizeofT : UInt64} {operatorNew : UInt64 -> Option Nat}
    (fresh : forall p, operatorNew (n * sizeofT) = some p ->
      Fresh buffer state.heap ⟨p, (n * sizeofT).toNat⟩) :
    Exists (Sound buffer (state.allocate n sizeofT operatorNew)) := by
  unfold AllocatorState.allocate
  rcases PoolAllocator.allocate_cases state.arena state.memory n sizeofT operatorNew with
    ⟨slot, one, isHead, served⟩ | served
  · rw [served, one]
    cases free with
    | nil => exact absurd (isHead.symm.trans sound.parted.threaded) (Option.some_ne_none slot)
    | cons first free =>
        rw [Option.some.inj (isHead.symm.trans sound.parted.threaded.1)]
        exact ⟨free, sound.allocate_arena sizeofT⟩
  · rw [served]
    cases answer : operatorNew (n * sizeofT) with
    | none => exact ⟨free, sound⟩
    | some p => exact ⟨free, sound.allocate_heap (fresh p answer)⟩

/-- Every call of a client keeps the invariant. -/
theorem step {call : AllocatorCall} {next : AllocatorState}
    (moved : StepTo buffer state call next) : Exists (Sound buffer next) := by
  cases call with
  | allocate n sizeofT operatorNew =>
      rw [moved.2]
      exact sound.allocate moved.1
  | deallocate holding =>
      rw [moved.2]
      cases origin : holding.origin with
      | arena => exact ⟨_, sound.deallocate_arena moved.1 origin⟩
      | heap => exact ⟨free, sound.deallocate_heap moved.1 origin⟩
  | store holding offset byte =>
      rw [moved.2.2]
      exact ⟨free, sound.store moved.1 moved.2.1 byte⟩

end Sound

section Run

variable {buffer : Buffer} {objSize objAlign : UInt64} {calls : List AllocatorCall}
  {state : AllocatorState}

theorem run_sound (run : (system buffer objSize objAlign).Run calls state) :
    Exists (Sound buffer state) := by
  apply run.stateInvariant fun state => Exists (Sound buffer state)
  · rintro state ⟨memory, begins⟩
    rcases ArenaState.init_threaded buffer objSize objAlign memory with ⟨threaded, cut, -, -⟩
    rw [begins]
    exact ⟨_, cut, ⟨threaded, by rw [held, List.filter_nil, List.map_nil, List.append_nil]⟩,
      List.Perm.refl _, List.Pairwise.nil, fun _ member => absurd member List.not_mem_nil,
      fun _ member => absurd member List.not_mem_nil⟩
  · rintro state call next ⟨free, sound⟩ moved
    exact sound.step moved

/-- What a call adds to the holdings is what it asks for: a run whose requests are
small therefore holds small objects only. -/
theorem mem_live_of_step {call : AllocatorCall} {next : AllocatorState} {holding : Holding}
    (moved : StepTo buffer state call next) (isLive : holding ∈ next.live) :
    holding ∈ state.live ∨
      Exists fun operatorNew => call = .allocate holding.n holding.sizeofT operatorNew := by
  cases call with
  | allocate n sizeofT operatorNew =>
      rw [moved.2, allocate] at isLive
      rcases PoolAllocator.allocate_cases state.arena state.memory n sizeofT operatorNew with
        ⟨slot, one, -, served⟩ | served
      · rw [served] at isLive
        rcases List.mem_cons.mp isLive with same | earlier
        · exact Or.inr ⟨operatorNew, by rw [same]⟩
        · exact Or.inl earlier
      · rw [served] at isLive
        cases answer : operatorNew (n * sizeofT) with
        | none =>
            rw [answer] at isLive
            exact Or.inl isLive
        | some p =>
            rw [answer] at isLive
            rcases List.mem_cons.mp isLive with same | earlier
            · exact Or.inr ⟨operatorNew, by rw [same]⟩
            · exact Or.inl earlier
  | deallocate freed =>
      rw [moved.2] at isLive
      exact Or.inl (List.mem_of_mem_erase isLive)
  | store written offset byte =>
      rw [moved.2.2] at isLive
      exact Or.inl isLive

end Run

/-! ## What the allocator promises -/

/-- No two allocations overlap when each object fits a slot, each slot is live or on
the freelist exactly once, and each live pointer goes back to where it came from. -/
structure Kept (state : AllocatorState) : Prop where
  apart : (forall holding, holding ∈ state.live -> holding.sizeofT ≤ state.arena.slotSize) ->
    state.live.Pairwise fun first second => first.objects.Apart second.objects
  parted : Exists fun free => Threaded state.memory.loadPointer state.arena.freelist free ∧
    (free ++ (state.held .arena).map Holding.address).Perm state.arena.slots ∧
    state.arena.slots.Nodup
  returned : forall holding, holding ∈ state.live ->
    PoolAllocator.deallocate state.arena state.memory holding.address =
      match holding.origin with
      | .arena => (state.arena.deallocate state.memory holding.address, none)
      | .heap => ((state.arena, state.memory), some holding.address)
  blocks : state.heap.Perm ((state.held .heap).map Holding.block)

/-- The objects of a holding lie in its memory, if their size did not wrap around. -/
theorem Sound.objects_le {buffer : Buffer} {state : AllocatorState} {free : List Nat}
    {holding : Holding} (sound : Sound buffer state free) (isLive : holding ∈ state.live)
    (fits : holding.sizeofT ≤ state.arena.slotSize)
    (bounded : holding.n.toNat * holding.sizeofT.toNat < 2 ^ 64) :
    holding.objects.bytes ≤ (holding.space state.arena.slotSize).bytes := by
  unfold Holding.space Holding.objects
  cases origin : holding.origin with
  | arena =>
      have one : holding.n.toNat = 1 := by
        rw [sound.single holding (mem_held.mpr ⟨isLive, origin⟩)]
        rfl
      dsimp only
      rw [one, Nat.one_mul]
      exact UInt64.le_iff_toNat_le.mp fits
  | heap =>
      dsimp only [Block.room, Holding.block]
      rw [UInt64.toNat_mul, Nat.mod_eq_of_lt bounded]
      exact Nat.le_max_right 1 _

theorem Sound.kept {buffer : Buffer} {state : AllocatorState} {free : List Nat}
    (sound : Sound buffer state free)
    (bounded : forall holding, holding ∈ state.live ->
      holding.n.toNat * holding.sizeofT.toNat < 2 ^ 64) : Kept state where
  apart fits := by
    apply sound.apart.imp_of_mem
    intro first second isFirst isSecond apart
    have shrunk := apart.shrink (sound.objects_le isFirst (fits first isFirst) (bounded first isFirst))
      (sound.objects_le isSecond (fits second isSecond) (bounded second isSecond))
    rw [Holding.space_address, Holding.space_address] at shrunk
    exact shrunk
  parted := ⟨free, sound.parted.threaded, sound.parted.whole, sound.cut.slots_nodup⟩
  returned holding isLive := by
    have owned := sound.owns_iff isLive
    unfold PoolAllocator.deallocate
    cases origin : holding.origin with
    | arena => exact if_pos (owned.mpr origin)
    | heap =>
        rw [origin] at owned
        exact if_neg fun owns => nomatch owned.mp owns
  blocks := sound.blocks

/-- The slots of a new arena lie apart inside the buffer, at multiples of the
alignment, and hold an object each; and in every run of the allocator whose calls
ask for a number of bytes that is a word, every state is kept. -/
theorem kept_of_bounded {buffer : Buffer} {objSize objAlign : UInt64} {bits : Nat}
    (object : 0 < objSize) (power : objAlign.toNat = 2 ^ bits)
    (noOverflow : objSize.toNat + objAlign.toNat ≤ 2 ^ 64) :
    (forall memory, ArenaState.Slotted buffer objSize objAlign
      (ArenaState.init buffer objSize objAlign memory).1) ∧
    forall calls state, (system buffer objSize objAlign).Run calls state ->
      (forall n sizeofT operatorNew, .allocate n sizeofT operatorNew ∈ calls ->
        n.toNat * sizeofT.toNat < 2 ^ 64) ->
      Kept state := by
  refine ⟨ArenaState.init_slotted buffer object power noOverflow, ?_⟩
  intro calls state run bounded
  rcases run_sound run with ⟨free, sound⟩
  apply sound.kept
  refine run.invariant (fun past state =>
    (forall n sizeofT operatorNew, .allocate n sizeofT operatorNew ∈ past ->
      n.toNat * sizeofT.toNat < 2 ^ 64) ->
    forall holding, holding ∈ state.live -> holding.n.toNat * holding.sizeofT.toNat < 2 ^ 64)
    ?_ ?_ bounded
  · rintro state ⟨memory, begins⟩ - holding isLive
    rw [begins] at isLive
    exact absurd isLive List.not_mem_nil
  · intro past state call next _ inductionHypothesis moved bounded holding isLive
    rcases mem_live_of_step moved isLive with earlier | ⟨operatorNew, same⟩
    · exact inductionHypothesis (fun n sizeofT operatorNew member =>
        bounded n sizeofT operatorNew (List.mem_append_left _ member)) holding earlier
    · apply bounded holding.n holding.sizeofT operatorNew
      rw [same]
      exact List.mem_append_right past (List.mem_singleton_self _)

/-- Two slots of eight bytes. -/
def twoSlots : Buffer := ⟨4096, 16, by decide, by decide⟩

/-- The clients of a new arena of two slots. -/
def twoSlotsNew : AllocatorState :=
  ⟨(ArenaState.init twoSlots 8 8 fun _ => 0).1, (ArenaState.init twoSlots 8 8 fun _ => 0).2, [], []⟩

theorem twoSlots_run : (system twoSlots 8 8).Run [] twoSlotsNew := .start ⟨fun _ => 0, rfl⟩

/-- The third of three objects comes from the heap. -/
theorem kept_of_bounded_exhausted :
    Exists fun state => state.live.map Holding.origin = [.heap, .arena, .arena] ∧ Kept state := by
  let one := twoSlotsNew.allocate 1 8 fun _ => none
  let two := one.allocate 1 8 fun _ => none
  have first := twoSlots_run.step (show (system twoSlots 8 8).step twoSlotsNew
    (.allocate 1 8 fun _ => none) one from ⟨(fun _ none => nomatch none), rfl⟩)
  have second := first.step (show (system twoSlots 8 8).step one
    (.allocate 1 8 fun _ => none) two from ⟨(fun _ none => nomatch none), rfl⟩)
  have third := second.step (show (system twoSlots 8 8).step two
    (.allocate 1 8 fun _ => some 8) (two.allocate 1 8 fun _ => some 8) from by
      refine ⟨?_, rfl⟩
      intro p answer
      rw [← Option.some.inj answer]
      exact ⟨by decide, Or.inl (by decide), fun _ member => absurd member List.not_mem_nil⟩)
  have promised := @kept_of_bounded twoSlots 8 8 3 (by decide)
    (show (8 : UInt64).toNat = 2 ^ 3 from rfl) (by decide)
  refine ⟨_, by decide +kernel, promised.2 _ _ third ?_⟩
  intro n sizeofT operatorNew member
  have sizes : n = 1 ∧ sizeofT = 8 := by
    simp only [List.nil_append, List.cons_append, List.mem_cons,
      AllocatorCall.allocate.injEq, List.not_mem_nil, or_false] at member
    rcases member with ⟨one, eight, -⟩ | ⟨one, eight, -⟩ | ⟨one, eight, -⟩ <;> exact ⟨one, eight⟩
  rw [sizes.1, sizes.2]
  decide

/-- `operator new(2^61 * 8)` is asked for nothing: the objects of the first allocation
reach over the arena. -/
theorem wrapped_allocation_overlaps : ¬ forall (buffer : Buffer) (objSize objAlign : UInt64)
    (bits : Nat), 0 < objSize -> objAlign.toNat = 2 ^ bits ->
    objSize.toNat + objAlign.toNat ≤ 2 ^ 64 ->
    forall calls state, (system buffer objSize objAlign).Run calls state -> Kept state := by
  intro claimed
  let one := twoSlotsNew.allocate 2305843009213693952 8 fun _ => some 8
  have first := twoSlots_run.step (show (system twoSlots 8 8).step twoSlotsNew
    (.allocate 2305843009213693952 8 fun _ => some 8) one from by
      refine ⟨?_, rfl⟩
      intro p answer
      rw [← Option.some.inj answer]
      exact ⟨by decide, Or.inl (by decide), fun _ member => absurd member List.not_mem_nil⟩)
  have second := first.step (show (system twoSlots 8 8).step one
    (.allocate 1 8 fun _ => none) (one.allocate 1 8 fun _ => none) from
      ⟨(fun _ none => nomatch none), rfl⟩)
  have kept := claimed twoSlots 8 8 3 (by decide) rfl (by decide) _ _ second
  have live : (one.allocate 1 8 fun _ => none).live =
      [⟨4096, 1, 8, .arena⟩, ⟨8, 2305843009213693952, 8, .heap⟩] := by decide +kernel
  have size : (one.allocate 1 8 fun _ => none).arena.slotSize = 8 := by decide +kernel
  have apart := kept.apart
  rw [live, size] at apart
  have pair := List.rel_of_pairwise_cons (apart (by decide)) (List.mem_singleton_self _)
  exact absurd pair (by decide)

end AllocatorState
end NexusHft

import NexusHft.Foundations.ByteMemory
import NexusHft.Foundations.FreeList
import Mathlib.Data.List.Range

namespace NexusHft

open Foundations

/-!
# The arena

`ArenaState` cuts a buffer into slots and threads the free ones through their own
first bytes.  Sizes are words and wrap around; addresses are numbers, and the null
pointer is 0.
-/

/-- Memory that an arena is given: any buffer that a program can have.  The null
address is outside of it, and one past its end is still an address, so no sum of
an address and an offset within it wraps. -/
structure Buffer where
  base : Nat
  bytes : UInt64
  notNull : 0 < base
  bounded : base + bytes.toNat < 2 ^ 64

/-- The fields of `ArenaState`.  The freelist itself is not among them: it is
threaded through the free slots of the buffer, whose first bytes hold the address
of the next one. -/
structure ArenaState where
  buffer : Nat := 0
  slotSize : UInt64 := 0
  capacity : UInt64 := 0
  freelist : Option Nat := none
  deriving DecidableEq, Repr

namespace ArenaState

/-- `sizeof(FreeNode)`. -/
def nodeSize : UInt64 := 8

def roundUp (objSize objAlign : UInt64) : UInt64 :=
  (objSize + objAlign - 1) &&& ~~~(objAlign - 1)

/-- Room for an object and for a link, rounded up to the alignment. -/
def slotSizeOf (objSize objAlign : UInt64) : UInt64 :=
  if roundUp objSize objAlign < nodeSize then nodeSize else roundUp objSize objAlign

/-- `buffer + i * slot_size`. -/
def slotAt (arena : ArenaState) (i : Nat) : Nat :=
  arena.buffer + (UInt64.ofNat i * arena.slotSize).toNat

def deallocate (arena : ArenaState) (memory : Memory) (p : Nat) : ArenaState × Memory :=
  ({ arena with freelist := some p }, memory.storePointer p arena.freelist)

/-- `for (i = capacity; i-- > 0; )`: the body links one slot, as `deallocate` does. -/
def linkSlots (arena : ArenaState) (memory : Memory) : Nat -> ArenaState × Memory
  | 0 => (arena, memory)
  | i + 1 =>
      let linked := arena.deallocate memory (arena.slotAt i)
      linkSlots linked.1 linked.2 i

def init (buffer : Buffer) (objSize objAlign : UInt64) (memory : Memory) : ArenaState × Memory :=
  let slotSize := slotSizeOf objSize objAlign
  let arena : ArenaState :=
    { buffer := buffer.base, slotSize := slotSize, capacity := buffer.bytes / slotSize }
  arena.linkSlots memory arena.capacity.toNat

def allocate (arena : ArenaState) (memory : Memory) : Option Nat × ArenaState :=
  match arena.freelist with
  | none => (none, arena)
  | some slot => (some slot, { arena with freelist := memory.loadPointer slot })

def Owns (arena : ArenaState) (p : Nat) : Prop :=
  arena.buffer ≤ p ∧ p < arena.buffer + (arena.capacity * arena.slotSize).toNat

instance (arena : ArenaState) (p : Nat) : Decidable (arena.Owns p) :=
  inferInstanceAs (Decidable (_ ∧ _))

/-- The addresses of the slots. -/
def slots (arena : ArenaState) : List Nat :=
  (List.range arena.capacity.toNat).map arena.slotAt

/-! ## Slots -/

theorem slots_relink (arena : ArenaState) (freelist : Option Nat) :
    ({ arena with freelist := freelist } : ArenaState).slots = arena.slots := rfl

/-- Rounding up reaches a multiple of the alignment that is not smaller.  The
source does it with a mask, which agrees with the quotient because the alignment
is a power of two. -/
theorem roundUp_toNat {objSize objAlign : UInt64} {bits : Nat}
    (power : objAlign.toNat = 2 ^ bits) (noOverflow : objSize.toNat + objAlign.toNat ≤ 2 ^ 64) :
    objAlign.toNat ∣ (roundUp objSize objAlign).toNat ∧
      objSize.toNat ≤ (roundUp objSize objAlign).toNat := by
  have positive : 0 < objAlign.toNat := by
    rw [power]
    exact Nat.two_pow_pos bits
  have within : bits ≤ 64 := by
    have small := objAlign.toNat_lt
    rw [power] at small
    exact Nat.le_of_lt ((Nat.pow_lt_pow_iff_right (by decide)).mp small)
  have one : (1 : UInt64).toNat = 1 := rfl
  have sum : (objSize + objAlign - 1).toNat = objSize.toNat + (objAlign.toNat - 1) := by
    rw [UInt64.toNat_sub, UInt64.toNat_add, one]
    have size := objSize.toNat_lt
    omega
  have less : (objAlign - 1).toNat = 2 ^ bits - 1 := by
    rw [UInt64.toNat_sub, one, ← power]
    have align := objAlign.toNat_lt
    omega
  have rounded : (roundUp objSize objAlign).toNat =
      objAlign.toNat * ((objSize.toNat + (objAlign.toNat - 1)) / objAlign.toNat) := by
    have fits : objSize.toNat + (objAlign.toNat - 1) < 2 ^ 64 := by omega
    rw [roundUp, UInt64.toNat_and, UInt64.toNat_not, sum, less, power]
    rw [power] at fits
    exact and_high_mask fits within
  have remainder := Nat.mod_lt (objSize.toNat + (objAlign.toNat - 1)) positive
  have division := Nat.div_add_mod (objSize.toNat + (objAlign.toNat - 1)) objAlign.toNat
  rw [rounded]
  exact ⟨Nat.dvd_mul_right _ _, by omega⟩

theorem slotSizeOf_node (objSize objAlign : UInt64) : 8 ≤ (slotSizeOf objSize objAlign).toNat := by
  unfold slotSizeOf
  split
  · exact Nat.le_refl 8
  · exact UInt64.le_iff_toNat_le.mp (UInt64.not_lt.mp ‹_›)

/-- The clamp to the size of a link keeps the slot size a multiple. -/
theorem slotSizeOf_fits {objSize objAlign : UInt64} {bits : Nat} (object : 0 < objSize)
    (power : objAlign.toNat = 2 ^ bits) (noOverflow : objSize.toNat + objAlign.toNat ≤ 2 ^ 64) :
    objAlign.toNat ∣ (slotSizeOf objSize objAlign).toNat ∧
      objSize.toNat ≤ (slotSizeOf objSize objAlign).toNat := by
  rcases roundUp_toNat power noOverflow with ⟨multiple, large⟩
  unfold slotSizeOf
  split
  · have clamped : (roundUp objSize objAlign).toNat < 8 := UInt64.lt_iff_toNat_lt.mp ‹_›
    have size : 0 < objSize.toNat := UInt64.lt_iff_toNat_lt.mp object
    refine ⟨?_, Nat.le_of_lt (Nat.lt_of_le_of_lt large clamped)⟩
    -- A power of two with a positive multiple below 8 is 1, 2 or 4.
    have small : 2 ^ bits < 2 ^ 3 := by
      rw [← power]
      exact Nat.lt_of_le_of_lt (Nat.le_of_dvd (Nat.lt_of_lt_of_le size large) multiple) clamped
    rw [power]
    exact Nat.pow_dvd_pow 2 (Nat.le_of_lt ((Nat.pow_lt_pow_iff_right (by decide)).mp small))
  · exact ⟨multiple, large⟩

/-- An arena that is cut out of a buffer: its slots begin at the base, are large
enough for the link of the freelist, and end before the buffer does. -/
structure CutFrom (buffer : Buffer) (arena : ArenaState) : Prop where
  base : arena.buffer = buffer.base
  node : 8 ≤ arena.slotSize.toNat
  within : arena.capacity.toNat * arena.slotSize.toNat ≤ buffer.bytes.toNat

namespace CutFrom

variable {buffer : Buffer} {arena : ArenaState} (cut : arena.CutFrom buffer)
include cut

/-- No product of the arena's arithmetic wraps around. -/
theorem product_le {i : Nat} (le : i ≤ arena.capacity.toNat) :
    i * arena.slotSize.toNat ≤ buffer.bytes.toNat :=
  Nat.le_trans (Nat.mul_le_mul_right _ le) cut.within

theorem slotAt_eq {i : Nat} (lt : i < arena.capacity.toNat) :
    arena.slotAt i = buffer.base + i * arena.slotSize.toNat := by
  have small : i < 2 ^ 64 := Nat.lt_trans lt arena.capacity.toNat_lt
  have product := Nat.lt_of_le_of_lt (cut.product_le (Nat.le_of_lt lt)) buffer.bytes.toNat_lt
  rw [slotAt, cut.base, UInt64.toNat_mul, UInt64.toNat_ofNat_of_lt' small,
    Nat.mod_eq_of_lt product]

theorem owns_iff (p : Nat) : arena.Owns p <->
    buffer.base ≤ p ∧ p < buffer.base + arena.capacity.toNat * arena.slotSize.toNat := by
  have product := Nat.lt_of_le_of_lt cut.within buffer.bytes.toNat_lt
  rw [Owns, cut.base, UInt64.toNat_mul, Nat.mod_eq_of_lt product]

/-- A slot lies inside the buffer, behind the slots before it. -/
theorem slotAt_within {i : Nat} (lt : i < arena.capacity.toNat) :
    buffer.base ≤ arena.slotAt i ∧
      arena.slotAt i + arena.slotSize.toNat ≤
        buffer.base + arena.capacity.toNat * arena.slotSize.toNat := by
  have next := Nat.mul_le_mul_right arena.slotSize.toNat (Nat.succ_le_of_lt lt)
  rw [Nat.succ_mul] at next
  rw [cut.slotAt_eq lt]
  omega

theorem slotAt_lt {i j : Nat} (less : i < j) (lt : j < arena.capacity.toNat) :
    arena.slotAt i + arena.slotSize.toNat ≤ arena.slotAt j := by
  have next := Nat.mul_le_mul_right arena.slotSize.toNat (Nat.succ_le_of_lt less)
  rw [Nat.succ_mul] at next
  rw [cut.slotAt_eq lt, cut.slotAt_eq (Nat.lt_trans less lt)]
  omega

omit cut in
theorem mem_slots {p : Nat} : p ∈ arena.slots <->
    Exists fun i => i < arena.capacity.toNat ∧ arena.slotAt i = p := by
  simp only [slots, List.mem_map, List.mem_range]

/-- Two slots are one or lie apart. -/
theorem slots_apart {p q : Nat} (first : p ∈ arena.slots) (second : q ∈ arena.slots)
    (different : p ≠ q) :
    Memory.Apart p arena.slotSize.toNat q arena.slotSize.toNat := by
  rcases mem_slots.mp first with ⟨i, iLt, isFirst⟩
  rcases mem_slots.mp second with ⟨j, jLt, isSecond⟩
  rw [← isFirst, ← isSecond]
  rcases Nat.lt_trichotomy i j with less | same | more
  · exact Or.inl (cut.slotAt_lt less jLt)
  · exact absurd (by rw [← isFirst, ← isSecond, same]) different
  · exact Or.inr (cut.slotAt_lt more iLt)

theorem slots_nodup : arena.slots.Nodup := by
  apply List.nodup_range.map_on
  intro i iIn j jIn same
  rcases Nat.lt_trichotomy i j with less | equal | more
  · have apart := cut.slotAt_lt less (List.mem_range.mp jIn)
    have node := cut.node
    omega
  · exact equal
  · have apart := cut.slotAt_lt more (List.mem_range.mp iIn)
    have node := cut.node
    omega

theorem slot_owned {p : Nat} (isSlot : p ∈ arena.slots) : arena.Owns p := by
  rcases mem_slots.mp isSlot with ⟨i, lt, same⟩
  have within := cut.slotAt_within lt
  have node := cut.node
  rw [cut.owns_iff, ← same]
  omega

/-- The address of a slot is a pointer. -/
theorem slot_pointer {p : Nat} (isSlot : p ∈ arena.slots) : 0 < p ∧ p < 2 ^ 64 := by
  rcases (cut.owns_iff p).mp (cut.slot_owned isSlot) with ⟨above, below⟩
  have notNull := buffer.notNull
  have bounded := buffer.bounded
  have within := cut.within
  omega

/-- The links of two slots lie apart. -/
theorem links_apart {p q : Nat} (first : p ∈ arena.slots) (second : q ∈ arena.slots)
    (different : p ≠ q) : Memory.Apart p 8 q 8 := by
  have apart := cut.slots_apart first second different
  have node := cut.node
  unfold Memory.Apart at apart ⊢
  omega

/-- Writing a link into a slot outside the freelist leaves the freelist alone. -/
theorem push_threaded {memory : Memory} {free : List Nat} {p : Nat}
    (threaded : Threaded memory.loadPointer arena.freelist free)
    (slots : forall q, q ∈ free -> q ∈ arena.slots) (isSlot : p ∈ arena.slots) (fresh : p ∉ free) :
    (forall q, q ∈ free ->
      (arena.deallocate memory p).2.loadPointer q = memory.loadPointer q) ∧
    (arena.deallocate memory p).2.loadPointer p = arena.freelist := by
  constructor
  · intro q isFree
    exact Memory.loadPointer_storePointer_apart
      (cut.links_apart (slots q isFree) isSlot fun same => fresh (same ▸ isFree))
  · apply Memory.loadPointer_storePointer
    intro target isHead
    cases free with
    | nil => exact absurd (isHead.symm.trans threaded) (Option.some_ne_none target)
    | cons q free =>
        rw [← Option.some.inj (threaded.1.symm.trans isHead)]
        exact cut.slot_pointer (slots q List.mem_cons_self)

/-- The slots are those of the fields that `init` sets. -/
theorem relink (freelist : Option Nat) : { arena with freelist := freelist }.CutFrom buffer :=
  ⟨cut.base, cut.node, cut.within⟩

end CutFrom

/-! ## A new arena -/

/-- The arena that `init` links the slots of. -/
def ofBuffer (buffer : Buffer) (objSize objAlign : UInt64) : ArenaState :=
  { buffer := buffer.base
    slotSize := slotSizeOf objSize objAlign
    capacity := buffer.bytes / slotSizeOf objSize objAlign }

theorem ofBuffer_cut (buffer : Buffer) (objSize objAlign : UInt64) :
    (ofBuffer buffer objSize objAlign).CutFrom buffer := by
  refine ⟨rfl, slotSizeOf_node objSize objAlign, ?_⟩
  rw [ofBuffer, UInt64.toNat_div]
  exact Nat.div_mul_le_self _ _

theorem linkSlots_threaded {buffer : Buffer} {count : Nat} {arena : ArenaState} {memory : Memory}
    {later : List Nat} (cut : arena.CutFrom buffer) (le : count ≤ arena.capacity.toNat)
    (linked : arena.slots = (List.range count).map arena.slotAt ++ later)
    (threaded : Threaded memory.loadPointer arena.freelist later) :
    Threaded (arena.linkSlots memory count).2.loadPointer (arena.linkSlots memory count).1.freelist
        arena.slots ∧
      (arena.linkSlots memory count).1 = { arena with
        freelist := (arena.linkSlots memory count).1.freelist } := by
  induction count generalizing arena memory later with
  | zero =>
      rw [linked]
      exact ⟨threaded, rfl⟩
  | succ i inductionHypothesis =>
      have cells : arena.slots =
          (List.range i).map arena.slotAt ++ arena.slotAt i :: later := by
        rw [linked, List.range_succ, List.map_append, List.append_assoc]
        rfl
      have isSlot : arena.slotAt i ∈ arena.slots :=
        CutFrom.mem_slots.mpr ⟨i, le, rfl⟩
      have distinct := cut.slots_nodup
      rw [cells] at distinct
      have fresh : arena.slotAt i ∉ later :=
        (List.nodup_cons.mp (List.nodup_append.mp distinct).2.1).1
      have others : forall q, q ∈ later -> q ∈ arena.slots := by
        intro q member
        rw [linked]
        exact List.mem_append_right _ member
      rcases cut.push_threaded threaded others isSlot fresh with ⟨same, link⟩
      exact inductionHypothesis (cut.relink _) (Nat.le_of_lt le) cells (threaded.push same link)

/-- A new arena has all its slots on the freelist, in their order. -/
theorem init_threaded (buffer : Buffer) (objSize objAlign : UInt64) (memory : Memory) :
    Threaded (init buffer objSize objAlign memory).2.loadPointer
        (init buffer objSize objAlign memory).1.freelist
        (init buffer objSize objAlign memory).1.slots ∧
      (init buffer objSize objAlign memory).1.CutFrom buffer ∧
      (init buffer objSize objAlign memory).1.slotSize = slotSizeOf objSize objAlign ∧
      (init buffer objSize objAlign memory).1.capacity =
        buffer.bytes / slotSizeOf objSize objAlign := by
  have cut := ofBuffer_cut buffer objSize objAlign
  rcases @linkSlots_threaded buffer _ (ofBuffer buffer objSize objAlign) memory [] cut (Nat.le_refl _)
    (List.append_nil _).symm rfl with ⟨threaded, same⟩
  have whole : init buffer objSize objAlign memory =
      (ofBuffer buffer objSize objAlign).linkSlots memory
        (ofBuffer buffer objSize objAlign).capacity.toNat := rfl
  rw [whole]
  generalize (ofBuffer buffer objSize objAlign).linkSlots memory
    (ofBuffer buffer objSize objAlign).capacity.toNat = linked at threaded same
  rw [same]
  exact ⟨threaded, cut.relink _, rfl, rfl⟩

/-- What `init` has to bring about: as many slots as fit lie apart inside the
buffer, at multiples of the alignment from its base, and each has room for an
object. -/
structure Slotted (buffer : Buffer) (objSize objAlign : UInt64) (arena : ArenaState) : Prop where
  object : objSize ≤ arena.slotSize
  count : arena.slots.length = (buffer.bytes / arena.slotSize).toNat
  apart : arena.slots.Pairwise fun p q =>
    Memory.Apart p arena.slotSize.toNat q arena.slotSize.toNat
  inside : forall p, p ∈ arena.slots -> buffer.base ≤ p ∧
    p + arena.slotSize.toNat ≤ buffer.base + buffer.bytes.toNat
  aligned : forall p, p ∈ arena.slots -> objAlign.toNat ∣ p - buffer.base

theorem init_slotted (buffer : Buffer) {objSize objAlign : UInt64} {bits : Nat}
    (object : 0 < objSize) (power : objAlign.toNat = 2 ^ bits)
    (noOverflow : objSize.toNat + objAlign.toNat ≤ 2 ^ 64) (memory : Memory) :
    Slotted buffer objSize objAlign (init buffer objSize objAlign memory).1 := by
  rcases init_threaded buffer objSize objAlign memory with ⟨-, cut, size, capacity⟩
  rcases slotSizeOf_fits object power noOverflow with ⟨multiple, large⟩
  rw [← size] at multiple large capacity
  generalize (init buffer objSize objAlign memory).1 = arena at cut capacity multiple large
  constructor
  · exact UInt64.le_iff_toNat_le.mpr large
  · rw [slots, List.length_map, List.length_range, capacity]
  · apply cut.slots_nodup.imp_of_mem
    exact fun first second different => cut.slots_apart first second different
  · intro p isSlot
    rcases CutFrom.mem_slots.mp isSlot with ⟨i, lt, same⟩
    have inside := cut.slotAt_within lt
    have within := cut.within
    rw [← same]
    omega
  · intro p isSlot
    rcases CutFrom.mem_slots.mp isSlot with ⟨i, lt, same⟩
    rw [← same, cut.slotAt_eq lt, Nat.add_sub_cancel_left]
    exact Nat.dvd_mul_left_of_dvd multiple i

end ArenaState

end NexusHft

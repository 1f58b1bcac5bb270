import Mathlib.Data.List.Nodup
import Mathlib.Logic.Function.Basic

namespace NexusHft

/-!
# The memory pool

A slab of slots.  A free slot holds the next pointer of the freelist in its own
first bytes, so a pointer that is followed is read from the slot it names; a
live slot holds an object instead.  What the object is does not concern the
pool.

`Partitioned` is the invariant: the freelist and the live slots together are
the slots of the slab, each exactly once.
-/

/-- What the memory of a slot is used for.  This is the slab as a client sees it;
`RawPool` has the bytes, where a free slot and a live one differ in nothing. -/
inductive Slot where
  | raw
  | free (next : Option Nat)
  | live
  deriving DecidableEq, Repr

/-- The next pointer in the first bytes of a slot. -/
def Slot.next : Slot -> Option Nat
  | .free next => next
  | .raw => none
  | .live => none

/-- The pool of order nodes over a slab whose slots say what they are used for.
It is what the main loop sees of its pool: a run of the pool over bytes in which
nothing throws and nothing is given back is a run of this one. -/
structure MemoryPool where
  capacity : Nat
  slab : Nat -> Slot
  freelistHead : Option Nat := none
  allocated : Nat := 0

/-- How a call of `allocate` ends: it returns null or an object, or the
constructor throws through it, after the slot has been taken off the freelist. -/
inductive Allocation where
  | nullptr
  | thrown
  | object (slot : Nat)
  deriving DecidableEq, Repr

namespace MemoryPool

def pushFree (pool : MemoryPool) (slot : Nat) : MemoryPool :=
  { pool with
    slab := Function.update pool.slab slot (.free pool.freelistHead)
    freelistHead := some slot }

/-- `for (i = count; i-- > 0; ) push_free(slab_ + i)`. -/
def pushAll (pool : MemoryPool) : Nat -> MemoryPool
  | 0 => pool
  | slot + 1 => pushAll (pool.pushFree slot) slot

/-- A new pool, every slot of which is free. -/
def ofCapacity (capacity : Nat) : MemoryPool :=
  pushAll { capacity := capacity, slab := fun _ => .raw } capacity

/-- Take the first free slot and construct an object in it.  A constructor that
throws leaves the slot popped and not counted. -/
def allocate (pool : MemoryPool) (throws : Bool) : Allocation × MemoryPool :=
  match pool.freelistHead with
  | none => (.nullptr, pool)
  | some slot =>
      let next := (pool.slab slot).next
      if throws then
        (.thrown, { pool with
          slab := Function.update pool.slab slot .raw, freelistHead := next })
      else
        (.object slot, { pool with
          slab := Function.update pool.slab slot .live
          freelistHead := next
          allocated := pool.allocated + 1 })

/-- A call whose constructor returns gives null or the first free slot. -/
theorem allocate_cases (pool : MemoryPool) :
    (pool.freelistHead = none ∧ pool.allocate false = (.nullptr, pool)) ∨
    (pool.freelistHead ≠ none ∧ Exists fun slot => Exists fun next =>
      pool.allocate false = (.object slot, next)) := by
  unfold allocate
  cases isHead : pool.freelistHead with
  | none => exact .inl ⟨rfl, rfl⟩
  | some slot => exact .inr ⟨Option.some_ne_none slot, slot, _, rfl⟩

/-- The slots of a freelist, followed from its head. -/
def Linked (slab : Nat -> Slot) : Option Nat -> List Nat -> Prop
  | head, [] => head = none
  | head, slot :: rest => head = some slot ∧
      Exists fun next => slab slot = .free next ∧ Linked slab next rest

theorem Linked.congr {slab slab' : Nat -> Slot} {head : Option Nat} {free : List Nat}
    (same : forall slot, slot ∈ free -> slab' slot = slab slot) (linked : Linked slab head free) :
    Linked slab' head free := by
  induction free generalizing head with
  | nil => exact linked
  | cons slot rest inductionHypothesis =>
      rcases linked with ⟨isHead, next, isFree, follows⟩
      apply And.intro isHead
      exact ⟨next, (same slot List.mem_cons_self).trans isFree, inductionHypothesis
        (fun other member => same other (List.mem_cons_of_mem slot member)) follows⟩

/-- Every slot of the slab is on the freelist or live, and no slot is both; the
counter counts the live ones.  The permutation says both at once, since the slots
of a slab are distinct. -/
structure Partitioned (pool : MemoryPool) (free live : List Nat) : Prop where
  linked : Linked pool.slab pool.freelistHead free
  marked : forall slot, slot ∈ live -> pool.slab slot = .live
  whole : (free ++ live).Perm (List.range pool.capacity)
  counted : pool.allocated = live.length

/-! ## A new pool -/

theorem pushFree_linked {pool : MemoryPool} {free : List Nat} {slot : Nat}
    (linked : Linked pool.slab pool.freelistHead free) (fresh : slot ∉ free) :
    Linked (pool.pushFree slot).slab (pool.pushFree slot).freelistHead (slot :: free) := by
  apply And.intro rfl
  apply Exists.intro pool.freelistHead
  apply And.intro (Function.update_self _ _ _)
  apply linked.congr
  intro other member
  apply Function.update_of_ne
  intro same
  exact fresh (same ▸ member)

theorem pushAll_linked {pool : MemoryPool} {count : Nat} {free : List Nat}
    (linked : Linked pool.slab pool.freelistHead free)
    (above : forall slot, slot ∈ free -> count ≤ slot) :
    Linked (pool.pushAll count).slab (pool.pushAll count).freelistHead (List.range count ++ free) ∧
      (pool.pushAll count).capacity = pool.capacity ∧
      (pool.pushAll count).allocated = pool.allocated := by
  induction count generalizing pool free with
  | zero => exact ⟨linked, rfl, rfl⟩
  | succ slot inductionHypothesis =>
      have fresh : slot ∉ free := fun member => absurd (above slot member) (Nat.not_succ_le_self slot)
      rw [List.range_succ, List.append_assoc]
      apply inductionHypothesis (pushFree_linked linked fresh)
      intro other member
      rcases List.mem_cons.mp member with same | earlier
      · exact Nat.le_of_eq same.symm
      · exact Nat.le_of_succ_le (above other earlier)

theorem ofCapacity_partitioned (capacity : Nat) :
    (ofCapacity capacity).Partitioned (List.range capacity) [] ∧
      (ofCapacity capacity).capacity = capacity := by
  have filled := @pushAll_linked { capacity := capacity, slab := fun _ => .raw } capacity [] rfl
    (fun _ member => absurd member List.not_mem_nil)
  rw [List.append_nil] at filled
  refine ⟨⟨filled.1, fun _ member => absurd member List.not_mem_nil, ?_, filled.2.2⟩, filled.2.1⟩
  rw [List.append_nil, ofCapacity, filled.2.1]

theorem ofCapacity_head {capacity : Nat} (positive : 0 < capacity) :
    (ofCapacity capacity).freelistHead ≠ none := by
  have linked := (ofCapacity_partitioned capacity).1.linked
  intro none
  cases free : List.range capacity with
  | nil =>
      have empty := congrArg List.length free
      rw [List.length_range] at empty
      exact absurd empty (Nat.ne_of_gt positive)
  | cons slot rest =>
      rw [free] at linked
      exact absurd (linked.1.symm.trans none) (Option.some_ne_none slot)

namespace Partitioned

variable {pool : MemoryPool} {free live : List Nat}

theorem length (partitioned : pool.Partitioned free live) :
    free.length + pool.allocated = pool.capacity := by
  rw [partitioned.counted, ← List.length_append, partitioned.whole.length_eq, List.length_range]

/-- A pool without a free slot answers null and does not change. -/
theorem exhausted (partitioned : pool.Partitioned [] live) (throws : Bool) :
    pool.allocate throws = (.nullptr, pool) := by
  have none : pool.freelistHead = none := partitioned.linked
  unfold allocate
  rw [none]

/-- The first free slot becomes live. -/
theorem allocate {slot : Nat} (partitioned : pool.Partitioned (slot :: free) live) :
    Exists fun pool' => pool.allocate false = (.object slot, pool') ∧
      pool'.Partitioned free (slot :: live) ∧ pool'.capacity = pool.capacity := by
  rcases partitioned.linked with ⟨isHead, next, isFree, follows⟩
  have distinct := partitioned.whole.nodup_iff.mpr List.nodup_range
  have parts := List.nodup_cons.mp distinct
  have elsewhere : forall other, other ∈ free ++ live -> other ≠ slot :=
    fun other member same => parts.1 (same ▸ member)
  unfold MemoryPool.allocate
  rw [isHead]
  refine ⟨_, rfl, ⟨?_, ?_, ?_, ?_⟩, rfl⟩
  · rw [isFree]
    apply follows.congr
    intro other member
    exact Function.update_of_ne (elsewhere other (List.mem_append_left live member)) _ _
  · intro other member
    rcases List.mem_cons.mp member with same | earlier
    · rw [same]
      exact Function.update_self _ _ _
    · rw [← partitioned.marked other earlier]
      exact Function.update_of_ne (elsewhere other (List.mem_append_right free earlier)) _ _
  · exact List.perm_middle.trans partitioned.whole
  · exact congrArg Nat.succ partitioned.counted

end Partitioned
end MemoryPool
end NexusHft

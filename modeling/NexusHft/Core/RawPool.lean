import Mathlib.Data.List.Count
import Mathlib.Data.UInt
import NexusHft.Core.MemoryPool
import NexusHft.Foundations.FreeList
import NexusHft.Foundations.LabelledRun

namespace NexusHft

open Foundations

/-!
# The memory pool on untyped memory

The pool of `MemoryPool` once more, now on the memory it really has.  The slab is
asked of `operator new` as `capacity * sizeof(T)` bytes, and that product is one of
64-bit words.  Where it wraps, the slab is smaller than the slots that the
constructor goes on to write into a freelist.  A write outside of the slab is
undefined, so the constructor of the model answers `none` there.

Nothing in a slot tells a free one from a live one.  Each slot has first bytes, and
what they spell as a pointer is the next free slot only where the pool has written
it.  The constructor of an object leaves any bytes in its slot and the owner of a
live object may write any others, so the freelist runs through memory that is not
the pool's own.

The pool is driven by calls of its clients, who give back live pointers or null
and write to live objects only; `live` records what has been handed out.  Its own
writes after the construction are not checked against the slab.  They need not be:
the partition proved below says that the slots it writes lie in the slab.
-/

/-- What the pool knows of the type of its objects: their size, which a
`static_assert` of the class requires to hold a pointer. -/
structure PooledType where
  size : UInt64
  holdsPointer : 8 ≤ size

/-- `slabBytes` is what `operator new` was asked for.  The slots are numbered from
the start of the slab, and `firstBytes` reads the first bytes of each as a pointer;
it is `none` for the null pointer and for bytes that spell no pointer into the
slab. -/
structure RawPool (T : PooledType) where
  capacity : UInt64
  slabBytes : UInt64
  firstBytes : Nat -> Option Nat
  freelistHead : Option Nat := none
  allocated : Nat := 0

/-- What a constructor does to the first bytes of its slot, and whether it throws. -/
structure Construction where
  bytes : Option Nat
  throws : Bool
  deriving DecidableEq, Repr

namespace RawPool

variable {T : PooledType}

/-- The slot lies within the bytes that `operator new` has returned. -/
def InSlab (pool : RawPool T) (slot : Nat) : Prop :=
  (slot + 1) * T.size.toNat ≤ pool.slabBytes.toNat

instance (pool : RawPool T) (slot : Nat) : Decidable (pool.InSlab slot) :=
  inferInstanceAs (Decidable (_ ≤ _))

def pushFree (pool : RawPool T) (slot : Nat) : RawPool T :=
  { pool with
    firstBytes := Function.update pool.firstBytes slot pool.freelistHead
    freelistHead := some slot }

/-- `for (i = count; i-- > 0; ) push_free(slab_ + i)`, which is undefined from the
first slot outside of the slab. -/
def pushAll (pool : RawPool T) : Nat -> Option (RawPool T)
  | 0 => some pool
  | slot + 1 => if pool.InSlab slot then pushAll (pool.pushFree slot) slot else none

/-- A new pool over a slab of any content.  The size of the slab is the product of
two words, as the constructor computes it. -/
def ofCapacity (T : PooledType) (capacity : UInt64) (content : Nat -> Option Nat) :
    Option (RawPool T) :=
  pushAll { capacity := capacity, slabBytes := capacity * T.size, firstBytes := content }
    capacity.toNat

/-- The pool after the head of the freelist, `node`, has been popped. -/
def popFree (pool : RawPool T) (node : Nat) : RawPool T :=
  { pool with freelistHead := pool.firstBytes node }

/-- Write these first bytes into a slot. -/
def overwrite (pool : RawPool T) (slot : Nat) (bytes : Option Nat) : RawPool T :=
  { pool with firstBytes := Function.update pool.firstBytes slot bytes }

def allocate (pool : RawPool T) (constructor : Construction) : Allocation × RawPool T :=
  match pool.freelistHead with
  | none => (.nullptr, pool)
  | some slot =>
      let written := (pool.popFree slot).overwrite slot constructor.bytes
      if constructor.throws then (.thrown, written)
      else (.object slot, { written with allocated := written.allocated + 1 })

def deallocate (pool : RawPool T) (ptr : Option Nat) : RawPool T :=
  match ptr with
  | none => pool
  | some slot =>
      let freed := pool.pushFree slot
      { freed with allocated := freed.allocated - 1 }

def available (pool : RawPool T) : Nat := pool.capacity.toNat - pool.allocated

/-- `ptr >= slab_ && ptr < slab_ + capacity_`: the pointer is one of the `capacity`
slots counted from the start of the slab.  The pool asserts this of what it is given
back.  It measures by the capacity and not by the bytes of the slab, so that
it says that the slot exists only where the slab is as large as was meant. -/
def Owns (pool : RawPool T) (ptr : Nat) : Prop := ptr < pool.capacity.toNat

instance (pool : RawPool T) (ptr : Nat) : Decidable (pool.Owns ptr) :=
  inferInstanceAs (Decidable (_ < _))

/-! ## Clients -/

/-- What a client does: it calls the pool or writes to an object it holds.  The
label of an allocation says what the constructor did and what the call returned.
-/
inductive PoolCall where
  | allocate (constructor : Construction) (result : Allocation)
  | deallocate (ptr : Option Nat)
  | store (slot : Nat) (bytes : Option Nat)
  deriving DecidableEq, Repr

/-- The call ends in the exception of a constructor. -/
def PoolCall.throws : PoolCall -> Bool
  | .allocate constructor _ => constructor.throws
  | .deallocate _ => false
  | .store _ _ => false

/-- The constructor of this call was left by an exception. -/
def PoolCall.failed : PoolCall -> Bool
  | .allocate _ .thrown => true
  | .allocate _ _ => false
  | .deallocate _ => false
  | .store _ _ => false

/-- The live pointers that a result adds. -/
def handedOut : Allocation -> List Nat
  | .object slot => [slot]
  | .nullptr => []
  | .thrown => []

/-- The pool and the pointers that its clients hold, the latest first.  The pool
itself cannot tell which slots these are: it keeps only their number. -/
structure PoolState (T : PooledType) where
  pool : RawPool T
  live : List Nat

/-- An allocation answers as the pool does and hands out what it answers.  What a
client gives back or writes to must be live: nothing else is promised by the
callers, and the pool checks none of it in a release build. -/
def StepTo (state : PoolState T) (call : PoolCall) (next : PoolState T) : Prop :=
  match call with
  | .allocate constructor result =>
      state.pool.allocate constructor = (result, next.pool) ∧
        next.live = handedOut result ++ state.live
  | .deallocate ptr =>
      (forall slot, ptr = some slot -> slot ∈ state.live) ∧
        next = ⟨state.pool.deallocate ptr, ptr.elim state.live state.live.erase⟩
  | .store slot bytes =>
      slot ∈ state.live ∧
        next = ⟨state.pool.overwrite slot bytes, state.live⟩

/-- A pool of this capacity and its clients.  It starts with nothing handed out and
with whatever bytes `operator new` left in the slab; a construction that is undefined
starts nothing.  Its calls come in any order and number, with any objects. -/
def system (T : PooledType) (capacity : UInt64) : LabelledSystem (PoolState T) PoolCall where
  starts state := Exists fun content =>
    ofCapacity T capacity content = some state.pool ∧ state.live = []
  step := StepTo

/-! ## A new pool -/

section NewPool

variable {pool : RawPool T} {free : List Nat}

theorem pushFree_threaded {slot : Nat}
    (threaded : Threaded pool.firstBytes pool.freelistHead free) (fresh : slot ∉ free) :
    Threaded (pool.pushFree slot).firstBytes (pool.pushFree slot).freelistHead (slot :: free) := by
  apply threaded.push (update_elsewhere fresh _ _)
  exact Function.update_self _ _ _

/-- The loop threads the slots of a slab that holds them all. -/
theorem pushAll_threaded {count : Nat} (inSlab : forall slot, slot < count -> pool.InSlab slot)
    (threaded : Threaded pool.firstBytes pool.freelistHead free)
    (above : forall slot, slot ∈ free -> count ≤ slot) :
    Exists fun new => pool.pushAll count = some new ∧
      Threaded new.firstBytes new.freelistHead (List.range count ++ free) ∧
        new.capacity = pool.capacity ∧ new.slabBytes = pool.slabBytes ∧
          new.allocated = pool.allocated := by
  induction count generalizing pool free with
  | zero => exact ⟨pool, rfl, threaded, rfl, rfl, rfl⟩
  | succ slot inductionHypothesis =>
      have fresh : slot ∉ free := fun member => absurd (above slot member) (Nat.not_succ_le_self slot)
      unfold pushAll
      rw [if_pos (inSlab slot (Nat.lt_succ_self slot)), List.range_succ, List.append_assoc]
      refine @inductionHypothesis (pool.pushFree slot) (slot :: free)
        (fun lower below => inSlab lower (Nat.lt_succ_of_lt below))
        (pushFree_threaded threaded fresh) ?_
      intro other member
      rcases List.mem_cons.mp member with same | earlier
      · exact Nat.le_of_eq same.symm
      · exact Nat.le_of_succ_le (above other earlier)

end NewPool

section Construction

variable {capacity : UInt64}

/-- The product of the words is the product of the numbers. -/
theorem slabBytes_of_fits (fits : capacity.toNat * T.size.toNat < 2 ^ 64) :
    (capacity * T.size).toNat = capacity.toNat * T.size.toNat := by
  rw [UInt64.toNat_mul]
  exact Nat.mod_eq_of_lt fits

/-- A slab that was not cut short holds every slot. -/
theorem inSlab_of_fits {pool : RawPool T} (fits : capacity.toNat * T.size.toNat < 2 ^ 64)
    (asked : pool.slabBytes = capacity * T.size) {slot : Nat} (within : slot < capacity.toNat) :
    pool.InSlab slot := by
  unfold InSlab
  rw [asked, slabBytes_of_fits fits]
  exact Nat.mul_le_mul_right T.size.toNat within

/-- The new pool, when the size of its slab does not wrap. -/
theorem ofCapacity_threaded (fits : capacity.toNat * T.size.toNat < 2 ^ 64)
    (content : Nat -> Option Nat) :
    Exists fun pool => ofCapacity T capacity content = some pool ∧
      Threaded pool.firstBytes pool.freelistHead (List.range capacity.toNat) ∧
        pool.capacity = capacity ∧ pool.slabBytes = capacity * T.size ∧ pool.allocated = 0 := by
  have pushed := @pushAll_threaded T
    { capacity := capacity, slabBytes := capacity * T.size, firstBytes := content } []
    capacity.toNat (fun slot => inSlab_of_fits fits rfl) rfl
    (fun _ member => absurd member List.not_mem_nil)
  rwa [List.append_nil] at pushed

/-- Otherwise the first slot that the loop writes, the last one, is outside. -/
theorem ofCapacity_wrapped (wraps : 2 ^ 64 ≤ capacity.toNat * T.size.toNat)
    (content : Nat -> Option Nat) : ofCapacity T capacity content = none := by
  unfold ofCapacity
  generalize slots : capacity.toNat = count at wraps ⊢
  cases count with
  | zero =>
      rw [Nat.zero_mul] at wraps
      exact absurd wraps (by decide)
  | succ slot =>
      unfold pushAll
      apply if_neg
      apply Nat.not_le_of_lt
      calc
        (capacity * T.size).toNat < 2 ^ 64 := UInt64.toNat_lt _
        _ ≤ (slot + 1) * T.size.toNat := wraps

theorem ofCapacity_isSome_iff (content : Nat -> Option Nat) :
    (ofCapacity T capacity content).isSome <-> capacity.toNat * T.size.toNat < 2 ^ 64 := by
  constructor
  · intro constructed
    by_contra large
    rw [ofCapacity_wrapped (Nat.le_of_not_lt large)] at constructed
    cases constructed
  · intro fits
    rcases ofCapacity_threaded fits content with ⟨pool, constructed, -⟩
    rw [constructed]
    rfl

end Construction

/-! ## One call -/

/-- No slot is taken for the constructor, or it does not throw. -/
def Returns (state : PoolState T) (constructor : Construction) : Prop :=
  state.pool.freelistHead = none ∨ constructor.throws = false

theorem returns_iff (state : PoolState T) (constructor : Construction) :
    Returns state constructor <-> (state.pool.allocate constructor).1 ≠ .thrown := by
  unfold Returns allocate
  cases state.pool.freelistHead with
  | none => simp
  | some slot => cases constructor.throws <;> simp

theorem Returns.not_failed {state next : PoolState T} {constructor : Construction} {result : Allocation}
    (returns : Returns state constructor) (moved : StepTo state (.allocate constructor result) next) :
    (PoolCall.allocate constructor result).failed = false := by
  have returned := (returns_iff state constructor).mp returns
  rw [moved.1] at returned
  cases result with
  | thrown => exact absurd rfl returned
  | nullptr => rfl
  | object slot => rfl

/-- A call whose constructor does not throw does not fail. -/
theorem PoolCall.not_failed {state next : PoolState T} {call : PoolCall}
    (constructs : call.throws = false) (moved : StepTo state call next) : call.failed = false := by
  cases call with
  | allocate constructor result => exact Returns.not_failed (Or.inr constructs) moved
  | deallocate ptr => rfl
  | store slot bytes => rfl

/-- The invariant of the pool with failures: the slots are parted into the
freelist, the live ones, which are counted, and those lost to failed
constructions.  Without a failure nothing is lost, and the slots are partitioned.
-/
structure Accounted (capacity : UInt64) (state : PoolState T) (free lost : List Nat) : Prop where
  parted : Parted state.pool.firstBytes state.pool.freelistHead (List.range capacity.toNat)
    free (state.live ++ lost)
  counted : state.pool.allocated = state.live.length
  size : state.pool.capacity = capacity
  asked : state.pool.slabBytes = capacity * T.size

namespace Accounted

variable {capacity : UInt64} {state next : PoolState T} {free lost : List Nat}

theorem available (accounted : Accounted capacity state free lost) :
    state.pool.available = free.length + lost.length := by
  have lengths := accounted.parted.length
  rw [List.length_range, List.length_append] at lengths
  rw [RawPool.available, accounted.size, accounted.counted]
  omega

/-- A slot that the slab was meant to hold is in it. -/
theorem inSlab (accounted : Accounted capacity state free lost)
    (fits : capacity.toNat * T.size.toNat < 2 ^ 64) {slot : Nat} (within : slot < capacity.toNat) :
    state.pool.InSlab slot :=
  inSlab_of_fits fits accounted.asked within

theorem not_free (accounted : Accounted capacity state free lost) {slot : Nat}
    (isLive : slot ∈ state.live) : slot ∉ free := by
  intro isFree
  apply accounted.parted.not_live List.nodup_range isFree
  exact List.mem_append_left lost isLive

theorem allocate_nil (accounted : Accounted capacity state [] lost) (constructor : Construction) :
    state.pool.allocate constructor = (.nullptr, state.pool) := by
  have null : state.pool.freelistHead = none := accounted.parted.threaded
  unfold allocate
  rw [null]

/-- The first free slot becomes live. -/
theorem allocate_cons {slot : Nat} (accounted : Accounted capacity state (slot :: free) lost)
    {constructor : Construction} (constructs : constructor.throws = false) :
    Exists fun pool => state.pool.allocate constructor = (.object slot, pool) ∧
      Accounted capacity ⟨pool, slot :: state.live⟩ free lost := by
  have isHead : state.pool.freelistHead = some slot := accounted.parted.threaded.1
  have fresh : slot ∉ free := (List.nodup_cons.mp accounted.parted.threaded.nodup).1
  unfold allocate
  rw [isHead, constructs]
  exact ⟨_, rfl, accounted.parted.take (update_elsewhere fresh _ _),
    congrArg Nat.succ accounted.counted, accounted.size, accounted.asked⟩

/-- The first free slot leaves the freelist, and nothing counts it. -/
theorem allocate_throws {slot : Nat} (accounted : Accounted capacity state (slot :: free) lost)
    {constructor : Construction} (throws : constructor.throws = true) :
    Exists fun pool => state.pool.allocate constructor = (.thrown, pool) ∧
      pool.allocated = state.pool.allocated ∧
      Accounted capacity ⟨pool, state.live⟩ free (slot :: lost) := by
  have isHead : state.pool.freelistHead = some slot := accounted.parted.threaded.1
  have fresh : slot ∉ free := (List.nodup_cons.mp accounted.parted.threaded.nodup).1
  have taken := accounted.parted.take
    (update_elsewhere fresh state.pool.firstBytes constructor.bytes)
  unfold allocate
  rw [isHead, throws]
  exact ⟨_, rfl, rfl, taken.of_perm List.perm_middle.symm, accounted.counted,
    accounted.size, accounted.asked⟩

theorem deallocate (accounted : Accounted capacity state free lost) {slot : Nat}
    (isLive : slot ∈ state.live) :
    Accounted capacity ⟨state.pool.deallocate (some slot), state.live.erase slot⟩
      (slot :: free) lost := by
  have given := accounted.parted.give (List.mem_append_left lost isLive)
    (update_elsewhere (accounted.not_free isLive) _ _)
    (Function.update_self slot state.pool.freelistHead state.pool.firstBytes)
  rw [List.erase_append_left lost isLive] at given
  refine ⟨given, ?_, accounted.size, accounted.asked⟩
  rw [List.length_erase_of_mem isLive, ← accounted.counted]
  rfl

theorem store (accounted : Accounted capacity state free lost) {slot : Nat}
    (isLive : slot ∈ state.live) (bytes : Option Nat) :
    Accounted capacity ⟨state.pool.overwrite slot bytes, state.live⟩ free lost :=
  ⟨accounted.parted.write (update_elsewhere (accounted.not_free isLive) _ _),
    accounted.counted, accounted.size, accounted.asked⟩

/-- An allocation loses a slot exactly when it fails.  When it returns an object,
the slot moves from the freelist to the live ones; when there is none, nothing
changes. -/
theorem allocate (accounted : Accounted capacity state free lost) (constructor : Construction) :
    Exists fun free' => Exists fun lost' =>
      Accounted capacity ⟨(state.pool.allocate constructor).2,
        handedOut (state.pool.allocate constructor).1 ++ state.live⟩ free' lost' ∧
      lost'.length = lost.length +
        [PoolCall.allocate constructor (state.pool.allocate constructor).1].countP
          PoolCall.failed := by
  cases free with
  | nil =>
      rw [accounted.allocate_nil constructor]
      exact ⟨[], lost, accounted, rfl⟩
  | cons slot free =>
      cases outcome : constructor.throws with
      | false =>
          rcases accounted.allocate_cons outcome with ⟨pool, handed, kept⟩
          rw [handed]
          exact ⟨free, lost, kept, rfl⟩
      | true =>
          rcases accounted.allocate_throws outcome with ⟨pool, thrown, -, kept⟩
          rw [thrown]
          exact ⟨free, slot :: lost, kept, rfl⟩

/-- What every call of a client does to the three parts. -/
theorem step (accounted : Accounted capacity state free lost) {call : PoolCall}
    (moved : StepTo state call next) :
    Exists fun free' => Exists fun lost' => Accounted capacity next free' lost' ∧
      lost'.length = lost.length + [call].countP PoolCall.failed := by
  cases call with
  | allocate constructor result =>
      rcases moved with ⟨returned, live⟩
      have parts := accounted.allocate constructor
      rw [returned, ← live] at parts
      exact parts
  | deallocate ptr =>
      rcases moved with ⟨isLive, same⟩
      rw [same]
      cases ptr with
      | none => exact ⟨free, lost, accounted, rfl⟩
      | some slot => exact ⟨slot :: free, lost, accounted.deallocate (isLive slot rfl), rfl⟩
  | store slot bytes =>
      rcases moved with ⟨isLive, same⟩
      rw [same]
      exact ⟨free, lost, accounted.store isLive bytes, rfl⟩

end Accounted

/-- A start is a new pool, all of whose slots are free. -/
theorem starts_accounted {capacity : UInt64} {state : PoolState T}
    (starts : (system T capacity).starts state) :
    capacity.toNat * T.size.toNat < 2 ^ 64 ∧
      Accounted capacity state (List.range capacity.toNat) [] ∧ state.live = [] := by
  rcases starts with ⟨content, constructed, none⟩
  have fits : capacity.toNat * T.size.toNat < 2 ^ 64 := by
    rw [← ofCapacity_isSome_iff content, constructed]
    rfl
  rcases ofCapacity_threaded fits content with ⟨pool, same, threaded, size, asked, counted⟩
  rw [constructed] at same
  rw [← Option.some.inj same] at threaded size asked counted
  refine ⟨fits, ⟨⟨threaded, ?_⟩, ?_, size, asked⟩, none⟩
  · rw [none, List.append_nil, List.append_nil]
  · rw [counted, none, List.length_nil]

/-! ## The partition -/

/-- The slots are parted into the freelist and the live ones, which are counted;
nothing is lost. -/
def PartedInto (capacity : UInt64) (state : PoolState T) (free : List Nat) : Prop :=
  Accounted capacity state free []

namespace PartedInto

variable {capacity : UInt64} {state next : PoolState T} {free : List Nat}

theorem parted (parts : PartedInto capacity state free) :
    Parted state.pool.firstBytes state.pool.freelistHead (List.range capacity.toNat)
      free state.live := by
  have whole := Accounted.parted parts
  rwa [List.append_nil] at whole

/-- The freelist is empty exactly when everything is live. -/
theorem free_eq_nil_iff (parts : PartedInto capacity state free) :
    free = [] <-> state.live.length = capacity.toNat := by
  have lengths := parts.parted.length
  rw [List.length_range] at lengths
  rw [← List.length_eq_zero_iff]
  omega

/-- Every call of a client whose constructor does not throw keeps the partition. -/
theorem step (parts : PartedInto capacity state free) {call : PoolCall}
    (constructs : call.throws = false) (moved : StepTo state call next) :
    Exists (PartedInto capacity next) := by
  rcases Accounted.step parts moved with ⟨free', lost, kept, none⟩
  have noFailure : call.failed = false := PoolCall.not_failed constructs moved
  rw [List.countP_singleton, noFailure] at none
  have empty : lost = [] := List.length_eq_zero_iff.mp none
  subst empty
  exact ⟨free', kept⟩

end PartedInto

/-- What the pool promises of a state: the freelist is a finite list of distinct slots,
it and the live slots are disjoint and make up the `capacity` slots, which lie in the
slab, the live slots are distinct, owned and counted, and the next allocation is null
exactly when every slot is live and otherwise a slot that is not. -/
structure SlotsPartitioned (capacity : Nat) (state : PoolState T) : Prop where
  listed : Exists fun free => Threaded state.pool.firstBytes state.pool.freelistHead free ∧
    free.Nodup ∧ (forall slot, slot ∈ free -> slot ∉ state.live) ∧
    forall slot, slot < capacity <-> slot ∈ free ∨ slot ∈ state.live
  inSlab : forall slot, slot < capacity -> state.pool.InSlab slot
  live_nodup : state.live.Nodup
  owned : forall slot, slot ∈ state.live -> state.pool.Owns slot
  counted : state.pool.allocated = state.live.length
  answers : forall constructor : Construction, constructor.throws = false ->
    ((state.pool.allocate constructor).1 = .nullptr <-> state.live.length = capacity) ∧
      forall slot, (state.pool.allocate constructor).1 = .object slot ->
        slot < capacity ∧ slot ∉ state.live

theorem PartedInto.slotsPartitioned {capacity : UInt64} {state : PoolState T} {free : List Nat}
    (parts : PartedInto capacity state free) (fits : capacity.toNat * T.size.toNat < 2 ^ 64) :
    SlotsPartitioned capacity.toNat state := by
  have whole : forall slot, slot < capacity.toNat <-> slot ∈ free ∨ slot ∈ state.live := by
    intro slot
    rw [← List.mem_range]
    exact parts.parted.mem_iff slot
  refine ⟨⟨free, parts.parted.threaded, parts.parted.threaded.nodup,
    fun _ => parts.parted.not_live List.nodup_range, whole⟩,
    fun slot => Accounted.inSlab parts fits,
    parts.parted.live_nodup List.nodup_range, ?_, Accounted.counted parts, ?_⟩
  · intro slot isLive
    rw [Owns, Accounted.size parts]
    exact (whole slot).mpr (Or.inr isLive)
  · intro constructor returns
    rw [← parts.free_eq_nil_iff]
    cases free with
    | nil =>
        rw [Accounted.allocate_nil parts]
        exact ⟨⟨fun _ => rfl, fun _ => rfl⟩, fun slot handed => nomatch handed⟩
    | cons slot free =>
        rcases Accounted.allocate_cons parts returns with ⟨pool, handed, -⟩
        rw [handed]
        refine ⟨iff_of_false (fun null => nomatch null) (List.cons_ne_nil slot free), ?_⟩
        intro other same
        rw [← Allocation.object.inj same]
        exact ⟨(whole slot).mpr (Or.inl List.mem_cons_self),
          parts.parted.not_live List.nodup_range List.mem_cons_self⟩

/-- The invariant of the runs in which no constructor throws. -/
theorem run_parted {capacity : UInt64} {calls : List PoolCall} {state : PoolState T}
    (run : (system T capacity).Run calls state)
    (constructs : forall call, call ∈ calls -> call.throws = false) :
    Exists (PartedInto capacity state) := by
  refine run.invariant (fun past state => (forall call, call ∈ past -> call.throws = false) ->
    Exists (PartedInto capacity state)) ?_ ?_ constructs
  · rintro state starts -
    exact ⟨_, (starts_accounted starts).2.1⟩
  · intro past state call next _ inductionHypothesis moved constructs
    rcases inductionHypothesis
      (fun earlier member => constructs earlier (List.mem_append_left [call] member))
      with ⟨free, parts⟩
    exact parts.step (constructs call (List.mem_append_right past (List.mem_singleton_self call)))
      moved

/-- The promise over all runs: the construction is defined whatever the slab holds, and
after any calls whose constructors do not throw the slots are partitioned. -/
structure Partitions (T : PooledType) (capacity : UInt64) : Prop where
  constructed : forall content, (ofCapacity T capacity content).isSome
  always : forall calls state, (system T capacity).Run calls state ->
    (forall call, call ∈ calls -> call.throws = false) ->
      SlotsPartitioned capacity.toNat state

theorem partitions_of_fits {capacity : UInt64} (fits : capacity.toNat * T.size.toNat < 2 ^ 64) :
    Partitions T capacity := by
  refine ⟨fun content => (ofCapacity_isSome_iff content).mpr fits, ?_⟩
  intro calls state run constructs
  rcases run_parted run constructs with ⟨free, parts⟩
  exact parts.slotsPartitioned fits

theorem Partitions.fits {capacity : UInt64} (partitions : Partitions T capacity) :
    capacity.toNat * T.size.toNat < 2 ^ 64 :=
  (ofCapacity_isSome_iff _).mp (partitions.constructed fun _ => none)

/-- The pool keeps its slots partitioned in every run exactly when the size of its slab
is a word. -/
theorem slots_partitioned_iff (T : PooledType) (capacity : UInt64) :
    Partitions T capacity <-> capacity.toNat * T.size.toNat < 2 ^ 64 :=
  ⟨Partitions.fits, partitions_of_fits⟩

/-- The slab of 2^58 objects of 64 bytes has no bytes at all. -/
theorem slab_wraps_to_nothing : ¬ Partitions ⟨64, by decide⟩ 288230376151711744 := by
  intro partitions
  exact absurd partitions.fits (by decide)

/-- Two objects in a pool of two; one is overwritten with what spells a pointer to
itself, and the other is given back and handed out again. -/
example : Exists fun pool : RawPool ⟨8, by decide⟩ =>
    ofCapacity ⟨8, by decide⟩ 2 (fun _ => some 9) = some pool ∧
      let one := (pool.allocate ⟨some 0, false⟩).2
      let both := (one.allocate ⟨none, false⟩).2
      (((both.overwrite 0 (some 0)).deallocate (some 1)).allocate ⟨some 7, false⟩).1 = .object 1 :=
  ⟨_, rfl, rfl⟩

/-! ## The marked pool -/

/-- The pool with marks, of which objects are only taken, as the loop of the program
does. -/
def markedSystem (capacity : Nat) : LabelledSystem MemoryPool Allocation where
  starts pool := pool = MemoryPool.ofCapacity capacity
  step pool result next := pool.allocate false = (result, next)

/-- What a call answers, when it is an allocation. -/
def PoolCall.answer : PoolCall -> Option Allocation
  | .allocate _ result => some result
  | .deallocate _ => none
  | .store _ _ => none

/-- A pool with marks and one without that have the same freelist and the same live
slots answer an allocation alike, and have them again afterwards. -/
theorem allocate_marked {capacity : UInt64} {state : PoolState T} {pool : MemoryPool}
    {free : List Nat} (parts : PartedInto capacity state free)
    (marked : pool.Partitioned free state.live) {constructor : Construction}
    (returns : constructor.throws = false) :
    Exists fun result => Exists fun raw => Exists fun pool' => Exists fun free' =>
      state.pool.allocate constructor = (result, raw) ∧ pool.allocate false = (result, pool') ∧
        PartedInto capacity ⟨raw, handedOut result ++ state.live⟩ free' ∧
          pool'.Partitioned free' (handedOut result ++ state.live) := by
  cases free with
  | nil =>
      exact ⟨.nullptr, state.pool, pool, [], Accounted.allocate_nil parts constructor,
        marked.exhausted false, parts, marked⟩
  | cons slot free =>
      rcases Accounted.allocate_cons parts returns with ⟨raw, handed, kept⟩
      rcases marked.allocate with ⟨pool', handed', kept', -⟩
      exact ⟨.object slot, raw, pool', free, handed, handed', kept, kept'⟩

/-- As long as nothing is given back, the pool on untyped memory answers as the pool
with marks does, whatever its clients write into their objects. -/
theorem run_marked {capacity : UInt64} {calls : List PoolCall} {state : PoolState T}
    (run : (system T capacity).Run calls state)
    (constructs : forall call, call ∈ calls -> call.throws = false)
    (keeps : forall slot, .deallocate (some slot) ∉ calls) :
    Exists fun pool => Exists fun free =>
      (markedSystem capacity.toNat).Run (calls.filterMap PoolCall.answer) pool ∧
        PartedInto capacity state free ∧ pool.Partitioned free state.live := by
  refine run.invariant (fun past state => (forall call, call ∈ past -> call.throws = false) ->
    (forall slot, .deallocate (some slot) ∉ past) -> Exists fun pool => Exists fun free =>
      (markedSystem capacity.toNat).Run (past.filterMap PoolCall.answer) pool ∧
        PartedInto capacity state free ∧ pool.Partitioned free state.live) ?_ ?_ constructs keeps
  · rintro state starts - -
    rcases starts_accounted starts with ⟨-, parts, none⟩
    refine ⟨_, _, .start rfl, parts, ?_⟩
    rw [none]
    exact (MemoryPool.ofCapacity_partitioned capacity.toNat).1
  · intro past state call next _ inductionHypothesis moved constructs keeps
    rcases inductionHypothesis
      (fun earlier member => constructs earlier (List.mem_append_left [call] member))
      (fun slot member => keeps slot (List.mem_append_left [call] member))
      with ⟨pool, free, marked, parts, partitioned⟩
    rw [List.filterMap_append]
    cases call with
    | allocate constructor result =>
        have returns := constructs _ (List.mem_append_right past (List.mem_singleton_self _))
        rcases moved with ⟨answered, live⟩
        rcases allocate_marked parts partitioned returns
          with ⟨result', raw, pool', free', handed, handed', kept, kept'⟩
        rw [answered] at handed
        have same := Prod.mk.inj handed
        rw [← same.1, ← same.2, ← live] at kept
        rw [← same.1, ← live] at kept'
        rw [← same.1] at handed'
        have step : (markedSystem capacity.toNat).step pool result pool' := handed'
        exact ⟨pool', free', marked.step step, kept, kept'⟩
    | deallocate ptr =>
        rcases moved with ⟨-, same⟩
        cases ptr with
        | none =>
            rw [same]
            refine ⟨pool, free, ?_, parts, partitioned⟩
            exact (List.append_nil (past.filterMap PoolCall.answer)).symm ▸ marked
        | some slot => exact absurd (List.mem_append_right past (List.mem_singleton_self _)) (keeps slot)
    | store slot bytes =>
        rcases moved with ⟨isLive, same⟩
        rw [same]
        refine ⟨pool, free, ?_, Accounted.store parts isLive bytes, partitioned⟩
        exact (List.append_nil (past.filterMap PoolCall.answer)).symm ▸ marked

end RawPool
end NexusHft

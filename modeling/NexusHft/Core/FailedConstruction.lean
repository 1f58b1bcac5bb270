import NexusHft.Core.RawPool

namespace NexusHft

open Foundations

namespace RawPool

/-!
# Constructors that throw

`allocate` pops a slot before it runs the constructor and counts it after.  A
constructor that throws leaves between the two: its slot is on no list and is
not counted, so no later call can hand it out.

`Accounted` is the partition of `PartedInto` with those slots as a third part.
Every call keeps it, and every failed construction adds one slot to the third
part; `available` is therefore the length of the freelist and the number of
failures together.

All this presupposes a pool.  Where the size of the slab wraps there is none: the
constructor of the pool itself has already written outside of it.
-/

/-! ## Runs -/

section Runs

variable {T : PooledType} {capacity : UInt64} {calls : List PoolCall} {state : PoolState T}

/-- After any calls as many slots are lost as constructions have failed. -/
theorem run_accounted (run : (system T capacity).Run calls state) :
    Exists fun free => Exists fun lost => Accounted capacity state free lost ∧
      lost.length = calls.countP PoolCall.failed := by
  refine run.invariant (fun past state => Exists fun free => Exists fun lost =>
    Accounted capacity state free lost ∧ lost.length = past.countP PoolCall.failed) ?_ ?_
  · intro state starts
    exact ⟨List.range capacity.toNat, [], (starts_accounted starts).2.1, rfl⟩
  · rintro past state call next - ⟨free, lost, accounted, failures⟩ moved
    rcases accounted.step moved with ⟨free', lost', kept, more⟩
    refine ⟨free', lost', kept, ?_⟩
    rw [more, failures, List.countP_append]

/-- No allocation among the calls runs a constructor that throws. -/
def Constructs (T : PooledType) (capacity : UInt64) (calls : List PoolCall) : Prop :=
  forall early constructor result late (state : PoolState T),
    calls = early ++ .allocate constructor result :: late ->
      (system T capacity).Run early state -> Returns state constructor

theorem Constructs.early {early late : List PoolCall} (constructs : Constructs T capacity (early ++ late)) :
    Constructs T capacity early := by
  intro first constructor result rest state cut run
  refine constructs first constructor result (rest ++ late) state ?_ run
  rw [cut, List.append_assoc, List.cons_append]

/-- Then none of them has failed. -/
theorem Constructs.no_failure (constructs : Constructs T capacity calls)
    (run : (system T capacity).Run calls state) : calls.countP PoolCall.failed = 0 := by
  apply List.countP_eq_zero.mpr
  intro call member
  rcases List.append_of_mem member with ⟨early, late, cut⟩
  rw [cut] at run
  rcases run.cut with ⟨before, next, earlier, moved⟩
  cases call with
  | allocate constructor result =>
      have returns := constructs early constructor result late before cut earlier
      rw [returns.not_failed moved]
      exact Bool.false_ne_true
  | deallocate ptr => exact Bool.false_ne_true
  | store slot bytes => exact Bool.false_ne_true

/-- What failed constructions must not change.  The pool is constructed whatever its
slab holds, an allocation that throws leaves the freelist and the count, and in every
state on the way `available` is the length of the freelist and an allocation
returns null only where it is zero. -/
structure SlotsKept (T : PooledType) (capacity : UInt64) (calls : List PoolCall) : Prop where
  constructed : forall content, (ofCapacity T capacity content).isSome
  unchanged : forall early constructor result late (state : PoolState T),
    calls = early ++ .allocate constructor result :: late ->
      (system T capacity).Run early state ->
        (state.pool.allocate constructor).1 = .thrown ->
          (forall free, Threaded state.pool.firstBytes state.pool.freelistHead free ->
            Threaded (state.pool.allocate constructor).2.firstBytes
              (state.pool.allocate constructor).2.freelistHead free) ∧
            (state.pool.allocate constructor).2.allocated = state.pool.allocated
  listed : forall early late state, calls = early ++ late -> (system T capacity).Run early state ->
    Exists fun free => Threaded state.pool.firstBytes state.pool.freelistHead free ∧
      free.Nodup ∧ state.pool.available = free.length
  exhausted : forall early late state constructor, calls = early ++ late ->
    (system T capacity).Run early state -> (state.pool.allocate constructor).1 = .nullptr ->
      state.pool.available = 0

theorem Constructs.slotsKept (fits : capacity.toNat * T.size.toNat < 2 ^ 64)
    (constructs : Constructs T capacity calls) : SlotsKept T capacity calls := by
  have listed : forall early late state, calls = early ++ late ->
      (system T capacity).Run early state -> Exists fun free =>
        Threaded state.pool.firstBytes state.pool.freelistHead free ∧
          free.Nodup ∧ state.pool.available = free.length := by
    intro early late state cut run
    subst cut
    rcases run_accounted run with ⟨free, lost, accounted, failures⟩
    rw [constructs.early.no_failure run] at failures
    refine ⟨free, accounted.parted.threaded, accounted.parted.threaded.nodup, ?_⟩
    rw [accounted.available, failures]
    rfl
  refine ⟨fun content => (ofCapacity_isSome_iff content).mpr fits, ?_, listed, ?_⟩
  · intro early constructor result late state cut run thrown
    have returns := constructs early constructor result late state cut run
    exact absurd thrown ((returns_iff state constructor).mp returns)
  · intro early late state constructor cut run null
    rcases listed early late state cut run with ⟨free, threaded, -, length⟩
    cases free with
    | nil => exact length
    | cons slot free =>
        unfold allocate at null
        rw [threaded.1] at null
        cases outcome : constructor.throws <;> simp [outcome] at null

/-- A failed construction cannot leave the freelist as it was: the slot was popped
before the constructor ran, and a list without its head is another list. -/
theorem SlotsKept.constructs (kept : SlotsKept T capacity calls) : Constructs T capacity calls := by
  intro early constructor result late state cut run
  rw [returns_iff]
  intro thrown
  rcases run_accounted run with ⟨free, lost, accounted, -⟩
  have threaded := accounted.parted.threaded
  cases free with
  | nil =>
      rw [accounted.allocate_nil constructor] at thrown
      cases thrown
  | cons slot free =>
      have throws : constructor.throws = true := by
        cases outcome : constructor.throws with
        | true => rfl
        | false =>
            rcases accounted.allocate_cons outcome with ⟨pool, handed, -⟩
            rw [handed] at thrown
            cases thrown
      rcases accounted.allocate_throws throws with ⟨pool, failed, -, after⟩
      have same := (kept.unchanged early constructor result late state cut run thrown).1 _ threaded
      rw [failed] at same
      have equal : free = slot :: free := after.parted.threaded.unique same
      exact absurd (congrArg List.length equal) (Nat.ne_of_lt (Nat.lt_succ_self _))

/-- A pool whose slab has the size that was meant keeps its slots exactly in the calls
without a failed construction; any other pool does not even come to be. -/
theorem slotsKept_iff (T : PooledType) (capacity : UInt64) (calls : List PoolCall) :
    SlotsKept T capacity calls <->
      capacity.toNat * T.size.toNat < 2 ^ 64 ∧ Constructs T capacity calls := by
  constructor
  · intro kept
    exact ⟨(ofCapacity_isSome_iff _).mp (kept.constructed fun _ => none), kept.constructs⟩
  · rintro ⟨fits, constructs⟩
    exact constructs.slotsKept fits

/-- A pool of one slot whose only construction throws hands out nothing any more. -/
theorem slot_lost : ¬ SlotsKept ⟨64, by decide⟩ 1 [.allocate ⟨none, true⟩ .thrown] := by
  intro kept
  let T : PooledType := ⟨64, by decide⟩
  let new : PoolState T :=
    ⟨pushFree { capacity := 1, slabBytes := 1 * T.size, firstBytes := fun _ => none } 0, []⟩
  have begins : (system T 1).Run [] new := .start ⟨fun _ => none, rfl, rfl⟩
  have throws : (system T 1).step new (.allocate ⟨none, true⟩ .thrown)
      ⟨(new.pool.allocate ⟨none, true⟩).2, []⟩ := ⟨rfl, rfl⟩
  have none := kept.exhausted _ [] _ ⟨none, false⟩ rfl (begins.step throws) rfl
  exact absurd none (by decide)

end Runs
end RawPool
end NexusHft

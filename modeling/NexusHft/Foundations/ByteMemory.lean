import NexusHft.Foundations.LittleEndian
import Mathlib.Data.List.GetD
import Mathlib.Data.Nat.Bitwise

namespace NexusHft
namespace Foundations

/-!
# Byte memory

A memory has a byte at every address.  A load reads what the last store to the
same addresses left; a store elsewhere does not change it.  Pointers are words
of eight bytes, and the null pointer is the word 0.  Sizes are rounded to a power
of two with a mask.
-/

/-- The mask without its lowest bits rounds a word down to a power of two. -/
theorem and_high_mask {word width bits : Nat} (fits : word < 2 ^ width) (within : bits ≤ width) :
    word &&& (2 ^ width - 1 - (2 ^ bits - 1)) = 2 ^ bits * (word / 2 ^ bits) := by
  have small : 2 ^ bits - 1 < 2 ^ width := by
    have le := Nat.pow_le_pow_right (show 0 < 2 by decide) within
    have pos := Nat.one_le_two_pow (n := bits)
    omega
  have mask : 2 ^ width - 1 - (2 ^ bits - 1) = 2 ^ width - (2 ^ bits - 1 + 1) := by omega
  apply Nat.eq_of_testBit_eq
  intro bit
  rw [Nat.testBit_and, mask, Nat.testBit_two_pow_sub_succ small, Nat.testBit_two_pow_sub_one,
    Nat.testBit_two_pow_mul, Nat.testBit_div_two_pow]
  rcases Nat.lt_or_ge bit bits with low | high
  · rw [decide_eq_true low, decide_eq_false (Nat.not_le_of_gt low)]
    simp
  · rw [decide_eq_false (Nat.not_lt_of_ge high), decide_eq_true high, Nat.sub_add_cancel high]
    rcases Nat.lt_or_ge bit width with inside | outside
    · simp [inside]
    · have zero : word.testBit bit = false :=
        Nat.testBit_lt_two_pow (Nat.lt_of_lt_of_le fits (Nat.pow_le_pow_right (by decide) outside))
      simp [zero]

abbrev Memory := Nat -> Byte

namespace Memory

def load (memory : Memory) (address : Nat) : Nat -> List Byte
  | 0 => []
  | width + 1 => memory address :: load memory (address + 1) width

def store (memory : Memory) (address : Nat) (bytes : List Byte) : Memory :=
  fun place =>
    if address ≤ place ∧ place < address + bytes.length then bytes.getD (place - address) 0
    else memory place

/-- Two ranges of addresses without a common one. -/
def Apart (first firstBytes second secondBytes : Nat) : Prop :=
  first + firstBytes ≤ second ∨ second + secondBytes ≤ first

variable {memory memory' : Memory} {address width : Nat}

theorem load_congr (same : forall place, address ≤ place -> place < address + width ->
    memory' place = memory place) : load memory' address width = load memory address width := by
  induction width generalizing address with
  | zero => rfl
  | succ width inductionHypothesis =>
      rw [load, load, same address (Nat.le_refl _) (by omega)]
      rw [inductionHypothesis fun place above below => same place (by omega) (by omega)]

theorem load_store (memory : Memory) (address : Nat) (bytes : List Byte) :
    load (memory.store address bytes) address bytes.length = bytes := by
  suffices tails : forall skipped, skipped ≤ bytes.length ->
      load (memory.store address bytes) (address + skipped) (bytes.length - skipped) =
        bytes.drop skipped from tails 0 (Nat.zero_le _)
  intro skipped within
  induction rest : bytes.length - skipped generalizing skipped with
  | zero =>
      rw [List.drop_eq_nil_of_le (by omega)]
      rfl
  | succ count inductionHypothesis =>
      have inside : skipped < bytes.length := by omega
      rw [load, List.drop_eq_getElem_cons inside, Nat.add_assoc,
        inductionHypothesis (skipped + 1) (by omega) (by omega), store,
        if_pos ⟨by omega, by omega⟩, Nat.add_sub_cancel_left, List.getD_eq_getElem _ _ inside]

/-- A store elsewhere does not change what is loaded. -/
theorem load_store_apart {place : Nat} {bytes : List Byte}
    (apart : Apart address width place bytes.length) :
    load (memory.store place bytes) address width = load memory address width := by
  apply load_congr
  intro other above below
  unfold Apart at apart
  rw [store, if_neg (by omega)]

/-! ## Pointers -/

def loadPointer (memory : Memory) (address : Nat) : Option Nat :=
  let pointer := fromBytes (memory.load address 8)
  if pointer = 0 then none else some pointer

def storePointer (memory : Memory) (address : Nat) (pointer : Option Nat) : Memory :=
  memory.store address (toBytes 8 (pointer.getD 0))

theorem loadPointer_storePointer {pointer : Option Nat}
    (valid : forall target, pointer = some target -> 0 < target ∧ target < 2 ^ 64) :
    (memory.storePointer address pointer).loadPointer address = pointer := by
  have word : pointer.getD 0 < 256 ^ 8 := by
    cases pointer with
    | none => exact Nat.pos_of_ne_zero (by decide)
    | some target => exact (valid target rfl).2
  have loaded := load_store memory address (toBytes 8 (pointer.getD 0))
  rw [length_toBytes] at loaded
  rw [loadPointer, storePointer, loaded, fromBytes_toBytes word]
  cases pointer with
  | none => rfl
  | some target => exact if_neg (Nat.ne_of_gt (valid target rfl).1)

theorem loadPointer_storePointer_apart {place : Nat} {pointer : Option Nat}
    (apart : Apart address 8 place 8) :
    (memory.storePointer place pointer).loadPointer address = memory.loadPointer address := by
  rw [loadPointer, storePointer, load_store_apart (by rw [length_toBytes]; exact apart)]
  rfl

theorem loadPointer_store_apart {place : Nat} {bytes : List Byte}
    (apart : Apart address 8 place bytes.length) :
    (memory.store place bytes).loadPointer address = memory.loadPointer address := by
  rw [loadPointer, load_store_apart apart]
  rfl

end Memory
end Foundations
end NexusHft

import Mathlib.Data.UInt
import Mathlib.Data.List.Basic

namespace NexusHft
namespace Foundations

/-!
# Little-endian words and record files

A word of a fixed width is a list of bytes, least significant first.  Packed
records are words one after another, and a record file is records one after
another.  `overwrite` is a store of some bytes at an offset of a file; it never
changes the length of a file that has room for them.
-/

abbrev Byte := UInt8

/-- The lowest `width` bytes of a number, least significant first. -/
def toBytes : Nat -> Nat -> List Byte
  | 0, _ => []
  | width + 1, value => UInt8.ofNat value :: toBytes width (value / 256)

@[simp] theorem length_toBytes (width value : Nat) : (toBytes width value).length = width := by
  induction width generalizing value with
  | zero => rfl
  | succ width inductionHypothesis =>
      exact congrArg (· + 1) (inductionHypothesis (value / 256))

/-- The number that bytes spell, least significant first. -/
def fromBytes : List Byte -> Nat
  | [] => 0
  | byte :: bytes => byte.toNat + 256 * fromBytes bytes

theorem fromBytes_toBytes {width value : Nat} (fits : value < 256 ^ width) :
    fromBytes (toBytes width value) = value := by
  induction width generalizing value with
  | zero => exact (Nat.lt_one_iff.mp fits).symm
  | succ width inductionHypothesis =>
      rw [pow_succ'] at fits
      rw [toBytes, fromBytes, inductionHypothesis (Nat.div_lt_of_lt_mul fits)]
      exact Nat.mod_add_div value 256

/-- Store bytes at an offset. -/
def overwrite (file : List Byte) (offset : Nat) (bytes : List Byte) : List Byte :=
  file.take offset ++ bytes ++ file.drop (offset + bytes.length)

/-- Cut a file to a size, or extend it with zeros. -/
def resize (size : Nat) (file : List Byte) : List Byte :=
  file.take size ++ List.replicate (size - file.length) 0

theorem length_resize (size : Nat) (file : List Byte) : (resize size file).length = size := by
  simp only [resize, List.length_append, List.length_take, List.length_replicate]
  omega

theorem resize_of_length {size : Nat} {file : List Byte} (length : file.length = size) :
    resize size file = file := by
  rw [resize, ← length, List.take_length, Nat.sub_self, List.replicate_zero, List.append_nil]

/-- What stands within the size stays. -/
theorem resize_prefix {size : Nat} {before file : List Byte} (stood : before <+: file)
    (within : before.length ≤ size) : before <+: resize size file := by
  have taken : before <+: file.take size := List.prefix_take_iff.mpr ⟨stood, within⟩
  exact taken.trans (List.prefix_append _ _)

theorem length_overwrite {file bytes : List Byte} {offset : Nat}
    (room : offset + bytes.length ≤ file.length) :
    (overwrite file offset bytes).length = file.length := by
  simp only [overwrite, List.length_append, List.length_take, List.length_drop]
  omega

/-- What stood before the offset still does, followed by the stored bytes. -/
theorem overwrite_prefix {file before : List Byte} (stood : before <+: file) (bytes : List Byte) :
    before ++ bytes <+: overwrite file before.length bytes := by
  have taken : file.take before.length = before := (List.prefix_iff_eq_take.mp stood).symm
  rw [overwrite, taken]
  exact List.prefix_append _ _

/-! ## Records of one width -/

/-- The bytes of the record at an index. -/
def recordAt (width : Nat) (file : List Byte) (i : Nat) : List Byte :=
  (file.drop (width * i)).take width

section Records

universe u

variable {Record : Type u} {bytes : Record -> List Byte} {width : Nat}
  (fixed : forall record, (bytes record).length = width)
include fixed

theorem length_flatMap_fixed (records : List Record) :
    (records.flatMap bytes).length = width * records.length := by
  induction records with
  | nil => rfl
  | cons record records inductionHypothesis =>
      rw [List.flatMap_cons, List.length_append, fixed, inductionHypothesis, List.length_cons,
        Nat.mul_succ, Nat.add_comm]

/-- A file that begins with records has each of them at its index. -/
theorem recordAt_of_prefix {records : List Record} {file : List Byte}
    (holds : records.flatMap bytes <+: file) {i : Nat} (lt : i < records.length) :
    recordAt width file i = bytes records[i] := by
  rcases holds with ⟨rest, whole⟩
  rw [← whole]
  clear whole
  induction records generalizing i with
  | nil => exact absurd lt (Nat.not_lt_zero i)
  | cons record records inductionHypothesis =>
      rw [List.flatMap_cons, List.append_assoc]
      cases i with
      | zero =>
          rw [recordAt, Nat.mul_zero, List.drop_zero, List.take_append_of_le_length (fixed record).ge,
            List.take_of_length_le (fixed record).le]
          rfl
      | succ i =>
          have behind : width * (i + 1) = (bytes record).length + width * i := by
            rw [fixed, Nat.mul_succ, Nat.add_comm]
          rw [recordAt, behind, ← List.drop_drop, List.drop_left]
          exact inductionHypothesis (Nat.lt_of_succ_lt_succ lt)

end Records

end Foundations
end NexusHft

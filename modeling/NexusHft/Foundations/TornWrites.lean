import NexusHft.Foundations.LittleEndian

namespace NexusHft
namespace Foundations

/-!
# Torn writes

Whoever is stopped while writing some bytes has written any of them.  What stands in
both the old and the new contents also stands in what is left, and so does every byte
that the write does not concern.
-/

/-- Some bytes of a file are still the old ones and the others are the new ones,
in any mixture, as when the process is killed in the middle of a copy. -/
structure Torn (old new file : List Byte) : Prop where
  length : file.length = new.length
  byte : forall place : Nat, file[place]? = old[place]? ∨ file[place]? = new[place]?

section Torn

variable {old new file before bytes : List Byte}

theorem Torn.complete (old new : List Byte) : Torn old new new :=
  ⟨rfl, fun _ => Or.inr rfl⟩

/-- A beginning of both is a beginning of what is left. -/
theorem Torn.keeps_prefix (torn : Torn old new file) (inOld : before <+: old)
    (inNew : before <+: new) : before <+: file := by
  rw [List.prefix_iff_getElem?] at inOld inNew ⊢
  intro place lt
  rcases torn.byte place with fromOld | fromNew
  · exact fromOld.trans (inOld place lt)
  · exact fromNew.trans (inNew place lt)

theorem Torn.keeps_byte (torn : Torn old new file) {place : Nat} {byte : Byte}
    (inOld : old.getD place 0 = byte) (inNew : new.getD place 0 = byte) :
    file.getD place 0 = byte := by
  rw [List.getD_eq_getElem?_getD] at inOld inNew ⊢
  rcases torn.byte place with fromOld | fromNew
  · rw [fromOld, inOld]
  · rw [fromNew, inNew]

/-- Bytes behind a store stay. -/
theorem getD_overwrite {offset place : Nat} (room : offset ≤ file.length)
    (behind : offset + bytes.length ≤ place) :
    (overwrite file offset bytes).getD place 0 = file.getD place 0 := by
  have front : (file.take offset ++ bytes).length = offset + bytes.length := by
    simp [room]
  rw [List.getD_eq_getElem?_getD, List.getD_eq_getElem?_getD, overwrite,
    List.getElem?_append_right (by rw [front]; exact behind), front, List.getElem?_drop]
  congr 2
  omega

/-- Bytes within the new size stay; new ones are zero. -/
theorem getD_resize {size place : Nat} (within : place < size) :
    (resize size file).getD place 0 = file.getD place 0 := by
  rw [List.getD_eq_getElem?_getD, List.getD_eq_getElem?_getD, resize]
  by_cases there : place < file.length
  · have taken : place < (file.take size).length := by simp [within, there]
    rw [List.getElem?_append_left taken, List.getElem?_take_of_lt within]
  · have isNew : (file.take size).length ≤ place := by
      simp
      omega
    rw [List.getElem?_append_right isNew, List.getElem?_replicate, List.getElem?_eq_none (by omega)]
    split <;> rfl

end Torn
end Foundations
end NexusHft

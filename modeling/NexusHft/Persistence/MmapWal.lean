import NexusHft.Core.Types
import NexusHft.Foundations.LittleEndian

namespace NexusHft

open Foundations

/-!
# The memory-mapped write-ahead log

The POSIX branch of `MmapWAL`.  The operating system answers each call of
`open` in its own way; its answers are the argument `OsReply`, and
`OsReply.Honest` is what POSIX says about them: a size that is negative as an
`off_t` is refused by `ftruncate`, and `mmap` refuses to map nothing.  A
mapping is shared, so a store through it is a store to the file.

The position of the next record is a field of the object.  Neither the
constructor nor `open` looks for it in the file.
-/

/-- The header of every message.  An enumeration over `uint8_t` may hold any
byte, so the message type is kept as one. -/
structure MsgHeader where
  length : UInt16
  type : Byte
  version : Byte := 1
  deriving DecidableEq, Repr

/-- A packed record, in the order of its fields.  Its bytes are what the log
copies; there is no padding between them. -/
structure NewOrderMsg where
  header : MsgHeader
  clientOrderId : OrderId
  price : Price
  qty : Quantity
  side : Byte
  orderType : Byte
  deriving DecidableEq, Repr

namespace NewOrderMsg

/-- `sizeof(NewOrderMsg)`. -/
def size : UInt64 := 30

/-- The object representation that `memcpy` copies. -/
def bytes (msg : NewOrderMsg) : List Byte :=
  toBytes 2 msg.header.length.toNat ++ [msg.header.type, msg.header.version] ++
    toBytes 8 msg.clientOrderId.toNat ++ toBytes 8 msg.price.toNat ++ toBytes 8 msg.qty.toNat ++
      [msg.side, msg.orderType]

theorem length_bytes (msg : NewOrderMsg) : msg.bytes.length = 30 := by
  simp [bytes]

end NewOrderMsg

/-- The file at the log's path (absent files are empty), and the descriptors and
mappings of it that the process holds. -/
structure Process where
  file : List Byte := []
  descriptors : List Nat := []
  mappings : List Nat := []
  deriving DecidableEq, Repr

/-- What `::open`, `ftruncate` and `mmap` answer.  Each may fail, and the source
returns at the first that does. -/
structure OsReply where
  descriptor : Option Nat
  truncated : Bool
  address : Option Nat
  deriving DecidableEq, Repr

def OsReply.Honest (reply : OsReply) (fileSize : UInt64) : Prop :=
  (reply.truncated = true -> fileSize.toNat < 2 ^ 63) ∧ (reply.address ≠ none -> 0 < fileSize)

instance (reply : OsReply) (fileSize : UInt64) : Decidable (reply.Honest fileSize) :=
  inferInstanceAs (Decidable (_ ∧ _))

/-- The fields of `MmapWAL`.  The mapping itself is a view of the file, so a write
through it changes the file of the process. -/
structure MmapWal where
  fileSize : UInt64
  writeOffset : UInt64 := 0
  mappedData : Option Nat := none
  fd : Option Nat := none
  deriving DecidableEq, Repr

def MmapWal.open (reply : OsReply) (wal : MmapWal) (process : Process) : Bool × MmapWal × Process :=
  match reply.descriptor with
  | none => (false, { wal with fd := none }, process)
  | some fd =>
      let opened := { process with descriptors := fd :: process.descriptors }
      if reply.truncated then
        let resized := { opened with file := resize wal.fileSize.toNat opened.file }
        match reply.address with
        | none => (false, { wal with fd := some fd, mappedData := none }, resized)
        | some address => (true, { wal with fd := some fd, mappedData := some address },
            { resized with mappings := address :: resized.mappings })
      else (false, { wal with fd := some fd }, opened)

def MmapWal.close (wal : MmapWal) (process : Process) : MmapWal × Process :=
  match wal.mappedData with
  | none => (wal, process)
  | some address => ({ wal with mappedData := none }, { process with
      mappings := process.mappings.erase address
      descriptors := match wal.fd with
        | none => process.descriptors
        | some fd => process.descriptors.erase fd })

def MmapWal.appendOrder (wal : MmapWal) (process : Process) (msg : NewOrderMsg) :
    Bool × MmapWal × Process :=
  if wal.mappedData = none ∨ wal.writeOffset + NewOrderMsg.size > wal.fileSize then
    (false, wal, process)
  else (true, { wal with writeOffset := wal.writeOffset + NewOrderMsg.size },
    { process with file := overwrite process.file wal.writeOffset.toNat msg.bytes })

/-! ## One call -/

namespace MmapWal

section Calls

variable {wal : MmapWal} {process : Process} {reply : OsReply}

/-- A successful `open` changes nothing about the position, and leaves a file of
the log's size. -/
theorem open_succeeds (honest : reply.Honest wal.fileSize)
    (opened : (wal.open reply process).1 = true) :
    (wal.open reply process).2.1.fileSize = wal.fileSize ∧
      (wal.open reply process).2.1.writeOffset = wal.writeOffset ∧
      (wal.open reply process).2.1.mappedData ≠ none ∧
      (wal.open reply process).2.2.file = resize wal.fileSize.toNat process.file ∧
      wal.fileSize.toNat < 2 ^ 63 := by
  unfold MmapWal.open at opened ⊢
  cases descriptor : reply.descriptor with
  | none =>
      rw [descriptor] at opened
      exact absurd opened (by simp)
  | some fd =>
      by_cases truncated : reply.truncated = true
      · cases address : reply.address with
        | none =>
            simp only [descriptor, address, if_pos truncated] at opened
            exact absurd opened (by simp)
        | some found =>
            simp only [if_pos truncated, true_and]
            exact ⟨by simp, honest.1 truncated⟩
      · simp only [descriptor, if_neg truncated] at opened
        exact absurd opened (by simp)

theorem close_file (wal : MmapWal) (process : Process) :
    (wal.close process).2.file = process.file := by
  unfold MmapWal.close
  cases wal.mappedData <;> rfl

/-- An open log whose position and file fit its size: appending goes on from here
without touching memory outside of the mapping. -/
structure Ready (wal : MmapWal) (process : Process) : Prop where
  mapped : wal.mappedData ≠ none
  small : wal.fileSize.toNat < 2 ^ 63
  within : wal.writeOffset.toNat ≤ wal.fileSize.toNat
  length : process.file.length = wal.fileSize.toNat

theorem Ready.full_iff (ready : wal.Ready process) :
    wal.writeOffset + NewOrderMsg.size > wal.fileSize <->
      wal.fileSize.toNat < wal.writeOffset.toNat + 30 := by
  have size : NewOrderMsg.size.toNat = 30 := rfl
  have within := ready.within
  have small := ready.small
  have sum : (wal.writeOffset + NewOrderMsg.size).toNat = wal.writeOffset.toNat + 30 := by
    rw [UInt64.toNat_add, size]
    omega
  exact UInt64.lt_iff_toNat_lt.trans (by rw [sum])

theorem Ready.refuses (ready : wal.Ready process)
    (full : wal.fileSize.toNat < wal.writeOffset.toNat + 30) (msg : NewOrderMsg) :
    wal.appendOrder process msg = (false, wal, process) :=
  if_pos (Or.inr (ready.full_iff.mpr full))

/-- An append with room stores the record at the position and moves it on. -/
theorem Ready.accepts (ready : wal.Ready process)
    (room : wal.writeOffset.toNat + 30 ≤ wal.fileSize.toNat) (msg : NewOrderMsg) :
    Exists fun wal' => Exists fun process' =>
      wal.appendOrder process msg = (true, wal', process') ∧ wal'.Ready process' ∧
        wal'.fileSize = wal.fileSize ∧ wal'.writeOffset.toNat = wal.writeOffset.toNat + 30 ∧
          process'.file = overwrite process.file wal.writeOffset.toNat msg.bytes := by
  have size : NewOrderMsg.size.toNat = 30 := rfl
  have small := ready.small
  have sum : (wal.writeOffset + NewOrderMsg.size).toNat = wal.writeOffset.toNat + 30 := by
    rw [UInt64.toNat_add, size]
    omega
  have notFull : ¬ (wal.mappedData = none ∨
      wal.writeOffset + NewOrderMsg.size > wal.fileSize) := by
    rintro (unmapped | full)
    · exact ready.mapped unmapped
    · have := ready.full_iff.mp full
      omega
  refine ⟨_, _, if_neg notFull, ⟨ready.mapped, small, ?_, ?_⟩, rfl, sum, rfl⟩
  · change (wal.writeOffset + NewOrderMsg.size).toNat ≤ wal.fileSize.toNat
    omega
  · refine (length_overwrite ?_).trans ready.length
    rw [msg.length_bytes, ready.length]
    exact room

end Calls
end MmapWal
end NexusHft

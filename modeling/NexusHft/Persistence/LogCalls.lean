import NexusHft.Persistence.MmapWal
import Mathlib.Data.List.Induction

namespace NexusHft

open Foundations

/-!
# Calls on one log object

One object is opened, appended to and closed in any order, and each system call
of an `open` may fail.  `accepted` records the messages whose append returned
true.

The position of the next record survives `close`, so that the accepted records
follow one another in the file from its beginning, whatever the calls between
them.  The descriptor and the mapping do not fare as well: `open` forgets a
descriptor when a later system call fails, and whatever it held when it is called
again.
-/

/-! ## Reading a record back -/

namespace NewOrderMsg

/-- The number in some bytes of a record. -/
def field (bytes : List Byte) (offset width : Nat) : Nat :=
  fromBytes ((bytes.drop offset).take width)

/-- The packed structure at the beginning of some bytes. -/
def ofBytes (bytes : List Byte) : NewOrderMsg where
  header := ⟨UInt16.ofNat (field bytes 0 2), bytes.getD 2 0, bytes.getD 3 0⟩
  clientOrderId := UInt64.ofNat (field bytes 4 8)
  price := UInt64.ofNat (field bytes 12 8)
  qty := UInt64.ofNat (field bytes 20 8)
  side := bytes.getD 28 0
  orderType := bytes.getD 29 0

theorem word_of_bytes (word : UInt64) : UInt64.ofNat (fromBytes (toBytes 8 word.toNat)) = word := by
  rw [fromBytes_toBytes word.toNat_lt]
  exact UInt64.ofNat_toNat

/-- A message survives being stored. -/
theorem ofBytes_bytes (msg : NewOrderMsg) : ofBytes msg.bytes = msg := by
  have length : field msg.bytes 0 2 = fromBytes (toBytes 2 msg.header.length.toNat) := rfl
  have id : field msg.bytes 4 8 = fromBytes (toBytes 8 msg.clientOrderId.toNat) := rfl
  have price : field msg.bytes 12 8 = fromBytes (toBytes 8 msg.price.toNat) := rfl
  have qty : field msg.bytes 20 8 = fromBytes (toBytes 8 msg.qty.toNat) := rfl
  rw [ofBytes, length, id, price, qty, fromBytes_toBytes msg.header.length.toNat_lt,
    UInt16.ofNat_toNat]
  simp only [word_of_bytes]
  rfl

end NewOrderMsg

/-! ## Runs -/

/-- The calls on one log object, in any order.  The destructor is a `close`; an
`open` may find the log open already. -/
inductive LogCall where
  | open (reply : OsReply)
  | appendOrder (msg : NewOrderMsg)
  | close
  deriving DecidableEq, Repr

/-- The log object, the process around it, and the records that were accepted
since the object was made. -/
structure LogState where
  wal : MmapWal
  process : Process
  accepted : List NewOrderMsg
  deriving DecidableEq, Repr

namespace LogState

def apply (state : LogState) : LogCall -> LogState
  | .open reply =>
      let opened := state.wal.open reply state.process
      { state with wal := opened.2.1, process := opened.2.2 }
  | .appendOrder msg =>
      let appended := state.wal.appendOrder state.process msg
      { wal := appended.2.1
        process := appended.2.2
        accepted := if appended.1 then state.accepted ++ [msg] else state.accepted }
  | .close =>
      let closed := state.wal.close state.process
      { state with wal := closed.1, process := closed.2 }

/-- A new object on a file that may already have some content. -/
def new (fileSize : UInt64) (file : List Byte) : LogState :=
  { wal := { fileSize := fileSize }, process := { file := file }, accepted := [] }

def after (fileSize : UInt64) (file : List Byte) (calls : List LogCall) : LogState :=
  calls.foldl apply (new fileSize file)

theorem after_concat (fileSize : UInt64) (file : List Byte) (calls : List LogCall)
    (call : LogCall) : after fileSize file (calls ++ [call]) =
      (after fileSize file calls).apply call := by
  rw [after, List.foldl_append]
  rfl

/-! ## The records -/

/-- The accepted records stand at the beginning of the file, the position is
behind them, and a mapped file has the size of the log.  This is the invariant of
one log object. -/
structure Logged (fileSize : UInt64) (state : LogState) : Prop where
  size : state.wal.fileSize = fileSize
  offset : state.wal.writeOffset.toNat = 30 * state.accepted.length
  within : 30 * state.accepted.length ≤ fileSize.toNat
  holds : state.accepted.flatMap NewOrderMsg.bytes <+: state.process.file
  mapped : state.wal.mappedData ≠ none -> state.process.file.length = fileSize.toNat

/-- An `open` moves nothing; it leaves the file and the mapping as they are, or cuts
the file to the size of the log. -/
theorem open_cases (wal : MmapWal) (process : Process) (reply : OsReply) :
    (wal.open reply process).2.1.fileSize = wal.fileSize ∧
      (wal.open reply process).2.1.writeOffset = wal.writeOffset ∧
      ((wal.open reply process).2.2.file = process.file ∧
          (wal.open reply process).2.1.mappedData = wal.mappedData ∨
        (wal.open reply process).2.2.file = resize wal.fileSize.toNat process.file) := by
  unfold MmapWal.open
  cases reply.descriptor with
  | none => exact ⟨rfl, rfl, Or.inl ⟨rfl, rfl⟩⟩
  | some fd =>
      dsimp only
      split
      · cases reply.address with
        | none => exact ⟨rfl, rfl, Or.inr rfl⟩
        | some address => exact ⟨rfl, rfl, Or.inr rfl⟩
      · exact ⟨rfl, rfl, Or.inl ⟨rfl, rfl⟩⟩

namespace Logged

variable {fileSize : UInt64} {state : LogState}

theorem of_new (fileSize : UInt64) (file : List Byte) : Logged fileSize (new fileSize file) :=
  ⟨rfl, rfl, Nat.zero_le _, List.nil_prefix, fun mapped => absurd rfl mapped⟩

section Steps

variable (logged : Logged fileSize state)
include logged

theorem apply_open (reply : OsReply) : Logged fileSize (state.apply (.open reply)) := by
  rcases open_cases state.wal state.process reply with ⟨size, offset, ⟨file, mapped⟩ | file⟩
  · refine ⟨size.trans logged.size, (congrArg UInt64.toNat offset).trans logged.offset,
      logged.within, ?_, ?_⟩
    · rw [show (state.apply (.open reply)).process.file = _ from file]
      exact logged.holds
    · intro isMapped
      exact (congrArg List.length file).trans (logged.mapped (mapped ▸ isMapped))
  · have length : (state.apply (.open reply)).process.file.length = fileSize.toNat := by
      rw [← logged.size]
      exact (congrArg List.length file).trans (length_resize _ _)
    refine ⟨size.trans logged.size, (congrArg UInt64.toNat offset).trans logged.offset,
      logged.within, ?_, fun _ => length⟩
    have records := length_flatMap_fixed NewOrderMsg.length_bytes state.accepted
    have within := logged.within
    have kept : state.accepted.flatMap NewOrderMsg.bytes <+:
        resize state.wal.fileSize.toNat state.process.file :=
      resize_prefix logged.holds (by rw [records, logged.size]; exact within)
    rw [show (state.apply (.open reply)).process.file = _ from file]
    exact kept

theorem apply_close : Logged fileSize (state.apply .close) := by
  have file := MmapWal.close_file state.wal state.process
  have fields : (state.wal.close state.process).1.fileSize = state.wal.fileSize ∧
      (state.wal.close state.process).1.writeOffset = state.wal.writeOffset ∧
        (state.wal.close state.process).1.mappedData = none := by
    unfold MmapWal.close
    cases unmapped : state.wal.mappedData with
    | none => exact ⟨rfl, rfl, unmapped⟩
    | some address => exact ⟨rfl, rfl, rfl⟩
  refine ⟨fields.1.trans logged.size, (congrArg UInt64.toNat fields.2.1).trans logged.offset,
    logged.within, ?_, fun isMapped => absurd fields.2.2 isMapped⟩
  rw [show (state.apply .close).process.file = _ from file]
  exact logged.holds

section Append

variable (small : fileSize.toNat < 2 ^ 63)
include small

theorem ready (mapped : state.wal.mappedData ≠ none) : state.wal.Ready state.process :=
  ⟨mapped, logged.size ▸ small, by rw [logged.offset, logged.size]; exact logged.within,
    by rw [logged.size]; exact logged.mapped mapped⟩

/-- An append returns false when the log is not mapped or has no room for a record,
and then nothing changes. -/
theorem append_refused (msg : NewOrderMsg) (refuses : state.wal.mappedData = none ∨
    fileSize.toNat - state.wal.writeOffset.toNat < 30) :
    state.wal.appendOrder state.process msg = (false, state.wal, state.process) := by
  by_cases mapped : state.wal.mappedData = none
  · exact if_pos (Or.inl mapped)
  · have isReady := logged.ready small mapped
    have within := isReady.within
    have full := refuses.resolve_left mapped
    rw [← logged.size] at full
    exact isReady.refuses (by omega) msg

/-- Otherwise it returns true, and the record follows the accepted ones. -/
theorem append_accepted (msg : NewOrderMsg) (mapped : state.wal.mappedData ≠ none)
    (room : 30 ≤ fileSize.toNat - state.wal.writeOffset.toNat) :
    (state.wal.appendOrder state.process msg).1 = true ∧
      Logged fileSize (state.apply (.appendOrder msg)) := by
  have isReady := logged.ready small mapped
  rcases isReady.accepts (by rw [logged.size]; omega) msg with
    ⟨wal', process', appended, ready', size, offset, file⟩
  have applied : state.apply (.appendOrder msg) = ⟨wal', process', state.accepted ++ [msg]⟩ := by
    rw [apply, appended]
    rfl
  rw [applied, appended]
  refine ⟨rfl, size.trans logged.size, ?_, ?_, ?_, ?_⟩
  · rw [List.length_append, List.length_singleton, Nat.mul_succ, ← logged.offset]
    exact offset
  · have position := logged.offset
    dsimp only
    rw [List.length_append, List.length_singleton]
    omega
  · have position : (state.accepted.flatMap NewOrderMsg.bytes).length =
        state.wal.writeOffset.toNat := by
      rw [logged.offset]
      exact length_flatMap_fixed NewOrderMsg.length_bytes state.accepted
    dsimp only
    rw [List.flatMap_append, List.flatMap_singleton, file, ← position]
    exact overwrite_prefix logged.holds msg.bytes
  · intro _
    rw [← logged.size, ← size]
    exact ready'.length

theorem append_false_iff (msg : NewOrderMsg) :
    (state.wal.appendOrder state.process msg).1 = false <->
      state.wal.mappedData = none ∨ fileSize.toNat - state.wal.writeOffset.toNat < 30 := by
  constructor
  · intro refused
    by_contra accepts
    rw [not_or] at accepts
    have accepted :=
      (logged.append_accepted small msg accepts.1 (Nat.le_of_not_lt accepts.2)).1
    exact absurd (accepted.symm.trans refused) (by decide)
  · intro refuses
    rw [logged.append_refused small msg refuses]

theorem apply (call : LogCall) : Logged fileSize (state.apply call) := by
  cases call with
  | «open» reply => exact logged.apply_open reply
  | close => exact logged.apply_close
  | appendOrder msg =>
      by_cases refuses : state.wal.mappedData = none ∨
          fileSize.toNat - state.wal.writeOffset.toNat < 30
      · have unchanged : state.apply (.appendOrder msg) = state := by
          rw [LogState.apply, logged.append_refused small msg refuses]
          rfl
        rw [unchanged]
        exact logged
      · rw [not_or] at refuses
        exact (logged.append_accepted small msg refuses.1 (Nat.le_of_not_lt refuses.2)).2

end Append
end Steps

theorem of_calls (small : fileSize.toNat < 2 ^ 63) (file : List Byte) (calls : List LogCall) :
    Logged fileSize (after fileSize file calls) := by
  induction calls using List.reverseRecOn with
  | nil => exact of_new fileSize file
  | append_singleton calls call inductionHypothesis =>
      rw [after_concat]
      exact inductionHypothesis.apply small call

end Logged

/-- After any calls: the position counts the accepted records and stays within the
file, the records of a mapped file decode to the accepted messages, and an append
returns false exactly without a mapping or without room, and then changes nothing. -/
theorem records_round_trip {fileSize : UInt64} (small : fileSize.toNat < 2 ^ 63)
    (file : List Byte) (calls : List LogCall) :
    let state := after fileSize file calls
    state.wal.fileSize = fileSize ∧
    state.wal.writeOffset.toNat = NewOrderMsg.size.toNat * state.accepted.length ∧
    state.wal.writeOffset ≤ fileSize ∧
    (state.wal.mappedData ≠ none -> forall i, forall lt : i < state.accepted.length,
      NewOrderMsg.ofBytes (recordAt NewOrderMsg.size.toNat state.process.file i) =
        state.accepted[i]) ∧
    forall msg,
      ((state.wal.appendOrder state.process msg).1 = false <->
        state.wal.mappedData = none ∨
          fileSize.toNat - state.wal.writeOffset.toNat < NewOrderMsg.size.toNat) ∧
      ((state.wal.appendOrder state.process msg).1 = false ->
        state.wal.appendOrder state.process msg = (false, state.wal, state.process)) := by
  intro state
  have logged : Logged fileSize state := Logged.of_calls small file calls
  refine ⟨logged.size, logged.offset, ?_, ?_, ?_⟩
  · rw [UInt64.le_iff_toNat_le, logged.offset]
    exact logged.within
  · intro _ i lt
    have record : recordAt NewOrderMsg.size.toNat state.process.file i = state.accepted[i].bytes :=
      recordAt_of_prefix NewOrderMsg.length_bytes logged.holds lt
    rw [record, NewOrderMsg.ofBytes_bytes]
  · intro msg
    refine ⟨logged.append_false_iff small msg, ?_⟩
    intro refused
    exact logged.append_refused small msg ((logged.append_false_iff small msg).mp refused)

/-- A log of two records and five bytes is opened, filled, closed and opened again;
the attempt in between to open it fails, and so does the third append. -/
def reopened : List LogCall :=
  let msg : UInt64 -> NewOrderMsg := fun id => ⟨⟨30, 1, 1⟩, id, 50, 10, 0, 0⟩
  [.open ⟨some 3, true, some 4096⟩, .appendOrder (msg 1), .close, .open ⟨some 3, true, none⟩,
    .open ⟨some 4, true, some 8192⟩, .appendOrder (msg 2), .appendOrder (msg 3)]

theorem records_round_trip_reopened :
    (after 65 [] reopened).wal.writeOffset.toNat = 60 ∧
      forall i, forall lt : i < (after 65 [] reopened).accepted.length,
        NewOrderMsg.ofBytes (recordAt 30 (after 65 [] reopened).process.file i) =
          (after 65 [] reopened).accepted[i] := by
  have logged := @records_round_trip 65 (by decide) [] reopened
  exact ⟨logged.2.1.trans (by decide +kernel), logged.2.2.2.1 (by decide +kernel)⟩

/-! ## Descriptors and mappings -/

/-- At most one descriptor and one mapping are held, and none without a mapped
address. -/
def Released (state : LogState) : Prop :=
  state.process.descriptors.length ≤ 1 ∧ state.process.mappings.length ≤ 1 ∧
    (state.wal.mappedData = none ->
      state.process.descriptors = [] ∧ state.process.mappings = [])

/-- An `open` that gets a descriptor finds nothing mapped and fails in no later
system call; a `close` of a mapping still has the descriptor. -/
def Clean (state : LogState) : LogCall -> Prop
  | .open reply => reply.descriptor ≠ none ->
      state.wal.mappedData = none ∧ reply.truncated = true ∧ reply.address ≠ none
  | .appendOrder _ => True
  | .close => state.wal.mappedData ≠ none -> state.wal.fd ≠ none

/-- Nothing is held without a mapping; with one, it and one descriptor are, which
the object has forgotten if anything. -/
def Tidy (state : LogState) : Prop :=
  match state.wal.mappedData with
  | none => state.process.descriptors = [] ∧ state.process.mappings = []
  | some address => state.process.mappings = [address] ∧
      Exists fun fd => state.process.descriptors = [fd] ∧
        (state.wal.fd = some fd ∨ state.wal.fd = none)

section Open

variable (state : LogState) {reply : OsReply}

variable {state} in
/-- An `open` without a descriptor forgets the one before it. -/
theorem open_refused (refused : reply.descriptor = none) :
    state.apply (.open reply) = { state with wal := { state.wal with fd := none } } := by
  simp only [apply, MmapWal.open, refused]

theorem open_descriptors {fd : Nat} (descriptor : reply.descriptor = some fd) :
    (state.apply (.open reply)).process.descriptors = fd :: state.process.descriptors := by
  simp only [apply, MmapWal.open, descriptor]
  split
  · cases reply.address <;> rfl
  · rfl

/-- When `ftruncate` or `mmap` fails, nothing is mapped or what was before. -/
theorem open_unmapped {fd : Nat} (descriptor : reply.descriptor = some fd)
    (fails : ¬ (reply.truncated = true ∧ reply.address ≠ none)) :
    (state.apply (.open reply)).wal.mappedData = none ∨
      (state.apply (.open reply)).wal.mappedData = state.wal.mappedData := by
  simp only [apply, MmapWal.open, descriptor]
  by_cases truncated : reply.truncated = true
  · cases address : reply.address with
    | none =>
        rw [if_pos truncated]
        exact Or.inl rfl
    | some found =>
        exact absurd ⟨truncated, by rw [address]; exact Option.some_ne_none found⟩ fails
  · rw [if_neg truncated]
    exact Or.inr rfl

theorem open_mapped {fd address : Nat} (descriptor : reply.descriptor = some fd)
    (truncated : reply.truncated = true) (mapped : reply.address = some address) :
    (state.apply (.open reply)).wal.mappedData = some address ∧
      (state.apply (.open reply)).wal.fd = some fd ∧
      (state.apply (.open reply)).process.descriptors = fd :: state.process.descriptors ∧
      (state.apply (.open reply)).process.mappings = address :: state.process.mappings := by
  simp only [apply, MmapWal.open, descriptor, if_pos truncated, mapped]
  exact ⟨trivial, trivial, trivial, trivial⟩

end Open

namespace Tidy

variable {state : LogState}

theorem unmapped (tidy : Tidy state) (isNone : state.wal.mappedData = none) :
    state.process.descriptors = [] ∧ state.process.mappings = [] := by
  unfold Tidy at tidy
  rw [isNone] at tidy
  exact tidy

theorem mapped (tidy : Tidy state) {address : Nat} (isSome : state.wal.mappedData = some address) :
    state.process.mappings = [address] ∧ Exists fun fd => state.process.descriptors = [fd] ∧
      (state.wal.fd = some fd ∨ state.wal.fd = none) := by
  unfold Tidy at tidy
  rw [isSome] at tidy
  exact tidy

theorem released (tidy : Tidy state) : Released state := by
  unfold Released
  cases address : state.wal.mappedData with
  | none =>
      rcases tidy.unmapped address with ⟨descriptors, mappings⟩
      rw [descriptors, mappings]
      exact ⟨Nat.zero_le 1, Nat.zero_le 1, fun _ => ⟨rfl, rfl⟩⟩
  | some found =>
      rcases tidy.mapped address with ⟨mappings, fd, descriptors, -⟩
      rw [descriptors, mappings]
      exact ⟨Nat.le_refl 1, Nat.le_refl 1, fun isNone => absurd isNone (Option.some_ne_none found)⟩

/-- An object without a mapping is tidy when it holds nothing. -/
theorem of_unmapped (isNone : state.wal.mappedData = none)
    (nothing : state.process.descriptors = [] ∧ state.process.mappings = []) : Tidy state := by
  unfold Tidy
  rw [isNone]
  exact nothing

section Calls

variable (tidy : Tidy state)
include tidy

theorem apply_open {reply : OsReply} (clean : Clean state (.open reply)) :
    Tidy (state.apply (.open reply)) := by
  cases descriptor : reply.descriptor with
  | none =>
      rw [open_refused descriptor]
      cases address : state.wal.mappedData with
      | none => exact of_unmapped address (tidy.unmapped address)
      | some found =>
          rcases tidy.mapped address with ⟨mappings, fd, descriptors, -⟩
          unfold Tidy
          dsimp only
          rw [address]
          exact ⟨mappings, fd, descriptors, Or.inr rfl⟩
  | some fd =>
      rcases clean (by rw [descriptor]; exact Option.some_ne_none fd) with ⟨isNone, truncated, mapped⟩
      rcases Option.ne_none_iff_exists'.mp mapped with ⟨found, address⟩
      rcases tidy.unmapped isNone with ⟨descriptors, mappings⟩
      rcases open_mapped state descriptor truncated address with ⟨isMapped, held, added, taken⟩
      unfold Tidy
      rw [isMapped, held, added, taken, descriptors, mappings]
      exact ⟨rfl, fd, rfl, Or.inl rfl⟩

theorem clean_open {reply : OsReply} (released : Released (state.apply (.open reply))) :
    Clean state (.open reply) := by
  intro gotDescriptor
  rcases Option.ne_none_iff_exists'.mp gotDescriptor with ⟨fd, descriptor⟩
  have added := open_descriptors state descriptor
  have isNone : state.wal.mappedData = none := by
    cases address : state.wal.mappedData with
    | none => rfl
    | some found =>
        -- The new descriptor joins the old one.
        rcases tidy.mapped address with ⟨-, old, descriptors, -⟩
        have single := released.1
        rw [added, descriptors] at single
        exact absurd single (by simp)
  have mapped : (state.apply (.open reply)).wal.mappedData ≠ none := by
    intro unmapped
    have nothing := (released.2.2 unmapped).1
    rw [added] at nothing
    exact absurd nothing (List.cons_ne_nil _ _)
  apply And.intro isNone
  by_contra fails
  apply mapped
  rcases open_unmapped state descriptor fails with unmapped | same
  · exact unmapped
  · exact same.trans isNone

theorem apply_close (clean : Clean state .close) : Tidy (state.apply .close) := by
  unfold Clean at clean
  unfold LogState.apply MmapWal.close
  cases address : state.wal.mappedData with
  | none => exact of_unmapped address (tidy.unmapped address)
  | some found =>
      rcases tidy.mapped address with ⟨mappings, fd, descriptors, held | lost⟩
      · apply of_unmapped rfl
        dsimp only
        rw [held, descriptors, mappings]
        exact ⟨List.erase_cons_head _ _, List.erase_cons_head _ _⟩
      · exact absurd lost (clean (by rw [address]; exact Option.some_ne_none found))

theorem clean_close (released : Released (state.apply .close)) : Clean state .close := by
  intro mapped lost
  rcases Option.ne_none_iff_exists'.mp mapped with ⟨found, address⟩
  rcases tidy.mapped address with ⟨-, fd, descriptors, -⟩
  unfold Released LogState.apply MmapWal.close at released
  simp only [address, lost, descriptors] at released
  exact absurd (released.2.2 trivial).1 (List.cons_ne_nil _ _)

omit tidy in
/-- An append touches neither the descriptors nor the mappings. -/
theorem append_keeps (state : LogState) (msg : NewOrderMsg) :
    (state.apply (.appendOrder msg)).wal.mappedData = state.wal.mappedData ∧
      (state.apply (.appendOrder msg)).wal.fd = state.wal.fd ∧
      (state.apply (.appendOrder msg)).process.descriptors = state.process.descriptors ∧
      (state.apply (.appendOrder msg)).process.mappings = state.process.mappings := by
  unfold LogState.apply MmapWal.appendOrder
  dsimp only
  split <;> exact ⟨rfl, rfl, rfl, rfl⟩

theorem apply_append (msg : NewOrderMsg) : Tidy (state.apply (.appendOrder msg)) := by
  rcases append_keeps state msg with ⟨address, fd, descriptors, mappings⟩
  unfold Tidy
  rw [address, fd, descriptors, mappings]
  exact tidy

theorem apply {call : LogCall} (clean : Clean state call) : Tidy (state.apply call) := by
  cases call with
  | «open» reply => exact tidy.apply_open clean
  | appendOrder msg => exact tidy.apply_append msg
  | close => exact tidy.apply_close clean

theorem clean {call : LogCall} (released : Released (state.apply call)) : Clean state call := by
  cases call with
  | «open» reply => exact tidy.clean_open released
  | appendOrder msg => trivial
  | close => exact tidy.clean_close released

end Calls
end Tidy

/-- Calls that are clean where they are made leave the object tidy. -/
theorem tidy_of_clean {fileSize : UInt64} {file : List Byte} {calls : List LogCall}
    (clean : forall past call, past ++ [call] <+: calls -> Clean (after fileSize file past) call) :
    Tidy (after fileSize file calls) := by
  induction calls using List.reverseRecOn with
  | nil => exact ⟨rfl, rfl⟩
  | append_singleton calls call inductionHypothesis =>
      have earlier := inductionHypothesis fun past other before =>
        clean past other (before.trans (List.prefix_append calls [call]))
      rw [after_concat]
      exact earlier.apply (clean calls call (List.prefix_refl _))

/-- In every state of a run nothing more is held than it should exactly when every
call of the run is clean: the log is not opened while it is mapped, no `open`
fails behind its first step, and no mapping is closed without its descriptor. -/
theorem released_iff_clean (fileSize : UInt64) (file : List Byte) (calls : List LogCall) :
    (forall past, past <+: calls -> Released (after fileSize file past)) <->
      forall past call, past ++ [call] <+: calls -> Clean (after fileSize file past) call := by
  constructor
  · intro released
    induction calls using List.reverseRecOn with
    | nil =>
        intro past call before
        exact absurd (List.prefix_nil.mp before) (by simp)
    | append_singleton calls last inductionHypothesis =>
        have earlier := inductionHypothesis fun past before =>
          released past (before.trans (List.prefix_append calls [last]))
        intro past call before
        rcases List.prefix_concat_iff.mp before with whole | within
        · rcases List.append_inj' whole rfl with ⟨samePast, sameCall⟩
          have next := released (calls ++ [last]) (List.prefix_refl _)
          rw [after_concat] at next
          rw [samePast, List.singleton_inj.mp sameCall]
          exact (tidy_of_clean earlier).clean next
        · exact earlier past call within
  · intro clean past before
    apply Tidy.released
    apply tidy_of_clean
    exact fun earlier call within => clean earlier call (within.trans before)

/-- `ftruncate` fails: the descriptor of the file is lost. -/
theorem failed_open_leaks : ¬ forall fileSize file calls, Released (after fileSize file calls) := by
  intro claimed
  have released := claimed 60 [] [.open ⟨some 3, false, none⟩]
  exact absurd (released.2.2 rfl).1 (List.cons_ne_nil 3 [])

end LogState
end NexusHft

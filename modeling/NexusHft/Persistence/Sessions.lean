import NexusHft.Persistence.MmapWal

namespace NexusHft

open Foundations

/-!
# Sessions on one log file

A session constructs a log of the given size on the path, opens it, appends
some messages and closes it.  Every session starts to write at offset zero.
The file therefore keeps every accepted record exactly when at most one
session has one.
-/

/-- One object's life: it is opened, with these answers of the system, appends
some messages and is closed. -/
structure Session where
  reply : OsReply
  messages : List NewOrderMsg
  deriving DecidableEq, Repr

/-- An accepted record, and the offset it was stored at.  The offset tells whether
a later session has stored over it. -/
structure Stored where
  offset : UInt64
  msg : NewOrderMsg
  deriving DecidableEq, Repr

/-- Append messages one after another; the records that were accepted. -/
def MmapWal.appendAll : MmapWal -> Process -> List NewOrderMsg -> List Stored × MmapWal × Process
  | wal, process, [] => ([], wal, process)
  | wal, process, msg :: messages =>
      let appended := wal.appendOrder process msg
      let rest := appendAll appended.2.1 appended.2.2 messages
      (if appended.1 then ⟨wal.writeOffset, msg⟩ :: rest.1 else rest.1, rest.2)

/-- A session that opens its log successfully. -/
def Session.run (initialSize : UInt64) (process : Process) (session : Session) :
    Option (List Stored × Process) :=
  let opened := MmapWal.open session.reply { fileSize := initialSize } process
  if opened.1 then
    let appended := opened.2.1.appendAll opened.2.2 session.messages
    some (appended.1, (appended.2.1.close appended.2.2).2)
  else none

/-- The accepted records of each session, and the process after them all. -/
def runSessions (initialSize : UInt64) : Process -> List Session ->
    Option (List (List Stored) × Process)
  | process, [] => some ([], process)
  | process, session :: sessions =>
      match session.run initialSize process with
      | none => none
      | some (stored, next) =>
          match runSessions initialSize next sessions with
          | none => none
          | some (logs, final) => some (stored :: logs, final)

/-- The records of a list, as they stand in a file. -/
def recordBytes (log : List Stored) : List Byte := log.flatMap (fun stored => stored.msg.bytes)

/-- No record of the second list is stored over one of the first. -/
def Intact (earlier later : List Stored) : Prop := forall first second, first ∈ earlier ->
  second ∈ later -> first.offset.toNat + 30 ≤ second.offset.toNat ∨
    second.offset.toNat + 30 ≤ first.offset.toNat

/-- The file holds all accepted records from offset zero, and no session has
stored over a record of an earlier one.  This is what a log is kept for. -/
structure Durable (logs : List (List Stored)) (file : List Byte) : Prop where
  holds : recordBytes logs.flatten <+: file
  intact : logs.Pairwise Intact

/-! ## One session -/

namespace MmapWal

variable {wal : MmapWal} {process : Process}

theorem appendAll_full (ready : wal.Ready process)
    (full : wal.fileSize.toNat < wal.writeOffset.toNat + 30) (messages : List NewOrderMsg) :
    wal.appendAll process messages = ([], wal, process) := by
  induction messages with
  | nil => rfl
  | cons msg messages inductionHypothesis =>
      rw [appendAll, ready.refuses full]
      exact inductionHypothesis

/-- Appended records follow what the file holds before the position. -/
theorem appendAll_holds (ready : wal.Ready process) {before : List Byte}
    (stood : before <+: process.file) (length : before.length = wal.writeOffset.toNat)
    (messages : List NewOrderMsg) :
    (wal.appendAll process messages).2.2.file.length = wal.fileSize.toNat ∧
      before ++ recordBytes (wal.appendAll process messages).1 <+:
        (wal.appendAll process messages).2.2.file := by
  induction messages generalizing wal process before with
  | nil =>
      refine ⟨ready.length, ?_⟩
      change before ++ [] <+: process.file
      rw [List.append_nil]
      exact stood
  | cons msg messages inductionHypothesis =>
      by_cases room : wal.writeOffset.toNat + 30 ≤ wal.fileSize.toNat
      · rcases ready.accepts room msg with
          ⟨wal', process', appended, ready', sameSize, moved, stores⟩
        have follows : before ++ msg.bytes <+: process'.file := by
          rw [stores, ← length]
          exact overwrite_prefix stood msg.bytes
        have rest := inductionHypothesis ready' follows (by
          rw [List.length_append, msg.length_bytes, length, moved])
        rw [appendAll, appended]
        rw [sameSize, List.append_assoc] at rest
        exact rest
      · rw [appendAll_full ready (by omega)]
        refine ⟨ready.length, ?_⟩
        change before ++ [] <+: process.file
        rw [List.append_nil]
        exact stood

/-- The first message is stored at the position, if there is room for it. -/
theorem appendAll_first (ready : wal.Ready process)
    (room : wal.writeOffset.toNat + 30 ≤ wal.fileSize.toNat) (msg : NewOrderMsg)
    (messages : List NewOrderMsg) : Exists fun rest =>
      (wal.appendAll process (msg :: messages)).1 = ⟨wal.writeOffset, msg⟩ :: rest := by
  rcases ready.accepts room msg with ⟨wal', process', appended, -⟩
  rw [appendAll, appended]
  exact ⟨_, rfl⟩

end MmapWal

/-- What a session leaves: a file of the log's size that holds its records from
offset zero.  Without records the file is as `open` left it; the first message
of a session is accepted whenever the log has room for one record. -/
structure SessionRun (initialSize : UInt64) (session : Session) (process next : Process)
    (stored : List Stored) : Prop where
  length : next.file.length = initialSize.toNat
  holds : recordBytes stored <+: next.file
  quiet : session.messages = [] ∨ initialSize.toNat < 30 ->
    stored = [] ∧ next.file = resize initialSize.toNat process.file
  first : session.messages ≠ [] -> 30 ≤ initialSize.toNat ->
    Exists fun msg => Exists fun rest => stored = ⟨0, msg⟩ :: rest

theorem Session.run_spec {initialSize : UInt64} {session : Session} {process next : Process}
    {stored : List Stored} (honest : session.reply.Honest initialSize)
    (ran : session.run initialSize process = some (stored, next)) :
    SessionRun initialSize session process next stored := by
  unfold Session.run at ran
  by_cases opened : (MmapWal.open session.reply { fileSize := initialSize } process).1 = true
  · simp only [if_pos opened] at ran
    have after := MmapWal.open_succeeds honest opened
    generalize MmapWal.open session.reply { fileSize := initialSize } process = result at ran after
    rcases after with ⟨sameSize, start, mapped, file, small⟩
    have size : result.2.1.fileSize.toNat = initialSize.toNat := by rw [sameSize]
    have offset : result.2.1.writeOffset.toNat = 0 := by rw [start]; rfl
    have length : result.2.2.file.length = result.2.1.fileSize.toNat := by
      rw [file, size]
      exact length_resize _ _
    have ready : result.2.1.Ready result.2.2 :=
      ⟨mapped, by rw [size]; exact small, by omega, length⟩
    rcases Prod.mk.inj (Option.some.inj ran) with ⟨storedEq, nextEq⟩
    have fileEq : (result.2.1.appendAll result.2.2 session.messages).2.2.file = next.file := by
      rw [← nextEq]
      exact (MmapWal.close_file _ _).symm
    have appended := MmapWal.appendAll_holds ready List.nil_prefix offset.symm session.messages
    rw [storedEq, fileEq, size] at appended
    refine ⟨appended.1, appended.2, fun quiet => ?_, fun some room => ?_⟩
    · have unchanged : result.2.1.appendAll result.2.2 session.messages =
          ([], result.2.1, result.2.2) := by
        rcases quiet with silent | tiny
        · rw [silent]
          rfl
        · exact MmapWal.appendAll_full ready (by omega) session.messages
      rw [unchanged] at storedEq fileEq
      exact ⟨storedEq.symm, fileEq.symm.trans file⟩
    · cases messages : session.messages with
      | nil => exact absurd messages some
      | cons msg messages' =>
          rcases MmapWal.appendAll_first ready (by omega) msg messages' with ⟨rest, first⟩
          rw [← messages, storedEq, start] at first
          exact ⟨msg, rest, first⟩
  · simp only [if_neg opened] at ran
    cases ran

/-! ## All sessions -/

/-- The sessions that append any message. -/
def busySessions (sessions : List Session) : Nat :=
  sessions.countP (fun session => !session.messages.isEmpty)

theorem busySessions_cons (session : Session) (sessions : List Session) :
    busySessions (session :: sessions) =
      busySessions sessions + if session.messages = [] then 0 else 1 := by
  rw [busySessions, List.countP_cons, ← busySessions]
  cases session.messages <;> rfl

section Runs

variable {initialSize : UInt64}

theorem runSessions_cons {session : Session} {sessions : List Session} {process final : Process}
    {logs : List (List Stored)}
    (ran : runSessions initialSize process (session :: sessions) = some (logs, final)) :
    Exists fun stored => Exists fun next => Exists fun rest => logs = stored :: rest ∧
      session.run initialSize process = some (stored, next) ∧
        runSessions initialSize next sessions = some (rest, final) := by
  rw [runSessions] at ran
  cases first : session.run initialSize process with
  | none =>
      rw [first] at ran
      cases ran
  | some result =>
      rcases result with ⟨stored, next⟩
      rw [first] at ran
      dsimp only at ran
      cases later : runSessions initialSize next sessions with
      | none =>
          rw [later] at ran
          cases ran
      | some result =>
          rcases result with ⟨rest, last⟩
          rw [later] at ran
          rcases Prod.mk.inj (Option.some.inj ran) with ⟨logsEq, finalEq⟩
          rw [finalEq] at later
          exact ⟨stored, next, rest, logsEq.symm, rfl, later⟩

/-- Sessions that store nothing leave a file of the right size as it is. -/
theorem runSessions_quiet {sessions : List Session} {process final : Process}
    {logs : List (List Stored)} (honest : forall session, session ∈ sessions ->
      session.reply.Honest initialSize)
    (ran : runSessions initialSize process sessions = some (logs, final))
    (quiet : forall session, session ∈ sessions ->
      session.messages = [] ∨ initialSize.toNat < 30) :
    (forall log, log ∈ logs -> log = []) ∧
      (process.file.length = initialSize.toNat -> final.file = process.file) := by
  induction sessions generalizing process logs with
  | nil =>
      rcases Prod.mk.inj (Option.some.inj ran) with ⟨logsEq, finalEq⟩
      rw [← logsEq, ← finalEq]
      exact ⟨fun _ member => absurd member List.not_mem_nil, fun _ => rfl⟩
  | cons session sessions inductionHypothesis =>
      rcases runSessions_cons ran with ⟨stored, next, rest, logsEq, first, later⟩
      have spec := Session.run_spec (honest session List.mem_cons_self) first
      have rests := inductionHypothesis
        (fun other member => honest other (List.mem_cons_of_mem session member)) later
        (fun other member => quiet other (List.mem_cons_of_mem session member))
      have nothing := spec.quiet (quiet session List.mem_cons_self)
      constructor
      · intro log member
        rw [logsEq] at member
        rcases List.mem_cons.mp member with same | listed
        · exact same.trans nothing.1
        · exact rests.1 log listed
      · intro length
        rw [rests.2 spec.length, nothing.2]
        exact resize_of_length length

theorem quiet_of_not_busy {sessions : List Session} (none : busySessions sessions = 0) :
    forall session, session ∈ sessions -> session.messages = [] ∨ initialSize.toNat < 30 := by
  intro session member
  have silent := List.countP_eq_zero.mp none session member
  cases messages : session.messages with
  | nil => exact Or.inl rfl
  | cons msg rest =>
      rw [messages] at silent
      exact absurd rfl silent

theorem intact_of_empty {logs : List (List Stored)} (empty : forall log, log ∈ logs -> log = []) :
    logs.Pairwise Intact := by
  apply List.pairwise_of_forall_mem_list
  intro earlier inLogs later _ first second member
  rw [empty earlier inLogs] at member
  exact absurd member List.not_mem_nil

theorem flatten_of_empty {logs : List (List Stored)} (empty : forall log, log ∈ logs -> log = []) :
    logs.flatten = [] :=
  List.flatten_eq_nil_iff.mpr empty

theorem durable_of_not_busy {sessions : List Session} {process final : Process}
    {logs : List (List Stored)} (honest : forall session, session ∈ sessions ->
      session.reply.Honest initialSize)
    (ran : runSessions initialSize process sessions = some (logs, final))
    (single : busySessions sessions ≤ 1) : Durable logs final.file := by
  induction sessions generalizing process logs with
  | nil =>
      have empty := (runSessions_quiet honest ran (quiet_of_not_busy rfl)).1
      exact ⟨by rw [flatten_of_empty empty]; exact List.nil_prefix, intact_of_empty empty⟩
  | cons session sessions inductionHypothesis =>
      rcases runSessions_cons ran with ⟨stored, next, rest, logsEq, first, later⟩
      have spec := Session.run_spec (honest session List.mem_cons_self) first
      have others := fun other member => honest other (List.mem_cons_of_mem session member)
      rw [busySessions_cons] at single
      by_cases silent : session.messages = []
      · rw [if_pos silent] at single
        have durable := inductionHypothesis others later single
        have nothing := (spec.quiet (Or.inl silent)).1
        rw [logsEq, nothing]
        refine ⟨durable.holds, List.pairwise_cons.mpr ⟨?_, durable.intact⟩⟩
        intro log _ first second member
        exact absurd member List.not_mem_nil
      · rw [if_neg silent] at single
        have quiet := runSessions_quiet others later (quiet_of_not_busy (by omega))
        rw [logsEq, quiet.2 spec.length]
        constructor
        · rw [List.flatten_cons, flatten_of_empty quiet.1, List.append_nil]
          exact spec.holds
        · refine List.pairwise_cons.mpr ⟨?_, intact_of_empty quiet.1⟩
          intro log listed first second _ member
          rw [quiet.1 log listed] at member
          exact absurd member List.not_mem_nil

/-- With room for a record, every session with a message has one at offset zero: a
new object starts there, whatever the file holds. -/
theorem stored_of_busy {sessions : List Session} {process final : Process}
    {logs : List (List Stored)} (honest : forall session, session ∈ sessions ->
      session.reply.Honest initialSize)
    (ran : runSessions initialSize process sessions = some (logs, final))
    (room : 30 ≤ initialSize.toNat) (busy : 0 < busySessions sessions) :
    Exists fun log => log ∈ logs ∧ Exists fun msg => (⟨0, msg⟩ : Stored) ∈ log := by
  induction sessions generalizing process logs with
  | nil => exact absurd busy (Nat.lt_irrefl 0)
  | cons session sessions inductionHypothesis =>
      rcases runSessions_cons ran with ⟨stored, next, rest, logsEq, first, later⟩
      have spec := Session.run_spec (honest session List.mem_cons_self) first
      rw [busySessions_cons] at busy
      rw [logsEq]
      by_cases silent : session.messages = []
      · rw [if_pos silent] at busy
        rcases inductionHypothesis
          (fun other member => honest other (List.mem_cons_of_mem session member)) later busy with
          ⟨log, listed, found⟩
        exact ⟨log, List.mem_cons_of_mem stored listed, found⟩
      · rcases spec.first silent room with ⟨msg, others, storedEq⟩
        exact ⟨stored, List.mem_cons_self, msg, by rw [storedEq]; exact List.mem_cons_self⟩

theorem not_busy_of_intact {sessions : List Session} {process final : Process}
    {logs : List (List Stored)} (honest : forall session, session ∈ sessions ->
      session.reply.Honest initialSize)
    (ran : runSessions initialSize process sessions = some (logs, final))
    (room : 30 ≤ initialSize.toNat) (intact : logs.Pairwise Intact) : busySessions sessions ≤ 1 := by
  induction sessions generalizing process logs with
  | nil => exact Nat.zero_le 1
  | cons session sessions inductionHypothesis =>
      rcases runSessions_cons ran with ⟨stored, next, rest, logsEq, first, later⟩
      have spec := Session.run_spec (honest session List.mem_cons_self) first
      have others := fun other member => honest other (List.mem_cons_of_mem session member)
      rw [logsEq] at intact
      have parts := List.pairwise_cons.mp intact
      rw [busySessions_cons]
      by_cases silent : session.messages = []
      · rw [if_pos silent]
        exact inductionHypothesis others later parts.2
      · rw [if_neg silent]
        rcases spec.first silent room with ⟨msg, more, storedEq⟩
        have noneLater : ¬ 0 < busySessions sessions := by
          intro busy
          rcases stored_of_busy others later room busy with ⟨log, listed, msg', member⟩
          have zero : (0 : UInt64).toNat = 0 := rfl
          have apart := parts.1 log listed ⟨0, msg⟩ ⟨0, msg'⟩ (by
            rw [storedEq]
            exact List.mem_cons_self) member
          dsimp only at apart
          omega
        omega

/-- Sessions on one path are durable exactly when the log has no room for a
record, or at most one of them appends anything.  A second one would begin at
offset zero again. -/
theorem durable_iff {sessions : List Session} {start final : Process} {logs : List (List Stored)}
    (honest : forall session, session ∈ sessions -> session.reply.Honest initialSize)
    (ran : runSessions initialSize start sessions = some (logs, final)) :
    Durable logs final.file <-> initialSize.toNat < 30 ∨ busySessions sessions ≤ 1 := by
  constructor
  · intro durable
    by_cases room : 30 ≤ initialSize.toNat
    · exact Or.inr (not_busy_of_intact honest ran room durable.intact)
    · exact Or.inl (by omega)
  · rintro (tiny | single)
    · have empty := (runSessions_quiet honest ran (fun _ _ => Or.inr tiny)).1
      exact ⟨by rw [flatten_of_empty empty]; exact List.nil_prefix, intact_of_empty empty⟩
    · exact durable_of_not_busy honest ran single

end Runs

/-! ## A record lost to the next session -/

section Restart

def restartReply : OsReply := ⟨some 3, true, some 4096⟩

def firstMsg : NewOrderMsg := ⟨⟨30, 1, 1⟩, 100, 50, 10, 0, 0⟩

def secondMsg : NewOrderMsg := ⟨⟨30, 1, 1⟩, 101, 55, 20, 1, 0⟩

/-- The file is written, closed, opened again and written again. -/
def restarted : List Session := [⟨restartReply, [firstMsg]⟩, ⟨restartReply, [secondMsg]⟩]

theorem restarted_honest : forall session, session ∈ restarted ->
    session.reply.Honest 60 := by
  decide

theorem restarted_run : runSessions 60 {} restarted = some ([[⟨0, firstMsg⟩], [⟨0, secondMsg⟩]],
    ⟨secondMsg.bytes ++ List.replicate 30 0, [], []⟩) := by
  decide +kernel

theorem durable_iff_restarted :
    Durable [[⟨0, firstMsg⟩], [⟨0, secondMsg⟩]] (secondMsg.bytes ++ List.replicate 30 0) <->
      (60 : UInt64).toNat < 30 ∨ busySessions restarted ≤ 1 :=
  durable_iff restarted_honest restarted_run

/-- The first record is gone from the file after the second session. -/
theorem restart_overwrites : ¬ forall initialSize start sessions logs final,
    (forall session, session ∈ sessions -> session.reply.Honest initialSize) ->
      runSessions initialSize start sessions = some (logs, final) -> Durable logs final.file := by
  intro claimed
  have durable := claimed 60 {} restarted _ _ restarted_honest restarted_run
  have held := durable.holds
  revert held
  decide +kernel

end Restart
end NexusHft

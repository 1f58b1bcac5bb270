import NexusHft.Persistence.LogCalls
import NexusHft.Persistence.Sessions
import NexusHft.Foundations.LabelledRun
import NexusHft.Foundations.TornWrites

namespace NexusHft

open Foundations

/-!
# Processes that are killed

A process that uses a log may be killed between two calls or during one, and others
may open the log after it.  The mapping is shared, so what the process has stored stays
in the file; a `memcpy` that is cut short has stored any of its bytes.  The position of
the next record dies with the process.
-/

namespace LogState

/-- What may stand in the file when the process is killed during a call. -/
def CutShort (state : LogState) (call : LogCall) (file : List Byte) : Prop :=
  match call with
  | .open _ => file = state.process.file ∨ file = (state.apply call).process.file
  | .appendOrder _ => Torn state.process.file (state.apply call).process.file file
  | .close => file = state.process.file

end LogState

/-- What one process calls on its log, and the call it is killed in, if in any.  A
process that is not killed ends with all its calls made. -/
structure LogUse where
  calls : List LogCall
  killedIn : Option LogCall
  deriving DecidableEq, Repr

def LogCall.Appends : LogCall -> Prop
  | .appendOrder _ => True
  | _ => False

namespace LogUse

def Leaves (fileSize : UInt64) (use : LogUse) (file left : List Byte) : Prop :=
  match use.killedIn with
  | none => left = (LogState.after fileSize file use.calls).process.file
  | some call => (LogState.after fileSize file use.calls).CutShort call left

/-- The process only opens and closes the log, as a reader does. -/
def Reads (use : LogUse) : Prop :=
  (forall call, call ∈ use.calls -> ¬ call.Appends) ∧
    forall call, use.killedIn = some call -> ¬ call.Appends

/-- Processes one after another, from a file on.  All that one of them hands to
the next is the file, however it ended. -/
def system (fileSize : UInt64) (start : List Byte) : LabelledSystem (List Byte) LogUse where
  starts file := file = start
  step file use next := use.Leaves fileSize file next

end LogUse

namespace LogState

variable {fileSize : UInt64} {start : List Byte} {state : LogState}

/-! ## What a writer leaves alone -/

/-- Behind the accepted records nothing has been written yet. -/
def Untouched (fileSize : UInt64) (start : List Byte) (state : LogState) : Prop :=
  forall place, 30 * state.accepted.length ≤ place -> place < fileSize.toNat ->
    state.process.file.getD place 0 = start.getD place 0

/-- A call that is no append leaves the file, or cuts it to the size of the log. -/
theorem apply_quiet {call : LogCall} (quiet : ¬ call.Appends) :
    (state.apply call).accepted = state.accepted ∧
      ((state.apply call).process.file = state.process.file ∨
        (state.apply call).process.file = resize state.wal.fileSize.toNat state.process.file) := by
  cases call with
  | «open» reply =>
      rcases (open_cases state.wal state.process reply).2.2 with ⟨same, -⟩ | resized
      · exact ⟨rfl, Or.inl same⟩
      · exact ⟨rfl, Or.inr resized⟩
  | close => exact ⟨rfl, Or.inl (MmapWal.close_file state.wal state.process)⟩
  | appendOrder msg => exact absurd trivial quiet

/-- An append stores one record behind the accepted ones, or nothing. -/
theorem apply_append (small : fileSize.toNat < 2 ^ 63) (logged : Logged fileSize state)
    (msg : NewOrderMsg) : state.apply (.appendOrder msg) = state ∨
      (state.apply (.appendOrder msg)).accepted = state.accepted ++ [msg] ∧
        30 * state.accepted.length ≤ state.process.file.length ∧
        (state.apply (.appendOrder msg)).process.file =
          overwrite state.process.file (30 * state.accepted.length) msg.bytes := by
  by_cases refuses : state.wal.mappedData = none ∨
      fileSize.toNat - state.wal.writeOffset.toNat < 30
  · left
    rw [LogState.apply, logged.append_refused small msg refuses]
    rfl
  · right
    rw [not_or] at refuses
    have isReady := logged.ready small refuses.1
    have room : state.wal.writeOffset.toNat + 30 ≤ state.wal.fileSize.toNat := by
      rw [logged.size]
      omega
    rcases isReady.accepts room msg with ⟨wal', process', appended, -, -, -, file⟩
    rw [logged.offset] at file
    refine ⟨?_, ?_, ?_⟩
    · simp [LogState.apply, appended]
    · rw [isReady.length, ← logged.offset]
      exact isReady.within
    · simp [LogState.apply, appended, file]

theorem Untouched.apply (small : fileSize.toNat < 2 ^ 63) (logged : Logged fileSize state)
    (untouched : Untouched fileSize start state) (call : LogCall) :
    Untouched fileSize start (state.apply call) := by
  intro place behind within
  by_cases appends : call.Appends
  · cases call with
    | appendOrder msg =>
        rcases apply_append small logged msg with same | ⟨accepted, length, file⟩
        · rw [same] at behind ⊢
          exact untouched place behind within
        · rw [accepted, List.length_append, List.length_singleton] at behind
          rw [file, getD_overwrite length (by rw [msg.length_bytes]; omega)]
          exact untouched place (by omega) within
    | «open» reply => exact absurd appends not_false
    | close => exact absurd appends not_false
  · rcases apply_quiet appends with ⟨accepted, same | resized⟩
    · rw [accepted] at behind
      rw [same]
      exact untouched place behind within
    · rw [accepted] at behind
      rw [resized, getD_resize (by rw [logged.size]; exact within)]
      exact untouched place behind within

theorem untouched_after (small : fileSize.toNat < 2 ^ 63) (start : List Byte)
    (calls : List LogCall) : Untouched fileSize start (after fileSize start calls) := by
  induction calls using List.reverseRecOn with
  | nil => exact fun _ _ _ => rfl
  | append_singleton calls call inductionHypothesis =>
      rw [after_concat]
      exact inductionHypothesis.apply small (Logged.of_calls small start calls) call

/-! ## What a file keeps -/

/-- A file begins with records, and at most one more has been written behind them:
what is further behind is as it was at the start, or zero. -/
structure Keeps (fileSize : UInt64) (start : List Byte) (records : List NewOrderMsg)
    (file : List Byte) : Prop where
  within : 30 * records.length ≤ fileSize.toNat
  holds : records.flatMap NewOrderMsg.bytes <+: file
  behind : forall place, 30 * (records.length + 1) ≤ place -> place < fileSize.toNat ->
    file.getD place 0 = start.getD place 0

theorem Keeps.of_logged (logged : Logged fileSize state) (untouched : Untouched fileSize start state) :
    Keeps fileSize start state.accepted state.process.file :=
  ⟨logged.within, logged.holds, fun place behind => untouched place (by omega)⟩

namespace Keeps

variable {records : List NewOrderMsg} {file old new : List Byte}

theorem resized (keeps : Keeps fileSize start records file) :
    Keeps fileSize start records (resize fileSize.toNat file) := by
  have length := length_flatMap_fixed NewOrderMsg.length_bytes records
  have within := keeps.within
  refine ⟨within, resize_prefix keeps.holds (by rw [length]; exact within), ?_⟩
  intro place behind inside
  rw [getD_resize inside]
  exact keeps.behind place behind inside

/-- What stands in both files stands in one that is torn between them. -/
theorem torn (inOld : Keeps fileSize start records old) (inNew : Keeps fileSize start records new)
    (isTorn : Torn old new file) : Keeps fileSize start records file :=
  ⟨inOld.within, isTorn.keeps_prefix inOld.holds inNew.holds, fun place behind inside =>
    isTorn.keeps_byte (inOld.behind place behind inside) (inNew.behind place behind inside)⟩

/-- A call keeps the records accepted before it. -/
theorem of_next (small : fileSize.toNat < 2 ^ 63) (logged : Logged fileSize state)
    (untouched : Untouched fileSize start state) (call : LogCall) :
    Keeps fileSize start state.accepted (state.apply call).process.file := by
  have next := untouched.apply small logged call
  have holds := (logged.apply small call).holds
  by_cases appends : call.Appends
  · cases call with
    | appendOrder msg =>
        rcases apply_append small logged msg with same | ⟨accepted, -, -⟩
        · rw [same]
          exact Keeps.of_logged logged untouched
        · rw [accepted, List.flatMap_append] at holds
          refine ⟨logged.within, (List.prefix_append _ _).trans holds, ?_⟩
          intro place behind inside
          apply next place _ inside
          rw [accepted]
          simpa using behind
    | «open» reply => exact absurd appends not_false
    | close => exact absurd appends not_false
  · have same := (@apply_quiet state call appends).1
    have keeps := Keeps.of_logged (logged.apply small call) next
    rwa [same] at keeps

/-- Wherever a process is killed, the records it has accepted are kept: the copy
that is cut short writes behind them, and so does everything that was copied
before. -/
theorem of_writer (small : fileSize.toNat < 2 ^ 63) {use : LogUse}
    (left : use.Leaves fileSize start file) :
    Keeps fileSize start (after fileSize start use.calls).accepted file := by
  have logged := Logged.of_calls small start use.calls
  have untouched := untouched_after small start use.calls
  have before := Keeps.of_logged logged untouched
  unfold LogUse.Leaves at left
  cases killed : use.killedIn with
  | none =>
      simp only [killed] at left
      rw [left]
      exact before
  | some call =>
      simp only [killed] at left
      have next := of_next small logged untouched call
      cases call with
      | «open» reply =>
          rcases left with same | same
          · rw [same]
            exact before
          · rw [same]
            exact next
      | close =>
          have same : file = _ := left
          rw [same]
          exact before
      | appendOrder msg => exact before.torn next left

/-- Calls that append nothing keep what they find. -/
theorem after_quiet (small : fileSize.toNat < 2 ^ 63) (keeps : Keeps fileSize start records file)
    {calls : List LogCall} (quiet : forall call, call ∈ calls -> ¬ call.Appends) :
    Keeps fileSize start records (after fileSize file calls).process.file := by
  induction calls using List.reverseRecOn with
  | nil => exact keeps
  | append_singleton calls call inductionHypothesis =>
      have earlier := inductionHypothesis fun other member => quiet other (by simp [member])
      have size := (Logged.of_calls small file calls).size
      rw [after_concat]
      rcases (@apply_quiet (after fileSize file calls) call (quiet call (by simp))).2 with
        same | cut
      · rw [same]
        exact earlier
      · rw [cut, size]
        exact earlier.resized

/-- A process that only reads keeps what it finds, wherever it is killed.  Opening
the log resizes the file, which leaves everything within the size. -/
theorem of_reader (small : fileSize.toNat < 2 ^ 63) {use : LogUse} (reads : use.Reads)
    {left : List Byte} (keeps : Keeps fileSize start records file)
    (leaves : use.Leaves fileSize file left) : Keeps fileSize start records left := by
  have before := keeps.after_quiet small reads.1
  unfold LogUse.Leaves at leaves
  cases killed : use.killedIn with
  | none =>
      simp only [killed] at leaves
      rw [leaves]
      exact before
  | some call =>
      simp only [killed] at leaves
      have quiet := reads.2 call killed
      have next : Keeps fileSize start records (after fileSize file (use.calls ++ [call])).process.file := by
        apply keeps.after_quiet small
        intro other member
        rcases List.mem_append.mp member with earlier | last
        · exact reads.1 other earlier
        · rw [List.mem_singleton.mp last]
          exact quiet
      rw [after_concat] at next
      cases call with
      | «open» reply =>
          rcases leaves with same | same
          · rw [same]
            exact before
          · rw [same]
            exact next
      | close =>
          have same : left = _ := leaves
          rw [same]
          exact before
      | appendOrder msg => exact absurd trivial quiet

theorem of_run (small : fileSize.toNat < 2 ^ 63) {writer : LogUse} {readers : List LogUse}
    (reads : forall use, use ∈ readers -> use.Reads)
    (run : (LogUse.system fileSize start).Run (writer :: readers) file) :
    Keeps fileSize start (after fileSize start writer.calls).accepted file := by
  induction readers using List.reverseRecOn generalizing file with
  | nil =>
      rcases LabelledSystem.Run.last (show LabelledSystem.Run _ ([] ++ [writer]) file from run) with
        ⟨found, earlier, leaves⟩
      have isStart : found = start := earlier.begins
      rw [isStart] at leaves
      exact of_writer small leaves
  | append_singleton readers reader inductionHypothesis =>
      rw [← List.cons_append] at run
      rcases run.last with ⟨found, earlier, leaves⟩
      have keeps := inductionHypothesis (fun use member => reads use (by simp [member])) earlier
      exact keeps.of_reader small (reads reader (by simp)) leaves

end Keeps

/-- A process writes to a log and is killed anywhere, and others read it then and are
killed anywhere too: whoever opens the log next reads every record the writer has
accepted, and at most one more was written behind them. -/
theorem killed_log_keeps_records (small : fileSize.toNat < 2 ^ 63) {writer : LogUse}
    {readers : List LogUse} (reads : forall use, use ∈ readers -> use.Reads) {file : List Byte}
    (run : (LogUse.system fileSize start).Run (writer :: readers) file) {calls : List LogCall}
    (quiet : forall call, call ∈ calls -> ¬ call.Appends) :
    let accepted := (after fileSize start writer.calls).accepted
    let found := (after fileSize file calls).process.file
    (forall i, forall lt : i < accepted.length,
      NewOrderMsg.ofBytes (recordAt NewOrderMsg.size.toNat found i) = accepted[i]) ∧
    forall place, NewOrderMsg.size.toNat * (accepted.length + 1) ≤ place ->
      place < fileSize.toNat -> found.getD place 0 = start.getD place 0 := by
  intro accepted found
  have keeps := (Keeps.of_run small reads run).after_quiet small quiet
  refine ⟨?_, keeps.behind⟩
  intro i lt
  have record : recordAt NewOrderMsg.size.toNat found i = accepted[i].bytes :=
    recordAt_of_prefix NewOrderMsg.length_bytes keeps.holds lt
  rw [record, NewOrderMsg.ofBytes_bytes]

section HalfWritten

/-- A process that is killed in its second append. -/
def killedWriter : LogUse :=
  ⟨[.open restartReply, .appendOrder firstMsg], some (.appendOrder secondMsg)⟩

/-- The first half of the second record has been stored. -/
def halfWritten : List Byte :=
  firstMsg.bytes ++ secondMsg.bytes.take 15 ++ List.replicate 15 0

theorem killedWriter_leaves : killedWriter.Leaves 60 [] halfWritten := by
  have length : halfWritten.length = 60 := by decide
  have old : (after 60 [] killedWriter.calls).process.file.length = 60 := by decide +kernel
  refine ⟨by decide +kernel, fun place => ?_⟩
  by_cases within : place < 60
  · have each : forall place, place < 60 ->
        halfWritten[place]? = (after 60 [] killedWriter.calls).process.file[place]? ∨
          halfWritten[place]? = ((after 60 [] killedWriter.calls).apply
            (.appendOrder secondMsg)).process.file[place]? := by
      decide +kernel
    exact each place within
  · left
    rw [List.getElem?_eq_none (by omega), List.getElem?_eq_none (by omega)]

theorem killed_log_keeps_records_half :
    NewOrderMsg.ofBytes (recordAt NewOrderMsg.size.toNat
      (after 60 halfWritten [.open restartReply]).process.file 0) = firstMsg := by
  have run : (LogUse.system 60 []).Run [killedWriter] halfWritten :=
    LabelledSystem.Run.step (.start rfl) killedWriter_leaves
  have kept := (killed_log_keeps_records (by decide) (by simp) run
    (show forall call, call ∈ [LogCall.open restartReply] -> ¬ call.Appends by
      simp [LogCall.Appends])).1
  exact kept 0 (by decide +kernel)

end HalfWritten
end LogState
end NexusHft

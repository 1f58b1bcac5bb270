import NexusHft.Web.Deployment

namespace NexusHft

open Foundations

/-!
# Runs of the deployment

What the parties have done in a run, and what is still on its way, account for
each other: no line is lost, handled twice or overtaken, nothing that was printed
is lost, and the middleware is where the chunks it was given have left it.

A page that has been connected since some moment displays, once everything has
arrived, what the events since then make of what it displayed before.  Where no
chunk ends inside of a line these are the events of the responses, so the pages
catch up with the engine however the parties are scheduled.
-/

namespace Deployment

variable {arithmetic : Arithmetic} {past early late : List Happening} {state next : Deployment}
  {socket : Socket}

/-- What a run has done and what is on its way: every line that was written is
handled or still in the pipe, and all that the engine printed was read or is still
in the other one. -/
structure Accounted (arithmetic : Arithmetic) (past : List Happening) (state : Deployment) : Prop where
  engine : (commandLoop arithmetic).Run (handledOf past) state.engine
  lines : (handledOf past).map Handled.line ++ linesIn state.stdin = linesWritten past
  stdin : WholeText state.stdin
  stdout : outputOf (handledOf past) = (chunksOf past).flatten ++ state.stdout
  pending : state.pending = (transduce onData [] (chunksOf past)).2

theorem handledOf_append (front back : List Happening) :
    handledOf (front ++ back) = handledOf front ++ handledOf back := List.filterMap_append

theorem chunksOf_append (front back : List Happening) :
    chunksOf (front ++ back) = chunksOf front ++ chunksOf back := List.filterMap_append

theorem handledOf_since :
    handledOf (early ++ .connect socket :: late) = handledOf early ++ handledOf late := by
  rw [handledOf_append]
  rfl

theorem linesWritten_append (front back : List Happening) :
    linesWritten (front ++ back) = linesWritten front ++ linesWritten back := List.flatMap_append

theorem linesWritten_singleton (happening : Happening) :
    linesWritten [happening] = linesIn happening.written := List.flatMap_singleton _ _

/-- Something is written to the engine. -/
theorem Accounted.write (accounted : Accounted arithmetic past state) {happening : Happening}
    (noLine : happening.handled = none) (noChunk : happening.chunk = none) :
    Accounted arithmetic (past ++ [happening])
      { state with stdin := state.stdin ++ happening.written } := by
  have handled : handledOf [happening] = [] := List.filterMap_cons_none noLine
  have chunks : chunksOf [happening] = [] := List.filterMap_cons_none noChunk
  constructor
  · rw [handledOf_append, handled, List.append_nil]
    exact accounted.engine
  · rw [handledOf_append, handled, List.append_nil, linesWritten_append, linesWritten_singleton,
      ← accounted.lines, linesIn_append accounted.stdin, List.append_assoc]
  · exact accounted.stdin.append happening.written_whole
  · rw [handledOf_append, handled, List.append_nil, chunksOf_append, chunks, List.append_nil]
    exact accounted.stdout
  · rw [chunksOf_append, chunks, List.append_nil]
    exact accounted.pending

/-- Something happens to a page. -/
theorem Accounted.page (accounted : Accounted arithmetic past state) {happening : Happening}
    (noLine : happening.handled = none) (noChunk : happening.chunk = none)
    (silent : happening.written = []) (client : Client) :
    Accounted arithmetic (past ++ [happening]) (state.withClient socket client) := by
  have written := accounted.write noLine noChunk
  rw [silent, List.append_nil] at written
  exact ⟨written.engine, written.lines, written.stdin, written.stdout, written.pending⟩

theorem Accounted.step (accounted : Accounted arithmetic past state) {happening : Happening}
    (moved : state.Moves arithmetic next happening) :
    Accounted arithmetic (past ++ [happening]) next := by
  cases happening with
  | submitOrder socket order =>
      rcases moved with ⟨-, text, isText, same⟩
      have isWritten : order.written = text := by rw [Json.written, isText]; rfl
      rw [same, ← isWritten]
      exact accounted.write rfl rfl
  | clearBook socket =>
      rw [moved.2]
      exact accounted.write rfl rfl
  | execute handled =>
      rcases moved with ⟨isBefore, absent, ⟨budget, latency, executed⟩, rest, isStdin, same⟩
      have here : handledOf [.execute handled] = [handled] := rfl
      have noChunk : chunksOf [.execute handled] = [] := rfl
      have silent : linesWritten [.execute handled] = [] := rfl
      rw [same]
      constructor
      · rw [handledOf_append, here]
        exact accounted.engine.step ⟨isBefore, rfl, budget, latency, executed⟩
      · have lines := accounted.lines
        rw [isStdin, linesIn_cons absent] at lines
        rw [handledOf_append, here, List.map_append, List.append_assoc, linesWritten_append, silent,
          List.append_nil, ← lines]
        rfl
      · have whole := accounted.stdin
        rw [isStdin, ← List.singleton_append, ← List.append_assoc] at whole
        exact whole.rest
      · rw [handledOf_append, here, outputOf_append, accounted.stdout, chunksOf_append, noChunk,
          List.append_nil, List.append_assoc]
      · rw [chunksOf_append, noChunk, List.append_nil]
        exact accounted.pending
  | data chunk =>
      rcases moved with ⟨-, rest, isStdout, same⟩
      have noLine : handledOf [.data chunk] = [] := rfl
      have here : chunksOf [.data chunk] = [chunk] := rfl
      have silent : linesWritten [.data chunk] = [] := rfl
      rw [same]
      constructor
      · rw [handledOf_append, noLine, List.append_nil]
        exact accounted.engine
      · rw [handledOf_append, noLine, List.append_nil, linesWritten_append, silent, List.append_nil]
        exact accounted.lines
      · exact accounted.stdin
      · rw [handledOf_append, noLine, List.append_nil, chunksOf_append, here, List.flatten_concat,
          List.append_assoc, ← isStdout]
        exact accounted.stdout
      · rw [chunksOf_append, here, transduce_append, accounted.pending]
        rfl
  | connect socket =>
      rw [moved.2]
      exact accounted.page rfl rfl rfl _
  | disconnect socket =>
      rw [moved.2]
      exact accounted.page rfl rfl rfl _
  | reload socket =>
      rw [show next = _ from moved]
      exact accounted.page rfl rfl rfl _
  | receive socket =>
      rcases moved with ⟨event, rest, -, same⟩
      rw [same]
      exact accounted.page rfl rfl rfl _

theorem accounted (run : (system arithmetic).Run past state) : Accounted arithmetic past state := by
  refine run.invariant (Accounted arithmetic) ?_ ?_
  · rintro start ⟨heap, isStarting⟩
    rw [isStarting]
    exact ⟨.start ⟨heap, rfl⟩, rfl, .inl rfl, rfl, rfl⟩
  · exact fun _ _ _ _ _ accounted moved => accounted.step moved

/-! ## What a page has been sent -/

end Deployment

namespace Happening

/-- The connection of a page is neither lost nor made again. -/
def Keeps (socket : Socket) : Happening -> Prop
  | connect other => other ≠ socket
  | disconnect other => other ≠ socket
  | reload other => other ≠ socket
  | _ => True

/-- What the middleware emits, given the trades that are pending. -/
def events (pending : List PendingTrade) : Happening -> List Emitted
  | data chunk => (onData pending chunk).1
  | _ => []

end Happening

namespace Deployment

variable {arithmetic : Arithmetic} {past early late : List Happening} {state next : Deployment}
  {socket : Socket}

theorem withClient_self (state : Deployment) (socket : Socket) (client : Client) :
    (state.withClient socket client).clients socket = client := Function.update_self _ _ _

theorem withClient_of_ne (state : Deployment) {socket other : Socket} (different : other ≠ socket)
    (client : Client) : (state.withClient other client).clients socket = state.clients socket :=
  Function.update_of_ne different.symm _ _

/-- A page that stays connected is sent what is emitted, in order: what is on its
way and what it has handled together grow by the events of the step. -/
theorem Moves.due {happening : Happening} (moved : state.Moves arithmetic next happening)
    (keeps : happening.Keeps socket) (connected : (state.clients socket).connected = true) :
    (next.clients socket).connected = true ∧
      (next.clients socket).due =
        (state.clients socket).due.handleAll (happening.events state.pending) := by
  cases happening with
  | submitOrder other order =>
      rcases moved with ⟨-, text, -, same⟩
      rw [same]
      exact ⟨connected, rfl⟩
  | clearBook other =>
      rw [moved.2]
      exact ⟨connected, rfl⟩
  | execute handled =>
      rcases moved with ⟨-, -, -, rest, -, same⟩
      rw [same]
      exact ⟨connected, rfl⟩
  | data chunk =>
      rcases moved with ⟨-, rest, -, same⟩
      rw [same]
      dsimp only
      rw [Client.sent, if_pos connected]
      exact ⟨connected, Dashboard.handleAll_append _ _ _⟩
  | connect other =>
      rw [moved.2, withClient_of_ne _ keeps]
      exact ⟨connected, rfl⟩
  | disconnect other =>
      rw [moved.2, withClient_of_ne _ keeps]
      exact ⟨connected, rfl⟩
  | reload other =>
      rw [show next = _ from moved, withClient_of_ne _ keeps]
      exact ⟨connected, rfl⟩
  | receive other =>
      rcases moved with ⟨event, rest, isInbox, same⟩
      rw [same]
      by_cases own : other = socket
      · subst own
        rw [withClient_self]
        refine ⟨connected, ?_⟩
        rw [Client.due, Client.due, isInbox]
        rfl
      · rw [withClient_of_ne _ own]
        exact ⟨connected, rfl⟩

/-- What is pending after a step. -/
theorem Moves.pending {happening : Happening} (moved : state.Moves arithmetic next happening) :
    (transduce onData state.pending (chunksOf [happening])).1 = happening.events state.pending ∧
      next.pending = (transduce onData state.pending (chunksOf [happening])).2 := by
  cases happening with
  | submitOrder other order =>
      rcases moved with ⟨-, text, -, same⟩
      rw [same]
      exact ⟨rfl, rfl⟩
  | clearBook other | connect other | disconnect other =>
      rw [moved.2]
      exact ⟨rfl, rfl⟩
  | execute handled =>
      rcases moved with ⟨-, -, -, rest, -, same⟩
      rw [same]
      exact ⟨rfl, rfl⟩
  | data chunk =>
      rcases moved with ⟨-, rest, -, same⟩
      rw [same]
      exact ⟨List.append_nil _, rfl⟩
  | reload other =>
      rw [show next = _ from moved]
      exact ⟨rfl, rfl⟩
  | receive other =>
      rcases moved with ⟨event, rest, -, same⟩
      rw [same]
      exact ⟨rfl, rfl⟩

/-- A page that has stayed connected will display what the chunks since then make of
what it displayed. -/
theorem due_since (run : (system arithmetic).Run (early ++ .connect socket :: late) state)
    (stays : forall happening, happening ∈ late -> happening.Keeps socket) :
    Exists fun before => (system arithmetic).Run early before ∧
      (state.clients socket).connected = true ∧
      (state.clients socket).due = (before.clients socket).view.handleAll
        (transduce onData before.pending (chunksOf late)).1 ∧
      state.pending = (transduce onData before.pending (chunksOf late)).2 := by
  induction late using List.reverseRecOn generalizing state with
  | nil =>
      rcases run.last with ⟨before, earlier, -, same⟩
      refine ⟨before, earlier, ?_⟩
      rw [same, withClient_self]
      exact ⟨rfl, rfl, rfl⟩
  | append_singleton init last inductionHypothesis =>
      rw [← List.cons_append, ← List.append_assoc] at run
      rcases run.last with ⟨middle, earlier, moved⟩
      rcases inductionHypothesis earlier (fun happening member =>
        stays happening (List.mem_append_left _ member)) with ⟨before, first, connected, due, pending⟩
      have sent := Moves.due moved (stays last (List.mem_append_right _ List.mem_cons_self)) connected
      have after := Moves.pending moved
      refine ⟨before, first, sent.1, ?_, ?_⟩
      · rw [sent.2, due, chunksOf_append, transduce_append, ← pending, after.1,
          Dashboard.handleAll_append]
      · rw [chunksOf_append, transduce_append, ← pending]
        exact after.2

/-! ## Chunks of whole lines -/

/-- No chunk that was delivered ends inside of a line. -/
def WholeChunks (past : List Happening) : Prop :=
  forall chunk, chunk ∈ chunksOf past -> WholeText chunk

theorem wholeText_flatten {chunks : List Text} (whole : forall chunk, chunk ∈ chunks -> WholeText chunk) :
    WholeText chunks.flatten := by
  induction chunks with
  | nil => exact .inl rfl
  | cons chunk chunks inductionHypothesis =>
      rw [List.flatten_cons]
      exact (whole chunk List.mem_cons_self).append
        (inductionHypothesis fun other member => whole other (List.mem_cons_of_mem chunk member))

/-- Whole chunks do not cut the text at hand, and neither does what is left of it. -/
theorem uncut_of_whole {chunks : List Text} (whole : forall chunk, chunk ∈ chunks -> WholeText chunk)
    (rest : Text) : ¬ CutInsideLine (chunks ++ [rest]) := by
  rintro ⟨front, back, last, next, parts, isLast, isNext, lastOther, -⟩
  rcases List.eq_nil_or_concat back with nothing | ⟨init, final, isBack⟩
  · rw [nothing] at isNext
    cases isNext
  · rw [isBack, List.concat_eq_append, ← List.append_assoc] at parts
    have inFront : forall chunk, chunk ∈ front -> WholeText chunk := by
      intro chunk member
      apply whole
      rw [(List.append_inj' parts rfl).1]
      exact List.mem_append_left _ member
    rcases wholeText_flatten inFront with empty | ⟨text, isText⟩
    · rw [empty] at isLast
      cases isLast
    · rw [isText, List.getLast?_concat] at isLast
      exact lastOther (Option.some.inj isLast).symm

/-- What has been emitted is the beginning of the events of the responses, and all of
them when nothing is left to deliver. -/
theorem emitted_begins (run : (system arithmetic).Run past state) (whole : WholeChunks past) :
    Exists fun later => (responsesOf (handledOf past)).flatMap Response.events =
        emitted (chunksOf past) ++ later ∧ (state.stdout = [] -> later = []) := by
  have accounts := accounted run
  have cutting : (chunksOf past ++ [state.stdout]).flatten =
      streamOf (responsesOf (handledOf past)) := by
    rw [← outputOf_eq accounts.engine, accounts.stdout, List.flatten_concat]
  have readings := readings_uncut cutting (uncut_of_whole whole state.stdout)
  rw [List.flatMap_append, List.flatMap_singleton] at readings
  have all := transduce_responses (responsesOf (handledOf past))
  rw [← readings, transduce_append] at all
  have events := congrArg Prod.fst all
  rw [emitted_eq]
  refine ⟨_, events.symm, fun nothing => ?_⟩
  rw [nothing]
  rfl

/-! ## Pages for which nothing is on its way -/

/-- A page that is sent a response displays the book of the last one, since every
response ends with its book, whatever else was sent. -/
theorem bookData_responses (view : Dashboard) (responses : List Response) {last : Response}
    (isLast : responses.getLast? = some last) :
    (view.handleAll (responses.flatMap Response.events)).bookData = last.bookData := by
  rcases List.eq_nil_or_concat responses with nothing | ⟨init, final, same⟩
  · rw [nothing] at isLast
    cases isLast
  · rw [same, List.concat_eq_append] at isLast ⊢
    rw [List.getLast?_concat] at isLast
    rw [← Option.some.inj isLast, List.flatMap_append, List.flatMap_singleton,
      Dashboard.handleAll_append, Dashboard.bookData_handleAll]
    cases final with
    | cleared bids asks => rfl
    | order trades bids asks latency =>
        have noBook : (trades.map fun trade => Emitted.trade (Json.priceNumber trade.1)
            (Json.qtyNumber trade.2) (.ofRat latency.toNat)).filterMap Emitted.bookData = [] := by
          rw [List.filterMap_map]
          exact List.filterMap_eq_nil_iff.mpr fun _ _ => rfl
        change ((Json.bookJson bids asks :: (trades.map fun trade => Emitted.trade
          (Json.priceNumber trade.1) (Json.qtyNumber trade.2) (.ofRat latency.toNat)).filterMap
            Emitted.bookData).getLast?).getD _ = _
        rw [noBook]
        rfl

/-- What a page displays that has stayed connected and for which nothing is on its way. -/
theorem view_of_quiet (run : (system arithmetic).Run (early ++ .connect socket :: late) state)
    (stays : forall happening, happening ∈ late -> happening.Keeps socket)
    (whole : WholeChunks (early ++ .connect socket :: late))
    (quiet : state.stdout = [] ∧ (state.clients socket).inbox = []) :
    Exists fun before : Dashboard => Exists fun missed => Exists fun behind =>
      (state.clients socket).view =
          before.handleAll (behind ++ (responsesOf (handledOf late)).flatMap Response.events) ∧
        (responsesOf (handledOf (early ++ .connect socket :: late))).flatMap Response.events =
          missed ++ (behind ++ (responsesOf (handledOf late)).flatMap Response.events) := by
  rcases due_since run stays with ⟨before, first, -, due, -⟩
  have wholeEarly : WholeChunks early := by
    intro chunk member
    apply whole
    rw [chunksOf_append]
    exact List.mem_append_left _ member
  rcases emitted_begins first wholeEarly with ⟨behind, isBehind, -⟩
  rcases emitted_begins run whole with ⟨nothing, all, isNothing⟩
  have chunks : chunksOf (early ++ .connect socket :: late) = chunksOf early ++ chunksOf late := by
    rw [chunksOf_append]
    rfl
  rw [isNothing quiet.1, List.append_nil, chunks, emitted, transduce_append,
    ← (accounted first).pending, handledOf_since, responsesOf_append, List.flatMap_append, isBehind,
    List.append_assoc] at all
  have heard := List.append_cancel_left all
  rw [Client.due, quiet.2, ← heard] at due
  refine ⟨_, emitted (chunksOf early), behind, due, ?_⟩
  rw [handledOf_since, responsesOf_append, List.flatMap_append, isBehind, List.append_assoc]

theorem cleared_event {response : Response} {bids asks : List (Price × Quantity)}
    (isCleared : response = .cleared bids asks) : .cleared ∈ response.events := by
  rw [isCleared]
  exact List.mem_cons_of_mem _ List.mem_cons_self

/-- A line that clears the book has its response. -/
theorem cleared_response {all : List Handled} {engine : LoopState} {handled : Handled}
    (run : (commandLoop arithmetic).Run all engine) (member : handled ∈ all)
    (isClear : parseCommand arithmetic handled.line = .clear) : Exists fun bids =>
      Exists fun asks => Response.ofPrinted handled.printed = some (.cleared bids asks) := by
  rcases List.append_of_mem member with ⟨front, back, split⟩
  rw [split] at run
  rcases run.cut with ⟨before, next, -, -, -, budget, latency, executed⟩
  have nonempty : handled.line ≠ [] := by
    intro empty
    rw [empty] at isClear
    cases isClear
  rw [LoopState.execute, if_neg nonempty, isClear] at executed
  rw [← (Prod.mk.inj (Option.some.inj executed)).1]
  exact ⟨_, _, rfl⟩

/-- Such a page displays the book of the last response since it was connected. -/
theorem settled_book (run : (system arithmetic).Run (early ++ .connect socket :: late) state)
    (stays : forall happening, happening ∈ late -> happening.Keeps socket)
    (whole : WholeChunks (early ++ .connect socket :: late))
    (quiet : state.stdout = [] ∧ (state.clients socket).inbox = [])
    (answered : responsesOf (handledOf late) ≠ []) :
    (state.clients socket).view.bookData = state.engine.engine.book.bookData := by
  rcases view_of_quiet run stays whole quiet with ⟨before, missed, behind, isView, -⟩
  rcases Option.isSome_iff_exists.mp (List.getLast?_isSome.mpr answered) with ⟨last, isLast⟩
  have displayed := last_response (accounted run).engine
  rw [handledOf_since, responsesOf_append, List.getLast?_append_of_ne_nil _ answered, isLast]
    at displayed
  rcases Printed.book.inj displayed with ⟨isBids, isAsks⟩
  rw [isView, Dashboard.handleAll_append, bookData_responses _ _ isLast, OrderBook.bookData, isBids,
    isAsks]
  cases last <;> rfl

/-- If the book was cleared since then, everything is displayed as it is to be. -/
theorem settled_view (run : (system arithmetic).Run (early ++ .connect socket :: late) state)
    (stays : forall happening, happening ∈ late -> happening.Keeps socket)
    (whole : WholeChunks (early ++ .connect socket :: late))
    (quiet : state.stdout = [] ∧ (state.clients socket).inbox = []) {handled : Handled}
    (member : handled ∈ handledOf late) (isClear : parseCommand arithmetic handled.line = .clear) :
    (state.clients socket).view =
      .showing (responsesOf (handledOf (early ++ .connect socket :: late))) := by
  rcases view_of_quiet run stays whole quiet with ⟨before, missed, behind, isView, all⟩
  have inAll : handled ∈ handledOf (early ++ .connect socket :: late) :=
    handledOf_since ▸ List.mem_append_right _ member
  rcases cleared_response (accounted run).engine inAll isClear with ⟨bids, asks, isCleared⟩
  have listed : Response.cleared bids asks ∈ responsesOf (handledOf late) :=
    List.mem_filterMap.mpr ⟨handled, member, isCleared⟩
  have seen : .cleared ∈ behind ++ (responsesOf (handledOf late)).flatMap Response.events :=
    List.mem_append_right _ (List.mem_flatMap.mpr ⟨_, listed, cleared_event rfl⟩)
  rcases Option.isSome_iff_exists.mp (List.getLast?_isSome.mpr (List.ne_nil_of_mem listed)) with
    ⟨last, isLast⟩
  have book (page : Dashboard) : (page.handleAll
      (behind ++ (responsesOf (handledOf late)).flatMap Response.events)).bookData =
        last.bookData := by
    rw [Dashboard.handleAll_append]
    exact bookData_responses _ _ isLast
  rw [← Dashboard.handleAll_responses, all, Dashboard.handleAll_append, isView]
  have same := @Dashboard.handleAll_of_cleared before (Dashboard.opened.handleAll missed) _ seen
  exact Dashboard.ext ((book before).trans (book _).symm) same.1 same.2

/-! ## Everything arrives -/

end Deployment

namespace Happening

/-- What happens without anybody using a page. -/
def Internal : Happening -> Prop
  | execute _ => True
  | data _ => True
  | receive _ => True
  | _ => False

theorem Internal.keeps {happening : Happening} (internal : happening.Internal) (socket : Socket) :
    happening.Keeps socket := by
  cases happening <;> trivial

theorem Internal.silent {happening : Happening} (internal : happening.Internal) :
    happening.written = [] := by
  cases happening <;> first | rfl | exact internal.elim

end Happening

namespace Deployment

variable {arithmetic : Arithmetic} {past early late : List Happening} {state next : Deployment}
  {socket : Socket}

/-- The parties can go on by themselves to the next state, without any client
doing anything, and with chunks that end where lines end. -/
structure GoesOn (arithmetic : Arithmetic) (past more : List Happening) (next : Deployment) : Prop where
  run : (system arithmetic).Run (past ++ more) next
  internal : forall happening, happening ∈ more -> happening.Internal
  whole : WholeChunks more

theorem GoesOn.refl (run : (system arithmetic).Run past state) : GoesOn arithmetic past [] state where
  run := by
    rw [List.append_nil]
    exact run
  internal := fun _ member => absurd member List.not_mem_nil
  whole := fun _ member => absurd member List.not_mem_nil

theorem GoesOn.trans {more further : List Happening} {last : Deployment}
    (first : GoesOn arithmetic past more next) (second : GoesOn arithmetic (past ++ more) further last) :
    GoesOn arithmetic past (more ++ further) last where
  run := by
    rw [← List.append_assoc]
    exact second.run
  internal := by
    intro happening member
    rcases List.mem_append.mp member with earlier | later
    · exact first.internal happening earlier
    · exact second.internal happening later
  whole := by
    intro chunk member
    rw [chunksOf_append] at member
    rcases List.mem_append.mp member with earlier | later
    · exact first.whole chunk earlier
    · exact second.whole chunk later

theorem GoesOn.one {happening : Happening} (run : (system arithmetic).Run past state)
    (moved : state.Moves arithmetic next happening) (internal : happening.Internal)
    (whole : WholeChunks [happening]) : GoesOn arithmetic past [happening] next where
  run := run.step moved
  internal := by
    intro other member
    rw [List.mem_singleton.mp member]
    exact internal
  whole := whole

/-- The engine can handle all the lines that have been written.  Each takes one
step, and none of them is refused. -/
theorem lines_handled (run : (system arithmetic).Run past state) :
    Exists fun more => Exists fun next => GoesOn arithmetic past more next ∧ next.stdin = [] := by
  induction length : state.stdin.length using Nat.strong_induction_on generalizing past state with
  | h size inductionHypothesis =>
      by_cases nothing : state.stdin = []
      · exact ⟨[], state, .refl run, nothing⟩
      have accounts := accounted run
      rcases accounts.stdin.first nothing with ⟨line, rest, absent, isStdin⟩
      rcases ((loop_refines arithmetic).run accounts.engine).2.sound with ⟨layout, live, sound, -⟩
      rcases sound.execute arithmetic line 0 with ⟨printed, engine, enough, answered, -⟩
      let handled : Handled := ⟨state.engine, line, printed, engine⟩
      have moved : state.Moves arithmetic { state with
          engine := engine, stdin := rest, stdout := state.stdout ++ outputOf [handled] }
          (.execute handled) :=
        ⟨rfl, absent, ⟨enough, 0, answered enough (Nat.le_refl enough)⟩, rest, isStdin, rfl⟩
      have one := GoesOn.one run moved trivial fun _ member => absurd member List.not_mem_nil
      have shorter : rest.length < size := by
        rw [← length, isStdin, List.length_append, List.length_cons]
        omega
      rcases inductionHypothesis rest.length shorter one.run rfl with ⟨more, next, goesOn, empty⟩
      exact ⟨_, next, one.trans goesOn, empty⟩

/-- The middleware can be given all that was printed. -/
theorem chunks_delivered (run : (system arithmetic).Run past state) (read : state.stdin = []) :
    Exists fun more => Exists fun next => GoesOn arithmetic past more next ∧
      next.stdin = [] ∧ next.stdout = [] := by
  by_cases nothing : state.stdout = []
  · exact ⟨[], state, .refl run, read, nothing⟩
  have whole : WholeText state.stdout := by
    have all := outputOf_whole (handledOf past)
    rw [(accounted run).stdout] at all
    exact all.rest
  have moved : state.Moves arithmetic { state with
      stdout := []
      pending := (onData state.pending state.stdout).2
      clients := fun socket => (state.clients socket).sent (onData state.pending state.stdout).1 }
      (.data state.stdout) := ⟨nothing, [], (List.append_nil _).symm, rfl⟩
  refine ⟨_, _, .one run moved trivial ?_, read, rfl⟩
  intro chunk member
  rw [List.mem_singleton.mp member]
  exact whole

/-- A page can handle all the events that are on their way to it. -/
theorem events_received (run : (system arithmetic).Run past state) (socket : Socket) :
    Exists fun more => Exists fun next => GoesOn arithmetic past more next ∧
      next.stdin = state.stdin ∧ next.stdout = state.stdout ∧ (next.clients socket).inbox = [] := by
  induction inbox : (state.clients socket).inbox generalizing past state with
  | nil => exact ⟨[], state, .refl run, rfl, rfl, inbox⟩
  | cons event rest inductionHypothesis =>
      have moved : state.Moves arithmetic (state.withClient socket { state.clients socket with
          inbox := rest, view := (state.clients socket).view.handle event }) (.receive socket) :=
        ⟨event, rest, inbox, rfl⟩
      have one := GoesOn.one run moved trivial fun _ member => absurd member List.not_mem_nil
      rcases inductionHypothesis one.run (by rw [withClient_self]) with
        ⟨more, next, goesOn, stdin, stdout, empty⟩
      exact ⟨_, next, one.trans goesOn, stdin, stdout, empty⟩

/-- Whatever has happened, the parties can go on by themselves until every line that was
written has been handled, in the order in which they were written, and everything
has reached the page. -/
theorem everything_arrives (run : (system arithmetic).Run past state) (socket : Socket) :
    Exists fun more => Exists fun next => GoesOn arithmetic past more next ∧
      (handledOf (past ++ more)).map Handled.line = linesWritten past ∧
      next.stdout = [] ∧ (next.clients socket).inbox = [] := by
  rcases lines_handled run with ⟨first, afterLines, goesOn, read⟩
  rcases chunks_delivered goesOn.run read with ⟨second, afterChunks, goesOn', read', delivered⟩
  rcases events_received goesOn'.run socket with ⟨third, next, goesOn'', stdin, stdout, arrived⟩
  have whole := goesOn.trans (goesOn'.trans goesOn'')
  refine ⟨_, next, whole, ?_, stdout.trans delivered, arrived⟩
  have lines := (accounted whole.run).lines
  have nothing : linesIn next.stdin = [] := by
    rw [stdin, read']
    rfl
  have silent : linesWritten (first ++ (second ++ third)) = [] := by
    apply List.flatMap_eq_nil_iff.mpr
    intro happening member
    rw [(whole.internal happening member).silent]
    rfl
  rw [nothing, List.append_nil, linesWritten_append, silent, List.append_nil] at lines
  exact lines

/-! ## The pages catch up -/

/-- A text is written when it is read. -/
theorem clear_handled {lines : List Text} {all : List Handled}
    (same : all.map Handled.line = lines) (written : "CLEAR".toList ∈ lines) :
    Exists fun handled => handled ∈ all ∧ parseCommand arithmetic handled.line = .clear := by
  rw [← same] at written
  rcases List.mem_map.mp written with ⟨handled, member, isLine⟩
  refine ⟨handled, member, ?_⟩
  rw [isLine]
  exact parse_clear

/-- What the engine handles after a page was connected is what was still unread then and
what is written later. -/
theorem handled_since {more : List Happening}
    (run : (system arithmetic).Run (early ++ .connect socket :: late) state)
    (all : (handledOf (early ++ .connect socket :: (late ++ more))).map Handled.line =
      linesWritten (early ++ .connect socket :: late)) :
    Exists fun unread => (handledOf (late ++ more)).map Handled.line = unread ++ linesWritten late := by
  rcases run.cut with ⟨before, -, earlier, -⟩
  have lines := (accounted earlier).lines
  have silent : linesWritten (.connect socket :: late) = linesWritten late := rfl
  rw [handledOf_since, List.map_append, linesWritten_append, silent, ← lines, List.append_assoc] at all
  exact ⟨_, List.append_cancel_left all⟩

/-! ## A page that trades

A page connects and clears the book.  Then five are offered at two dollars, of which
three are bought, and four are bid for at one dollar. -/

section Trading

/-- An order as a page sends it. -/
def orderJson (side price qty : Text) : Json :=
  .object [("side".toList, .string side), ("price".toList, .string price),
    ("qty".toList, .string qty)]

def tradingLate : List Happening :=
  [.clearBook 0, .submitOrder 0 (orderJson "SELL".toList ['2'] ['5']),
    .submitOrder 0 (orderJson "BUY".toList ['2'] ['3']),
    .submitOrder 0 (orderJson "BUY".toList ['1'] ['4'])]

def tradingLines : List Text :=
  ["CLEAR".toList, "SELL 2 5".toList, "BUY 2 3".toList, "BUY 1 4".toList]

theorem trading_run : Exists fun state =>
    (system .exact).Run ([] ++ .connect 0 :: tradingLate) state := by
  let connected := (starting Engine.blank.heap).withClient 0
    { (starting Engine.blank.heap).clients 0 with connected := true, inbox := [] }
  let typed (text : Text) : Deployment := { connected with stdin := text }
  have begins : (system .exact).Run [] (starting Engine.blank.heap) := .start ⟨_, rfl⟩
  have connects : (system .exact).step (starting Engine.blank.heap) (.connect 0) connected :=
    ⟨rfl, rfl⟩
  have clears : (system .exact).step connected (.clearBook 0) (typed clearLine) := ⟨rfl, rfl⟩
  have writes (before : Text) (side price qty text : Text)
      (written : (orderJson side price qty).submitOrder = some text) :
      (system .exact).step (typed before) (.submitOrder 0 (orderJson side price qty))
        (typed (before ++ text)) := ⟨rfl, text, written, rfl⟩
  have sells : (orderJson "SELL".toList ['2'] ['5']).submitOrder = some "SELL 2 5\n".toList := by
    decide +kernel
  have buys : (orderJson "BUY".toList ['2'] ['3']).submitOrder = some "BUY 2 3\n".toList := by
    decide +kernel
  have bids : (orderJson "BUY".toList ['1'] ['4']).submitOrder = some "BUY 1 4\n".toList := by
    decide +kernel
  have offered := ((begins.step connects).step clears).step (writes _ _ _ _ _ sells)
  exact ⟨_, (offered.step (writes _ _ _ _ _ buys)).step (writes _ _ _ _ _ bids)⟩

theorem trading_keeps (happening : Happening) (member : happening ∈ tradingLate) :
    happening.Keeps 0 := by
  simp only [tradingLate, List.mem_cons, List.not_mem_nil, or_false] at member
  rcases member with same | same | same | same <;> rw [same] <;> trivial

theorem trading_whole : WholeChunks ([] ++ .connect 0 :: tradingLate) :=
  fun _ member => absurd member List.not_mem_nil

theorem trading_written : linesWritten ([] ++ .connect 0 :: tradingLate) = tradingLines := by
  decide +kernel

/-- What the exchange shows after these lines. -/
theorem trading_book : ((Exchange.machine .exact).after tradingLines).bookData =
    Json.bookJson [(100, 4)] [(200, 2)] := by
  have bids : (priceLevels (((Exchange.machine .exact).after tradingLines).book .Buy)).take 10 =
      [(100, 4)] := by decide +kernel
  have asks : (priceLevels (((Exchange.machine .exact).after tradingLines).book .Sell)).take 10 =
      [(200, 2)] := by decide +kernel
  rw [Exchange.bookData, bids, asks]

/-- The trading run, gone on with until everything has arrived. -/
theorem trading_arrives : Exists fun more => Exists fun next =>
    (system .exact).Run ([] ++ .connect 0 :: (tradingLate ++ more)) next ∧
      WholeChunks ([] ++ .connect 0 :: (tradingLate ++ more)) ∧
      (forall happening, happening ∈ tradingLate ++ more -> happening.Keeps 0) ∧
      (handledOf more).map Handled.line = tradingLines ∧
      next.stdout = [] ∧ (next.clients 0).inbox = [] ∧
      (next.clients 0).view.bookData = Json.bookJson [(100, 4)] [(200, 2)] := by
  rcases trading_run with ⟨state, run⟩
  rcases everything_arrives run 0 with ⟨more, next, goesOn, all, printed, arrived⟩
  have longer := goesOn.run
  rw [List.append_assoc, List.cons_append] at longer
  have stays : forall happening, happening ∈ tradingLate ++ more -> happening.Keeps 0 := by
    intro happening member
    rcases List.mem_append.mp member with earlier | later
    · exact trading_keeps happening earlier
    · exact (goesOn.internal happening later).keeps 0
  have whole : WholeChunks ([] ++ .connect 0 :: (tradingLate ++ more)) := goesOn.whole
  have lines : (handledOf more).map Handled.line = tradingLines := all.trans trading_written
  have engine := (accounted longer).engine
  have isClear : "CLEAR".toList ∈ tradingLines := List.mem_cons_self
  rcases @clear_handled .exact _ _ lines isClear with ⟨handled, member, clears⟩
  rcases cleared_response engine (by exact member) clears with ⟨bids, asks, isCleared⟩
  have answered : responsesOf (handledOf (tradingLate ++ more)) ≠ [] :=
    List.ne_nil_of_mem (List.mem_filterMap.mpr ⟨handled, member, isCleared⟩)
  refine ⟨more, next, longer, whole, stays, lines, printed, arrived, ?_⟩
  rw [settled_book longer stays whole ⟨printed, arrived⟩ answered, ← trading_book, ← lines]
  exact ((loop_refines .exact).run engine).2.bookData_eq

end Trading

/-- Once nothing is on its way to a page that has stayed connected, it displays the book
that the engine holds, provided anything was answered since it was connected; and all
that it displays is as it is to be after the responses to all lines, provided the
book was cleared since then. -/
theorem dashboards_settle (run : (system arithmetic).Run (early ++ .connect socket :: late) state)
    (stays : forall happening, happening ∈ late -> happening.Keeps socket)
    (whole : WholeChunks (early ++ .connect socket :: late))
    (quiet : state.stdout = [] ∧ (state.clients socket).inbox = []) :
    (responsesOf (handledOf late) ≠ [] ->
      (state.clients socket).view.bookData = state.engine.engine.book.bookData) ∧
    ((Exists fun handled => handled ∈ handledOf late ∧
        parseCommand arithmetic handled.line = .clear) ->
      (state.clients socket).view =
        .showing (responsesOf (handledOf (early ++ .connect socket :: late)))) := by
  refine ⟨settled_book run stays whole quiet, ?_⟩
  rintro ⟨handled, member, isClear⟩
  exact settled_view run stays whole quiet member isClear

theorem dashboards_settle_trading : Exists fun more => Exists fun next =>
    (system .exact).Run ([] ++ .connect 0 :: (tradingLate ++ more)) next ∧
      (handledOf more).map Handled.line = tradingLines ∧
      (next.clients 0).view = .showing (responsesOf (handledOf more)) ∧
      (next.clients 0).view.bookData = next.engine.engine.book.bookData ∧
      (next.clients 0).view.bookData = Json.bookJson [(100, 4)] [(200, 2)] := by
  rcases trading_arrives with ⟨more, next, run, whole, stays, lines, printed, arrived, book⟩
  have settled := dashboards_settle run stays whole ⟨printed, arrived⟩
  have isClear : "CLEAR".toList ∈ tradingLines := List.mem_cons_self
  rcases @clear_handled .exact _ _ lines isClear with ⟨handled, member, clears⟩
  rcases cleared_response (accounted run).engine (by exact member) clears with ⟨bids, asks, isCleared⟩
  have answered : responsesOf (handledOf (tradingLate ++ more)) ≠ [] :=
    List.ne_nil_of_mem (List.mem_filterMap.mpr ⟨handled, member, isCleared⟩)
  exact ⟨more, next, run, lines, settled.2 ⟨handled, member, clears⟩, settled.1 answered, book⟩

/-- However the parties were scheduled, they can go on by themselves until a page that
has stayed connected, and since whose connection somebody has cleared the book,
displays what it is to display after all lines that were written, each of them handled
once and in the order in which they were written; its book is that of an exchange
that is given these lines. -/
theorem dashboards_catch_up (run : (system arithmetic).Run (early ++ .connect socket :: late) state)
    (stays : forall happening, happening ∈ late -> happening.Keeps socket)
    (whole : WholeChunks (early ++ .connect socket :: late)) {other : Socket}
    (clears : .clearBook other ∈ late) : Exists fun more => Exists fun next =>
      GoesOn arithmetic (early ++ .connect socket :: late) more next ∧
      (handledOf (early ++ .connect socket :: (late ++ more))).map Handled.line =
        linesWritten (early ++ .connect socket :: late) ∧
      (next.clients socket).view =
        .showing (responsesOf (handledOf (early ++ .connect socket :: (late ++ more)))) ∧
      (next.clients socket).view.bookData = ((Exchange.machine arithmetic).after
        (linesWritten (early ++ .connect socket :: late))).bookData := by
  rcases everything_arrives run socket with ⟨more, next, goesOn, all, quiet⟩
  have longer := goesOn.run
  rw [List.append_assoc, List.cons_append] at longer all
  have staysOn : forall happening, happening ∈ late ++ more -> happening.Keeps socket := by
    intro happening member
    rcases List.mem_append.mp member with earlier | later
    · exact stays happening earlier
    · exact (goesOn.internal happening later).keeps socket
  have wholeOn : WholeChunks (early ++ .connect socket :: (late ++ more)) := by
    intro chunk member
    rw [← List.cons_append, ← List.append_assoc, chunksOf_append] at member
    rcases List.mem_append.mp member with earlier | later
    · exact whole chunk earlier
    · exact goesOn.whole chunk later
  rcases handled_since run all with ⟨unread, lines⟩
  have written : "CLEAR".toList ∈ unread ++ linesWritten late := by
    have own : linesIn clearLine = ["CLEAR".toList] := by decide
    refine List.mem_append_right _ (List.mem_flatMap.mpr ⟨_, clears, ?_⟩)
    exact own ▸ List.mem_cons_self
  rcases @clear_handled arithmetic _ _ lines written with ⟨handled, member, isClear⟩
  rcases cleared_response (accounted longer).engine
    (handledOf_since ▸ List.mem_append_right _ member) isClear with ⟨bids, asks, isCleared⟩
  have answered : responsesOf (handledOf (late ++ more)) ≠ [] :=
    List.ne_nil_of_mem (List.mem_filterMap.mpr ⟨handled, member, isCleared⟩)
  refine ⟨more, next, goesOn, all, settled_view longer staysOn wholeOn quiet member isClear, ?_⟩
  rw [settled_book longer staysOn wholeOn quiet answered, ← all]
  exact ((loop_refines arithmetic).run (accounted longer).engine).2.bookData_eq

theorem dashboards_catch_up_trading : Exists fun state =>
    (system .exact).Run ([] ++ .connect 0 :: tradingLate) state ∧
      Exists fun more => Exists fun next =>
        GoesOn .exact ([] ++ .connect 0 :: tradingLate) more next ∧
        (next.clients 0).view.bookData = Json.bookJson [(100, 4)] [(200, 2)] := by
  rcases trading_run with ⟨state, run⟩
  have clears : Happening.clearBook 0 ∈ tradingLate := List.mem_cons_self
  rcases dashboards_catch_up run trading_keeps trading_whole clears with
    ⟨more, next, goesOn, -, -, book⟩
  rw [trading_written, trading_book] at book
  exact ⟨state, run, more, next, goesOn, book⟩

/-! ## What a page can display at any time -/

/-- A book that a page may display: the empty one it is opened with, or one that the
engine has displayed for a line. -/
def Displayable (past : List Happening) (data : Json) : Prop :=
  data = Json.bookJson [] [] ∨ Exists fun handled => handled ∈ handledOf past ∧
    Exists fun bids => Exists fun asks => data = Json.bookJson bids asks ∧
      .book bids asks ∈ handled.printed

theorem Displayable.mono {data : Json} (displayable : Displayable past data)
    (happening : Happening) : Displayable (past ++ [happening]) data := by
  rcases displayable with empty | ⟨handled, member, rest⟩
  · exact .inl empty
  · refine .inr ⟨handled, ?_, rest⟩
    rw [handledOf_append]
    exact List.mem_append_left _ member

/-- The book that an event of a response brings was displayed. -/
theorem displayable_of_event {engine : LoopState} {data : Json}
    (run : (commandLoop arithmetic).Run (handledOf past) engine)
    (member : .bookUpdate data ∈ (responsesOf (handledOf past)).flatMap Response.events) :
    Displayable past data := by
  rcases List.mem_flatMap.mp member with ⟨response, listed, isEvent⟩
  rcases List.mem_filterMap.mp listed with ⟨handled, inPast, found⟩
  have printed : handled.printed = response.lines := by
    rcases List.append_of_mem inPast with ⟨front, back, split⟩
    rw [split] at run
    rcases run.cut with ⟨before, next, -, -, -, budget, latency, executed⟩
    rcases LoopState.execute_response executed with ⟨other, responds, -⟩ | ⟨none, -⟩
    · rw [responds, other.ofPrinted_lines] at found
      rw [responds, Option.some.inj found]
    · cases none.symm.trans found
  refine .inr ⟨handled, inPast, response.bids, response.asks, ?_, ?_⟩
  · cases response with
    | cleared bids asks =>
        rcases List.mem_cons.mp isEvent with isBook | isCleared
        · exact Emitted.bookUpdate.inj isBook
        · cases List.mem_singleton.mp isCleared
    | order trades bids asks latency =>
        rcases List.mem_cons.mp isEvent with isBook | later
        · exact Emitted.bookUpdate.inj isBook
        · rcases List.mem_cons.mp later with isLatency | isTrade
          · cases isLatency
          · rcases List.mem_map.mp isTrade with ⟨trade, -, same⟩
            cases same
  · rw [printed]
    cases response with
    | cleared bids asks => exact List.mem_cons_self
    | order trades bids asks latency =>
        exact List.mem_append_right _ List.mem_cons_self

/-- Everything that a page displays, or is about to, is displayable. -/
def Client.Sound (past : List Happening) (client : Client) : Prop :=
  Displayable past client.view.bookData ∧
    forall data, .bookUpdate data ∈ client.inbox -> Displayable past data

theorem Client.Sound.mono {client : Client} (sound : Client.Sound past client)
    (happening : Happening) : Client.Sound (past ++ [happening]) client :=
  ⟨sound.1.mono happening, fun data member => (sound.2 data member).mono happening⟩

theorem Moves.sound {happening : Happening} (moved : state.Moves arithmetic next happening)
    (sent : forall data, .bookUpdate data ∈ happening.events state.pending ->
      Displayable (past ++ [happening]) data)
    (sound : forall socket, Client.Sound past (state.clients socket)) :
    forall socket, Client.Sound (past ++ [happening]) (next.clients socket) := by
  have kept := fun socket => (sound socket).mono happening
  have one (other : Socket) (client : Client) (isSound : Client.Sound (past ++ [happening]) client)
      (same : next = state.withClient other client) :
      forall socket, Client.Sound (past ++ [happening]) (next.clients socket) := by
    intro socket
    rw [same]
    by_cases own : other = socket
    · subst own
      rw [withClient_self]
      exact isSound
    · rw [withClient_of_ne _ own]
      exact kept socket
  have nothing : forall data, .bookUpdate data ∈ ([] : List Emitted) ->
      Displayable (past ++ [happening]) data := fun _ member => absurd member List.not_mem_nil
  cases happening with
  | submitOrder other order =>
      rcases moved with ⟨-, text, -, same⟩
      rw [same]
      exact kept
  | clearBook other =>
      rw [moved.2]
      exact kept
  | execute handled =>
      rcases moved with ⟨-, -, -, rest, -, same⟩
      rw [same]
      exact kept
  | data chunk =>
      rcases moved with ⟨-, rest, -, same⟩
      rw [same]
      intro socket
      dsimp only
      rw [Client.sent]
      split
      · refine ⟨(kept socket).1, fun data member => ?_⟩
        rcases List.mem_append.mp member with earlier | now
        · exact (kept socket).2 data earlier
        · exact sent data now
      · exact kept socket
  | connect other =>
      refine one other _ ?_ moved.2
      exact ⟨(kept other).1, nothing⟩
  | disconnect other =>
      refine one other _ ?_ moved.2
      exact ⟨(kept other).1, nothing⟩
  | reload other =>
      refine one other _ ?_ moved
      exact ⟨.inl rfl, nothing⟩
  | receive other =>
      rcases moved with ⟨event, rest, isInbox, same⟩
      have onTheWay := (kept other).2
      rw [isInbox] at onTheWay
      refine one other _ ⟨?_, fun data member => onTheWay data (List.mem_cons_of_mem event member)⟩ same
      cases event with
      | bookUpdate data => exact onTheWay data List.mem_cons_self
      | trade | latency | cleared => exact (kept other).1

theorem sound_of_run (run : (system arithmetic).Run past state) (whole : WholeChunks past) :
    forall socket, Client.Sound past (state.clients socket) := by
  refine run.invariant (fun past state => WholeChunks past ->
    forall socket, Client.Sound past (state.clients socket)) ?_ ?_ whole
  · rintro start ⟨heap, isStarting⟩ - socket
    rw [isStarting]
    exact ⟨.inl rfl, fun _ member => absurd member List.not_mem_nil⟩
  · intro past state happening next earlier inductionHypothesis moved wholeNext
    have wholePast : WholeChunks past := by
      intro chunk member
      apply wholeNext
      rw [chunksOf_append]
      exact List.mem_append_left _ member
    refine Moves.sound moved ?_ (inductionHypothesis wholePast)
    intro data member
    have longer := earlier.step moved
    rcases emitted_begins longer wholeNext with ⟨later, all, -⟩
    apply displayable_of_event (accounted longer).engine
    rw [all, chunksOf_append, emitted, transduce_append, ← (accounted earlier).pending]
    refine List.mem_append_left _ (List.mem_append_right _ ?_)
    rw [(Moves.pending moved).1]
    exact member

/-- At any time, whatever is still on its way, a page displays no book, or one that the
engine has displayed and that is a picture of all that rested then: no page ever
displays a crossed book. -/
theorem pages_display_books (run : (system arithmetic).Run past state) (whole : WholeChunks past)
    (socket : Socket) :
    (state.clients socket).view.bookData = Json.bookJson [] [] ∨
      Exists fun handled => Exists fun bids => Exists fun asks => handled ∈ handledOf past ∧
        (state.clients socket).view.bookData = Json.bookJson bids asks ∧
        Pictures handled.after.engine bids asks := by
  rcases (sound_of_run run whole socket).1 with empty | ⟨handled, member, bids, asks, same, displayed⟩
  · exact .inl empty
  · exact .inr ⟨handled, bids, asks, member, same,
      displayed_pictures (accounted run).engine member displayed⟩

theorem pages_display_books_trading : Exists fun more => Exists fun next =>
    (system .exact).Run ([] ++ .connect 0 :: (tradingLate ++ more)) next ∧
      (next.clients 0).view.bookData = Json.bookJson [(100, 4)] [(200, 2)] ∧
      Exists fun handled => Exists fun bids => Exists fun asks => handled ∈ handledOf more ∧
        Json.bookJson bids asks = Json.bookJson [(100, 4)] [(200, 2)] ∧
        Pictures handled.after.engine bids asks := by
  rcases trading_arrives with ⟨more, next, run, whole, -, -, -, -, book⟩
  refine ⟨more, next, run, book, ?_⟩
  rcases pages_display_books run whole 0 with empty | ⟨handled, bids, asks, member, same, pictures⟩
  · rw [book] at empty
    simp [Json.bookJson] at empty
  · exact ⟨handled, bids, asks, member, same.symm.trans book, pictures⟩

end Deployment
end NexusHft

import NexusHft.Web.LineReadings

namespace NexusHft

open Foundations

/-!
# Decoding in chunks

The output stream of the engine reaches the middleware in chunks.  Where every
chunk ends beside a newline, the clients are sent the events of the responses.
A chunk that ends inside of a line always costs something: the line is split
into parts of which at most one is read, as another number or not at all, and no
other part makes up for it.
-/

/-- Every line is a chunk of its own. -/
def wholeLines (responses : List Response) : List Text :=
  (linesOf responses).map fun line => line ++ ['\n']

/-- The events a response is to give. -/
def Response.events : Response -> List Emitted
  | order trades bids asks latency =>
      .bookUpdate (Json.bookJson bids asks) :: .latency (.ofRat latency.toNat) ::
        trades.map fun trade =>
          .trade (Json.priceNumber trade.1) (Json.qtyNumber trade.2) (.ofRat latency.toNat)
  | cleared bids asks => [.bookUpdate (Json.bookJson bids asks), .cleared]

def Response.readings (response : Response) : List Reading :=
  response.lines.filterMap Printed.reading

def readPiece (piece : Text) : Option Reading := readLine (trim piece)

/-! ## Whole responses -/

section Whole

variable {response : Response} {responses : List Response} {line : Text}

theorem exists_reading {printed : Printed} (listed : printed ∈ response.lines) :
    Exists fun reading => printed.reading = some reading := by
  cases response with
  | order trades bids asks latency =>
      rcases List.mem_append.mp listed with isTrade | isLast
      · rcases List.mem_map.mp isTrade with ⟨trade, -, same⟩
        rw [← same]
        exact ⟨_, rfl⟩
      · rcases List.mem_cons.mp isLast with isBook | isLatency
        · rw [isBook]
          exact ⟨_, rfl⟩
        · rw [List.mem_singleton.mp isLatency]
          exact ⟨_, rfl⟩
  | cleared bids asks =>
      rcases List.mem_cons.mp listed with isBook | isAck
      · rw [isBook]
        exact ⟨_, rfl⟩
      · rw [List.mem_singleton.mp isAck]
        exact ⟨_, rfl⟩

theorem exists_printed (listed : line ∈ linesOf responses) :
    Exists fun printed => Exists fun reading => line = Printed.text printed ∧
      printed.reading = some reading := by
  rcases List.mem_flatMap.mp listed with ⟨response, -, inResponse⟩
  rcases List.mem_map.mp inResponse with ⟨printed, isPrinted, same⟩
  rcases exists_reading isPrinted with ⟨reading, isReading⟩
  exact ⟨printed, reading, same.symm, isReading⟩

theorem isLine_of_mem (listed : line ∈ linesOf responses) : IsLine line := by
  rcases exists_printed listed with ⟨printed, reading, same, isReading⟩
  rw [same]
  exact isLine_text isReading

theorem readings_linesOf (responses : List Response) :
    (linesOf responses).filterMap readPiece = responses.flatMap Response.readings := by
  rw [linesOf, List.filterMap_flatMap]
  apply List.flatMap_congr
  intro response _
  rw [List.filterMap_map]
  apply List.filterMap_congr
  intro printed listed
  rcases exists_reading listed with ⟨reading, isReading⟩
  rw [isReading]
  exact readLine_text isReading

theorem transduce_trades (pending trades : List PendingTrade) :
    transduce Reading.act pending (trades.map .trade) = ([], pending ++ trades) := by
  induction trades generalizing pending with
  | nil => rw [List.append_nil]; rfl
  | cons trade trades inductionHypothesis =>
      rw [List.map_cons, transduce, Reading.act]
      dsimp only
      rw [inductionHypothesis, List.append_assoc]
      rfl

/-- One response gives its events and leaves no trade pending. -/
theorem transduce_response (response : Response) :
    transduce Reading.act [] response.readings = (response.events, []) := by
  cases response with
  | order trades bids asks latency =>
      have readings : (Response.order trades bids asks latency).readings =
          (trades.map fun trade => PendingTrade.mk (Json.priceNumber trade.1)
            (Json.qtyNumber trade.2)).map Reading.trade ++
          [.book (Json.bookJson bids asks), .latency (.ofRat latency.toNat)] := by
        rw [Response.readings, Response.lines, List.filterMap_append, List.filterMap_map,
          List.map_map]
        congr 1
        exact congrFun List.filterMap_eq_map' trades
      rw [readings, transduce_append, transduce_trades]
      simp [transduce, Reading.act, Response.events]
  | cleared bids asks => rfl

theorem transduce_responses (responses : List Response) :
    transduce Reading.act [] (responses.flatMap Response.readings) =
      (responses.flatMap Response.events, []) := by
  induction responses with
  | nil => rfl
  | cons response responses inductionHypothesis =>
      rw [List.flatMap_cons, transduce_append, transduce_response]
      dsimp only
      rw [inductionHypothesis, List.flatMap_cons]

end Whole

/-! ## Groups of pieces -/

section Chunks

variable {responses : List Response} {chunks : List Text}

/-- Everything that is read from the chunks, by lines. -/
theorem exists_pieces (cutting : chunks.flatten = streamOf responses) :
    Exists fun groups : List (List Text) => groups.map List.flatten = linesOf responses ∧
      chunks.flatMap readChunk = groups.flatMap (fun group => group.filterMap readPiece) ∧
      (CutInsideLine chunks <-> Exists fun group => group ∈ groups ∧ Cut group) := by
  have calm : (streamOf responses).IsChain Calm := isChain_calm fun _ listed => isLine_of_mem listed
  rw [← cutting] at calm
  have blank : readPiece [] = none := rfl
  rcases exists_groups blank (fun line listed => (isLine_of_mem listed).absent) cutting with
    ⟨groups, isLines, readings, cuts⟩
  refine ⟨groups, isLines, ?_, cuts⟩
  rw [← readings]
  apply List.flatMap_congr
  intro chunk listed
  apply filterMap_trim rfl
  exact List.IsChain.infix calm (List.infix_of_mem_flatten listed)

/-- The pieces of one line give its reading, or at most another one with its word. -/
theorem group_readings {group : List Text} {printed : Printed} {reading : Reading}
    (isReading : printed.reading = some reading) (isLine : group.flatten = printed.text) :
    (¬ Cut group ∧ group.filterMap readPiece = [reading]) ∨
      (Cut group ∧ (group.filterMap readPiece = [] ∨ Exists fun other =>
        group.filterMap readPiece = [other] ∧ other.word = reading.word ∧ other ≠ reading)) := by
  have blank : readPiece [] = none := rfl
  rcases exists_begin blank (isLine_text isReading).text isLine
    (fun piece inside => readLine_inside isReading inside) with
    ⟨begun, rest, parts, begins, readings, cut⟩
  rw [readings, cut]
  by_cases finished : rest = []
  · rw [finished, List.append_nil] at parts
    refine Or.inl ⟨fun unfinished => unfinished finished, ?_⟩
    rw [← parts, readPiece, readLine_text isReading]
    rfl
  · refine Or.inr ⟨finished, ?_⟩
    cases isRead : readPiece begun with
    | none => exact Or.inl rfl
    | some other =>
        exact Or.inr ⟨other, rfl, readLine_unfinished isReading parts begins finished isRead⟩

/-- The readings of a group with a word are at most as many as those of its line. -/
theorem group_shorter (word : Word) {group : List Text} {printed : Printed} {reading : Reading}
    (isReading : printed.reading = some reading) (isLine : group.flatten = printed.text) :
    (ofWord word (group.filterMap readPiece)).length ≤ (ofWord word [reading]).length := by
  rcases group_readings isReading isLine with
    ⟨-, same⟩ | ⟨-, nothing | ⟨other, same, sameWord, -⟩⟩
  · rw [same]
  · rw [nothing]
    exact Nat.zero_le _
  · rw [same, ofWord, ofWord, List.filter_singleton, List.filter_singleton, sameWord]
    cases decide (reading.word = word) with
    | true => exact Nat.le_refl 1
    | false => exact Nat.le_refl 0

section Groups

variable {groups : List (List Text)} {group : List Text}

theorem readings_groups (isLines : groups.map List.flatten = linesOf responses) :
    responses.flatMap Response.readings =
      groups.flatMap fun group => (readPiece group.flatten).toList := by
  rw [← readings_linesOf, ← isLines, List.filterMap_map, List.filterMap_eq_flatMap_toList]
  rfl

/-- A group is the pieces of a line, which is read when it is put together again. -/
theorem exists_line (isLines : groups.map List.flatten = linesOf responses) (listed : group ∈ groups) :
    Exists fun printed => Exists fun reading => group.flatten = Printed.text printed ∧
      printed.reading = some reading ∧ (readPiece group.flatten).toList = [reading] := by
  rcases exists_printed (isLines ▸ List.mem_map_of_mem listed : group.flatten ∈ linesOf responses) with
    ⟨printed, reading, isText, isReading⟩
  refine ⟨printed, reading, isText, isReading, ?_⟩
  rw [isText, readPiece, readLine_text isReading]
  rfl

end Groups

/-- Where no line is cut, everything is read as it was printed. -/
theorem readings_uncut (cutting : chunks.flatten = streamOf responses)
    (uncut : ¬ CutInsideLine chunks) :
    chunks.flatMap readChunk = responses.flatMap Response.readings := by
  rcases exists_pieces cutting with ⟨groups, isLines, readings, cuts⟩
  rw [cuts] at uncut
  rw [readings, readings_groups isLines]
  apply List.flatMap_congr
  intro group listed
  rcases exists_line isLines listed with ⟨printed, reading, isText, isReading, whole⟩
  rcases group_readings isReading isText with ⟨-, same⟩ | ⟨cut, -⟩
  · rw [same, whole]
  · exact absurd ⟨group, listed, cut⟩ uncut

/-- Where a line is cut, what is read with its word is not what was printed, with or
without more behind it. -/
theorem readings_cut (cutting : chunks.flatten = streamOf responses) (cut : CutInsideLine chunks) :
    Exists fun word => forall rest, ofWord word (chunks.flatMap readChunk) ≠
      ofWord word (responses.flatMap Response.readings) ++ rest := by
  rcases exists_pieces cutting with ⟨groups, isLines, readings, cuts⟩
  rcases cuts.mp cut with ⟨group, listed, isCut⟩
  rcases exists_line isLines listed with ⟨printed, reading, isText, isReading, whole⟩
  refine ⟨reading.word, ?_⟩
  intro rest same
  rw [readings, readings_groups isLines, ofWord, ofWord, List.filter_flatMap,
    List.filter_flatMap] at same
  have shorter (other : List Text) (listed : other ∈ groups) :
      (ofWord reading.word (other.filterMap readPiece)).length ≤
        (ofWord reading.word (readPiece other.flatten).toList).length := by
    rcases exists_line isLines listed with ⟨printedOther, readingOther, isText, isReading, whole⟩
    rw [whole]
    exact group_shorter reading.word isReading isText
  have block := flatMap_blocks shorter same group listed
  have itself {found : Reading} (sameWord : found.word = reading.word) :
      ofWord reading.word [found] = [found] := by
    simp [ofWord, sameWord]
  rw [whole, itself rfl] at block
  rcases group_readings isReading isText with
    ⟨uncut, -⟩ | ⟨-, nothing | ⟨found, isFound, sameWord, different⟩⟩
  · exact uncut isCut
  · rw [nothing] at block
    cases block
  · rw [isFound, itself sameWord] at block
    exact different (List.singleton_inj.mp block)

end Chunks

/-! ## The stream -/

section Stream

variable {responses : List Response} {chunks : List Text}

/-- Whole lines are not cut. -/
theorem wholeLines_uncut (responses : List Response) : ¬ CutInsideLine (wholeLines responses) := by
  rintro ⟨front, back, last, next, parts, isLast, -, lastOther, -⟩
  rcases List.eq_nil_or_concat front with nothing | ⟨init, final, isFront⟩
  · rw [nothing] at isLast
    cases isLast
  · have listed : final ∈ wholeLines responses := by
      rw [parts, isFront, List.concat_eq_append]
      exact List.mem_append_left _ (List.mem_append_right _ (List.mem_singleton_self final))
    rcases List.mem_map.mp listed with ⟨line, -, isFinal⟩
    rw [isFront, List.concat_eq_append, List.flatten_concat, ← isFinal, ← List.append_assoc,
      List.getLast?_concat] at isLast
    exact lastOther (Option.some.inj isLast).symm

theorem flatten_wholeLines (responses : List Response) :
    (wholeLines responses).flatten = streamOf responses := by
  rw [wholeLines, streamOf, List.flatMap_def]

theorem emitted_uncut (cutting : chunks.flatten = streamOf responses)
    (uncut : ¬ CutInsideLine chunks) : emitted chunks = responses.flatMap Response.events := by
  rw [emitted_eq, readings_uncut cutting uncut, transduce_responses]

theorem emitted_cut (cutting : chunks.flatten = streamOf responses) (cut : CutInsideLine chunks) :
    emitted chunks ≠ responses.flatMap Response.events := by
  rcases readings_cut cutting cut with ⟨word, different⟩
  intro same
  have given := transduce_ofWord word [] (chunks.flatMap readChunk)
  have wanted := transduce_ofWord word [] (responses.flatMap Response.readings)
  rw [← emitted_eq, same] at given
  rw [transduce_responses] at wanted
  apply different (ofWord word ((transduce Reading.act [] (chunks.flatMap readChunk)).2.map .trade))
  have printed : ofWord word ((responses.flatMap Response.events).map Emitted.source) =
      ofWord word (responses.flatMap Response.readings) := by
    have empty : ofWord word [] = [] := rfl
    rw [List.map_nil, empty, List.append_nil, List.nil_append] at wanted
    exact wanted
  rw [← printed]
  exact given.symm

/-- The clients are sent what the responses say if every line arrives whole, and the
same for other chunks exactly if none of these ends inside of a line. -/
theorem emitted_eq_iff_uncut (responses : List Response) (chunks : List Text)
    (cutting : chunks.flatten = streamOf responses) :
    emitted (wholeLines responses) = responses.flatMap Response.events ∧
      (emitted chunks = emitted (wholeLines responses) <-> ¬ CutInsideLine chunks) := by
  have whole := emitted_uncut (flatten_wholeLines responses) (wholeLines_uncut responses)
  refine ⟨whole, ?_⟩
  rw [whole]
  constructor
  · intro same cut
    exact emitted_cut cutting cut same
  · exact emitted_uncut cutting

end Stream

/-! ## A session

An offer of 20, of which a second order buys 15.
-/

def session : List Response :=
  [.order [] [] [(100, 20)] 41, .order [(100, 15)] [] [(100, 5)] 52]

def firstAnswer : Text := "BOOK \x7b\"bids\":[],\"asks\":[[1.00,20]]\x7d\nLATENCY 41\n".toList

def tradeLine : Text := "TRADE 1.00 15".toList

def secondAnswer : Text := "\nBOOK \x7b\"bids\":[],\"asks\":[[1.00,5]]\x7d\nLATENCY 52\n".toList

/-- A chunk may end in front of a newline. -/
theorem emitted_before_newline :
    emitted [firstAnswer ++ tradeLine, secondAnswer] = session.flatMap Response.events := by
  have uncut : ¬ CutInsideLine [firstAnswer ++ tradeLine, secondAnswer] := by
    rintro ⟨front, back, last, next, parts, isLast, isNext, -, nextOther⟩
    rcases front with _ | ⟨first, _ | ⟨second, front⟩⟩
    · cases isLast
    · cases parts
      exact nextOther (Option.some.inj isNext).symm
    · rw [List.cons_append, List.cons_append, List.cons.injEq, List.cons.injEq] at parts
      rw [(List.append_eq_nil_iff.mp parts.2.2.symm).2] at isNext
      cases isNext
  have given := emitted_eq_iff_uncut session [firstAnswer ++ tradeLine, secondAnswer]
    (by decide +kernel)
  rw [given.2.mpr uncut, given.1]

/-- The quantity of a trade that is emitted. -/
def Emitted.tradedQty : Emitted -> Option JsNumber
  | trade _ qty _ => some qty
  | _ => none

/-- Where the chunk ends before the last digit of the trade, 1 is traded. -/
theorem trade_cut_misread :
    [firstAnswer ++ tradeLine.dropLast, '5' :: secondAnswer].flatten = streamOf session ∧
      (emitted [firstAnswer ++ tradeLine.dropLast, '5' :: secondAnswer]).filterMap
        Emitted.tradedQty = [.finite 1] ∧
      (emitted (wholeLines session)).filterMap Emitted.tradedQty = [.finite 15] ∧
      emitted [firstAnswer ++ tradeLine.dropLast, '5' :: secondAnswer] ≠
        emitted (wholeLines session) := by
  have misread : (emitted [firstAnswer ++ tradeLine.dropLast, '5' :: secondAnswer]).filterMap
      Emitted.tradedQty = [.finite 1] := by decide +kernel
  have wanted : (emitted (wholeLines session)).filterMap Emitted.tradedQty = [.finite 15] := by
    decide +kernel
  refine ⟨by decide +kernel, misread, wanted, ?_⟩
  intro same
  rw [same, wanted] at misread
  exact absurd misread (by decide +kernel)

end NexusHft

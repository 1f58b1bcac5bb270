import NexusHft.Web.JsText
import Mathlib.Data.List.Chain

namespace NexusHft

open Foundations

/-!
# Lines in chunks

A stream of lines, each with its newline, is cut into chunks.  The pieces
between the newlines of the chunks are grouped by the lines that they come from:
every group is its line when it is put together again.  A group has more than one
piece with text in it exactly where a chunk ends inside of its line.
-/

/-- Some chunk ends strictly inside of a line. -/
def CutInsideLine (chunks : List Text) : Prop :=
  Exists fun front => Exists fun back => Exists fun before => Exists fun after =>
    chunks = front ++ back ∧ front.flatten.getLast? = some before ∧
      back.flatten.head? = some after ∧ before ≠ '\n' ∧ after ≠ '\n'

/-- Both a beginning and an end of the pieces have text in them. -/
def Cut (pieces : List Text) : Prop :=
  Exists fun front => Exists fun back =>
    pieces = front ++ back ∧ front.flatten ≠ [] ∧ back.flatten ≠ []

section Groups

variable {chunks : List Text} {line rest : Text}

/-- The chunk with the newline of the first line. -/
theorem exists_newline (whole : chunks.flatten = line ++ '\n' :: rest) (absent : '\n' ∉ line) :
    Exists fun before => Exists fun front => Exists fun back => Exists fun after =>
      chunks = before ++ (front ++ '\n' :: back) :: after ∧ before.flatten ++ front = line ∧
        (back :: after).flatten = rest := by
  induction chunks generalizing line with
  | nil => exact absurd whole.symm (List.append_ne_nil_of_right_ne_nil _ (List.cons_ne_nil _ _))
  | cons chunk chunks inductionHypothesis =>
      rw [List.flatten_cons] at whole
      by_cases present : '\n' ∈ chunk
      · rcases List.eq_append_cons_of_mem present with ⟨front, back, parts, notFront⟩
        rw [parts, List.append_assoc, List.cons_append] at whole
        have pieces := congrArg (split '\n') whole
        rw [split_append_separator notFront, split_append_separator absent] at pieces
        have same := (List.cons.inj pieces).1
        rw [same] at whole
        refine ⟨[], front, back, chunks, ?_, same, ?_⟩
        · rw [parts]
          rfl
        · exact (List.cons.inj (List.append_cancel_left whole)).2
      · rcases List.append_eq_append_iff.mp whole with ⟨line', isLine, isRest⟩ | ⟨excess, isChunk, isRest⟩
        · rw [isLine] at absent
          rcases inductionHypothesis isRest (fun member => absent (List.mem_append_right _ member)) with
            ⟨before, front, back, after, isChunks, isLine', isRest⟩
          refine ⟨chunk :: before, front, back, after, ?_, ?_, isRest⟩
          · rw [isChunks]
            rfl
          · rw [List.flatten_cons, List.append_assoc, isLine', isLine]
        · cases excess with
          | nil =>
              rw [List.append_nil] at isChunk
              have noText : '\n' ∉ ([] : Text) := List.not_mem_nil
              rcases @inductionHypothesis [] isRest.symm noText with
                ⟨before, front, back, after, isChunks, isEmpty, isRest⟩
              refine ⟨chunk :: before, front, back, after, ?_, ?_, isRest⟩
              · rw [isChunks]
                rfl
              · rw [List.flatten_cons, List.append_assoc, isEmpty, List.append_nil, isChunk]
          | cons first excess =>
              rw [List.cons_append] at isRest
              rw [isChunk, ← (List.cons.inj isRest).1] at present
              exact absurd (List.mem_append_right _ List.mem_cons_self) present

/-- Where a text does not end in its separator, its end is behind the separator. -/
theorem getLast?_behind {front back : Text} {separator last : Char} (other : last ≠ separator) :
    (front ++ separator :: back).getLast? = some last <-> back.getLast? = some last := by
  rcases List.eq_nil_or_concat back with empty | ⟨init, final, isBack⟩
  · rw [empty, List.getLast?_concat]
    constructor
    · intro same
      exact absurd (Option.some.inj same).symm other
    · intro none
      cases none
  · rw [isBack, List.concat_eq_append, List.getLast?_concat, ← List.cons_append, ← List.append_assoc,
      List.getLast?_concat]

theorem cut_of_cutInsideLine {before between after : List Text} {front back : Text} {next : Char}
    (text : before.flatten ≠ [])
    (isNext : (between ++ (front ++ '\n' :: back) :: after).flatten.head? = some next)
    (other : next ≠ '\n') : Cut (before ++ between ++ [front]) := by
  refine ⟨before, between ++ [front], List.append_assoc _ _ _, text, ?_⟩
  intro empty
  rw [List.flatten_concat] at empty
  rw [List.flatten_append, List.flatten_cons, List.append_assoc, ← List.append_assoc, empty] at isNext
  exact other (Option.some.inj isNext).symm

theorem flatten_at_line {before between : List Text} {front back : Text} :
    (before ++ (front ++ '\n' :: back) :: between).flatten =
      (before.flatten ++ front) ++ '\n' :: (back :: between).flatten := by
  rw [List.flatten_append, List.flatten_cons, List.flatten_cons, List.append_assoc,
    List.append_assoc, List.cons_append]

/-- A cut of the first line has text of that line on both sides. -/
theorem cutInsideLine_of_cut {before after : List Text} {front back : Text}
    (absent : '\n' ∉ before.flatten ++ front) (cut : Cut (before ++ [front])) :
    CutInsideLine (before ++ (front ++ '\n' :: back) :: after) := by
  rcases cut with ⟨ahead, behind, parts, textAhead, textBehind⟩
  rcases List.eq_nil_or_concat behind with nothing | ⟨between, final, isBehind⟩
  · rw [nothing] at textBehind
    exact absurd rfl textBehind
  rw [isBehind, List.concat_eq_append, ← List.append_assoc] at parts
  rcases List.append_inj' parts rfl with ⟨isBefore, isFront⟩
  rw [isBehind, List.concat_eq_append, ← isFront, List.flatten_concat] at textBehind
  rw [isBefore, List.flatten_append, List.append_assoc] at absent
  obtain ⟨last, isLast⟩ : Exists fun last => ahead.flatten.getLast? = some last :=
    ⟨_, List.getLast?_eq_getLast_of_ne_nil textAhead⟩
  obtain ⟨next, isNext⟩ : Exists fun next => (between.flatten ++ front).head? = some next :=
    ⟨_, List.head?_eq_some_head textBehind⟩
  refine ⟨ahead, between ++ (front ++ '\n' :: back) :: after, last, next, ?_, isLast, ?_, ?_, ?_⟩
  · rw [isBefore, List.append_assoc]
  · rw [List.flatten_append, List.flatten_cons, List.append_assoc, ← List.append_assoc,
      List.head?_append_of_ne_nil _ textBehind, isNext]
  · intro same
    rw [same] at isLast
    exact absent (List.mem_append_left _ (List.mem_of_getLast? isLast))
  · intro same
    rw [same] at isNext
    exact absent (List.mem_append_right _ (List.mem_of_mem_head? isNext))

/-- A cut behind the first line is a cut of the stream. -/
theorem cutInsideLine_behind {before after : List Text} {front back : Text}
    (cut : CutInsideLine (back :: after)) :
    CutInsideLine (before ++ (front ++ '\n' :: back) :: after) := by
  rcases cut with ⟨ahead, behind, last, next, parts, isLast, isNext, lastOther, nextOther⟩
  cases ahead with
  | nil => cases isLast
  | cons chunk ahead =>
      rw [List.cons_append] at parts
      rcases List.cons.inj parts with ⟨isChunk, isAfter⟩
      rw [← isChunk] at isLast
      refine ⟨before ++ (front ++ '\n' :: back) :: ahead, behind, last, next, ?_, ?_, isNext,
        lastOther, nextOther⟩
      · rw [isAfter, List.append_assoc, List.cons_append]
      · rw [flatten_at_line, getLast?_behind lastOther]
        exact isLast

/-- A cut of the stream is a cut of its first line or of what follows it, which
lets the induction over the chunks go line by line. -/
theorem cutInsideLine_iff {before after : List Text} {front back : Text}
    (absent : '\n' ∉ before.flatten ++ front) :
    CutInsideLine (before ++ (front ++ '\n' :: back) :: after) <->
      Cut (before ++ [front]) ∨ CutInsideLine (back :: after) := by
  constructor
  · rintro ⟨ahead, behind, last, next, parts, isLast, isNext, lastOther, nextOther⟩
    have text : ahead.flatten ≠ [] := by
      intro empty
      rw [empty] at isLast
      cases isLast
    rcases List.append_eq_append_iff.mp parts with ⟨between, isAhead, isBehind⟩ | ⟨between, isBefore, isBehind⟩
    · cases between with
      | nil =>
          rw [List.append_nil] at isAhead
          rw [List.nil_append] at isBehind
          rw [isAhead] at text
          rw [← isBehind] at isNext
          have cut := @cut_of_cutInsideLine before [] after front back next text isNext nextOther
          rw [List.append_nil] at cut
          exact Or.inl cut
      | cons chunk between =>
          rw [List.cons_append] at isBehind
          rcases List.cons.inj isBehind with ⟨isChunk, isAfter⟩
          rw [isAhead, ← isChunk, flatten_at_line, getLast?_behind lastOther] at isLast
          refine Or.inr ⟨back :: between, behind, last, next, ?_, isLast, isNext, lastOther, nextOther⟩
          rw [isAfter]
          rfl
    · rw [isBehind] at isNext
      rw [isBefore]
      exact Or.inl (cut_of_cutInsideLine text isNext nextOther)
  · rintro (cut | cut)
    · exact cutInsideLine_of_cut absent cut
    · exact cutInsideLine_behind cut

end Groups

section Readings

variable {Reading : Type} {read : Text -> Option Reading}

theorem read_cons (piece : Text) (pieces : List Text) :
    (piece :: pieces).filterMap read = (read piece).toList ++ pieces.filterMap read := by
  cases found : read piece with
  | none => rw [List.filterMap_cons_none found]; rfl
  | some reading => rw [List.filterMap_cons_some found]; rfl

/-- The pieces of the chunks, grouped by lines.  The pieces of a group make up one
line; a line that was not cut is a group of one piece. -/
theorem exists_groups (blank : read [] = none) {lines chunks : List Text}
    (absent : forall line, line ∈ lines -> '\n' ∉ line)
    (whole : chunks.flatten = lines.flatMap fun line => line ++ ['\n']) :
    Exists fun groups : List (List Text) => groups.map List.flatten = lines ∧
      (chunks.flatMap fun chunk => (split '\n' chunk).filterMap read) =
        groups.flatMap (fun group => group.filterMap read) ∧
      (CutInsideLine chunks <-> Exists fun group => group ∈ groups ∧ Cut group) := by
  induction lines generalizing chunks with
  | nil =>
      have empty := List.flatten_eq_nil_iff.mp whole
      refine ⟨[], rfl, ?_, ?_⟩
      · apply List.flatMap_eq_nil_iff.mpr
        intro chunk listed
        rw [empty chunk listed]
        simp [split, blank]
      · constructor
        · rintro ⟨front, back, last, next, parts, isLast, -, -, -⟩
          rw [parts, List.flatten_append] at whole
          rw [(List.append_eq_nil_iff.mp whole).1] at isLast
          cases isLast
        · rintro ⟨group, listed, -⟩
          exact absurd listed List.not_mem_nil
  | cons line lines inductionHypothesis =>
      have absentHere := absent line List.mem_cons_self
      rw [List.flatMap_cons, List.append_assoc, List.singleton_append] at whole
      rcases exists_newline whole absentHere with ⟨before, front, back, after, parts, isLine, isRest⟩
      rcases inductionHypothesis (fun other listed => absent other (List.mem_cons_of_mem _ listed))
        isRest with ⟨groups, isLines, readings, cuts⟩
      rw [← isLine] at absentHere
      refine ⟨(before ++ [front]) :: groups, ?_, ?_, ?_⟩
      · rw [List.map_cons, isLines, List.flatten_concat, isLine]
      · have wholePieces (pieces : List Text) (none : '\n' ∉ pieces.flatten) :
            (pieces.flatMap fun chunk => (split '\n' chunk).filterMap read) =
              pieces.filterMap read := by
          induction pieces with
          | nil => rfl
          | cons piece pieces inductionHypothesis =>
              rw [List.flatten_cons] at none
              rw [List.flatMap_cons, inductionHypothesis (fun member =>
                  none (List.mem_append_right _ member)),
                split_of_not_mem (fun member => none (List.mem_append_left _ member)),
                ← List.filterMap_append, List.singleton_append]
        rw [List.flatMap_cons] at readings
        rw [parts, List.flatMap_append, List.flatMap_cons,
          split_append_separator (fun member => absentHere (List.mem_append_right _ member)),
          wholePieces before (fun member => absentHere (List.mem_append_left _ member)),
          read_cons, List.append_assoc, readings, List.flatMap_cons, List.filterMap_append,
          read_cons, List.filterMap_nil, List.append_nil, List.append_assoc]
      · rw [parts, cutInsideLine_iff absentHere, cuts]
        simp only [List.mem_cons, exists_eq_or_imp]

/-- Where nothing is read but from the beginning of a line, a group is read as the
first of its pieces that has text in it. -/
theorem exists_begin (blank : read [] = none) {group : List Text} {line : Text} (text : line ≠ [])
    (isLine : group.flatten = line)
    (quiet : forall piece, piece <:+: line.tail -> read piece = none) :
    Exists fun begun => Exists fun rest => line = begun ++ rest ∧ begun ≠ [] ∧
      group.filterMap read = (read begun).toList ∧ (Cut group <-> rest ≠ []) := by
  induction group with
  | nil => exact absurd isLine.symm text
  | cons piece group inductionHypothesis =>
      rw [List.flatten_cons] at isLine
      by_cases empty : piece = []
      · rw [empty, List.nil_append] at isLine
        rcases inductionHypothesis isLine with ⟨begun, rest, parts, nonempty, readings, cut⟩
        refine ⟨begun, rest, parts, nonempty, ?_, ?_⟩
        · rw [empty, List.filterMap_cons_none blank, readings]
        · rw [← cut, empty]
          constructor
          · rintro ⟨front, back, pieces, textFront, textBack⟩
            cases front with
            | nil => exact absurd rfl textFront
            | cons first front =>
                rcases List.cons.inj pieces with ⟨isFirst, isGroup⟩
                rw [← isFirst, List.flatten_cons, List.nil_append] at textFront
                exact ⟨front, back, isGroup, textFront, textBack⟩
          · rintro ⟨front, back, pieces, textFront, textBack⟩
            exact ⟨[] :: front, back, by rw [pieces]; rfl, textFront, textBack⟩
      · refine ⟨piece, group.flatten, isLine.symm, empty, ?_, ?_⟩
        · have later : group.filterMap read = [] := by
            apply List.filterMap_eq_nil_iff.mpr
            intro other listed
            apply quiet
            rcases List.exists_cons_of_ne_nil empty with ⟨first, others, isPiece⟩
            rw [← isLine, isPiece, List.cons_append, List.tail_cons]
            exact (List.infix_of_mem_flatten listed).trans (List.suffix_append _ _).isInfix
          rw [read_cons, later, List.append_nil]
        · constructor
          · rintro ⟨front, back, pieces, textFront, textBack⟩ none
            cases front with
            | nil => exact textFront rfl
            | cons first front =>
                rw [List.cons_append] at pieces
                rw [(List.cons.inj pieces).2, List.flatten_append] at none
                exact textBack (List.append_eq_nil_iff.mp none).2
          · intro more
            refine ⟨[piece], group, rfl, ?_, more⟩
            rw [List.flatten_singleton]
            exact empty

end Readings

/-! ## Trimmed chunks

The script trims a chunk before it splits it, and takes its lines as they are
then.  No line begins or ends with a blank, so these are the trimmed pieces of the
chunk.
-/

section Trimmed

variable {lines : List Text} {chunk text piece : Text}

/-- There is no blank beside a newline. -/
def Calm (first second : Char) : Prop :=
  (first = '\n' -> isJsSpace second = false) ∧ (second = '\n' -> isJsSpace first = false)

/-- A line of a stream, without its newline, that survives the trimming of the
middleware and is not skipped as empty. -/
structure IsLine (line : Text) : Prop where
  text : line ≠ []
  solid : Solid line
  absent : '\n' ∉ line

theorem isChain_calm (isLine : forall line, line ∈ lines -> IsLine line) :
    (lines.flatMap fun line => line ++ ['\n']).IsChain Calm := by
  induction lines with
  | nil => exact List.IsChain.nil
  | cons line lines inductionHypothesis =>
      have here := isLine line List.mem_cons_self
      have inside : line.IsChain Calm := by
        apply List.Pairwise.isChain
        apply List.pairwise_of_forall_mem_list
        intro first isFirst second isSecond
        constructor
        · intro newline
          exact absurd (newline ▸ isFirst) here.absent
        · intro newline
          exact absurd (newline ▸ isSecond) here.absent
      have ended : (line ++ ['\n']).IsChain Calm := by
        apply inside.append (List.IsChain.singleton _)
        intro last isLast newline isNewline
        constructor
        · intro same
          exact absurd (same ▸ List.mem_of_getLast? isLast) here.absent
        · intro _
          exact here.solid.2 last isLast
      rw [List.flatMap_cons]
      apply ended.append (inductionHypothesis (fun other listed =>
        isLine other (List.mem_cons_of_mem _ listed)))
      intro newline isNewline next isNext
      have nextSolid : isJsSpace next = false := by
        cases lines with
        | nil => cases isNext
        | cons second lines =>
            have following := isLine second (List.mem_cons_of_mem _ List.mem_cons_self)
            rw [List.flatMap_cons, List.append_assoc,
              List.head?_append_of_ne_nil _ following.text] at isNext
            exact following.solid.1 next isNext
      constructor
      · intro _
        exact nextSolid
      · intro same
        rw [same] at nextSolid
        exact absurd nextSolid (by decide)

/-- The pieces of a text that is trimmed and calm need no trimming. -/
theorem solid_of_mem_split (calm : text.IsChain Calm) (solid : Solid text)
    (listed : piece ∈ split '\n' text) : Solid piece := by
  induction text using split_induction '\n' with
  | one only absent =>
      rw [split_of_not_mem absent, List.mem_singleton] at listed
      rw [listed]
      exact solid
  | more first rest absent inductionHypothesis =>
      rw [split_append_separator absent, List.mem_cons] at listed
      rcases listed with isFirst | later
      · rw [isFirst]
        constructor
        · intro char isHead
          apply solid.1
          rw [List.head?_append, isHead]
          rfl
        · intro char isLast
          exact ((List.isChain_append.mp calm).2.2 char isLast '\n' rfl).2 rfl
      · have calmRest := (List.isChain_append.mp calm).2.1
        apply inductionHypothesis calmRest.tail _ later
        constructor
        · intro char isHead
          exact (calmRest.rel_head? isHead).1 rfl
        · intro char isLast
          apply solid.2
          rw [List.getLast?_append, List.getLast?_cons, isLast]
          rfl

/-- The lines of a trimmed chunk are read as its trimmed pieces. -/
theorem filterMap_trim {Reading : Type} {read : Text -> Option Reading} (blank : read [] = none)
    (calm : chunk.IsChain Calm) :
    (split '\n' (trim chunk)).filterMap read =
      (split '\n' chunk).filterMap fun piece => read (trim piece) := by
  have pieces : (split '\n' (trim chunk)).filterMap read =
      (split '\n' (trim chunk)).filterMap fun piece => read (trim piece) := by
    have calmTrimmed : (trim chunk).IsChain Calm := List.IsChain.infix calm (trim_inside chunk)
    apply List.filterMap_congr
    intro piece listed
    rw [(solid_of_mem_split calmTrimmed (solid_trim chunk) listed).trim]
  rw [pieces]
  apply filterMap_split_trim
  · exact blank
  · intro piece
    rw [(solid_trim piece).trim]

end Trimmed
end NexusHft

import NexusHft.Foundations.Binary64
import NexusHft.Main.InputStream

namespace NexusHft

open Foundations

/-!
# Text in the middleware

The string and number functions of the script that it applies to the output of
the engine.  Numbers are doubles; positive and negative zero are not told apart.
A missing part of a line is `undefined`, which no number parses from.
-/

/-- A number of the script.  A finite one is its value; positive and negative zero
are one here. -/
inductive JsNumber where
  | nan
  | infinity (negative : Bool)
  | finite (value : Rat)
  deriving DecidableEq, Repr

/-- The double nearest to an exact value. -/
def JsNumber.ofRat (value : Rat) : JsNumber :=
  match nearest value with
  | some rounded => .finite rounded
  | none => .infinity (decide (value < 0))

theorem JsNumber.ofRat_of_nearest {value rounded : Rat} (isRounded : nearest value = some rounded) :
    JsNumber.ofRat value = .finite rounded := by
  unfold JsNumber.ofRat
  rw [isRounded]

/-- White space and line terminators of the script language. -/
def isJsSpace (char : Char) : Bool :=
  let code := char.toNat
  (9 ≤ code && code ≤ 13) || code == 32 || code == 160 || code == 0x1680 ||
    (0x2000 ≤ code && code ≤ 0x200A) || code == 0x2028 || code == 0x2029 || code == 0x202F ||
    code == 0x205F || code == 0x3000 || code == 0xFEFF

def trimStart (input : Text) : Text := input.dropWhile isJsSpace

def trimEnd (input : Text) : Text := (input.reverse.dropWhile isJsSpace).reverse

def trim (input : Text) : Text := trimEnd (trimStart input)

/-- The pieces between separators; there is always at least one. -/
def split (separator : Char) : Text -> List Text
  | [] => [[]]
  | char :: rest =>
      if char = separator then [] :: split separator rest
      else
        match split separator rest with
        | [] => [[char]]
        | first :: others => (char :: first) :: others

/-- `parseInt(part, 10)`. -/
def parseInt : Option Text -> JsNumber
  | none => .nan
  | some part =>
      let sign := scanSign (trimStart part)
      let run := scanDigits sign.2
      if run.1 = [] then .nan else .ofRat (signed sign.1 (digitsValue run.1))

/-- `parseFloat(part)`: the longest beginning that is a decimal literal. -/
def parseFloat : Option Text -> JsNumber
  | none => .nan
  | some part =>
      let sign := scanSign (trimStart part)
      if "Infinity".toList.isPrefixOf sign.2 then .infinity sign.1
      else
        let whole := scanDigits sign.2
        let fraction := scanFraction whole.2
        let mantissa := whole.1 ++ fraction.1
        if mantissa = [] then .nan
        else
          let exponent := ((scanExponent fraction.2).map Prod.fst).getD 0
          .ofRat (decimalValue sign.1 mantissa (exponent - fraction.1.length))

/-! ## Trimming -/

section Trim

variable {input : Text} {char : Char}

/-- Neither end of the text is white space. -/
def Solid (input : Text) : Prop :=
  (forall char, input.head? = some char -> isJsSpace char = false) ∧
    (forall char, input.getLast? = some char -> isJsSpace char = false)

theorem trimEnd_begins (input : Text) : trimEnd input <+: input := by
  apply List.reverse_suffix.mp
  rw [trimEnd, List.reverse_reverse]
  exact List.dropWhile_suffix _

theorem trim_inside (input : Text) : trim input <:+: input :=
  (trimEnd_begins _).isInfix.trans (List.dropWhile_suffix _).isInfix

theorem trimStart_of_head (solid : forall char, input.head? = some char -> isJsSpace char = false) :
    trimStart input = input := by
  cases input with
  | nil => rfl
  | cons char rest =>
      exact List.dropWhile_cons_of_neg (by rw [solid char rfl]; exact Bool.false_ne_true)

theorem trimEnd_of_last (solid : forall char, input.getLast? = some char -> isJsSpace char = false) :
    trimEnd input = input := by
  have start := @trimStart_of_head input.reverse (fun char first => solid char (by
    rw [← List.head?_reverse]
    exact first))
  rw [trimStart] at start
  rw [trimEnd, start, List.reverse_reverse]

theorem Solid.trim (solid : Solid input) : trim input = input := by
  rw [NexusHft.trim, trimStart_of_head solid.1, trimEnd_of_last solid.2]

theorem solid_trim (input : Text) : Solid (trim input) := by
  have dropped (text : Text) (char : Char) (first : (text.dropWhile isJsSpace).head? = some char) :
      isJsSpace char = false := by
    have stops := List.head?_dropWhile_not isJsSpace text
    rw [first] at stops
    exact stops
  constructor
  · intro char first
    have begins : trim input <+: trimStart input := trimEnd_begins _
    rcases begins with ⟨rest, whole⟩
    apply dropped input char
    rw [← trimStart, ← whole, List.head?_append_of_ne_nil _ (by rintro empty; rw [empty] at first; cases first)]
    exact first
  · intro char last
    apply dropped (trimStart input).reverse char
    rw [trim, trimEnd, List.getLast?_reverse] at last
    exact last

theorem trim_cons_space (space : isJsSpace char = true) (rest : Text) :
    trim (char :: rest) = trim rest := by
  rw [trim, trimStart, List.dropWhile_cons_of_pos space]
  rfl

theorem trimEnd_append_space (space : isJsSpace char = true) (front : Text) :
    trimEnd (front ++ [char]) = trimEnd front := by
  rw [trimEnd, List.reverse_append, List.reverse_singleton, List.singleton_append,
    List.dropWhile_cons_of_pos space]
  rfl

theorem trim_append_space (space : isJsSpace char = true) (front : Text) :
    trim (front ++ [char]) = trim front := by
  induction front with
  | nil => exact trim_cons_space space []
  | cons first front inductionHypothesis =>
      cases isSpace : isJsSpace first with
      | true => rw [List.cons_append, trim_cons_space isSpace, trim_cons_space isSpace, inductionHypothesis]
      | false =>
          have start : forall rest : Text, trimStart (first :: rest) = first :: rest :=
            fun rest => List.dropWhile_cons_of_neg (by rw [isSpace]; exact Bool.false_ne_true)
          rw [trim, trim, List.cons_append, start, start, ← List.cons_append, trimEnd_append_space space]

end Trim

/-! ## Splitting -/

section Split

variable {separator char : Char}

theorem split_ne_nil (separator : Char) (input : Text) : split separator input ≠ [] := by
  cases input with
  | nil => exact List.cons_ne_nil _ _
  | cons char rest =>
      unfold split
      split_ifs
      · exact List.cons_ne_nil _ _
      · split <;> exact List.cons_ne_nil _ _

theorem split_cons_separator (separator : Char) (rest : Text) :
    split separator (separator :: rest) = [] :: split separator rest := by
  rw [split, if_pos rfl]

/-- Another character goes to the front of the first piece. -/
theorem split_cons_other (other : char ≠ separator) (rest : Text) :
    Exists fun first => Exists fun others => split separator rest = first :: others ∧
      split separator (char :: rest) = (char :: first) :: others := by
  rcases List.exists_cons_of_ne_nil (split_ne_nil separator rest) with ⟨first, others, pieces⟩
  refine ⟨first, others, pieces, ?_⟩
  rw [split, if_neg other, pieces]

theorem split_of_not_mem {input : Text} (absent : separator ∉ input) :
    split separator input = [input] := by
  induction input with
  | nil => rfl
  | cons char rest inductionHypothesis =>
      have other : char ≠ separator := fun same => absent (same ▸ List.mem_cons_self)
      have rest' := inductionHypothesis (fun member => absent (List.mem_cons_of_mem char member))
      rw [split, if_neg other, rest']

/-- A piece ends at the first separator. -/
theorem split_append_separator {front : Text} (absent : separator ∉ front) (back : Text) :
    split separator (front ++ separator :: back) = front :: split separator back := by
  induction front with
  | nil => exact split_cons_separator separator back
  | cons char front inductionHypothesis =>
      have other : char ≠ separator := fun same => absent (same ▸ List.mem_cons_self)
      have rest := inductionHypothesis (fun member => absent (List.mem_cons_of_mem char member))
      rw [List.cons_append, split, if_neg other, rest]

/-- Induction on the pieces of a text. -/
theorem split_induction {motive : Text -> Prop} (separator : Char)
    (one : forall piece, separator ∉ piece -> motive piece)
    (more : forall piece rest, separator ∉ piece -> motive rest ->
      motive (piece ++ separator :: rest)) (input : Text) : motive input := by
  induction length : input.length using Nat.strong_induction_on generalizing input with
  | h size inductionHypothesis =>
      by_cases present : separator ∈ input
      · rcases List.eq_append_cons_of_mem present with ⟨piece, rest, whole, absent⟩
        rw [whole, List.length_append, List.length_cons] at length
        rw [whole]
        exact more piece rest absent (inductionHypothesis rest.length (by omega) rest rfl)
      · exact one input present

/-- A text split at one of its separators. -/
theorem split_append (separator : Char) (front back : Text) :
    split separator (front ++ separator :: back) =
      split separator front ++ split separator back := by
  induction front using split_induction separator with
  | one piece absent =>
      rw [split_append_separator absent, split_of_not_mem absent, List.singleton_append]
  | more piece rest absent inductionHypothesis =>
      rw [List.append_assoc, List.cons_append, split_append_separator absent, inductionHypothesis,
        split_append_separator absent, List.cons_append]

theorem split_length (separator : Char) (input : Text) :
    (split separator input).length = input.count separator + 1 := by
  induction input using split_induction separator with
  | one piece absent =>
      rw [split_of_not_mem absent, List.count_eq_zero_of_not_mem absent, List.length_singleton]
  | more piece rest absent inductionHypothesis =>
      rw [split_append_separator absent, List.length_cons, inductionHypothesis, List.count_append,
        List.count_cons_self, List.count_eq_zero_of_not_mem absent, Nat.zero_add]

/-- Behind any text, another character goes to the end of the last piece. -/
theorem split_append_other (other : char ≠ separator) (front : Text) :
    Exists fun init => Exists fun last => split separator front = init ++ [last] ∧
      split separator (front ++ [char]) = init ++ [last ++ [char]] := by
  induction front with
  | nil =>
      refine ⟨[], [], rfl, ?_⟩
      rw [List.nil_append, split, if_neg other]
      rfl
  | cons first front inductionHypothesis =>
      rcases inductionHypothesis with ⟨init, last, before, after⟩
      by_cases same : first = separator
      · subst same
        refine ⟨[] :: init, last, ?_, ?_⟩
        · rw [split_cons_separator, before]
          rfl
        · rw [List.cons_append, split_cons_separator, after]
          rfl
      · cases init with
        | nil =>
            refine ⟨[], first :: last, ?_, ?_⟩
            · rw [split, if_neg same, before]
              rfl
            · rw [List.cons_append, split, if_neg same, after]
              rfl
        | cons piece init =>
            refine ⟨(first :: piece) :: init, last, ?_, ?_⟩
            · rw [split, if_neg same, before]
              rfl
            · rw [List.cons_append, split, if_neg same, after]
              rfl

theorem split_append_last (separator : Char) (front : Text) :
    split separator (front ++ [separator]) = split separator front ++ [[]] := by
  induction front with
  | nil => rw [List.nil_append, split_cons_separator]; rfl
  | cons first front inductionHypothesis =>
      by_cases same : first = separator
      · rw [same, List.cons_append, split_cons_separator, split_cons_separator, inductionHypothesis]
        rfl
      · rcases split_cons_other same front with ⟨piece, others, pieces, whole⟩
        rw [List.cons_append, split, if_neg same, inductionHypothesis, whole, pieces]
        rfl

/-- The first piece is where the text begins. -/
theorem head_of_split {input first : Text} (isFirst : (split separator input)[0]? = some first) :
    first <+: input := by
  induction input generalizing first with
  | nil =>
      cases isFirst
      exact List.prefix_refl _
  | cons char rest inductionHypothesis =>
      by_cases same : char = separator
      · rw [split, if_pos same] at isFirst
        cases isFirst
        exact List.nil_prefix
      · rcases split_cons_other same rest with ⟨piece, others, pieces, whole⟩
        rw [whole] at isFirst
        cases isFirst
        exact List.cons_prefix_cons.mpr ⟨rfl, inductionHypothesis (by rw [pieces]; rfl)⟩

/-- What a piece is read as does not depend on white space around it, and an empty
piece is read as nothing: then trimming before a split loses nothing. -/
theorem filterMap_split_trim {Reading : Type} (separator : Char) (read : Text -> Option Reading)
    (blank : read [] = none) (trimmed : forall piece, read (trim piece) = read piece)
    (input : Text) :
    (split separator (trim input)).filterMap read = (split separator input).filterMap read := by
  have start : (split separator (trimStart input)).filterMap read =
      (split separator input).filterMap read := by
    induction input with
    | nil => rfl
    | cons char rest inductionHypothesis =>
        cases space : isJsSpace char with
        | false =>
            rw [trimStart, List.dropWhile_cons_of_neg (by rw [space]; exact Bool.false_ne_true)]
        | true =>
            have dropped : trimStart (char :: rest) = trimStart rest :=
              List.dropWhile_cons_of_pos space
            rw [dropped, inductionHypothesis]
            by_cases same : char = separator
            · rw [same, split_cons_separator, List.filterMap_cons, blank]
            · rcases split_cons_other same rest with ⟨first, others, pieces, whole⟩
              rw [pieces, whole, List.filterMap_cons, List.filterMap_cons, ← trimmed (char :: first),
                trim_cons_space space, trimmed]
  rw [← start, trim]
  generalize trimStart input = text
  induction text using List.reverseRecOn with
  | nil => rfl
  | append_singleton front char inductionHypothesis =>
      cases space : isJsSpace char with
      | false =>
          rw [trimEnd_of_last (by
            intro last isLast
            rw [List.getLast?_concat] at isLast
            cases isLast
            exact space)]
      | true =>
          rw [trimEnd_append_space space, inductionHypothesis]
          by_cases same : char = separator
          · rw [same, split_append_last, List.filterMap_append, List.filterMap_cons, blank]
            exact (List.append_nil _).symm
          · rcases split_append_other same front with ⟨init, last, pieces, whole⟩
            rw [pieces, whole, List.filterMap_append, List.filterMap_append, List.filterMap_cons,
              List.filterMap_cons, ← trimmed (last ++ [char]), trim_append_space space, trimmed]

end Split
end NexusHft

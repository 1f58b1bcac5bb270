import Mathlib.Data.List.Basic

namespace NexusHft
namespace Foundations

/-!
# Progress under fair schedules

Several parties take turns, and a schedule decides whose turn it is.  A party
may spin: its turns then change nothing that counts.  What counts is a rank that
no turn raises, and a party that is awaited: its turn lowers the rank, and the
turns of the others leave it awaited until the rank has been lowered.

So a round in which every party has a turn lowers the rank, whatever the order
of the turns and however many there are, and a schedule that never forgets a
party for good reaches the end.
-/

universe u v

variable {State : Type u} {Party : Type v}

/-- Take the turns of a schedule. -/
def takeTurns (turn : State -> Party -> State) (start : State) (schedule : List Party) : State :=
  schedule.foldl turn start

theorem takeTurns_append (turn : State -> Party -> State) (start : State)
    (front back : List Party) : takeTurns turn start (front ++ back) =
      takeTurns turn (takeTurns turn start front) back := List.foldl_append

/-- What every turn keeps holds after a schedule. -/
theorem takeTurns_invariant {turn : State -> Party -> State} (Inv : State -> Prop)
    (kept : forall state party, Inv state -> Inv (turn state party)) {start : State}
    (begins : Inv start) (schedule : List Party) : Inv (takeTurns turn start schedule) := by
  induction schedule generalizing start with
  | nil => exact begins
  | cons party schedule inductionHypothesis => exact inductionHypothesis (kept start party begins)

/-- A turn finishes, lowers the rank, or is not the awaited one and changes
neither the rank nor who is awaited.  Under a schedule that forgets nobody the
rank then falls until all is done. -/
structure Progress (turn : State -> Party -> State) (Inv Done : State -> Prop)
    (rank : State -> Nat) (awaited : State -> Party) : Prop where
  kept : forall state party, Inv state -> Inv (turn state party)
  stays : forall state party, Inv state -> Done state -> Done (turn state party)
  advances : forall state party, Inv state -> ¬ Done state ->
    Done (turn state party) ∨ rank (turn state party) < rank state ∨
      party ≠ awaited state ∧ rank (turn state party) = rank state ∧
        awaited (turn state party) = awaited state

namespace Progress

variable {turn : State -> Party -> State} {Inv Done : State -> Prop} {rank : State -> Nat}
  {awaited : State -> Party}

theorem inv (progress : Progress turn Inv Done rank awaited) {start : State} (begins : Inv start)
    (schedule : List Party) : Inv (takeTurns turn start schedule) :=
  takeTurns_invariant Inv progress.kept begins schedule

theorem done (progress : Progress turn Inv Done rank awaited) {start : State} (begins : Inv start)
    (finished : Done start) (schedule : List Party) : Done (takeTurns turn start schedule) :=
  (takeTurns_invariant (fun state => Inv state ∧ Done state) (fun state party holds =>
    ⟨progress.kept state party holds.1, progress.stays state party holds.1 holds.2⟩)
    ⟨begins, finished⟩ schedule).2

/-- No turns raise the rank. -/
theorem rank_le (progress : Progress turn Inv Done rank awaited) {start : State}
    (begins : Inv start) (schedule : List Party) :
    Done (takeTurns turn start schedule) ∨
      rank (takeTurns turn start schedule) ≤ rank start := by
  induction schedule generalizing start with
  | nil => exact Or.inr (Nat.le_refl _)
  | cons party schedule inductionHypothesis =>
      have next := progress.kept start party begins
      by_cases finished : Done start
      · exact Or.inl (progress.done next (progress.stays start party begins finished) schedule)
      · rcases progress.advances start party begins finished with ends | lower | ⟨-, same, -⟩
        · exact Or.inl (progress.done next ends schedule)
        · exact (inductionHypothesis next).imp_right fun le => Nat.le_of_lt (Nat.lt_of_le_of_lt le lower)
        · exact (inductionHypothesis next).imp_right fun le => Nat.le_trans le (Nat.le_of_eq same)

/-- Turns that include the awaited one finish or lower the rank. -/
theorem lowers (progress : Progress turn Inv Done rank awaited) {start : State}
    (begins : Inv start) {schedule : List Party} (served : awaited start ∈ schedule) :
    Done (takeTurns turn start schedule) ∨
      rank (takeTurns turn start schedule) < rank start := by
  induction schedule generalizing start with
  | nil => exact absurd served List.not_mem_nil
  | cons party schedule inductionHypothesis =>
      have next := progress.kept start party begins
      by_cases finished : Done start
      · exact Or.inl (progress.done next (progress.stays start party begins finished) schedule)
      · rcases progress.advances start party begins finished with ends | lower | ⟨other, same, still⟩
        · exact Or.inl (progress.done next ends schedule)
        · exact (progress.rank_le next schedule).imp_right fun le => Nat.lt_of_le_of_lt le lower
        · rw [← still] at served other
          have later := (List.mem_cons.mp served).resolve_left (Ne.symm other)
          exact (inductionHypothesis next later).imp_right fun less =>
            Nat.lt_of_lt_of_eq less same

/-- More rounds than the rank are enough, when every party has a turn in each. -/
theorem within_rounds (progress : Progress turn Inv Done rank awaited) {start : State}
    (begins : Inv start) {rounds : List (List Party)}
    (fair : forall round, round ∈ rounds -> forall party, party ∈ round)
    (enough : rank start < rounds.length) : Done (takeTurns turn start rounds.flatten) := by
  induction rounds generalizing start with
  | nil => exact absurd enough (Nat.not_lt_zero _)
  | cons round rounds inductionHypothesis =>
      rw [List.flatten_cons, takeTurns_append]
      have next := progress.inv begins round
      rcases progress.lowers begins (fair round List.mem_cons_self _) with ends | lower
      · exact progress.done next ends rounds.flatten
      · refine inductionHypothesis next (fun later member => fair later (List.mem_cons_of_mem _ member)) ?_
        have counted : rounds.length + 1 = (round :: rounds).length := rfl
        omega

/-- A schedule in which every party has a turn again and again reaches the end.
The rank falls whenever the awaited party has its turn, and does not rise
meanwhile. -/
theorem eventually (progress : Progress turn Inv Done rank awaited) {start : State}
    (begins : Inv start) {schedule : Nat -> Party}
    (fair : forall party early, Exists fun late => early ≤ late ∧ schedule late = party) :
    Exists fun turns => Done (takeTurns turn start ((List.range turns).map schedule)) := by
  generalize bound : rank start = height
  induction height using Nat.strongRecOn generalizing start schedule with
  | ind height inductionHypothesis =>
      rcases fair (awaited start) 0 with ⟨late, -, served⟩
      have member : awaited start ∈ (List.range (late + 1)).map schedule :=
        List.mem_map.mpr ⟨late, List.mem_range.mpr (Nat.lt_succ_self late), served⟩
      rcases progress.lowers begins member with ends | lower
      · exact ⟨late + 1, ends⟩
      · have later : forall party early, Exists fun next =>
            early ≤ next ∧ schedule (late + 1 + next) = party := by
          intro party early
          rcases fair party (late + 1 + early) with ⟨next, le, turns⟩
          refine ⟨next - (late + 1), by omega, ?_⟩
          rw [Nat.add_sub_of_le (by omega)]
          exact turns
        rcases inductionHypothesis _ (Nat.lt_of_lt_of_eq lower bound) (progress.inv begins _)
          later rfl with ⟨turns, ends⟩
        refine ⟨late + 1 + turns, ?_⟩
        rw [List.range_add, List.map_append, List.map_map, takeTurns_append]
        exact ends

end Progress
end Foundations
end NexusHft

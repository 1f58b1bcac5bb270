import Mathlib.Logic.Function.Basic

namespace NexusHft
namespace Foundations

/-!
# Who owns allocated storage

Parties own regions of storage.  While every allocated region has exactly one
owner, an operation of some parties that changes only what they own, before or
after it, cannot be noticed by any other party.
-/

universe u v w

variable {Region : Type u} {Content : Type v} {Party : Type w}

/-- Storage changes only where something is or was owned; what is given up is
released, and what is new was not allocated. -/
structure Replaces (owned owned' : Region -> Prop) (before after : Region -> Option Content) :
    Prop where
  frame : forall region, ¬ owned region -> ¬ owned' region -> after region = before region
  freed : forall region, owned region -> ¬ owned' region -> after region = none
  fresh : forall region, owned' region -> owned region ∨ before region = none

namespace Replaces

variable {owned owned' owned'' : Region -> Prop} {before between after : Region -> Option Content}

theorem refl (owned : Region -> Prop) (storage : Region -> Option Content) :
    Replaces owned owned storage storage :=
  ⟨fun _ _ _ => rfl, fun _ isOwned notOwned => absurd isOwned notOwned, fun _ => Or.inl⟩

theorem trans (first : Replaces owned owned' before between)
    (second : Replaces owned' owned'' between after) : Replaces owned owned'' before after := by
  constructor
  · intro region notFirst notLast
    by_cases middle : owned' region
    · rw [second.freed region middle notLast]
      exact ((first.fresh region middle).resolve_left notFirst).symm
    · rw [second.frame region middle notLast, first.frame region notFirst middle]
  · intro region isOwned notLast
    by_cases middle : owned' region
    · exact second.freed region middle notLast
    · rw [second.frame region middle notLast]
      exact first.freed region isOwned middle
  · intro region isOwned
    rcases second.fresh region isOwned with middle | absent
    · exact first.fresh region middle
    · by_cases wasOwned : owned region
      · exact Or.inl wasOwned
      · by_cases middle : owned' region
        · exact first.fresh region middle
        · rw [first.frame region wasOwned middle] at absent
          exact Or.inr absent

/-- An operation that writes only where something is owned. -/
theorem write [DecidableEq Region] {target : Region} (isOwned : owned target)
    (same : forall region, owned' region <-> owned region) (content : Option Content) :
    Replaces owned owned' before (Function.update before target content) := by
  refine ⟨?_, fun region was notOwned => absurd ((same region).mpr was) notOwned,
    fun region now => Or.inl ((same region).mp now)⟩
  intro region notOwned _
  apply Function.update_of_ne
  intro isTarget
  apply notOwned
  rw [isTarget]
  exact isOwned

end Replaces

/-- Every allocated region has one owner.  Without owners nothing is allocated, so
a region that nobody owns any more must have been released. -/
structure Partitioned (owns : Party -> Region -> Prop) (storage : Region -> Option Content) :
    Prop where
  allocated : forall party region, owns party region -> storage region ≠ none
  apart : forall party other region, owns party region -> owns other region -> party = other
  covered : forall region, storage region ≠ none -> Exists fun party => owns party region

/-- What some parties own together. -/
def Together (owns : Party -> Region -> Prop) (some : Party -> Prop) (region : Region) : Prop :=
  Exists fun party => some party ∧ owns party region

theorem together_one (owns : Party -> Region -> Prop) (party : Party) :
    Together owns (fun other => other = party) = owns party := by
  funext region
  apply propext
  constructor
  · rintro ⟨other, rfl, owned⟩
    exact owned
  · exact fun owned => ⟨party, rfl, owned⟩

theorem together_two (owns : Party -> Region -> Prop) (first second : Party) :
    Together owns (fun other => other = first ∨ other = second) =
      fun region => owns first region ∨ owns second region := by
  funext region
  apply propext
  constructor
  · rintro ⟨other, rfl | rfl, owned⟩
    · exact Or.inl owned
    · exact Or.inr owned
  · rintro (owned | owned)
    · exact ⟨first, Or.inl rfl, owned⟩
    · exact ⟨second, Or.inr rfl, owned⟩

namespace Partitioned

variable {owns owns' : Party -> Region -> Prop} {storage storage' : Region -> Option Content}
  {touched : Party -> Prop} (partitioned : Partitioned owns storage)
  (replaces : Replaces (Together owns touched) (Together owns' touched) storage storage')
include partitioned replaces

/-- What the other parties own is not taken from them. -/
theorem not_taken {party : Party} (untouched : ¬ touched party) {region : Region}
    (owned : owns party region) : ¬ Together owns touched region ∧ ¬ Together owns' touched region := by
  have notBefore : ¬ Together owns touched region := by
    rintro ⟨other, isTouched, owned'⟩
    rw [partitioned.apart party other region owned owned'] at untouched
    exact untouched isTouched
  refine ⟨notBefore, ?_⟩
  intro taken
  rcases replaces.fresh region taken with before | absent
  · exact notBefore before
  · exact partitioned.allocated party region owned absent

theorem unchanged {party : Party} (untouched : ¬ touched party) {region : Region}
    (owned : owns party region) : storage' region = storage region := by
  rcases partitioned.not_taken replaces untouched owned with ⟨notBefore, notAfter⟩
  exact replaces.frame region notBefore notAfter

theorem replace (same : forall party, ¬ touched party -> owns' party = owns party)
    (allocated : forall party, touched party -> forall region, owns' party region ->
      storage' region ≠ none)
    (apart : forall party other, touched party -> touched other -> forall region,
      owns' party region -> owns' other region -> party = other) : Partitioned owns' storage' := by
  constructor
  · intro party region owned
    by_cases isTouched : touched party
    · exact allocated party isTouched region owned
    · rw [same party isTouched] at owned
      rw [partitioned.unchanged replaces isTouched owned]
      exact partitioned.allocated party region owned
  · intro party other region owned owned'
    by_cases first : touched party
    · by_cases second : touched other
      · exact apart party other first second region owned owned'
      · rw [same other second] at owned'
        exact absurd ⟨party, first, owned⟩ (partitioned.not_taken replaces second owned').2
    · rw [same party first] at owned
      by_cases second : touched other
      · exact absurd ⟨other, second, owned'⟩ (partitioned.not_taken replaces first owned).2
      · rw [same other second] at owned'
        exact partitioned.apart party other region owned owned'
  · intro region isAllocated
    by_cases after : Together owns' touched region
    · rcases after with ⟨party, -, owned⟩
      exact ⟨party, owned⟩
    · by_cases before : Together owns touched region
      · exact absurd (replaces.freed region before after) isAllocated
      · rw [replaces.frame region before after] at isAllocated
        rcases partitioned.covered region isAllocated with ⟨party, owned⟩
        have untouched : ¬ touched party := fun isTouched => before ⟨party, isTouched, owned⟩
        exact ⟨party, (same party untouched).symm ▸ owned⟩

end Partitioned
end Foundations
end NexusHft

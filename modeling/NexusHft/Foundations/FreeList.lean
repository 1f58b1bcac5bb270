import Mathlib.Data.List.Nodup
import Mathlib.Data.List.Perm.Basic
import Mathlib.Logic.Function.Basic

namespace NexusHft
namespace Foundations

/-!
# Freelists threaded through the memory they hand out

A free cell holds the link to the next free cell; what a cell holds that has been
handed out is its owner's affair.  `Threaded next head free` says that the links
lead from `head` through the cells `free`, in this order, to the null link, and
reads no link but those of `free`.  `Parted` adds that the free cells and the
live ones are the cells of the store, each exactly once.

The links are a function of the cell, so that a program instantiates them with
whatever reading of its memory it has.
-/

universe u

variable {Cell : Type u}

/-- A write to one cell leaves the others of a list without it alone. -/
theorem update_elsewhere {Link : Type u} [DecidableEq Cell] {cells : List Cell} {cell : Cell}
    (outside : cell ∉ cells) (next : Cell -> Link) (link : Link) :
    forall other, other ∈ cells -> Function.update next cell link other = next other := by
  intro other member
  apply Function.update_of_ne
  intro same
  exact outside (same ▸ member)

/-- The links lead from `head` through these cells to the null link. -/
def Threaded (next : Cell -> Option Cell) : Option Cell -> List Cell -> Prop
  | head, [] => head = none
  | head, cell :: rest => head = some cell ∧ Threaded next (next cell) rest

namespace Threaded

variable {next next' : Cell -> Option Cell} {head : Option Cell} {free : List Cell}

/-- Only the links of the free cells matter. -/
theorem congr (same : forall cell, cell ∈ free -> next' cell = next cell)
    (threaded : Threaded next head free) : Threaded next' head free := by
  induction free generalizing head with
  | nil => exact threaded
  | cons cell rest inductionHypothesis =>
      apply And.intro threaded.1
      rw [same cell List.mem_cons_self]
      exact inductionHypothesis
        (fun other member => same other (List.mem_cons_of_mem cell member)) threaded.2

/-- Write the head into a cell and make the cell the head. -/
theorem push {cell : Cell} (threaded : Threaded next head free)
    (same : forall other, other ∈ free -> next' other = next other)
    (linked : next' cell = head) : Threaded next' (some cell) (cell :: free) := by
  apply And.intro rfl
  rw [linked]
  exact threaded.congr same

/-- The links determine the cells. -/
theorem unique {other : List Cell} (first : Threaded next head free)
    (second : Threaded next head other) : free = other := by
  induction free generalizing head other with
  | nil =>
      cases other with
      | nil => rfl
      | cons cell rest => exact absurd (first.symm.trans second.1) (Option.some_ne_none cell).symm
  | cons cell rest inductionHypothesis =>
      cases other with
      | nil => exact absurd (first.1.symm.trans second) (Option.some_ne_none cell)
      | cons cell' rest' =>
          have same : cell = cell' := Option.some.inj (first.1.symm.trans second.1)
          subst same
          rw [inductionHypothesis first.2 second.2]

/-- Cut a freelist at one of its cells. -/
theorem of_append {front back : List Cell} {cell : Cell}
    (threaded : Threaded next head (front ++ cell :: back)) :
    Threaded next (some cell) (cell :: back) := by
  induction front generalizing head with
  | nil => exact ⟨rfl, threaded.2⟩
  | cons first front inductionHypothesis => exact inductionHypothesis threaded.2

/-- Links that end at null never return to a cell. -/
theorem nodup (threaded : Threaded next head free) : free.Nodup := by
  induction free generalizing head with
  | nil => exact List.nodup_nil
  | cons cell rest inductionHypothesis =>
      refine List.nodup_cons.mpr ⟨?_, inductionHypothesis threaded.2⟩
      intro again
      rcases List.append_of_mem again with ⟨front, back, cut⟩
      have shorter : Threaded next (some cell) (cell :: back) := by
        have tail := threaded.2
        rw [cut] at tail
        exact tail.of_append
      have whole : Threaded next (some cell) (cell :: rest) := ⟨rfl, threaded.2⟩
      have lengths := congrArg List.length (whole.unique shorter)
      rw [cut] at lengths
      simp only [List.length_cons, List.length_append] at lengths
      omega

theorem eq_nil_iff (threaded : Threaded next head free) : free = [] <-> head = none := by
  cases free with
  | nil => exact ⟨fun _ => threaded, fun _ => rfl⟩
  | cons cell rest =>
      rw [threaded.1]
      exact ⟨fun empty => absurd empty (List.cons_ne_nil cell rest),
        fun null => absurd null (Option.some_ne_none cell)⟩

end Threaded

/-- The cells of the store are those on the freelist and the live ones, each once.
The store's cells are distinct in its uses, so nothing is free and live at a time.
-/
structure Parted (next : Cell -> Option Cell) (head : Option Cell)
    (cells free live : List Cell) : Prop where
  threaded : Threaded next head free
  whole : (free ++ live).Perm cells

namespace Parted

variable {next next' : Cell -> Option Cell} {head : Option Cell} {cells free live : List Cell}

section Members

variable (parted : Parted next head cells free live)
include parted

theorem length : free.length + live.length = cells.length := by
  rw [← List.length_append, parted.whole.length_eq]

theorem mem_iff (cell : Cell) : cell ∈ cells <-> cell ∈ free ∨ cell ∈ live := by
  rw [← parted.whole.mem_iff, List.mem_append]

end Members

section Distinct

variable (parted : Parted next head cells free live) (distinct : cells.Nodup)
include parted distinct

theorem nodup : (free ++ live).Nodup :=
  parted.whole.nodup_iff.mpr distinct

theorem live_nodup : live.Nodup :=
  (List.nodup_append.mp (parted.nodup distinct)).2.1

theorem not_live {cell : Cell} (isFree : cell ∈ free) : cell ∉ live :=
  fun isLive => (List.nodup_append.mp (parted.nodup distinct)).2.2 cell isFree cell isLive rfl

end Distinct

/-- The order of the live cells does not matter. -/
theorem of_perm {live' : List Cell} (parted : Parted next head cells free live)
    (same : live.Perm live') : Parted next head cells free live' :=
  ⟨parted.threaded, (same.symm.append_left free).trans parted.whole⟩

/-- What is written elsewhere than in the free cells changes nothing. -/
theorem write (parted : Parted next head cells free live)
    (same : forall cell, cell ∈ free -> next' cell = next cell) :
    Parted next' head cells free live :=
  ⟨parted.threaded.congr same, parted.whole⟩

/-- Hand out the first free cell; its link becomes the head. -/
theorem take {cell : Cell} (parted : Parted next head cells (cell :: free) live)
    (same : forall other, other ∈ free -> next' other = next other) :
    Parted next' (next cell) cells free (cell :: live) :=
  ⟨parted.threaded.2.congr same, List.perm_middle.trans parted.whole⟩

/-- Take a live cell back as the new head. -/
theorem give [DecidableEq Cell] {cell : Cell} (parted : Parted next head cells free live)
    (isLive : cell ∈ live) (same : forall other, other ∈ free -> next' other = next other)
    (linked : next' cell = head) :
    Parted next' (some cell) cells (cell :: free) (live.erase cell) := by
  have moved : (cell :: free ++ live.erase cell).Perm (free ++ cell :: live.erase cell) :=
    List.perm_middle.symm
  have back : (free ++ cell :: live.erase cell).Perm (free ++ live) :=
    (List.perm_cons_erase isLive).symm.append_left free
  exact ⟨parted.threaded.push same linked, (moved.trans back).trans parted.whole⟩

end Parted
end Foundations
end NexusHft

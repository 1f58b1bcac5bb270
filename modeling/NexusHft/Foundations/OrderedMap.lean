import Mathlib.Order.Defs.Unbundled
import Mathlib.Data.List.Pairwise
import Mathlib.Order.RelIso.Basic

namespace NexusHft
namespace Foundations

/-!
# Maps kept in key order

An ordered map is a list of entries whose keys are strictly ordered by the
map's comparison.  The order is a field, so an unsorted map or a map with two
entries for a key cannot be built.

Each operation is stated at an explicit position: `entries = front ++ (key,
value) :: back` determines the entries after `set` and `erase`, and `emplace`
names the position it inserts at.  A client then reasons about lists and never
about the insertion itself.
-/

universe u v

/-- Entries in strictly increasing key order for the comparison `precedes`.  The
order leaves no choice: maps with the same entries are equal. -/
structure OrderedMap (Key : Type u) (Value : Type v) (precedes : Key -> Key -> Prop) where
  entries : List (Key × Value)
  ordered : entries.Pairwise (fun first second => precedes first.1 second.1)

namespace OrderedMap

variable {Key : Type u} {Value : Type v} {precedes : Key -> Key -> Prop}

def empty : OrderedMap Key Value precedes := ⟨[], List.Pairwise.nil⟩

/-- The entry of the least key: what `begin()` refers to. -/
def first (map : OrderedMap Key Value precedes) : Option (Key × Value) :=
  map.entries.head?

@[ext] theorem ext {left right : OrderedMap Key Value precedes}
    (same : left.entries = right.entries) : left = right := by
  cases left; cases right; cases same; rfl

section Lookup

variable [DecidableEq Key]

def find (map : OrderedMap Key Value precedes) (key : Key) : Option Value :=
  (map.entries.find? (fun entry => decide (entry.1 = key))).map Prod.snd

/-- Write through a reference to the value of a key that is present. -/
def set (map : OrderedMap Key Value precedes) (key : Key) (value : Value) :
    OrderedMap Key Value precedes where
  entries := map.entries.map (fun entry => if entry.1 = key then (entry.1, value) else entry)
  ordered := by
    refine List.pairwise_map.mpr (map.ordered.imp ?_)
    intro left right before
    by_cases atLeft : left.1 = key <;> by_cases atRight : right.1 = key <;>
      simpa only [atLeft, atRight, if_true, if_false] using before

def erase (map : OrderedMap Key Value precedes) (key : Key) :
    OrderedMap Key Value precedes where
  entries := map.entries.filter (fun entry => decide (entry.1 ≠ key))
  ordered := map.ordered.filter _

end Lookup

section Insertion

variable [DecidableRel precedes]

/-- Insert before the first entry whose key the new key precedes.  An entry
that already has the key stays. -/
def insertEntry (precedes : Key -> Key -> Prop) [DecidableRel precedes]
    (key : Key) (value : Value) : List (Key × Value) -> List (Key × Value)
  | [] => [(key, value)]
  | entry :: rest =>
      if precedes key entry.1 then (key, value) :: entry :: rest
      else if precedes entry.1 key then entry :: insertEntry precedes key value rest
      else entry :: rest

theorem mem_insertEntry {key : Key} {value : Value} {entries : List (Key × Value)}
    {entry : Key × Value} (member : entry ∈ insertEntry precedes key value entries) :
    entry = (key, value) ∨ entry ∈ entries := by
  induction entries with
  | nil => exact Or.inl (List.mem_singleton.mp member)
  | cons head tail inductionHypothesis =>
      rw [insertEntry] at member
      split at member
      · exact List.mem_cons.mp member
      · split at member
        · rcases List.mem_cons.mp member with same | later
          · exact Or.inr (same ▸ List.mem_cons_self)
          · rcases inductionHypothesis later with new | old
            · exact Or.inl new
            · exact Or.inr (List.mem_cons_of_mem head old)
        · exact Or.inr member

theorem insertEntry_ordered [IsTrans Key precedes] (key : Key) (value : Value)
    {entries : List (Key × Value)}
    (ordered : entries.Pairwise (fun first second => precedes first.1 second.1)) :
    (insertEntry precedes key value entries).Pairwise
      (fun first second => precedes first.1 second.1) := by
  induction entries with
  | nil => exact List.pairwise_singleton _ _
  | cons head tail inductionHypothesis =>
      have parts := List.pairwise_cons.mp ordered
      rw [insertEntry]
      split
      · rename_i before
        refine List.pairwise_cons.mpr ⟨?_, ordered⟩
        intro entry member
        rcases List.mem_cons.mp member with same | later
        · exact same ▸ before
        · exact Trans.trans before (parts.1 entry later)
      · split
        · rename_i after
          refine List.pairwise_cons.mpr ⟨?_, inductionHypothesis parts.2⟩
          intro entry member
          rcases mem_insertEntry member with new | old
          · exact new ▸ after
          · exact parts.1 entry old
        · exact ordered

def emplace [IsTrans Key precedes] (map : OrderedMap Key Value precedes)
    (key : Key) (value : Value) : OrderedMap Key Value precedes where
  entries := insertEntry precedes key value map.entries
  ordered := insertEntry_ordered key value map.ordered

end Insertion

section Positions

variable {map : OrderedMap Key Value precedes} {front back : List (Key × Value)}
  {key : Key} {value : Value}

/-- The keys around a position, compared with its key. -/
theorem keys_around (split : map.entries = front ++ (key, value) :: back) :
    (forall entry, entry ∈ front -> precedes entry.1 key) ∧
      (forall entry, entry ∈ back -> precedes key entry.1) := by
  have ordered := map.ordered
  rw [split] at ordered
  have parts := List.pairwise_append.mp ordered
  exact ⟨fun entry member => parts.2.2 entry member (key, value) List.mem_cons_self,
    (List.pairwise_cons.mp parts.2.1).1⟩

theorem keys_ne [Std.Irrefl precedes]
    (split : map.entries = front ++ (key, value) :: back) :
    (forall entry, entry ∈ front -> entry.1 ≠ key) ∧
      (forall entry, entry ∈ back -> entry.1 ≠ key) := by
  have around := keys_around split
  constructor
  · intro entry member same
    exact irrefl_of precedes key (same ▸ around.1 entry member)
  · intro entry member same
    exact irrefl_of precedes key (same ▸ around.2 entry member)

variable [DecidableEq Key]

theorem find_of_split [Std.Irrefl precedes]
    (split : map.entries = front ++ (key, value) :: back) :
    map.find key = some value := by
  have skipped : front.find? (fun entry => decide (entry.1 = key)) = none := by
    rw [List.find?_eq_none]
    intro entry member
    simpa using (keys_ne split).1 entry member
  simp [find, split, List.find?_append, skipped]

theorem find_eq_some (found : map.find key = some value) :
    Exists fun front => Exists fun back => map.entries = front ++ (key, value) :: back := by
  rcases Option.map_eq_some_iff.mp found with ⟨entry, located, same⟩
  have atKey : entry.1 = key := by simpa using List.find?_some located
  have pair : entry = (key, value) := Prod.ext atKey same
  exact List.append_of_mem (pair ▸ List.mem_of_find?_eq_some located)

theorem find_eq_none : map.find key = none <-> forall entry, entry ∈ map.entries -> entry.1 ≠ key := by
  rw [find, Option.map_eq_none_iff, List.find?_eq_none]
  simp

theorem set_entries [Std.Irrefl precedes]
    (split : map.entries = front ++ (key, value) :: back) (new : Value) :
    (map.set key new).entries = front ++ (key, new) :: back := by
  have kept := keys_ne split
  have away : forall entries : List (Key × Value), (forall entry, entry ∈ entries -> entry.1 ≠ key) ->
      entries.map (fun entry => if entry.1 = key then (entry.1, new) else entry) = entries := by
    intro entries others
    exact (List.map_congr_left (fun entry member => if_neg (others entry member))).trans
      (List.map_id entries)
  simp only [set, split, List.map_append, List.map_cons, if_true, away front kept.1,
    away back kept.2]

theorem erase_entries [Std.Irrefl precedes]
    (split : map.entries = front ++ (key, value) :: back) :
    (map.erase key).entries = front ++ back := by
  have kept := keys_ne split
  have away : forall entries : List (Key × Value), (forall entry, entry ∈ entries -> entry.1 ≠ key) ->
      entries.filter (fun entry => decide (entry.1 ≠ key)) = entries := by
    intro entries others
    exact List.filter_eq_self.mpr (fun entry member => decide_eq_true (others entry member))
  change map.entries.filter (fun entry => decide (entry.1 ≠ key)) = front ++ back
  rw [split, List.filter_append, List.filter_cons_of_neg (by simp),
    away front kept.1, away back kept.2]

theorem erase_of_absent (absent : map.find key = none) : map.erase key = map :=
  ext (List.filter_eq_self.mpr fun entry member =>
    decide_eq_true (find_eq_none.mp absent entry member))

/-- Where `emplace` puts a key that is absent. -/
theorem emplace_entries [DecidableRel precedes] [IsTrans Key precedes]
    [Std.Trichotomous precedes] (absent : map.find key = none) (value : Value) :
    Exists fun front => Exists fun back => map.entries = front ++ back ∧
      (map.emplace key value).entries = front ++ (key, value) :: back := by
  have others := find_eq_none.mp absent
  change Exists fun front => Exists fun back => map.entries = front ++ back ∧
    insertEntry precedes key value map.entries = front ++ (key, value) :: back
  generalize map.entries = entries at others
  induction entries with
  | nil => exact ⟨[], [], rfl, rfl⟩
  | cons head tail inductionHypothesis =>
      by_cases before : precedes key head.1
      · exact ⟨[], head :: tail, rfl, if_pos before⟩
      · have after : precedes head.1 key := by
          rcases trichotomous_of precedes key head.1 with less | equal | greater
          · exact absurd less before
          · exact absurd equal.symm (others head List.mem_cons_self)
          · exact greater
        rcases inductionHypothesis
          (fun entry member => others entry (List.mem_cons_of_mem head member)) with
          ⟨front, back, split, inserted⟩
        refine ⟨head :: front, back, congrArg (head :: ·) split, ?_⟩
        rw [insertEntry, if_neg before, if_pos after, inserted]
        rfl

/-- The entries are the keys that are found. -/
theorem mem_entries_iff [Std.Irrefl precedes] {entry : Key × Value} :
    entry ∈ map.entries <-> map.find entry.1 = some entry.2 := by
  constructor
  · intro listed
    rcases List.append_of_mem listed with ⟨front, back, split⟩
    exact find_of_split split
  · intro found
    rcases find_eq_some found with ⟨front, back, split⟩
    rw [split]
    exact List.mem_append_right front List.mem_cons_self

/-- A map is determined by what it finds. -/
theorem ext_find [Std.Irrefl precedes] [IsTrans Key precedes]
    {left right : OrderedMap Key Value precedes}
    (same : forall key, left.find key = right.find key) : left = right := by
  have distinct (map : OrderedMap Key Value precedes) : map.entries.Nodup := by
    refine map.ordered.imp ?_
    rintro first second before rfl
    exact irrefl_of precedes first.1 before
  apply ext
  refine List.Perm.eq_of_pairwise ?_ left.ordered right.ordered
    ((List.perm_ext_iff_of_nodup (distinct left) (distinct right)).mpr (fun entry => ?_))
  · intro first second _ _ before after
    exact absurd (Trans.trans before after : precedes first.1 first.1) (irrefl_of precedes first.1)
  · rw [mem_entries_iff, mem_entries_iff, same]

end Positions

/-! ## Translating keys and values -/

section Translation

universe u' v'

variable {Key' : Type u'} {Value' : Type v'} {precedes' : Key' -> Key' -> Prop}

/-- The map with every key and every value replaced.  The keys keep their order. -/
def translate (map : OrderedMap Key Value precedes) (keys : precedes ↪r precedes')
    (values : Value -> Value') : OrderedMap Key' Value' precedes' where
  entries := map.entries.map (Prod.map keys values)
  ordered := List.pairwise_map.mpr (map.ordered.imp keys.map_rel_iff.mpr)

variable (map : OrderedMap Key Value precedes) (keys : precedes ↪r precedes')
  (values : Value -> Value')

theorem translate_first :
    (map.translate keys values).first = map.first.map (Prod.map keys values) :=
  List.head?_map

variable (key : Key) (value : Value)

theorem translate_emplace [DecidableRel precedes] [DecidableRel precedes']
    [IsTrans Key precedes] [IsTrans Key' precedes'] :
    (map.translate keys values).emplace (keys key) (values value) =
      (map.emplace key value).translate keys values := by
  apply ext
  change insertEntry precedes' (keys key) (values value) (map.entries.map (Prod.map keys values)) =
    (insertEntry precedes key value map.entries).map (Prod.map keys values)
  induction map.entries with
  | nil => rfl
  | cons head tail inductionHypothesis =>
      have compare (left right : Key) : precedes' (keys left) (keys right) <-> precedes left right :=
        keys.map_rel_iff
      rw [List.map_cons, insertEntry, insertEntry]
      simp only [Prod.map_fst, compare]
      by_cases before : precedes key head.1
      · simp only [if_pos before, List.map_cons, Prod.map_apply]
      · by_cases after : precedes head.1 key
        · simp only [if_neg before, if_pos after, List.map_cons, inductionHypothesis]
        · simp only [if_neg before, if_neg after, List.map_cons]

variable [DecidableEq Key] [DecidableEq Key']

theorem translate_find :
    (map.translate keys values).find (keys key) = (map.find key).map values := by
  have test : (fun entry : Key' × Value' => decide (entry.1 = keys key)) ∘ Prod.map keys values =
      fun entry => decide (entry.1 = key) := by
    funext entry
    exact decide_eq_decide.mpr keys.injective.eq_iff
  simp only [find, translate, List.find?_map, test, Option.map_map]
  rfl

theorem translate_set : (map.translate keys values).set (keys key) (values value) =
    (map.set key value).translate keys values := by
  apply ext
  simp only [set, translate, List.map_map]
  refine List.map_congr_left (fun entry _ => ?_)
  by_cases atKey : entry.1 = key
  · simp [atKey]
  · simp [atKey, keys.injective.eq_iff]

theorem translate_erase : (map.translate keys values).erase (keys key) =
    (map.erase key).translate keys values := by
  apply ext
  simp only [erase, translate, List.filter_map]
  congr 1
  refine List.filter_congr (fun entry _ => ?_)
  exact decide_eq_decide.mpr (not_congr keys.injective.eq_iff)

end Translation

/-! ## The keys alone -/

section Keys

variable (map : OrderedMap Key Value precedes)

def withoutValues : OrderedMap Key Unit precedes :=
  map.translate (RelEmbedding.refl precedes) fun _ => ()

theorem withoutValues_length : map.withoutValues.entries.length = map.entries.length :=
  List.length_map _

theorem withoutValues_keys : map.withoutValues.entries.map Prod.fst = map.entries.map Prod.fst := by
  rw [withoutValues, translate, List.map_map]
  rfl

variable (key : Key) (value : Value)

theorem withoutValues_emplace [DecidableRel precedes] [IsTrans Key precedes] :
    (map.emplace key value).withoutValues = map.withoutValues.emplace key () :=
  (map.translate_emplace (RelEmbedding.refl precedes) (fun _ => ()) key value).symm

variable [DecidableEq Key]

theorem withoutValues_find : map.withoutValues.find key = (map.find key).map fun _ => () :=
  map.translate_find (RelEmbedding.refl precedes) (fun _ => ()) key

theorem withoutValues_erase : (map.erase key).withoutValues = map.withoutValues.erase key :=
  (map.translate_erase (RelEmbedding.refl precedes) (fun _ => ()) key).symm

theorem withoutValues_set : (map.set key value).withoutValues = map.withoutValues := by
  apply ext
  simp only [withoutValues, set, translate, List.map_map]
  refine List.map_congr_left (fun entry _ => ?_)
  rw [Function.comp_apply]
  split <;> rfl

end Keys
end OrderedMap
end Foundations
end NexusHft

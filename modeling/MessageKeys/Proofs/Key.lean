import MessageKeys.Dictionary.Entries
import MessageKeys.Key

/-! # Keys that begin with other keys

    A key begins with another one, segment by segment, if it is that key or goes on behind it
    with a point (`segments_prefix_iff`).  Of two such keys the longer one comes later in order
    (`not_extension_lt`). -/

namespace MessageKeys.Key

variable {key other name : String}

/-- No name comes after one that it begins with. -/
theorem not_append_lt (front more : List Char) : ¬ front ++ more < front := by
  induction front with
  | nil => simp
  | cons c cs ih =>
      rw [List.cons_append, List.cons_lt_cons_iff]
      rintro (h | ⟨-, h⟩)
      · exact absurd h (by simp)
      · exact ih h

theorem not_extension_lt (key more : String) : ¬ key ++ "." ++ more < key := by
  rw [String.lt_iff, String.toList_append, String.toList_append, List.append_assoc]
  exact not_append_lt key.toList _

theorem segments_extension (key more : String) :
    segments (key ++ "." ++ more) = segments key ++ segments more :=
  Text.split_append '.' key more

theorem segments_prefix_extension (key more : String) :
    segments key <+: segments (key ++ "." ++ more) := by
  rw [segments_extension]
  exact List.prefix_append _ _

theorem extension_ne (key more : String) : key ++ "." ++ more ≠ key := by
  intro he
  have hsegments := segments_extension key more
  rw [he] at hsegments
  exact segments_ne_nil more (List.self_eq_append_right.mp hsegments)

/-- **BEGINNINGS**: the segments of one key are the first ones of another key exactly if this is
    the same key, or goes on with a point behind it. -/
theorem segments_prefix_iff :
    segments key <+: segments other ↔ other = key ∨ ∃ more, other = key ++ "." ++ more := by
  constructor
  · rintro ⟨rest, hrest⟩
    cases rest with
    | nil =>
        rw [List.append_nil] at hrest
        exact .inl (segments_injective hrest.symm)
    | cons name rest =>
        refine .inr ⟨join (name :: rest), segments_injective ?_⟩
        rw [segments_extension, ← hrest, segments_join (List.cons_ne_nil _ _)]
        intro s hs
        have hmem : s ∈ segments other := hrest ▸ List.mem_append_right _ hs
        exact Text.not_mem_of_mem_split hmem
  · rintro (rfl | ⟨more, rfl⟩)
    · exact List.prefix_rfl
    · exact segments_prefix_extension key more

/-- A key that another one begins with does not come after it. -/
theorem not_lt_of_prefix (h : segments key <+: segments other) : ¬ other < key := by
  rcases segments_prefix_iff.mp h with rfl | ⟨more, rfl⟩
  · exact String.lt_irrefl other
  · exact not_extension_lt key more

/-! ## First segments -/

/-- A first segment is a key of one segment. -/
theorem segments_of_head (h : (segments key).head? = some name) : segments name = [name] := by
  have hmem : name ∈ segments key := List.mem_of_mem_head? (Option.mem_def.mpr h)
  exact Text.split_of_not_mem (Text.not_mem_of_mem_split hmem)

/-- The first segment of a key is the key, or a point follows it. -/
theorem head?_segments (h : (segments key).head? = some name) :
    key = name ∨ ∃ more, key = name ++ "." ++ more := by
  obtain ⟨rest, hrest⟩ := List.head?_eq_some_iff.mp h
  rw [← segments_prefix_iff, segments_of_head h, hrest]
  exact ⟨rest, rfl⟩

end MessageKeys.Key

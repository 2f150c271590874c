import MessageKeys.Text.Split

/-! # Dotted keys — names whose segments are joined by points

    A message key is a text; its segments are what lies between its points.  A key with a
    point lives in a namespace, the text before its last point.

    Segments and keys determine each other: `join_segments` for every key, `segments_join`
    for every list of segments that holds no point. -/

namespace MessageKeys.Key

/-- The segments of a key; there is always at least one. -/
def segments (key : String) : List String := Text.split '.' key

/-- The key with these segments. -/
def join (segments : List String) : String := Text.join '.' segments

/-- The key holds a point. -/
def isNamespaced (key : String) : Bool := key.toList.contains '.'

/-- The text before the last point. -/
def namespace? (key : String) : Option String :=
  if isNamespaced key then some (join (segments key).dropLast) else none

/-- The name below a parent; an empty parent adds nothing. -/
def below (parent name : String) : String :=
  if parent = "" then name else parent ++ "." ++ name

theorem segments_ne_nil (key : String) : segments key ≠ [] := Text.split_ne_nil '.' key

theorem join_segments (key : String) : join (segments key) = key := Text.join_split '.' key

/-- Segments without points are found again. -/
theorem segments_join {ss : List String} (hne : ss ≠ []) (h : ∀ s ∈ ss, '.' ∉ s.toList) :
    segments (join ss) = ss := Text.split_join hne h

/-- A key is determined by its segments. -/
theorem segments_injective {k l : String} (h : segments k = segments l) : k = l := by
  rw [← join_segments k, h, join_segments]

end MessageKeys.Key

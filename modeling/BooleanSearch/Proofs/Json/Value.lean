import BooleanSearch.Json.Data
import BooleanSearch.Proofs.Json.Number
import BooleanSearch.Proofs.Json.Quoted
import BooleanSearch.Proofs.Json.Reading

/-!
# Written data is read as its value

* `Data.value`: the value that data means, complete in all its parts.
* `Data.Fits`: no number in the data is larger than 64 bits.
* `Data.exists_source`: the text of data is one of a value as it is written.
* `read_write`: the text of data is read as its value, and nothing stands behind it.
-/

namespace BooleanSearch.Json
set_option autoImplicit false

mutual

/-- The value that data means. -/
def Data.value : Data → Value
  | .text s => .string (some s)
  | .natural n => .number (.natural n)
  | .array items => .array (valueOfItems items)
  | .object members => .object (valueOfMembers members)

def valueOfItems : List Data → Items
  | [] => .closed
  | d :: ds => .item d.value (valueOfItems ds)

def valueOfMembers : List Member → Members
  | [] => .closed
  | .mk key d :: ms => .member (some key) d.value (valueOfMembers ms)

end

mutual

/-- No number in the data is larger than 64 bits. -/
def Data.Fits : Data → Prop
  | .text _ => True
  | .natural n => n ≤ largestNatural
  | .array items => FitItems items
  | .object members => FitMembers members

def FitItems : List Data → Prop
  | [] => True
  | d :: ds => d.Fits ∧ FitItems ds

def FitMembers : List Member → Prop
  | [] => True
  | .mk _ d :: ms => d.Fits ∧ FitMembers ms

end

/-! ## The text of data -/

theorem commaSeparated_cons (t : List Char) (ts : List (List Char)) :
    commaSeparated (t :: ts) = t ++ ts.flatMap (',' :: ·) := by
  induction ts generalizing t with
  | nil => exact (List.append_nil t).symm
  | cons u ts ih =>
    rw [commaSeparated, ih u, List.flatMap_cons]
    · rfl
    · exact List.cons_ne_nil _ _

theorem chars_sources (ds : List Source) : (wordsOfSources [.mark .comma] ds).flatMap Word.chars =
    (ds.map Source.chars).flatMap (',' :: ·) := by
  induction ds with
  | nil => rfl
  | cons d ds ih =>
    rw [wordsOfSources, List.flatMap_append, List.flatMap_append, ih]
    rfl

theorem chars_pairs (ms : List Pair) : (wordsOfPairs [.mark .comma] ms).flatMap Word.chars =
    (ms.map Pair.chars).flatMap (',' :: ·) := by
  induction ms with
  | nil => rfl
  | cons m ms ih =>
    cases m with
    | mk key d =>
      rw [wordsOfPairs, List.map_cons, List.flatMap_cons, ← ih]
      simp [Word.chars, Mark.char, Pair.chars, Source.chars]

theorem chars_array (ds : List Source) :
    (Source.array ds).chars = '[' :: commaSeparated (ds.map Source.chars) ++ [']'] := by
  cases ds with
  | nil => rfl
  | cons d ds =>
    rw [List.map_cons, commaSeparated_cons, ← chars_sources]
    simp [Source.chars, Source.words, wordsOfSources, Word.chars, Mark.char]

theorem chars_object (ms : List Pair) :
    (Source.object ms).chars = '\x7b' :: commaSeparated (ms.map Pair.chars) ++ ['\x7d'] := by
  cases ms with
  | nil => rfl
  | cons m ms =>
    cases m with
    | mk key d =>
      rw [List.map_cons, commaSeparated_cons, ← chars_pairs]
      simp [Source.chars, Pair.chars, Source.words, wordsOfPairs, Word.chars, Mark.char]

mutual

theorem Data.exists_source : ∀ d : Data, d.Fits →
    ∃ s : Source, s.value = d.value ∧ s.chars = d.chars
  | .text s, _ => by
    obtain ⟨parts, hchars, hmeaning⟩ := exists_encoded s.toList
    refine ⟨.string parts, ?_, ?_⟩
    · rw [Source.value, hmeaning, Option.map_some, String.ofList_toList, Data.value]
    · rw [Source.chars, Source.words, List.flatMap_singleton, Word.chars, hchars]
      rfl
  | .natural n, h => by
    refine ⟨.number (.ofNat n), congrArg Value.number (Literal.number_ofNat n h), ?_⟩
    rw [Source.chars, Source.words, List.flatMap_singleton, Word.chars, Literal.chars_ofNat]
    rfl
  | .array items, h => by
    obtain ⟨ss, hvalue, hchars⟩ := exists_sources items h
    exact ⟨.array ss, congrArg Value.array hvalue, by rw [chars_array, hchars, Data.chars]⟩
  | .object members, h => by
    obtain ⟨ps, hvalue, hchars⟩ := exists_pairs members h
    exact ⟨.object ps, congrArg Value.object hvalue, by rw [chars_object, hchars, Data.chars]⟩

theorem exists_sources : ∀ ds : List Data, FitItems ds → ∃ ss : List Source,
    itemsOfSources ss = valueOfItems ds ∧ ss.map Source.chars = charsOfItems ds
  | [], _ => ⟨[], rfl, rfl⟩
  | d :: ds, h => by
    obtain ⟨s, hvalue, hchars⟩ := d.exists_source h.1
    obtain ⟨ss, hvalues, hall⟩ := exists_sources ds h.2
    refine ⟨s :: ss, ?_, ?_⟩
    · rw [itemsOfSources, hvalue, hvalues, valueOfItems]
    · rw [List.map_cons, hchars, hall, charsOfItems]

theorem exists_pairs : ∀ ms : List Member, FitMembers ms → ∃ ps : List Pair,
    membersOfPairs ps = valueOfMembers ms ∧ ps.map Pair.chars = charsOfMembers ms
  | [], _ => ⟨[], rfl, rfl⟩
  | .mk key d :: ms, h => by
    obtain ⟨parts, hkey, hmeaning⟩ := exists_encoded key.toList
    obtain ⟨s, hvalue, hchars⟩ := d.exists_source h.1
    obtain ⟨ps, hvalues, hall⟩ := exists_pairs ms h.2
    refine ⟨.mk parts s :: ps, ?_, ?_⟩
    · rw [membersOfPairs, hmeaning, Option.map_some, String.ofList_toList, hvalue, hvalues,
        valueOfMembers]
    · rw [List.map_cons, Pair.chars, hkey, hchars, hall]
      rfl

end

theorem read_write (d : Data) (h : d.Fits) : read d.write = (d.value, true) := by
  obtain ⟨s, hvalue, hchars⟩ := d.exists_source h
  have htext : s.IsTextOf d.write.toList := by
    rw [Data.write, String.toList_ofList, ← hchars]
    exact lays_words s.words
  rw [read_source htext, hvalue]

end BooleanSearch.Json

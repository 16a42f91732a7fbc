import BooleanSearch.Json.Value
import BooleanSearch.Proofs.Json.Word

/-!
# JSON values as they are written

* `Source`: a value as it is written, with its numbers and strings to the letter.
* `Source.words`, `Source.value`: the words that it is made of, and what it is read as.
* `Source.IsTextOf`: a text holds the value and nothing else, with gaps wherever one likes.
* `numbersApart_words`: in a value a mark stands behind every number.
* `Source.lexemes_eq`: a text that holds a value is cut into the parts that its words are read as.
-/

namespace BooleanSearch.Json
set_option autoImplicit false

/-! ## Values as they are written -/

mutual

/-- A value as it is written, without the gaps between its words. -/
inductive Source where
  | null
  | bool (b : Bool)
  | number (l : Literal)
  | string (parts : List StringPart)
  | array (items : List Source)
  | object (members : List Pair)

/-- A key of an object as it is written, and what stands there. -/
inductive Pair where
  | mk (key : List StringPart) (value : Source)

end

mutual

/-- The words that a value is made of. -/
def Source.words : Source → List Word
  | .null => [.null]
  | .bool b => [.bool b]
  | .number l => [.number l]
  | .string parts => [.string parts]
  | .array items => .mark .openArray :: (wordsOfSources [] items ++ [.mark .closeArray])
  | .object members => .mark .openObject :: (wordsOfPairs [] members ++ [.mark .closeObject])

/-- The words of the elements of an array. A comma stands before each but the first. -/
def wordsOfSources : (before : List Word) → List Source → List Word
  | _, [] => []
  | before, d :: ds => before ++ (d.words ++ wordsOfSources [.mark .comma] ds)

def wordsOfPairs : (before : List Word) → List Pair → List Word
  | _, [] => []
  | before, .mk key d :: ms =>
    before ++ (.string key :: .mark .colon :: (d.words ++ wordsOfPairs [.mark .comma] ms))

end

mutual

/-- What a value is read as. -/
def Source.value : Source → Value
  | .null => .null
  | .bool b => .bool b
  | .number l => .number l.numeral.number
  | .string parts => .string ((meaning parts).map String.ofList)
  | .array items => .array (itemsOfSources items)
  | .object members => .object (membersOfPairs members)

def itemsOfSources : List Source → Items
  | [] => .closed
  | d :: ds => .item d.value (itemsOfSources ds)

def membersOfPairs : List Pair → Members
  | [] => .closed
  | .mk key d :: ms => .member ((meaning key).map String.ofList) d.value (membersOfPairs ms)

end

namespace Pair

/-- The key that a member is read with. It is missing when its escapes name half a pair. -/
def name : Pair → Option String
  | .mk key _ => (meaning key).map String.ofList

def source : Pair → Source
  | .mk _ d => d

end Pair

theorem membersOfPairs_cons (m : Pair) (ms : List Pair) :
    membersOfPairs (m :: ms) = .member m.name m.source.value (membersOfPairs ms) := by
  cases m
  rfl

/-- The text of a value without any gap. -/
def Source.chars (d : Source) : List Char := d.words.flatMap Word.chars

def Pair.chars : Pair → List Char
  | .mk key d => '"' :: quotedParts key ++ ':' :: d.chars

/-- The text holds the value and nothing else but gaps. -/
def Source.IsTextOf (d : Source) (text : List Char) : Prop := Lays d.words text

/-! ## The words of a value -/

section Words

variable (d : Source) (ds : List Source) (key : List StringPart) (ms : List Pair) (rest : List Word)

theorem words_array : (Source.array (d :: ds)).words ++ rest = .mark .openArray ::
    (d.words ++ (wordsOfSources [.mark .comma] ds ++ .mark .closeArray :: rest)) := by
  simp [Source.words, wordsOfSources]

theorem words_object : (Source.object (.mk key d :: ms)).words ++ rest =
    .mark .openObject :: .string key :: .mark .colon ::
      (d.words ++ (wordsOfPairs [.mark .comma] ms ++ .mark .closeObject :: rest)) := by
  simp [Source.words, wordsOfPairs]

theorem wordsOfSources_cons : wordsOfSources [.mark .comma] (d :: ds) ++ rest =
    .mark .comma :: (d.words ++ (wordsOfSources [.mark .comma] ds ++ rest)) := by
  simp [wordsOfSources]

theorem wordsOfPairs_cons : wordsOfPairs [.mark .comma] (.mk key d :: ms) ++ rest =
    .mark .comma :: .string key :: .mark .colon ::
      (d.words ++ (wordsOfPairs [.mark .comma] ms ++ rest)) := by
  simp [wordsOfPairs]

end Words

/-- Some words begin with a mark, if there are any. -/
def BeginsMark (ws : List Word) : Prop := ∀ w ∈ ws.head?, w.isMark = true

theorem beginsMark_sources (ds : List Source) {rest : List Word} (h : BeginsMark rest) :
    BeginsMark (wordsOfSources [.mark .comma] ds ++ rest) := by
  cases ds with
  | nil => exact h
  | cons d ds =>
    rw [wordsOfSources_cons]
    exact fun w hw => Option.some.inj hw ▸ rfl

theorem beginsMark_pairs (ms : List Pair) {rest : List Word} (h : BeginsMark rest) :
    BeginsMark (wordsOfPairs [.mark .comma] ms ++ rest) := by
  cases ms with
  | nil => exact h
  | cons m ms =>
    cases m with
    | mk key d =>
      rw [wordsOfPairs_cons]
      exact fun w hw => Option.some.inj hw ▸ rfl

theorem numbersApart_mark {rest : List Word} (m : Mark) (h : NumbersApart rest) :
    NumbersApart (.mark m :: rest) :=
  List.isChain_cons.mpr ⟨nofun, h⟩

theorem beginsMark_mark (m : Mark) (rest : List Word) : BeginsMark (.mark m :: rest) :=
  fun _ hw => Option.some.inj hw ▸ rfl

mutual

theorem numbersApart_words : ∀ (d : Source) (rest : List Word), NumbersApart rest →
    BeginsMark rest → NumbersApart (d.words ++ rest)
  | .null, _, h, _ => List.isChain_cons.mpr ⟨nofun, h⟩
  | .bool _, _, h, _ => List.isChain_cons.mpr ⟨nofun, h⟩
  | .number _, _, h, hmark => List.isChain_cons.mpr ⟨fun w hw _ => hmark w hw, h⟩
  | .string _, _, h, _ => List.isChain_cons.mpr ⟨nofun, h⟩
  | .array [], _, h, _ => numbersApart_mark _ (numbersApart_mark _ h)
  | .array (d :: ds), rest, h, _ => by
    have hclose := numbersApart_mark .closeArray h
    have hmark := beginsMark_mark .closeArray rest
    have hmore := numbersApart_sources ds _ hclose hmark
    rw [words_array]
    exact numbersApart_mark _ (numbersApart_words d _ hmore (beginsMark_sources ds hmark))
  | .object [], _, h, _ => numbersApart_mark _ (numbersApart_mark _ h)
  | .object (.mk key d :: ms), rest, h, _ => by
    have hclose := numbersApart_mark .closeObject h
    have hmark := beginsMark_mark .closeObject rest
    have hmore := numbersApart_pairs ms _ hclose hmark
    have hvalue := numbersApart_words d _ hmore (beginsMark_pairs ms hmark)
    rw [words_object]
    exact numbersApart_mark _ (List.isChain_cons.mpr ⟨nofun, numbersApart_mark _ hvalue⟩)

theorem numbersApart_sources : ∀ (ds : List Source) (rest : List Word), NumbersApart rest →
    BeginsMark rest → NumbersApart (wordsOfSources [.mark .comma] ds ++ rest)
  | [], _, h, _ => h
  | d :: ds, rest, h, hmark => by
    have hmore := numbersApart_sources ds rest h hmark
    rw [wordsOfSources_cons]
    exact numbersApart_mark _ (numbersApart_words d _ hmore (beginsMark_sources ds hmark))

theorem numbersApart_pairs : ∀ (ms : List Pair) (rest : List Word), NumbersApart rest →
    BeginsMark rest → NumbersApart (wordsOfPairs [.mark .comma] ms ++ rest)
  | [], _, h, _ => h
  | .mk key d :: ms, rest, h, hmark => by
    have hmore := numbersApart_pairs ms rest h hmark
    have hvalue := numbersApart_words d _ hmore (beginsMark_pairs ms hmark)
    rw [wordsOfPairs_cons]
    exact numbersApart_mark _ (List.isChain_cons.mpr ⟨nofun, numbersApart_mark _ hvalue⟩)

end

theorem Source.lexemes_eq {d : Source} {text : List Char} (h : d.IsTextOf text) :
    lexemes text = d.words.map Word.lexeme := by
  have hapart := numbersApart_words d [] List.IsChain.nil nofun
  rw [List.append_nil] at hapart
  exact lexemes_of_lays h hapart

end BooleanSearch.Json

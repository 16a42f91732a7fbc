import BooleanSearch.Proofs.Record.Stored

/-!
# What is open at once in a written text

How many arrays and objects are open at once is seen on the text itself, without reading it as data.

* `Within`, `mostOpenIn`: one pass over the characters of a JSON text.
* `mostOpenIn_encode`: a string opens nothing, whatever its text is.
* `Data.mostOpenIn_write`: the pass finds in the text of data what `Data.openAtOnce` says.
* `Document.read_own_text`: a document is read from its own text up to the limit of the reader.
-/

namespace BooleanSearch
set_option autoImplicit false
open Json

namespace Json

/-! ## One pass over a text -/

/-- Where a character of a JSON text stands: between strings, in a string, or behind a backslash in a
string. -/
inductive Within where
  | parts
  | string
  | escape
  deriving DecidableEq, Repr

/-- Where the character behind `c` stands. -/
def Within.behind : Within → Char → Within
  | parts, c => if c == '"' then string else parts
  | string, c => if c == '"' then parts else if c == '\\' then escape else string
  | escape, _ => string

/-- How many arrays and objects are open behind a character between strings. -/
def openBehind (here : Nat) (c : Char) : Nat :=
  if c == '[' || c == '\x7b' then here + 1
  else if c == ']' || c == '\x7d' then here - 1
  else here

/-- The most arrays and objects that are open at once before, between and behind the characters of a
text, when `here` are open before it. Brackets in strings open nothing. -/
def mostOpenIn : Within → (here : Nat) → List Char → Nat
  | _, here, [] => here
  | .parts, here, c :: cs =>
    max here (mostOpenIn (Within.parts.behind c) (openBehind here c) cs)
  | place, here, c :: cs => mostOpenIn (place.behind c) here cs

theorem le_mostOpenIn (place : Within) (here : Nat) (text : List Char) :
    here ≤ mostOpenIn place here text := by
  induction text generalizing place with
  | nil => cases place <;> exact Nat.le_refl here
  | cons c text ih =>
    cases place with
    | parts => exact Nat.le_max_left _ _
    | string => exact ih _
    | escape => exact ih _

/-- A character between strings that is no bracket changes nothing. -/
theorem mostOpenIn_cons (c : Char) (here : Nat) (text : List Char) (h : openBehind here c = here) :
    mostOpenIn .parts here (c :: text) = mostOpenIn (Within.parts.behind c) here text := by
  rw [mostOpenIn, h]
  exact Nat.max_eq_right (le_mostOpenIn _ here text)

theorem mostOpenIn_digits (ds : List Char) (hd : ∀ d ∈ ds, d.isDigit = true) (here : Nat)
    (rest : List Char) : mostOpenIn .parts here (ds ++ rest) = mostOpenIn .parts here rest := by
  induction ds with
  | nil => rfl
  | cons d ds ih =>
    have hplain : ∀ c : Char, c.isDigit = false → (d == c) = false := by
      intro c hc
      rw [beq_eq_false_iff_ne]
      rintro rfl
      rw [hd d List.mem_cons_self] at hc
      exact Bool.noConfusion hc
    have hopen : openBehind here d = here := by
      simp [openBehind, hplain '[' rfl, hplain '\x7b' rfl, hplain ']' rfl, hplain '\x7d' rfl]
    have hstays : Within.parts.behind d = .parts := by simp [Within.behind, hplain '"' rfl]
    rw [List.cons_append, mostOpenIn_cons d here _ hopen, hstays,
      ih fun c hc => hd c (List.mem_cons_of_mem _ hc)]

/-! ## Strings -/

theorem mostOpenIn_plain (c : Char) (here : Nat) (text : List Char) (hq : c ≠ '"')
    (hb : c ≠ '\\') : mostOpenIn .string here (c :: text) = mostOpenIn .string here text := by
  have hstays : Within.string.behind c = .string := by simp [Within.behind, hq, hb]
  rw [mostOpenIn, hstays]
  simp

theorem mostOpenIn_escape (letter : Char) (here : Nat) (text : List Char) :
    mostOpenIn .string here ('\\' :: letter :: text) = mostOpenIn .string here text := rfl

/-- The two digits behind `\u00` are no quotes and no backslashes. -/
theorem mostOpenIn_digitChar (n : Nat) (here : Nat) (text : List Char) :
    mostOpenIn .string here (Nat.digitChar n :: text) = mostOpenIn .string here text :=
  mostOpenIn_plain _ here text (Nat.digitChar_ne _ (by decide)) (Nat.digitChar_ne _ (by decide))

theorem mostOpenIn_encodeChar (c : Char) (here : Nat) (text : List Char) :
    mostOpenIn .string here (encodeChar c ++ text) = mostOpenIn .string here text := by
  unfold encodeChar
  by_cases hescaped : (c == '"' || c == '\\') = true
  · rw [if_pos hescaped]
    exact mostOpenIn_escape c here text
  · rw [if_neg hescaped]
    by_cases hcontrol : 0x20 ≤ c.toNat
    · rw [if_pos hcontrol]
      rw [Bool.or_eq_true, beq_iff_eq, beq_iff_eq, not_or] at hescaped
      exact mostOpenIn_plain c here text hescaped.1 hescaped.2
    · rw [if_neg hcontrol]
      cases controlLetter? c with
      | some letter => exact mostOpenIn_escape letter here text
      | none =>
        change mostOpenIn .string here ('\\' :: 'u' :: '0' :: '0' :: _ :: _ :: text) = _
        rw [mostOpenIn_escape, mostOpenIn_plain '0' here _ (by decide) (by decide),
          mostOpenIn_plain '0' here _ (by decide) (by decide), mostOpenIn_digitChar,
          mostOpenIn_digitChar]

theorem mostOpenIn_encode (text : List Char) (here : Nat) (rest : List Char) :
    mostOpenIn .parts here (encode text ++ rest) = mostOpenIn .parts here rest := by
  have hinside : ∀ cs : List Char, mostOpenIn .string here (cs.flatMap encodeChar ++ '"' :: rest) =
      mostOpenIn .parts here rest := by
    intro cs
    induction cs with
    | nil => rfl
    | cons c cs ih => rw [List.flatMap_cons, List.append_assoc, mostOpenIn_encodeChar, ih]
  have hsplit : encode text ++ rest = '"' :: (text.flatMap encodeChar ++ '"' :: rest) := by
    unfold encode
    rw [List.cons_append, List.cons_append, List.append_assoc]
    rfl
  rw [hsplit, mostOpenIn_cons '"' here _ rfl]
  exact hinside text

/-! ## Data -/

/-- What stands between two brackets is open one deeper. -/
theorem mostOpenIn_row (opening closing : Char) (inner : Nat) (here : Nat)
    (text rest : List Char)
    (hopen : mostOpenIn .parts here (opening :: text) = max here (mostOpenIn .parts (here + 1) text))
    (hclose : mostOpenIn .parts (here + 1) (closing :: rest) =
      max (here + 1) (mostOpenIn .parts here rest))
    (htext : mostOpenIn .parts (here + 1) text =
      max (here + 1 + inner) (mostOpenIn .parts (here + 1) (closing :: rest))) :
    mostOpenIn .parts here (opening :: text) =
      max (here + (inner + 1)) (mostOpenIn .parts here rest) := by
  rw [hopen, htext, hclose]
  omega

mutual

/-- Between the characters of written data as much is open at once as in the data. -/
theorem mostOpenIn_chars : ∀ (d : Data) (here : Nat) (rest : List Char),
    mostOpenIn .parts here (d.chars ++ rest) =
      max (here + d.openAtOnce) (mostOpenIn .parts here rest)
  | .text s, here, rest => by
    rw [Data.chars, mostOpenIn_encode, Data.openAtOnce, Nat.add_zero,
      Nat.max_eq_right (le_mostOpenIn _ here rest)]
  | .natural n, here, rest => by
    rw [Data.chars, mostOpenIn_digits _ (all_isDigit_toDigits n), Data.openAtOnce, Nat.add_zero,
      Nat.max_eq_right (le_mostOpenIn _ here rest)]
  | .array items, here, rest => by
    have hitems := mostOpenIn_items items (here + 1) (']' :: rest)
    rw [Data.chars, List.cons_append, List.cons_append, List.append_assoc, Data.openAtOnce]
    exact mostOpenIn_row '[' ']' _ here _ rest rfl rfl hitems
  | .object members, here, rest => by
    have hmembers := mostOpenIn_members members (here + 1) ('\x7d' :: rest)
    rw [Data.chars, List.cons_append, List.cons_append, List.append_assoc, Data.openAtOnce]
    exact mostOpenIn_row '\x7b' '\x7d' _ here _ rest rfl rfl hmembers

theorem mostOpenIn_items : ∀ (ds : List Data) (here : Nat) (rest : List Char),
    mostOpenIn .parts here (commaSeparated (charsOfItems ds) ++ rest) =
      max (here + openInItems ds) (mostOpenIn .parts here rest)
  | [], here, rest => (Nat.max_eq_right (le_mostOpenIn _ here rest)).symm
  | [d], here, rest => by
    have hd := mostOpenIn_chars d here rest
    rw [openInItems, openInItems, Nat.max_zero]
    exact hd
  | d :: e :: ds, here, rest => by
    have hd := mostOpenIn_chars d here (',' :: (commaSeparated (charsOfItems (e :: ds)) ++ rest))
    have hmore := mostOpenIn_items (e :: ds) here rest
    have hsplit : commaSeparated (charsOfItems (d :: e :: ds)) ++ rest =
        d.chars ++ ',' :: (commaSeparated (charsOfItems (e :: ds)) ++ rest) := by
      rw [charsOfItems, charsOfItems, commaSeparated, List.append_assoc]
      · rfl
      · exact List.cons_ne_nil _ _
    have hcomma := mostOpenIn_cons ',' here (commaSeparated (charsOfItems (e :: ds)) ++ rest) rfl
    rw [hsplit, openInItems, hd, hcomma]
    change max _ (mostOpenIn .parts here _) = _
    rw [hmore, ← Nat.add_max_add_left, Nat.max_assoc]

theorem mostOpenIn_members : ∀ (ms : List Member) (here : Nat) (rest : List Char),
    mostOpenIn .parts here (commaSeparated (charsOfMembers ms) ++ rest) =
      max (here + openInMembers ms) (mostOpenIn .parts here rest)
  | [], here, rest => (Nat.max_eq_right (le_mostOpenIn _ here rest)).symm
  | [.mk key d], here, rest => by
    have hd := mostOpenIn_chars d here rest
    have hcolon := mostOpenIn_cons ':' here (d.chars ++ rest) rfl
    rw [charsOfMembers, charsOfMembers, commaSeparated, List.append_assoc, mostOpenIn_encode,
      List.cons_append, hcolon, openInMembers, openInMembers, Nat.max_zero]
    exact hd
  | .mk key d :: m :: ms, here, rest => by
    have hd := mostOpenIn_chars d here (',' :: (commaSeparated (charsOfMembers (m :: ms)) ++ rest))
    have hmore := mostOpenIn_members (m :: ms) here rest
    have hcolon := mostOpenIn_cons ':' here
      (d.chars ++ ',' :: (commaSeparated (charsOfMembers (m :: ms)) ++ rest)) rfl
    have hcomma := mostOpenIn_cons ',' here (commaSeparated (charsOfMembers (m :: ms)) ++ rest) rfl
    have hsplit : commaSeparated (charsOfMembers (.mk key d :: m :: ms)) ++ rest =
        encode key.toList ++
          (':' :: (d.chars ++ ',' :: (commaSeparated (charsOfMembers (m :: ms)) ++ rest))) := by
      cases m with
      | mk key' d' =>
        rw [charsOfMembers, charsOfMembers, commaSeparated]
        · simp
        · exact List.cons_ne_nil _ _
    rw [hsplit, openInMembers, mostOpenIn_encode, hcolon]
    change mostOpenIn .parts here _ = _
    rw [hd, hcomma]
    change max _ (mostOpenIn .parts here _) = _
    rw [hmore, ← Nat.add_max_add_left, Nat.max_assoc]

end

/-- As much is open at once in the text of data as in the data. -/
theorem Data.mostOpenIn_write (d : Data) : mostOpenIn .parts 0 d.write.toList = d.openAtOnce := by
  have hd := mostOpenIn_chars d 0 []
  rw [List.append_nil, Nat.zero_add] at hd
  rw [Data.write, String.toList_ofList, hd]
  exact Nat.max_zero _

end Json

/-- A document is read from its own text, equal in every part, when no more arrays and objects are open
at once in the text than the reader allows. A text with more of them is malformed. -/
theorem Document.read_own_text (d : Document) :
    read d.write =
      if mostOpenIn .parts 0 d.write.toList ≤ 127 then .ok d else .error (.stop .malformed) := by
  have hopen : mostOpenIn .parts 0 d.write.toList = d.toData.openAtOnce := d.toData.mostOpenIn_write
  rw [hopen]
  exact d.read_write

end BooleanSearch

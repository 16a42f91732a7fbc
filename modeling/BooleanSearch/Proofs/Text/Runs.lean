import Mathlib.Data.List.TakeWhile

/-!
# Runs of characters

* `Stops p text`: the text does not go on with a character of the class `p`.
* `takeWhile_run`, `dropWhile_run`: a run of such characters ends where the text behind it stops.
-/

namespace BooleanSearch
set_option autoImplicit false

/-- The text does not begin with a character of the class `p`. -/
def Stops (p : Char → Bool) (text : List Char) : Prop := ∀ c ∈ text.head?, p c = false

theorem stops_dropWhile (p : Char → Bool) (text : List Char) : Stops p (text.dropWhile p) := by
  induction text with
  | nil => intro c hc; simp at hc
  | cons a text ih =>
    by_cases ha : p a = true
    · rw [List.dropWhile_cons_of_pos ha]
      exact ih
    · rw [List.dropWhile_cons_of_neg ha]
      intro c hc
      obtain rfl : a = c := by simpa using hc
      simpa using ha

theorem Stops.of_imp {p q : Char → Bool} {text : List Char} (h : Stops q text)
    (himp : ∀ c, p c = true → q c = true) : Stops p text := by
  intro c hc
  have hno := h c hc
  by_contra hp
  rw [himp c (by simpa using hp)] at hno
  exact Bool.noConfusion hno

theorem takeWhile_run (p : Char → Bool) (run behind : List Char) (hr : ∀ c ∈ run, p c = true)
    (hb : Stops p behind) : (run ++ behind).takeWhile p = run := by
  rw [List.takeWhile_append_of_pos hr]
  cases behind with
  | nil => simp
  | cons a behind => rw [List.takeWhile_cons_of_neg (by simp [hb a (by simp)]), List.append_nil]

theorem dropWhile_run (p : Char → Bool) (run behind : List Char) (hr : ∀ c ∈ run, p c = true)
    (hb : Stops p behind) : (run ++ behind).dropWhile p = behind := by
  rw [List.dropWhile_append_of_pos hr]
  cases behind with
  | nil => simp
  | cons a behind => rw [List.dropWhile_cons_of_neg (by simp [hb a (by simp)])]

theorem Stops.takeWhile_eq {p : Char → Bool} {text : List Char} (h : Stops p text) :
    text.takeWhile p = [] :=
  takeWhile_run p [] text nofun h

theorem Stops.dropWhile_eq {p : Char → Bool} {text : List Char} (h : Stops p text) :
    text.dropWhile p = text :=
  dropWhile_run p [] text nofun h

end BooleanSearch

/-!
# Byte offsets

Positions in a text are counted in bytes of its UTF-8 form.

* `byteCount`: how many bytes a text takes.
* `slice`: the characters of a text that begin at or after one offset and before another.

The main facts are `byteCount_eq_utf8ByteSize`: the count is the size of the text in memory, and
`slice_append`: a part of a text is found between the offsets of its two ends.
-/

namespace BooleanSearch.Text
set_option autoImplicit false

/-- The number of bytes that a text takes in UTF-8. -/
def byteCount : List Char → Nat
  | [] => 0
  | c :: cs => c.utf8Size + byteCount cs

/-- The characters that begin at an offset from `start` up to `stop`, when the given text begins at
the offset `here`. -/
def sliceFrom (start stop : Nat) : Nat → List Char → List Char
  | _, [] => []
  | here, c :: cs =>
    if start ≤ here ∧ here < stop then c :: sliceFrom start stop (here + c.utf8Size) cs
    else sliceFrom start stop (here + c.utf8Size) cs

def slice (text : List Char) (start stop : Nat) : List Char := sliceFrom start stop 0 text

@[simp] theorem byteCount_nil : byteCount [] = 0 := rfl

@[simp] theorem byteCount_cons (c : Char) (cs : List Char) :
    byteCount (c :: cs) = c.utf8Size + byteCount cs := rfl

@[simp] theorem byteCount_append (cs ds : List Char) :
    byteCount (cs ++ ds) = byteCount cs + byteCount ds := by
  induction cs with
  | nil => simp
  | cons c cs ih => simp [ih, Nat.add_assoc]

theorem length_le_byteCount (cs : List Char) : cs.length ≤ byteCount cs := by
  induction cs with
  | nil => simp
  | cons c cs ih =>
    have := c.utf8Size_pos
    simp only [byteCount_cons, List.length_cons]
    omega

theorem byteCount_eq_utf8ByteSize (cs : List Char) :
    byteCount cs = (String.ofList cs).utf8ByteSize := by
  induction cs with
  | nil => simp [String.ofList_nil]
  | cons c cs ih =>
    have parted : String.ofList (c :: cs) = String.singleton c ++ String.ofList cs := by
      rw [String.singleton_eq_ofList, ← String.ofList_append]
      rfl
    rw [byteCount_cons, ih, parted, String.utf8ByteSize_append, String.utf8ByteSize_singleton]

/-! ## Slices -/

theorem sliceFrom_before (start stop here : Nat) (front rest : List Char)
    (h : here + byteCount front ≤ start) :
    sliceFrom start stop here (front ++ rest) = sliceFrom start stop (here + byteCount front) rest := by
  induction front generalizing here with
  | nil => rfl
  | cons c front ih =>
    have hsize := c.utf8Size_pos
    rw [byteCount_cons, ← Nat.add_assoc] at h ⊢
    rw [List.cons_append, sliceFrom, if_neg (by omega), ih _ h]

theorem sliceFrom_inside (start stop here : Nat) (mid rest : List Char) (hstart : start ≤ here)
    (hstop : here + byteCount mid ≤ stop) :
    sliceFrom start stop here (mid ++ rest) =
      mid ++ sliceFrom start stop (here + byteCount mid) rest := by
  induction mid generalizing here with
  | nil => rfl
  | cons c mid ih =>
    have hsize := c.utf8Size_pos
    rw [byteCount_cons, ← Nat.add_assoc] at hstop ⊢
    rw [List.cons_append, sliceFrom, if_pos (by omega), ih _ (by omega) hstop, List.cons_append]

theorem sliceFrom_behind (start stop here : Nat) (rest : List Char) (h : stop ≤ here) :
    sliceFrom start stop here rest = [] := by
  induction rest generalizing here with
  | nil => rfl
  | cons c rest ih => rw [sliceFrom, if_neg (by omega), ih _ (by omega)]

theorem slice_append (front mid back : List Char) :
    slice (front ++ (mid ++ back)) (byteCount front) (byteCount front + byteCount mid) = mid := by
  have hfront : 0 + byteCount front = byteCount front := Nat.zero_add _
  rw [slice, sliceFrom_before _ _ 0 front _ (Nat.le_of_eq hfront), hfront,
    sliceFrom_inside _ _ _ mid back (Nat.le_refl _) (Nat.le_refl _),
    sliceFrom_behind _ _ _ back (Nat.le_refl _), List.append_nil]

end BooleanSearch.Text

import Mathlib.Data.List.DropRight
import BooleanSearch.Proofs.Token.Tiling
import BooleanSearch.Validation

/-!
# Blanks around a text and between its tokens

* `trim_split`, `trim_eq_self`, `trim_trim`: what trimming takes away, and when it takes nothing.
* `kindsIn_trimmed`: a text and its trimmed form have tokens of the same kinds.
* `gluedPieces`: a keyword and a term with nothing between them, seen on pieces. Two tokens touch
  when no blank lies between them (`hasGlued_ofPieces`), so the blanks at the ends of a text do not
  matter here either (`hasGlued_scan_trimmed`).
-/

namespace BooleanSearch
set_option autoImplicit false

/-! ## Trimming -/

theorem trimEnd_eq (text : List Char) : Text.trimEnd text = text.rdropWhile Text.isBlank := rfl

theorem trimEnd_append (front back : List Char) : Text.trimEnd (front ++ back) =
    if Text.trimEnd back = [] then Text.trimEnd front else front ++ Text.trimEnd back := by
  simp only [Text.trimEnd, List.reverse_append, List.dropWhile_append, List.isEmpty_iff,
    List.reverse_eq_nil_iff]
  split
  · rfl
  · rw [List.reverse_append, List.reverse_reverse]

/-- Trimming stops at a character that is no blank. -/
theorem trimEnd_append_cons (front back : List Char) (c : Char) (hc : Text.isBlank c = false) :
    Text.trimEnd (front ++ c :: back) = front ++ c :: Text.trimEnd back := by
  have hlast : Text.trimEnd [c] = [c] := by
    rw [Text.trimEnd, List.reverse_singleton, List.dropWhile_cons_of_neg (by simp [hc])]
    rfl
  have htail : Text.trimEnd (c :: back) = c :: Text.trimEnd back := by
    rw [← List.singleton_append, trimEnd_append, hlast]
    split
    · next h => rw [h]
    · rfl
  rw [trimEnd_append, htail, if_neg (List.cons_ne_nil _ _)]

theorem trimEnd_blanks_append (gap text : List Char) (hb : ∀ c ∈ gap, Text.isBlank c = true) :
    Text.trimEnd (gap ++ text) =
      if Text.trimEnd text = [] then [] else gap ++ Text.trimEnd text := by
  have hgap : Text.trimEnd gap = [] := List.rdropWhile_eq_nil_iff.mpr hb
  rw [trimEnd_append, hgap]

theorem trim_split (text : List Char) : ∃ front back,
    (∀ c ∈ front, Text.isBlank c = true) ∧ (∀ c ∈ back, Text.isBlank c = true) ∧
      text = front ++ (Text.trim text ++ back) := by
  refine ⟨text.takeWhile Text.isBlank, (text.dropWhile Text.isBlank).rtakeWhile Text.isBlank,
    fun c hc => List.mem_takeWhile_imp hc, fun c hc => List.mem_rtakeWhile_imp hc, ?_⟩
  rw [Text.trim, trimEnd_eq, List.rdropWhile_append_rtakeWhile, List.takeWhile_append_dropWhile]

theorem trim_eq_self (text : List Char) (hfirst : Stops Text.isBlank text)
    (hlast : ∀ c ∈ text.getLast?, Text.isBlank c = false) : Text.trim text = text := by
  have hfront : text.dropWhile Text.isBlank = text :=
    dropWhile_run Text.isBlank [] text (by simp) hfirst
  rw [Text.trim, hfront, trimEnd_eq, List.rdropWhile_eq_self_iff]
  intro hne
  rw [hlast _ (by rw [List.getLast?_eq_some_getLast hne]; rfl)]
  exact Bool.false_ne_true

theorem trim_trim (text : List Char) : Text.trim (Text.trim text) = Text.trim text := by
  apply trim_eq_self
  · intro c hc
    have hpre := List.rdropWhile_prefix (p := Text.isBlank) (l := text.dropWhile Text.isBlank)
    obtain ⟨back, hback⟩ := hpre
    rw [Text.trim, trimEnd_eq] at hc
    refine stops_dropWhile Text.isBlank text c ?_
    rw [← hback, List.head?_append, Option.mem_def.mp hc]
    rfl
  · intro c hc
    rw [Text.trim, trimEnd_eq] at hc
    have hne : (text.dropWhile Text.isBlank).rdropWhile Text.isBlank ≠ [] := by
      intro e
      rw [e] at hc
      simp at hc
    have hlast := List.rdropWhile_last_not Text.isBlank _ hne
    rw [List.getLast?_eq_some_getLast hne] at hc
    obtain rfl := Option.some.inj hc
    simpa using hlast

theorem trimmed_trimmed (raw : String) : trimmed (trimmed raw) = trimmed raw := by
  simp only [trimmed, String.toList_ofList, trim_trim]

/-! ## Blanks at the ends of a text -/

theorem Tiles.blanks_append {ps : List Piece} {text : List Char} (h : Tiles ps text)
    (front : List Char) (hf : ∀ c ∈ front, Text.isBlank c = true) :
    Tiles (front.map .blank ++ ps) (front ++ text) := by
  induction front with
  | nil => exact h
  | cons c front ih =>
    exact Tiles.blank c (hf c (by simp)) (ih fun d hd => hf d (by simp [hd]))

theorem stops_blank (c : Char) (text : List Char) (hc : Text.isBlank c = true) :
    Stops isWordChar (c :: text) := by
  intro d hd
  obtain rfl := Option.some.inj hd
  simp [isWordChar, hc]

theorem stops_blanks (back : List Char) (hb : ∀ c ∈ back, Text.isBlank c = true) :
    Stops isWordChar back := by
  cases back with
  | nil => exact nofun
  | cons c back => exact stops_blank c back (hb c List.mem_cons_self)

theorem wordKind_append_blanks (run behind back : List Char)
    (hb : ∀ c ∈ back, Text.isBlank c = true) :
    wordKind run (behind ++ back) = wordKind run behind := by
  cases behind with
  | cons d behind => rfl
  | nil =>
    cases back with
    | nil => rfl
    | cons d back =>
      have hd := hb d (by simp)
      have h1 : d ≠ '[' := fun e => by rw [e] at hd; exact absurd hd (by decide)
      have h2 : d ≠ '(' := fun e => by rw [e] at hd; exact absurd hd (by decide)
      simp [wordKind, h1, h2]

/-- Blanks behind a text change no kind. They become part of a bracket that is never closed, and are
pieces of their own where there is none. -/
theorem Tiles.append_blanks {ps : List Piece} {text : List Char} (h : Tiles ps text)
    (back : List Char) (hb : ∀ c ∈ back, Text.isBlank c = true) :
    ∃ qs, Tiles qs (text ++ back) ∧ kindsOf qs = kindsOf ps ∧
      (.illegal ∉ kindsOf ps → qs = ps ++ back.map .blank) := by
  induction h with
  | nil =>
    have hqs := Tiles.blanks_append Tiles.nil back hb
    rw [List.append_nil, List.append_nil] at hqs
    refine ⟨_, hqs, ?_, fun _ => rfl⟩
    simp [kindsOf, List.filterMap_map, Function.comp_def, Piece.kind?]
  | blank c hc rest ih =>
    obtain ⟨qs, hqs, hk, he⟩ := ih
    refine ⟨_, Tiles.blank c hc hqs, by simp [hk], fun hill => ?_⟩
    rw [he hill]
    rfl
  | @lexeme ps text kind written spelled rest ih =>
    obtain ⟨qs, hqs, hk, he⟩ := ih
    -- only a bracket that is never closed is spelled otherwise when blanks follow
    by_cases hun : Spelled kind written (text ++ back)
    · refine ⟨.lexeme kind written :: qs, ?_, by simp [hk], fun hill => ?_⟩
      · rw [List.append_assoc]
        exact Tiles.lexeme kind written hun hqs
      · rw [kindsOf_lexeme] at hill
        rw [he fun hm => hill (List.mem_cons_of_mem _ hm)]
        rfl
    · cases spelled with
      | unclosed inside hin =>
        obtain rfl := Tiles.eq_pieces rest
        have hmem : ']' ∉ inside ++ back := by
          intro hm
          rcases List.mem_append.mp hm with hm | hm
          · exact hin hm
          · exact absurd (hb _ hm) (by decide)
        refine ⟨[.lexeme .illegal ('[' :: (inside ++ back))], ?_, by simp, ?_⟩
        · have := Tiles.lexeme .illegal _ (Spelled.unclosed _ hmem) Tiles.nil
          simpa using this
        · intro hill
          exact absurd List.mem_cons_self hill
      | opening => exact absurd (Spelled.opening _) hun
      | closing => exact absurd (Spelled.closing _) hun
      | stray => exact absurd (Spelled.stray _) hun
      | term inside _ hin => exact absurd (Spelled.term inside _ hin) hun
      | word _ _ hne hw hstop =>
        refine absurd ?_ hun
        rw [← wordKind_append_blanks written text back hb]
        refine Spelled.word written _ hne hw fun c hc => ?_
        cases text with
        | nil => exact stops_blanks back hb c hc
        | cons d text => exact hstop c hc

/-! ## Tokens that touch -/

/-- A keyword and a term with nothing between them, among some pieces. -/
def gluedPieces : List Piece → Bool
  | .lexeme k _ :: .lexeme l written :: rest =>
    ((k.isKeyword && l.isTerm) || (k.isTerm && l.isKeyword)) ||
      gluedPieces (.lexeme l written :: rest)
  | _ :: rest => gluedPieces rest
  | [] => false

theorem gluedPieces_blank (c : Char) (ps : List Piece) :
    gluedPieces (.blank c :: ps) = gluedPieces ps := by
  cases ps <;> rfl

theorem gluedPieces_gap (k : Kind) (w : List Char) (c : Char) (ps : List Piece) :
    gluedPieces (.lexeme k w :: .blank c :: ps) = gluedPieces ps := by
  rw [← gluedPieces_blank c ps]
  rfl

theorem gluedPieces_blanks_append (front : List Char) (ps : List Piece) :
    gluedPieces (front.map .blank ++ ps) = gluedPieces ps := by
  induction front with
  | nil => rfl
  | cons c front ih => rw [List.map_cons, List.cons_append, gluedPieces_blank, ih]

def Piece.IsNeutral (p : Piece) : Prop := ∀ k ∈ p.kind?, k.isKeyword = false ∧ k.isTerm = false

theorem gluedPieces_cons (p : Piece) (hp : p.IsNeutral) (ps : List Piece) :
    gluedPieces (p :: ps) = gluedPieces ps := by
  cases p with
  | blank c => exact gluedPieces_blank c ps
  | lexeme k w =>
    obtain ⟨h1, h2⟩ := hp k rfl
    cases ps with
    | nil => rfl
    | cons q ps =>
      cases q with
      | blank c => rfl
      | lexeme l v =>
        rw [gluedPieces, h1, h2]
        rfl

/-- A neutral piece parts the pieces before it from those behind it. -/
theorem gluedPieces_append_cons (ps qs : List Piece) (p : Piece) (hp : p.IsNeutral) :
    gluedPieces (ps ++ p :: qs) = (gluedPieces ps || gluedPieces qs) := by
  have hrest := gluedPieces_cons p hp qs
  fun_induction gluedPieces ps with
  | case1 k w l v ps ih =>
    rw [List.cons_append] at ih
    rw [List.cons_append, List.cons_append, gluedPieces, ih, ← Bool.or_assoc]
  | case2 q ps hno ih =>
    rw [← ih]
    cases q with
    | blank c => exact gluedPieces_blank c _
    | lexeme k w =>
      cases ps with
      | cons r ps =>
        cases r with
        | blank c => rfl
        | lexeme l v => exact absurd rfl (hno k w l v ps rfl)
      | nil =>
        cases p with
        | blank c => rfl
        | lexeme l v =>
          obtain ⟨h1, h2⟩ := hp l rfl
          have hpair : gluedPieces (.lexeme k w :: .lexeme l v :: qs) =
              gluedPieces (.lexeme l v :: qs) := by
            rw [gluedPieces, h1, h2, Bool.and_false, Bool.and_false]
            rfl
          exact hpair
  | case3 => exact hrest

theorem isNeutral_blank (c : Char) : (Piece.blank c).IsNeutral := by
  intro k hk
  exact absurd hk (by simp [Piece.kind?])

theorem isNeutral_lexeme (k : Kind) (w : List Char) (h1 : k.isKeyword = false)
    (h2 : k.isTerm = false) : (Piece.lexeme k w).IsNeutral := by
  intro l hl
  obtain rfl := Option.some.inj hl
  exact ⟨h1, h2⟩

theorem gluedPieces_append_blanks (ps : List Piece) (back : List Char) :
    gluedPieces (ps ++ back.map .blank) = gluedPieces ps := by
  cases back with
  | nil => rw [List.map_nil, List.append_nil]
  | cons c back =>
    have hblanks := gluedPieces_blanks_append back []
    rw [List.append_nil] at hblanks
    rw [List.map_cons, gluedPieces_append_cons _ _ _ (isNeutral_blank c), hblanks]
    exact Bool.or_false _

theorem start_le_head_ofPieces (start : Nat) (ps : List Piece) :
    ∀ t ∈ (Token.ofPieces start ps).head?, start ≤ t.span.start := by
  induction ps generalizing start with
  | nil => intro t ht; simp [Token.ofPieces] at ht
  | cons p ps ih =>
    intro t ht
    cases p with
    | blank c => exact Nat.le_trans (Nat.le_add_right _ _) (ih _ t ht)
    | lexeme kind written =>
      obtain rfl := Option.some.inj ht
      exact Nat.le_refl _

/-- Two neighbours among the tokens are glued where two pieces are. A blank takes a byte at least, so
tokens with a blank between them do not touch. -/
theorem hasGlued_ofPieces (start : Nat) (ps : List Piece) :
    Rule.hasGlued (Token.ofPieces start ps) = gluedPieces ps := by
  induction ps generalizing start with
  | nil => rfl
  | cons p ps ih =>
    cases p with
    | blank c => rw [Token.ofPieces, ih, gluedPieces_blank]
    | lexeme k w =>
      cases ps with
      | nil => rfl
      | cons p ps =>
        cases p with
        | lexeme l written =>
          have hrest := ih (start + Text.byteCount w)
          rw [Token.ofPieces] at hrest
          rw [Token.ofPieces, Token.ofPieces, Rule.hasGlued, hrest, gluedPieces]
          simp [Rule.glued, Span.touches]
        | blank c =>
          have hrest := ih (start + Text.byteCount w)
          rw [gluedPieces_blank] at hrest
          have hfar := start_le_head_ofPieces (start + Text.byteCount w + c.utf8Size) ps
          rw [Token.ofPieces] at hrest
          rw [Token.ofPieces, Token.ofPieces]
          rw [gluedPieces_gap, ← hrest]
          cases hts : Token.ofPieces (start + Text.byteCount w + c.utf8Size) ps with
          | nil => rfl
          | cons t ts =>
            rw [hts] at hfar
            have ht := hfar t (by simp)
            have hpos := c.utf8Size_pos
            have hne : (start + Text.byteCount w == t.span.start) = false := by
              rw [beq_eq_false_iff_ne]
              omega
            rw [Rule.hasGlued]
            simp [Rule.glued, Span.touches, hne]

/-! ## A text and its trimmed form -/

/-- The pieces of a text and of its trimmed form: same kinds, and only blanks more at the ends where
no bracket stands alone. -/
theorem pieces_trim (text : List Char) :
    kindsOf (pieces text) = kindsOf (pieces (Text.trim text)) ∧
      (.illegal ∉ kindsOf (pieces (Text.trim text)) → ∃ front back : List Char,
        pieces text = front.map .blank ++ (pieces (Text.trim text) ++ back.map .blank)) := by
  obtain ⟨front, back, hf, hb, hcut⟩ := trim_split text
  obtain ⟨qs, hqs, hk, he⟩ := (tiles_pieces (Text.trim text)).append_blanks back hb
  have hall := hqs.blanks_append front hf
  rw [← hcut] at hall
  have hpieces := hall.eq_pieces
  constructor
  · rw [← hpieces, kindsOf_append, hk]
    simp [kindsOf, List.filterMap_map, Function.comp_def, Piece.kind?]
  · intro hill
    exact ⟨front, back, by rw [← hpieces, he hill]⟩

theorem kindsIn_trimmed (raw : String) : kindsIn (trimmed raw) = kindsIn raw := by
  rw [kindsIn_eq, kindsIn_eq, trimmed, String.toList_ofList, (pieces_trim raw.toList).1]

theorem hasGlued_scan (text : String) :
    Rule.hasGlued (Token.scan text) = gluedPieces (pieces text.toList) :=
  hasGlued_ofPieces 0 _

theorem hasGlued_scan_trimmed (raw : String) (hill : .illegal ∉ kindsIn raw) :
    Rule.hasGlued (Token.scan (trimmed raw)) = Rule.hasGlued (Token.scan raw) := by
  rw [kindsIn_eq, (pieces_trim raw.toList).1] at hill
  obtain ⟨front, back, hpieces⟩ := (pieces_trim raw.toList).2 hill
  rw [hasGlued_scan, hasGlued_scan, hpieces, gluedPieces_blanks_append, gluedPieces_append_blanks,
    trimmed, String.toList_ofList]

end BooleanSearch

import Mathlib.Data.List.Basic
import BooleanSearch.Node.Builder
import BooleanSearch.Proofs.Token.Placed
import BooleanSearch.Proofs.Token.Written

/-!
# Two ways to read a connector

The machine that builds trees reads a connector from a run of keywords, and stored trees hold it as a
text. On the part of a text that a run of keywords spans, both read the same.

* `words_intercalate`: the words of words put together with spaces are these words.
* `Connector.ofText?_of_words`: a text whose words are keywords spells the connector that they make.
* `Tiles.keyword_run`: the words between the first and the last keyword of a run are its keywords.
* `Builder.join_iff_ofText`: the keywords that wait make the connector that the text spells from the
  first to the last of them, and otherwise that part of the text is refused.
-/

namespace BooleanSearch
set_option autoImplicit false

/-! ## Words -/

theorem words_nil : Text.words [] = [] := by
  rw [Text.words.eq_def]

theorem words_blank (c : Char) (text : List Char) (hc : Text.isBlank c = true) :
    Text.words (c :: text) = Text.words text := by
  rw [Text.words.eq_def]
  exact if_pos hc

theorem words_blanks (gap text : List Char) (hgap : ∀ c ∈ gap, Text.isBlank c = true) :
    Text.words (gap ++ text) = Text.words text := by
  induction gap with
  | nil => rfl
  | cons c gap ih =>
    obtain ⟨hc, hgap⟩ := List.forall_mem_cons.mp hgap
    rw [List.cons_append, words_blank c _ hc, ih hgap]

/-- Characters that are no blanks are one word when a blank or nothing follows them. -/
theorem words_run (run behind : List Char) (hne : run ≠ [])
    (hrun : ∀ c ∈ run, Text.isBlank c = false) (hstops : Stops (!Text.isBlank ·) behind) :
    Text.words (run ++ behind) = run :: Text.words behind := by
  obtain ⟨c, run, rfl⟩ := List.exists_cons_of_ne_nil hne
  obtain ⟨hc, hmore⟩ := List.forall_mem_cons.mp hrun
  have hinside : ∀ d ∈ run, (!Text.isBlank d) = true := fun d hd => by rw [hmore d hd]; rfl
  have hnot : ¬ Text.isBlank c = true := by rw [hc]; exact Bool.false_ne_true
  rw [List.cons_append, Text.words.eq_def]
  refine (if_neg hnot).trans ?_
  rw [takeWhile_run _ run behind hinside hstops, dropWhile_run _ run behind hinside hstops]

theorem stops_at_blank (c : Char) (text : List Char) (hc : Text.isBlank c = true) :
    Stops (!Text.isBlank ·) (c :: text) := by
  intro d hd
  obtain rfl : c = d := Option.some.inj hd
  simp [hc]

/-- A word is not empty and has no blank in it. -/
def IsWord (run : List Char) : Prop := run ≠ [] ∧ ∀ c ∈ run, Text.isBlank c = false

theorem IsWord.words_eq {run : List Char} (h : IsWord run) : Text.words run = [run] := by
  have hlast := words_run run [] h.1 h.2 nofun
  rwa [List.append_nil, words_nil] at hlast

theorem words_intercalate (ws : List (List Char)) (h : ∀ w ∈ ws, IsWord w) :
    Text.words (List.intercalate [' '] ws) = ws := by
  induction ws with
  | nil => rw [List.intercalate_nil, words_nil]
  | cons w ws ih =>
    obtain ⟨hw, hws⟩ := List.forall_mem_cons.mp h
    cases ws with
    | nil => rw [List.intercalate_singleton, hw.words_eq]
    | cons v ws =>
      have hspace := stops_at_blank ' ' (List.intercalate [' '] (v :: ws)) Text.isBlank_space
      rw [List.intercalate_cons_cons, List.append_assoc, List.singleton_append,
        words_run w _ hw.1 hw.2 hspace, words_blank _ _ Text.isBlank_space, ih hws]

theorem upper_intercalate (ws : List (List Char)) :
    Text.upper (List.intercalate [' '] ws) = List.intercalate [' '] (ws.map Text.upper) := by
  induction ws with
  | nil => rfl
  | cons w ws ih =>
    cases ws with
    | nil => rw [List.map_singleton, List.intercalate_singleton, List.intercalate_singleton]
    | cons v ws =>
      rw [List.map_cons] at ih
      rw [List.intercalate_cons_cons, Text.upper_append, Text.upper_append, ih, List.map_cons,
        List.map_cons, List.intercalate_cons_cons]
      rfl

/-! ## Connectors -/

/-- Some keywords as they are written, with a space between any two. -/
def Keyword.spelling (ks : List Keyword) : List Char :=
  List.intercalate [' '] (ks.map (·.text.toList))

theorem Keyword.isWord_text (k : Keyword) : IsWord k.text.toList := by
  have hall : k.text.toList.all (!Text.isBlank ·) = true := by cases k <;> decide
  refine ⟨by cases k <;> decide, fun c hc => ?_⟩
  simpa using List.all_eq_true.mp hall c hc

theorem Keyword.text_injective : Function.Injective fun k : Keyword => k.text.toList := by
  intro k l h
  have hk := ofWord?_text k
  rw [show k.text.toList = l.text.toList from h, ofWord?_text] at hk
  exact (Option.some.inj hk).symm

theorem Keyword.spelling_inj {ks ls : List Keyword} (h : spelling ks = spelling ls) : ks = ls := by
  have hwords : ∀ ks : List Keyword, Text.words (spelling ks) = ks.map (·.text.toList) := by
    intro ks
    apply words_intercalate
    intro w hw
    obtain ⟨k, -, rfl⟩ := List.mem_map.mp hw
    exact k.isWord_text
  have hsame := congrArg Text.words h
  rw [hwords, hwords] at hsame
  exact List.map_injective_iff.mpr text_injective hsame

theorem Connector.spelling_keywords (c : Connector) : Keyword.spelling c.keywords = c.text.toList := by
  cases c <;> rfl

/-- A text whose words are keywords, in any case of letters, spells the connector that they make. -/
theorem Connector.ofText?_of_words {text : String} {ks : List Keyword}
    (h : (Text.words text.toList).map Text.upper = ks.map (·.text.toList)) :
    ofText? text = ofKeywords? ks := by
  have hspelled : Text.upper (List.intercalate [' '] (Text.words text.toList)) =
      Keyword.spelling ks := by
    rw [upper_intercalate, h, Keyword.spelling]
  have hmade : ∀ c : Connector, (c.text.toList == Keyword.spelling ks) = true ↔
      ofKeywords? ks = some c := by
    intro c
    rw [beq_iff_eq, ← c.spelling_keywords]
    constructor
    · intro hsame
      rw [← Keyword.spelling_inj hsame, ofKeywords?_keywords]
    · intro hmade
      rw [eq_keywords_of_ofKeywords? hmade]
  rw [ofText?, hspelled]
  cases hfound : all.find? (·.text.toList == Keyword.spelling ks) with
  | some c =>
    have hc := List.find?_some hfound
    exact ((hmade c).mp hc).symm
  | none =>
    have hnone := List.find?_eq_none.mp hfound
    symm
    rw [Option.eq_none_iff_forall_ne_some]
    intro c hc
    exact hnone c (by cases c <;> decide) ((hmade c).mpr hc)

/-! ## Runs of keywords -/

/-- A keyword that waits, as the token that it was. -/
def Token.ofWaiting (w : Keyword × Span) : Token := ⟨.keyword w.1, w.2⟩

/-- The characters of a keyword: one word, in any case of letters, with a word's end behind it. -/
structure Keyword.IsRead (k : Keyword) (run behind : List Char) : Prop where
  isWord : IsWord run
  begins : ∃ c ∈ run.head?, isWordChar c = true
  stops : Stops isWordChar behind
  upper_eq : Text.upper run = k.text.toList

theorem Spelled.isRead {k : Keyword} {run behind : List Char}
    (h : Spelled (.keyword k) run behind) : k.IsRead run behind := by
  generalize hkind : Kind.keyword k = kind at h
  cases h with
  | word _ _ hne hrun hstops =>
    refine ⟨⟨hne, fun c hc => ((isWordChar_iff c).mp (hrun c hc)).1⟩, ?_, hstops,
      (Kind.isOfRun_iff (.keyword k) run behind).mpr hkind⟩
    obtain ⟨c, cs, rfl⟩ := List.exists_cons_of_ne_nil hne
    exact ⟨c, rfl, hrun c List.mem_cons_self⟩
  | _ => cases hkind

/-- Where the keywords of a run are the next tokens of a text, a part of the text begins where the
first begins and ends where the last ends, and its words are the keywords. The induction is on the
keywords behind the first. -/
theorem Tiles.keyword_run {ps : List Piece} {text : List Char} (h : Tiles ps text)
    (front : List Char) (first last : Keyword × Span) (more : List (Keyword × Span))
    (behind : List Token)
    (hts : Token.ofPieces (Text.byteCount front) ps =
      (first :: more).map Token.ofWaiting ++ behind)
    (hlast : (first :: more).getLast? = some last) :
    ∃ gap run rest, text = gap ++ (run ++ rest) ∧ (∀ c ∈ gap, Text.isBlank c = true) ∧
      (∃ c ∈ run.head?, isWordChar c = true) ∧
      first.2.start = Text.byteCount (front ++ gap) ∧
      last.2.stop = Text.byteCount (front ++ gap) + Text.byteCount run ∧
      (Text.words run).map Text.upper = (first :: more).map (·.1.text.toList) := by
  induction more generalizing ps text front first with
  | nil =>
    obtain rfl : first = last := Option.some.inj hlast
    obtain ⟨gap, run, rest, -, rfl, hgap, hspelled, hspan, -, -⟩ := h.first_token front hts
    have hread := Spelled.isRead hspelled
    refine ⟨gap, run, rest, rfl, hgap, hread.begins, congrArg Span.start hspan, ?_, ?_⟩
    · rw [← Text.byteCount_append, List.append_assoc]
      exact congrArg Span.stop hspan
    · rw [hread.isWord.words_eq, List.map_singleton, hread.upper_eq, List.map_singleton]
  | cons second more ih =>
    obtain ⟨gap, word, rest, qs, rfl, hgap, hspelled, hspan, htiles, hrest⟩ :=
      h.first_token front hts
    have hread := Spelled.isRead hspelled
    obtain ⟨between, run, rest, rfl, hbetween, ⟨c, hc, hword⟩, -, hstop, hwords⟩ :=
      ih htiles _ second hrest hlast
    -- with nothing between them the two keywords would be one word
    obtain ⟨b, between, rfl⟩ : ∃ b tail, between = b :: tail := by
      apply List.exists_cons_of_ne_nil
      rintro rfl
      have hstops := hread.stops c (by rw [List.nil_append, List.head?_append, hc]; rfl)
      rw [hword] at hstops
      exact Bool.noConfusion hstops
    have hblank := hbetween b List.mem_cons_self
    refine ⟨gap, word ++ (b :: between ++ run), rest, by simp, hgap, ?_,
      congrArg Span.start hspan, ?_, ?_⟩
    · obtain ⟨d, hd, hinside⟩ := hread.begins
      exact ⟨d, by rw [List.head?_append, hd]; rfl, hinside⟩
    · rw [hstop]
      simp only [Text.byteCount_append]
      omega
    · have hstops := stops_at_blank b (between ++ run) hblank
      rw [List.cons_append, words_run word _ hread.isWord.1 hread.isWord.2 hstops, ← List.cons_append,
        words_blanks _ _ hbetween, List.map_cons, hwords, hread.upper_eq]
      rfl

theorem words_of_keywords (text : String) (before behind : List Token) (first last : Keyword × Span)
    (waiting : List (Keyword × Span))
    (hscan : Token.scan text = before ++ (waiting.map Token.ofWaiting ++ behind))
    (hfirst : waiting.head? = some first) (hlast : waiting.getLast? = some last) :
    (Text.words (Text.slice text.toList first.2.start last.2.stop)).map Text.upper =
      (waiting.map (·.1)).map (·.text.toList) := by
  obtain ⟨more, rfl⟩ := List.head?_eq_some_iff.mp hfirst
  obtain ⟨front, rest, qs, htext, htiles, hrest⟩ :=
    (tiles_pieces text.toList).behind_tokens [] hscan
  obtain ⟨gap, run, behind, rfl, -, -, hstart, hstop, hwords⟩ :=
    htiles.keyword_run _ first last more behind hrest hlast
  rw [List.nil_append] at hstart hstop
  have hslice := Text.slice_append (front ++ gap) run behind
  rw [← hstart] at hslice hstop
  rw [← hstop, List.append_assoc, ← htext] at hslice
  rw [hslice, hwords, List.map_map]
  rfl

/-! ## The keywords that wait -/

theorem Builder.join_of_waiting (b : Builder) (first last : Keyword × Span)
    (hfirst : b.waiting.head? = some first) (hlast : b.waiting.getLast? = some last) :
    b.join = match Connector.ofKeywords? (b.waiting.map (·.1)) with
      | some c => .ok { b with row := .connector c :: b.row, waiting := [] }
      | none => .error ⟨.noConnector (b.waiting.map (·.1)), some ⟨first.2.start, last.2.stop⟩⟩ := by
  obtain ⟨more, hwaiting⟩ := List.head?_eq_some_iff.mp hfirst
  have hspan : Builder.runSpan b.waiting = some ⟨first.2.start, last.2.stop⟩ := by
    rw [hwaiting] at hlast ⊢
    rw [List.getLast?_cons] at hlast
    obtain rfl := Option.some.inj hlast
    cases hmore : more.getLast? <;> simp [Builder.runSpan, hmore]
  have hsome : b.waiting.isEmpty = false := by rw [hwaiting]; rfl
  cases hmade : Connector.ofKeywords? (b.waiting.map (·.1)) <;>
    simp [Builder.join, hsome, hmade, hspan]

/-- The keywords that wait are some of the tokens of a text. They become a connector when the text
from the first to the last of them spells it; when it spells none, the fault is about that part. -/
theorem Builder.join_iff_ofText (text : String) (before behind : List Token) (b : Builder)
    (first last : Keyword × Span)
    (hscan : Token.scan text = before ++ (b.waiting.map Token.ofWaiting ++ behind))
    (hfirst : b.waiting.head? = some first) (hlast : b.waiting.getLast? = some last) :
    let part := String.ofList (Text.slice text.toList first.2.start last.2.stop)
    (∀ c, b.join = .ok { b with row := .connector c :: b.row, waiting := [] } ↔
      Connector.ofText part = .ok c) ∧
    ∀ fault, b.join = .error fault ↔ (∃ unknown, Connector.ofText part = .error unknown) ∧
      fault = ⟨.noConnector (b.waiting.map (·.1)), some ⟨first.2.start, last.2.stop⟩⟩ := by
  intro part
  have hwords := words_of_keywords text before behind first last b.waiting hscan hfirst hlast
  have hspelled : Connector.ofText? part = Connector.ofKeywords? (b.waiting.map (·.1)) := by
    apply Connector.ofText?_of_words
    rw [String.toList_ofList, hwords]
  rw [b.join_of_waiting first last hfirst hlast, Connector.ofText, hspelled]
  cases Connector.ofKeywords? (b.waiting.map (·.1)) with
  | some made => exact ⟨fun c => by simp, fun fault => by simp⟩
  | none => exact ⟨fun c => by simp, fun fault => by simp [eq_comm]⟩

theorem Builder.join_iff_ofText_andNot :
    Token.scan "[a] And\u2003nOT [b]" =
        [⟨.term "a", ⟨0, 3⟩⟩, ⟨.keyword .and, ⟨4, 7⟩⟩, ⟨.keyword .not, ⟨10, 13⟩⟩,
          ⟨.term "b", ⟨14, 17⟩⟩] ∧
      join ⟨[], [.term "a" none], [(.and, ⟨4, 7⟩), (.not, ⟨10, 13⟩)], none⟩ =
        .ok ⟨[], [.connector .andNot, .term "a" none], [], none⟩ := by
  have hscan : Token.scan "[a] And\u2003nOT [b]" =
      [⟨.term "a", ⟨0, 3⟩⟩] ++ ([(.and, ⟨4, 7⟩), (.not, ⟨10, 13⟩)].map Token.ofWaiting ++
        [⟨.term "b", ⟨14, 17⟩⟩]) := by
    decide +kernel
  refine ⟨hscan, ?_⟩
  have hboth := join_iff_ofText _ _ _ ⟨[], [.term "a" none], [(.and, ⟨4, 7⟩), (.not, ⟨10, 13⟩)], none⟩
    (.and, ⟨4, 7⟩) (.not, ⟨10, 13⟩) hscan rfl rfl
  apply (hboth.1 .andNot).mpr
  decide +kernel

end BooleanSearch

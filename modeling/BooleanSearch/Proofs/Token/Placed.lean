import BooleanSearch.Proofs.Token.Tiling

/-!
# The only tokens of a text

Which tokens a text has, and where, is said without reading the text from left to right.

* `Kind.Reads`: the part of a text that a token of a kind stands on, given what stands around it.
* `Token.StandsOn`: a token stands on a part of a text, at the bytes of its span.
* `Placed`: tokens stand on parts of a text in order, and only blanks are left out.
* `Token.scan_eq_iff`: the tokens of a text are placed on it, and no others are.
-/

namespace BooleanSearch
set_option autoImplicit false

/-! ## The part of a text that a token stands on -/

/-- A run of characters that are neither blank nor delimiters, and that is nowhere longer. -/
structure MaximalRun (before run behind : List Char) : Prop where
  ne_nil : run ≠ []
  inside : ∀ c ∈ run, isWordChar c = true
  begins : ∀ c ∈ before.getLast?, isWordChar c = false
  stops : Stops isWordChar behind

/-- A run of letters with an opening bracket or parenthesis directly behind it. -/
def IsGlued (run behind : List Char) : Prop :=
  (∀ c ∈ run, Text.isLetter c = true) ∧ (behind.head? = some '[' ∨ behind.head? = some '(')

/-- A run of characters outside brackets is of a kind. A keyword is never anything else. -/
def Kind.IsOfRun : Kind → (run behind : List Char) → Prop
  | keyword k, run, _ => Text.upper run = k.text.toList
  | fieldPrefix code, run, behind =>
    (∀ k : Keyword, Text.upper run ≠ k.text.toList) ∧ IsGlued run behind ∧ code.toList = run
  | word text, run, behind =>
    (∀ k : Keyword, Text.upper run ≠ k.text.toList) ∧ ¬ IsGlued run behind ∧ text.toList = run
  | _, _, _ => False

/-- A token of a kind stands on the characters `inside` between two parts of a text. -/
def Kind.Reads : Kind → (before inside behind : List Char) → Prop
  | opening, _, inside, _ => inside = ['(']
  | closing, _, inside, _ => inside = [')']
  | term value, _, inside, _ => inside = '[' :: (value.toList ++ [']']) ∧ ']' ∉ value.toList
  | illegal, _, inside, behind =>
    inside = [']'] ∨ inside.head? = some '[' ∧ ']' ∉ inside ∧ behind = []
  | kind, before, inside, behind => MaximalRun before inside behind ∧ kind.IsOfRun inside behind

/-! ## What a run is -/

theorem Keyword.ofWord?_eq_some_iff (run : List Char) (k : Keyword) :
    ofWord? run = some k ↔ Text.upper run = k.text.toList := by
  constructor
  · intro h
    have hfound := List.find?_some h
    exact (beq_iff_eq.mp hfound).symm
  · intro h
    have hsame : ofWord? run = ofWord? k.text.toList := by
      unfold ofWord?
      rw [h]
      cases k <;> rfl
    rw [hsame, ofWord?_text]

theorem Keyword.ofWord?_eq_none_iff (run : List Char) :
    ofWord? run = none ↔ ∀ k : Keyword, Text.upper run ≠ k.text.toList := by
  rw [Option.eq_none_iff_forall_ne_some]
  exact forall_congr' fun k => not_congr (ofWord?_eq_some_iff run k)

theorem isGlued_iff (run behind : List Char) : IsGlued run behind ↔
    ((behind.head? == some '[' || behind.head? == some '(') && run.all Text.isLetter) = true := by
  rw [Bool.and_eq_true, Bool.or_eq_true, beq_iff_eq, beq_iff_eq, List.all_eq_true]
  exact And.comm

theorem wordKind_of_keyword {run : List Char} {k : Keyword} (h : Text.upper run = k.text.toList)
    (behind : List Char) : wordKind run behind = .keyword k := by
  unfold wordKind
  rw [(Keyword.ofWord?_eq_some_iff run k).mpr h]

theorem wordKind_of_glued {run behind : List Char}
    (hword : ∀ k : Keyword, Text.upper run ≠ k.text.toList) (h : IsGlued run behind) :
    wordKind run behind = .fieldPrefix (String.ofList run) := by
  unfold wordKind
  rw [(Keyword.ofWord?_eq_none_iff run).mpr hword]
  exact if_pos ((isGlued_iff run behind).mp h)

theorem wordKind_of_loose {run behind : List Char}
    (hword : ∀ k : Keyword, Text.upper run ≠ k.text.toList) (h : ¬ IsGlued run behind) :
    wordKind run behind = .word (String.ofList run) := by
  unfold wordKind
  rw [(Keyword.ofWord?_eq_none_iff run).mpr hword]
  exact if_neg fun hp => h ((isGlued_iff run behind).mpr hp)

theorem Kind.isOfRun_iff (kind : Kind) (run behind : List Char) :
    kind.IsOfRun run behind ↔ kind = wordKind run behind := by
  constructor
  · intro h
    cases kind with
    | keyword k => exact (wordKind_of_keyword h behind).symm
    | fieldPrefix code =>
      obtain ⟨hword, hglued, rfl⟩ := h
      rw [wordKind_of_glued hword hglued, String.ofList_toList]
    | word text =>
      obtain ⟨hword, hglued, rfl⟩ := h
      rw [wordKind_of_loose hword hglued, String.ofList_toList]
    | _ => exact False.elim h
  · rintro rfl
    by_cases hword : ∀ k : Keyword, Text.upper run ≠ k.text.toList
    · by_cases hglued : IsGlued run behind
      · rw [wordKind_of_glued hword hglued]
        exact ⟨hword, hglued, String.toList_ofList⟩
      · rw [wordKind_of_loose hword hglued]
        exact ⟨hword, hglued, String.toList_ofList⟩
    · simp only [ne_eq, not_forall, not_not] at hword
      obtain ⟨k, hk⟩ := hword
      rw [wordKind_of_keyword hk behind]
      exact hk

/-! ## Tokens on a text -/

/-- A part of a text may begin here: no run of a word goes on over the place. -/
def IsSeam (before behind : List Char) : Prop :=
  (∃ c ∈ before.getLast?, isWordChar c = true) → Stops isWordChar behind

theorem Kind.spelled_of_reads {kind : Kind} {before inside behind : List Char}
    (h : kind.Reads before inside behind) : Spelled kind inside behind := by
  have hrun : ∀ kind : Kind, MaximalRun before inside behind ∧ kind.IsOfRun inside behind →
      Spelled kind inside behind := by
    rintro kind ⟨hmax, hkind⟩
    rw [(kind.isOfRun_iff inside behind).mp hkind]
    exact Spelled.word inside behind hmax.ne_nil hmax.inside hmax.stops
  cases kind with
  | opening => exact (show inside = ['('] from h) ▸ Spelled.opening behind
  | closing => exact (show inside = [')'] from h) ▸ Spelled.closing behind
  | term value =>
    obtain ⟨rfl, hvalue⟩ := h
    have hspelled := Spelled.term value.toList behind hvalue
    rwa [String.ofList_toList] at hspelled
  | illegal =>
    rcases h with rfl | ⟨hfirst, hinside, rfl⟩
    · exact Spelled.stray behind
    · obtain ⟨rest, rfl⟩ := List.head?_eq_some_iff.mp hfirst
      exact Spelled.unclosed rest fun hmem => hinside (List.mem_cons_of_mem _ hmem)
  | keyword k => exact hrun _ h
  | fieldPrefix code => exact hrun _ h
  | word text => exact hrun _ h

theorem Kind.reads_of_isOfRun {kind : Kind} {before run behind : List Char}
    (hmax : MaximalRun before run behind) (hkind : kind.IsOfRun run behind) :
    kind.Reads before run behind := by
  cases kind with
  | keyword k => exact ⟨hmax, hkind⟩
  | fieldPrefix code => exact ⟨hmax, hkind⟩
  | word text => exact ⟨hmax, hkind⟩
  | _ => exact hkind.elim

theorem Kind.reads_of_spelled {kind : Kind} {before inside behind : List Char}
    (h : Spelled kind inside behind) (hseam : IsSeam before (inside ++ behind)) :
    kind.Reads before inside behind := by
  cases h with
  | opening => rfl
  | closing => rfl
  | stray => exact Or.inl rfl
  | unclosed rest hrest =>
    refine Or.inr ⟨rfl, ?_, rfl⟩
    rw [List.mem_cons, not_or]
    exact ⟨by decide, hrest⟩
  | term value behind hvalue =>
    refine ⟨?_, ?_⟩
    · rw [String.toList_ofList]
    · rwa [String.toList_ofList]
  | word run behind hne hrun hstops =>
    have hbegins : ∀ c ∈ before.getLast?, isWordChar c = false := by
      intro c hc
      by_contra hword
      obtain ⟨d, rest, rfl⟩ := List.exists_cons_of_ne_nil hne
      have hfirst := hseam ⟨c, hc, by simpa using hword⟩ d rfl
      rw [hrun d List.mem_cons_self] at hfirst
      exact Bool.noConfusion hfirst
    exact reads_of_isOfRun ⟨hne, hrun, hbegins, hstops⟩ ((isOfRun_iff _ inside behind).mpr rfl)

theorem IsSeam.behind_char {before behind : List Char} {c : Char} (hc : isWordChar c = false) :
    IsSeam (before ++ [c]) behind := by
  rintro ⟨d, hd, hword⟩
  rw [List.getLast?_append, List.getLast?_singleton] at hd
  obtain rfl : c = d := Option.some.inj hd
  rw [hc] at hword
  exact Bool.noConfusion hword

theorem IsSeam.behind_blank {before behind : List Char} {c : Char} (hc : Text.isBlank c = true) :
    IsSeam (before ++ [c]) behind := by
  refine behind_char ?_
  by_contra hword
  rw [Bool.not_eq_false, isWordChar_iff, hc] at hword
  exact Bool.noConfusion hword.1

theorem IsSeam.behind_spelled {kind : Kind} {before inside behind : List Char}
    (h : Spelled kind inside behind) : IsSeam (before ++ inside) behind := by
  cases h with
  | opening => exact behind_char rfl
  | closing => exact behind_char rfl
  | stray => exact behind_char rfl
  | unclosed rest hrest => exact fun _ => nofun
  | term value behind hvalue =>
    have hseam : IsSeam (before ++ '[' :: value ++ [']']) behind := behind_char rfl
    rwa [List.append_assoc] at hseam
  | word run behind hne hrun hstops => exact fun _ => hstops

/-- A token stands on the characters `inside` between two parts of a text, at the bytes of its span. -/
structure Token.StandsOn (t : Token) (before inside behind : List Char) : Prop where
  ne_nil : inside ≠ []
  span_eq : t.span = ⟨Text.byteCount before, Text.byteCount (before ++ inside)⟩
  reads : t.kind.Reads before inside behind

theorem Token.StandsOn.start_eq {t : Token} {before inside behind : List Char}
    (h : t.StandsOn before inside behind) : t.span.start = Text.byteCount before := by
  rw [h.span_eq]

theorem Token.StandsOn.stop_eq {t : Token} {before inside behind : List Char}
    (h : t.StandsOn before inside behind) :
    t.span.stop = Text.byteCount before + Text.byteCount inside := by
  rw [h.span_eq, Text.byteCount_append]

/-- Tokens are placed on a text: each stands on a part of it, they follow each other, and every
character that is no blank lies in one of them. -/
structure Placed (text : List Char) (tokens : List Token) : Prop where
  stand : ∀ t ∈ tokens, ∃ before inside behind,
    text = before ++ (inside ++ behind) ∧ t.StandsOn before inside behind
  ordered : tokens.Pairwise fun a b => a.span.stop ≤ b.span.start
  covered : ∀ before c behind, text = before ++ c :: behind → Text.isBlank c = false →
    ∃ t ∈ tokens, t.span.start ≤ Text.byteCount before ∧ Text.byteCount before < t.span.stop

/-! ## Tokens on the rest of a text -/

/-- Tokens are placed on the rest of a text, behind the part `front`. -/
structure PlacedBehind (front rest : List Char) (tokens : List Token) : Prop where
  stand : ∀ t ∈ tokens, ∃ before inside behind,
    rest = before ++ (inside ++ behind) ∧ t.StandsOn (front ++ before) inside behind
  ordered : tokens.Pairwise fun a b => a.span.stop ≤ b.span.start
  covered : ∀ before c behind, rest = before ++ c :: behind → Text.isBlank c = false →
    ∃ t ∈ tokens, t.span.start ≤ Text.byteCount (front ++ before) ∧
      Text.byteCount (front ++ before) < t.span.stop

theorem placed_iff (text : List Char) (tokens : List Token) :
    Placed text tokens ↔ PlacedBehind [] text tokens :=
  ⟨fun h => ⟨h.stand, h.ordered, h.covered⟩, fun h => ⟨h.stand, h.ordered, h.covered⟩⟩

theorem byteCount_pos {cs : List Char} (h : cs ≠ []) : 0 < Text.byteCount cs :=
  Nat.lt_of_lt_of_le (List.length_pos_iff.mpr h) (Text.length_le_byteCount cs)

/-- Of two cuts of a text, the one at the later byte comes later. -/
theorem cut_later {front behind before more : List Char} (h : front ++ behind = before ++ more)
    (hle : Text.byteCount front ≤ Text.byteCount before) :
    ∃ mid, before = front ++ mid ∧ behind = mid ++ more := by
  rcases List.append_eq_append_iff.mp h with ⟨mid, hbefore, hbehind⟩ | ⟨mid, hfront, hmore⟩
  · exact ⟨mid, hbefore, hbehind⟩
  · have hmid : mid = [] := by
      by_contra hne
      have hpos := byteCount_pos hne
      rw [hfront, Text.byteCount_append] at hle
      omega
    subst hmid
    rw [List.append_nil] at hfront
    exact ⟨[], by rw [hfront, List.append_nil], hmore.symm⟩

theorem placedBehind_nil (front : List Char) (tokens : List Token) :
    PlacedBehind front [] tokens ↔ tokens = [] := by
  constructor
  · intro h
    by_contra hne
    obtain ⟨t, tail, rfl⟩ := List.exists_cons_of_ne_nil hne
    obtain ⟨before, inside, behind, hcut, hstands⟩ := h.stand t List.mem_cons_self
    rw [List.nil_eq, List.append_eq_nil_iff, List.append_eq_nil_iff] at hcut
    exact hstands.ne_nil hcut.2.1
  · rintro rfl
    exact ⟨nofun, List.Pairwise.nil, fun before c behind h _ => absurd h (by simp)⟩

theorem placedBehind_blank (front rest : List Char) (c : Char) (hc : Text.isBlank c = true)
    (tokens : List Token) :
    PlacedBehind front (c :: rest) tokens ↔ PlacedBehind (front ++ [c]) rest tokens := by
  constructor
  · intro h
    refine ⟨fun t ht => ?_, h.ordered, fun before d behind hcut hd => ?_⟩
    · obtain ⟨before, inside, behind, hcut, hstands⟩ := h.stand t ht
      cases before with
      | nil =>
        obtain ⟨d, inside, rfl⟩ := List.exists_cons_of_ne_nil hstands.ne_nil
        have hblank := (Kind.spelled_of_reads hstands.reads).not_isBlank
        rw [← (List.cons.inj hcut).1, hc] at hblank
        exact Bool.noConfusion hblank
      | cons d before =>
        obtain ⟨rfl, hrest⟩ := List.cons.inj hcut
        rw [List.append_cons] at hstands
        exact ⟨before, inside, behind, hrest, hstands⟩
    · have hcovered := h.covered (c :: before) d behind (by rw [hcut]; rfl) hd
      rwa [List.append_cons] at hcovered
  · intro h
    refine ⟨fun t ht => ?_, h.ordered, fun before d behind hcut hd => ?_⟩
    · obtain ⟨before, inside, behind, hcut, hstands⟩ := h.stand t ht
      rw [← List.append_cons] at hstands
      exact ⟨c :: before, inside, behind, by rw [hcut]; rfl, hstands⟩
    · cases before with
      | nil =>
        rw [← (List.cons.inj hcut).1, hc] at hd
        exact Bool.noConfusion hd
      | cons e before =>
        obtain ⟨rfl, hrest⟩ := List.cons.inj hcut
        have hcovered := h.covered before d behind hrest hd
        rwa [← List.append_cons] at hcovered

/-- Behind a token that stands at the beginning of the rest, the other tokens are placed. -/
theorem placedBehind_cons {front written behind : List Char} {t : Token}
    (ht : t.StandsOn front written behind) (tail : List Token) :
    PlacedBehind front (written ++ behind) (t :: tail) ↔
      PlacedBehind (front ++ written) behind tail := by
  have hstop := ht.stop_eq
  constructor
  · intro h
    obtain ⟨hfirst, hordered⟩ := List.pairwise_cons.mp h.ordered
    refine ⟨fun u hu => ?_, hordered, fun before c more hcut hc => ?_⟩
    · obtain ⟨before, inside, more, hcut, hstands⟩ := h.stand u (List.mem_cons_of_mem t hu)
      have hlater := hfirst u hu
      rw [hstop, hstands.start_eq, Text.byteCount_append] at hlater
      obtain ⟨mid, rfl, hbehind⟩ := cut_later hcut (Nat.le_of_add_le_add_left hlater)
      rw [← List.append_assoc] at hstands
      exact ⟨mid, inside, more, hbehind, hstands⟩
    · obtain ⟨u, hu, hcovers⟩ := h.covered (written ++ before) c more (by simp [hcut]) hc
      rw [← List.append_assoc] at hcovers
      rcases List.mem_cons.mp hu with rfl | hu
      · have hlt := hcovers.2
        rw [hstop, Text.byteCount_append, Text.byteCount_append] at hlt
        omega
      · exact ⟨u, hu, hcovers⟩
  · intro h
    refine ⟨fun u hu => ?_, List.pairwise_cons.mpr ⟨fun u hu => ?_, h.ordered⟩,
      fun before c more hcut hc => ?_⟩
    · rcases List.mem_cons.mp hu with rfl | hu
      · refine ⟨[], written, behind, rfl, ?_⟩
        rwa [List.append_nil]
      · obtain ⟨before, inside, more, hcut, hstands⟩ := h.stand u hu
        rw [List.append_assoc] at hstands
        exact ⟨written ++ before, inside, more, by rw [hcut, List.append_assoc], hstands⟩
    · obtain ⟨before, inside, more, -, hstands⟩ := h.stand u hu
      rw [hstop, hstands.start_eq, Text.byteCount_append, Text.byteCount_append]
      exact Nat.le_add_right _ _
    · by_cases hlater : Text.byteCount written ≤ Text.byteCount before
      · obtain ⟨mid, rfl, hbehind⟩ := cut_later hcut hlater
        obtain ⟨u, hu, hcovers⟩ := h.covered mid c more hbehind hc
        rw [List.append_assoc] at hcovers
        exact ⟨u, List.mem_cons_of_mem t hu, hcovers⟩
      · refine ⟨t, List.mem_cons_self, ?_⟩
        rw [ht.start_eq, hstop, Text.byteCount_append]
        omega

/-- Where a token is spelled at the beginning of the rest, the first token that is placed there is
that one. -/
theorem PlacedBehind.exists_cons {front written behind : List Char} {kind : Kind}
    {tokens : List Token} (h : PlacedBehind front (written ++ behind) tokens)
    (hspelled : Spelled kind written behind) : ∃ tail, tokens =
      ⟨kind, ⟨Text.byteCount front, Text.byteCount front + Text.byteCount written⟩⟩ :: tail := by
  obtain ⟨c, cs, rfl⟩ := List.exists_cons_of_ne_nil hspelled.ne_nil
  obtain ⟨t, ht, hstart, -⟩ := h.covered [] c (cs ++ behind) rfl hspelled.not_isBlank
  rw [List.append_nil] at hstart
  obtain ⟨u, tail, rfl⟩ := List.exists_cons_of_ne_nil (List.ne_nil_of_mem ht)
  obtain ⟨before, inside, more, hcut, hstands⟩ := h.stand u List.mem_cons_self
  -- the character at the beginning is covered, and by no later token than the first
  have hpos := byteCount_pos hstands.ne_nil
  have hu : u.span.start ≤ Text.byteCount front := by
    rcases List.mem_cons.mp ht with rfl | ht
    · exact hstart
    · have hearlier := (List.pairwise_cons.mp h.ordered).1 t ht
      rw [hstands.stop_eq, Text.byteCount_append] at hearlier
      omega
  obtain rfl : before = [] := by
    by_contra hne
    have hbefore := byteCount_pos hne
    rw [hstands.start_eq, Text.byteCount_append] at hu
    omega
  rw [List.append_nil] at hstands
  have hsame := (Kind.spelled_of_reads hstands.reads).firstPiece_eq hcut.symm
  rw [hspelled.firstPiece_eq rfl] at hsame
  obtain ⟨hpiece, -⟩ := Prod.mk.inj hsame
  obtain ⟨hkind, rfl⟩ := Piece.lexeme.inj hpiece
  refine ⟨tail, ?_⟩
  rw [hkind, ← Text.byteCount_append, ← hstands.span_eq]

/-! ## The tokens of a text -/

theorem Tiles.ofPieces_eq_iff {ps : List Piece} {rest : List Char} (h : Tiles ps rest)
    (front : List Char) (hseam : IsSeam front rest) (tokens : List Token) :
    Token.ofPieces (Text.byteCount front) ps = tokens ↔ PlacedBehind front rest tokens := by
  induction h generalizing front tokens with
  | nil =>
    rw [placedBehind_nil, eq_comm]
    rfl
  | blank c hc rest ih =>
    have hcount : Text.byteCount (front ++ [c]) = Text.byteCount front + c.utf8Size :=
      Text.byteCount_append front [c]
    rw [placedBehind_blank front _ c hc, ← ih _ (IsSeam.behind_blank hc), hcount]
    rfl
  | @lexeme ps text kind written spelled rest ih =>
    let first : Token :=
      ⟨kind, ⟨Text.byteCount front, Text.byteCount front + Text.byteCount written⟩⟩
    have hfirst : first.StandsOn front written text := by
      refine ⟨spelled.ne_nil, ?_, Kind.reads_of_spelled spelled hseam⟩
      rw [Text.byteCount_append]
    have hrest := ih (front ++ written) (IsSeam.behind_spelled spelled)
    rw [Text.byteCount_append] at hrest
    constructor
    · rintro rfl
      exact (placedBehind_cons hfirst _).mpr ((hrest _).mp rfl)
    · intro hplaced
      obtain ⟨tail, rfl⟩ := hplaced.exists_cons spelled
      exact congrArg (first :: ·) ((hrest tail).mpr ((placedBehind_cons hfirst tail).mp hplaced))

/-- The tokens of a text are placed on it, and no other tokens are. -/
theorem Token.scan_eq_iff (text : String) (tokens : List Token) :
    scan text = tokens ↔ Placed text.toList tokens := by
  have hseam : IsSeam [] text.toList := by
    rintro ⟨c, hc, -⟩
    exact absurd hc (by simp)
  rw [placed_iff]
  exact (tiles_pieces text.toList).ofPieces_eq_iff [] hseam tokens

end BooleanSearch

import BooleanSearch.Node.Render
import BooleanSearch.Proofs.Node.Settled
import BooleanSearch.Proofs.Token.Blanks
import BooleanSearch.Proofs.Token.Replaced

/-!
# The pieces of a canonical text

A canonical text is written piece by piece, and reading it finds the same pieces again.

* `Node.canonicalPieces`, `Node.piecesOfRow`: the pieces that a tree and a row are written with.
* `Style.rewrite`, `Node.toList_renderWith`: what a style writes in the place of each of these pieces.
* `Node.toList_canonical`: the canonical text is these pieces put together.
* `Node.tiles_piecesOfRow`: they tile it, when no term holds a closing bracket.
* `Row.canonical`, `Node.gluedPieces_piecesOfRow`, `Alternating.firm`: the row is derived from them, no
  keyword touches a term, and there is nothing to trim.
-/

namespace BooleanSearch
set_option autoImplicit false

/-! ## The pieces -/

def Connector.pieces (c : Connector) : List Piece :=
  (c.keywords.map fun k => Piece.lexeme (.keyword k) k.text.toList).intersperse (.blank ' ')

namespace Node

def codePieces : Option Field → List Piece
  | none => []
  | some f => [.lexeme (.fieldPrefix f.code) f.code.toList]

/-- The blank before the parts that follow, if there are any. -/
def gap : List Node → List Piece
  | [] => []
  | _ :: _ => [.blank ' ']

mutual

/-- The pieces of the canonical text of a tree. -/
def canonicalPieces : Node → List Piece
  | root cs => piecesOfRow cs
  | term v f => codePieces f ++ [.lexeme (.term v) ('[' :: (v.toList ++ [']']))]
  | connector c => c.pieces
  | group cs f =>
    codePieces f ++ .lexeme .opening ['('] :: (piecesOfRow cs ++ [.lexeme .closing [')']])

def piecesOfRow : List Node → List Piece
  | [] => []
  | n :: ns => canonicalPieces n ++ (gap ns ++ piecesOfRow ns)

end

def written (ps : List Piece) : List Char := ps.flatMap Piece.written

theorem written_append (ps qs : List Piece) : written (ps ++ qs) = written ps ++ written qs :=
  List.flatMap_append

/-! ## The text is the pieces -/

end Node

/-- What a style writes in the place of a token of the canonical text. With marks of its own it leaves
the field codes out and writes the marks around the terms, or around those with a wildcard. -/
def Style.rewrite : Style → Kind → List Char → List Char
  | canonical, _, written => written
  | enclosed _ _ _, .fieldPrefix _, _ => []
  | enclosed before after onlyWildcards, .term v, written =>
    if onlyWildcards = false ∨ '?' ∈ v.toList ∨ '*' ∈ v.toList then
      before.toList ++ (v.toList ++ after.toList)
    else written
  | enclosed _ _ _, _, written => written

namespace Node

def rewritten (style : Style) (ps : List Piece) : List Char :=
  ps.flatMap (Piece.replaced style.rewrite)

theorem rewritten_append (style : Style) (ps qs : List Piece) :
    rewritten style (ps ++ qs) = rewritten style ps ++ rewritten style qs :=
  List.flatMap_append

theorem rewritten_canonical (ps : List Piece) : rewritten .canonical ps = written ps := by
  have hsame : Piece.replaced Style.canonical.rewrite = Piece.written := by
    funext p
    cases p <;> rfl
  rw [rewritten, hsame, written]

theorem rewritten_codePieces (style : Style) (field : Option Field) :
    rewritten style (codePieces field) = (style.fieldText field).toList := by
  cases field with
  | none => cases style <;> rfl
  | some f =>
    cases style with
    | canonical => exact List.append_nil _
    | enclosed before after onlyWildcards => rfl

theorem rewritten_term (style : Style) (v : String) :
    rewritten style [.lexeme (.term v) ('[' :: (v.toList ++ [']']))] = (style.termText v).toList := by
  have hbrackets : ("[" ++ v ++ "]").toList = '[' :: (v.toList ++ [']']) := by simp
  cases style with
  | canonical => exact (List.append_nil _).trans hbrackets.symm
  | enclosed before after onlyWildcards =>
    have hmarks : (!onlyWildcards || v.toList.any Wildcard.isMark) = true ↔
        onlyWildcards = false ∨ '?' ∈ v.toList ∨ '*' ∈ v.toList := by
      rw [Bool.or_eq_true, Wildcard.any_isMark_iff, Bool.not_eq_true']
    rw [Style.termText, rewritten, List.flatMap_singleton, Piece.replaced, Style.rewrite]
    by_cases h : onlyWildcards = false ∨ '?' ∈ v.toList ∨ '*' ∈ v.toList
    · rw [if_pos h, if_pos (hmarks.mpr h), String.toList_append, String.toList_append,
        List.append_assoc]
    · rw [if_neg h, if_neg fun hp => h (hmarks.mp hp), hbrackets]

theorem rewritten_connector (style : Style) (c : Connector) :
    rewritten style c.pieces = c.text.toList := by
  have hkept : rewritten style c.pieces = written c.pieces := by cases style <;> cases c <;> rfl
  rw [hkept]
  cases c <;> decide

mutual

theorem toList_renderWith (style : Style) : ∀ n : Node,
    (n.renderWith style).toList = rewritten style n.canonicalPieces
  | root cs => toList_intercalate_renderRow style cs
  | term v f => by
    rw [renderWith, canonicalPieces, rewritten_append, rewritten_codePieces, rewritten_term,
      String.toList_append]
  | connector c => (rewritten_connector style c).symm
  | group cs f => by
    have hrow := toList_intercalate_renderRow style cs
    have hopening : rewritten style [.lexeme .opening ['(']] = ['('] := by cases style <;> rfl
    have hclosing : rewritten style [.lexeme .closing [')']] = [')'] := by cases style <;> rfl
    rw [renderWith, canonicalPieces, rewritten_append, rewritten_codePieces, String.toList_append,
      String.toList_append, String.toList_append, hrow, ← List.singleton_append, rewritten_append,
      rewritten_append, hopening, hclosing]
    simp

theorem toList_intercalate_renderRow (style : Style) : ∀ ns : List Node,
    (" ".intercalate (renderRow style ns)).toList = rewritten style (piecesOfRow ns)
  | [] => by
    rw [renderRow, String.intercalate_nil]
    rfl
  | [n] => by
    rw [renderRow, renderRow, String.intercalate_singleton, toList_renderWith style n, piecesOfRow,
      piecesOfRow, gap, List.append_nil, List.append_nil]
  | n :: m :: ns => by
    have hrow := toList_intercalate_renderRow style (m :: ns)
    have hsplit : piecesOfRow (n :: m :: ns) =
        n.canonicalPieces ++ (.blank ' ' :: piecesOfRow (m :: ns)) := rfl
    rw [renderRow] at hrow
    rw [renderRow, renderRow, String.intercalate_cons_cons, String.toList_append,
      String.toList_append, toList_renderWith style n, hrow, hsplit, rewritten_append,
      List.append_assoc]
    rfl

end

theorem toList_canonical (ns : List Node) :
    (root ns).canonical.toList = written (piecesOfRow ns) := by
  rw [canonical, toList_renderWith, rewritten_canonical, canonicalPieces]

theorem written_connector (c : Connector) : written c.pieces = c.text.toList := by
  rw [← rewritten_canonical, rewritten_connector]

/-! ## The pieces tile the text -/

end Node

theorem spelled_keyword (k : Keyword) (behind : List Char) (hb : Stops isWordChar behind) :
    Spelled (.keyword k) k.text.toList behind := by
  have hkind : wordKind k.text.toList behind = .keyword k := by
    unfold wordKind
    rw [Keyword.ofWord?_text]
  have hword : k.text.toList.all isWordChar = true := by cases k <;> decide
  rw [← hkind]
  refine Spelled.word _ behind ?_ (List.all_eq_true.mp hword) hb
  cases k <;> decide

theorem spelled_code (f : Field) (c : Char) (behind : List Char) (hc : c = '[' ∨ c = '(') :
    Spelled (.fieldPrefix f.code) f.code.toList (c :: behind) := by
  have hkind : wordKind f.code.toList (c :: behind) = .fieldPrefix f.code := by
    have hword : Keyword.ofWord? f.code.toList = none := by cases f <;> decide
    have hletters : f.code.toList.all Text.isLetter = true := by cases f <;> decide
    unfold wordKind
    rw [hword]
    rcases hc with rfl | rfl <;> simp [hletters]
  have hword : f.code.toList.all isWordChar = true := by cases f <;> decide
  rw [← hkind]
  refine Spelled.word _ _ ?_ (List.all_eq_true.mp hword) fun d hd => ?_
  · cases f <;> decide
  · obtain rfl := Option.some.inj hd
    rcases hc with rfl | rfl <;> rfl

namespace Node

variable {ps : List Piece} {behind : List Char}

theorem tiles_codePieces (field : Option Field) (c : Char) (hc : c = '[' ∨ c = '(')
    (rest : Tiles ps (c :: behind)) :
    Tiles (codePieces field ++ ps) (written (codePieces field) ++ c :: behind) := by
  cases field with
  | none => exact rest
  | some f =>
    have htext : written (codePieces (some f)) = f.code.toList := List.append_nil _
    rw [htext]
    exact Tiles.lexeme _ _ (spelled_code f c behind hc) rest

theorem tiles_connector (c : Connector) (rest : Tiles ps behind)
    (hstop : Stops isWordChar behind) :
    Tiles (c.pieces ++ ps) (written c.pieces ++ behind) := by
  rw [written_connector]
  cases c with
  | and => exact Tiles.lexeme _ _ (spelled_keyword .and behind hstop) rest
  | or => exact Tiles.lexeme _ _ (spelled_keyword .or behind hstop) rest
  | andNot =>
    have hnot := Tiles.lexeme _ _ (spelled_keyword .not behind hstop) rest
    have hblank := Tiles.blank ' ' (by decide) hnot
    exact Tiles.lexeme _ _ (spelled_keyword .and _ (stops_blank ' ' _ rfl)) hblank

mutual

theorem tiles_canonicalPieces : ∀ (n : Node) {ps : List Piece} {behind : List Char},
    (∀ v ∈ n.termNodes.map (·.1), ']' ∉ v.toList) → Tiles ps behind → Stops isWordChar behind →
      Tiles (n.canonicalPieces ++ ps) (written n.canonicalPieces ++ behind)
  | root cs, _, _, hv, rest, hstop => tiles_piecesOfRow cs hv rest hstop
  | term v f, ps, behind, hv, rest, hstop => by
    have hspelled := Spelled.term v.toList behind (hv v (by simp [termNodes]))
    rw [String.ofList_toList] at hspelled
    have hterm := tiles_codePieces f '[' (Or.inl rfl) (Tiles.lexeme _ _ hspelled rest)
    rw [canonicalPieces, written_append, List.append_assoc, List.append_assoc]
    simpa [written, Piece.written] using hterm
  | connector c, _, _, _, rest, hstop => tiles_connector c rest hstop
  | group cs f, ps, behind, hv, rest, hstop => by
    have hclosing := Tiles.lexeme _ _ (Spelled.closing behind) rest
    have hcloses : Stops isWordChar (')' :: behind) := by
      intro c hc
      obtain rfl := Option.some.inj hc
      rfl
    have hrow := tiles_piecesOfRow cs hv hclosing hcloses
    have hopening := Tiles.lexeme _ _ (Spelled.opening _) hrow
    have hgroup := tiles_codePieces f '(' (Or.inr rfl) hopening
    rw [canonicalPieces, written_append, List.append_assoc, List.append_assoc]
    simpa [written, Piece.written] using hgroup

theorem tiles_piecesOfRow : ∀ (ns : List Node) {ps : List Piece} {behind : List Char},
    (∀ v ∈ (termNodesOfRow ns).map (·.1), ']' ∉ v.toList) → Tiles ps behind →
      Stops isWordChar behind →
      Tiles (piecesOfRow ns ++ ps) (written (piecesOfRow ns) ++ behind)
  | [], _, _, _, rest, _ => rest
  | n :: ns, ps, behind, hv, rest, hstop => by
    rw [termNodesOfRow, List.map_append] at hv
    have hn : ∀ v ∈ n.termNodes.map (·.1), ']' ∉ v.toList :=
      fun v hm => hv v (List.mem_append_left _ hm)
    have hns : ∀ v ∈ (termNodesOfRow ns).map (·.1), ']' ∉ v.toList :=
      fun v hm => hv v (List.mem_append_right _ hm)
    have hrow := tiles_piecesOfRow ns hns rest hstop
    rw [piecesOfRow, written_append, written_append]
    simp only [List.append_assoc]
    cases ns with
    | nil => exact tiles_canonicalPieces n hn hrow hstop
    | cons m ns =>
      have hgap := Tiles.blank ' ' (by decide) hrow
      exact tiles_canonicalPieces n hn hgap (stops_blank ' ' _ rfl)

end

/-! ## The kinds of the pieces -/

theorem kindsOf_gap (ns : List Node) : kindsOf (gap ns) = [] := by
  cases ns <;> rfl

theorem kindsOf_piecesOfRow_cons (n : Node) (ns : List Node) :
    kindsOf (piecesOfRow (n :: ns)) = kindsOf n.canonicalPieces ++ kindsOf (piecesOfRow ns) := by
  rw [piecesOfRow, kindsOf_append, kindsOf_append, kindsOf_gap, List.nil_append]

theorem kindsOf_connector (c : Connector) : kindsOf c.pieces = c.keywords.map .keyword := by
  cases c <;> rfl

theorem binding_codePieces (field : Option Field) : Binding field (kindsOf (codePieces field)) := by
  cases field with
  | none => exact Binding.free
  | some f => exact Binding.code f.code f (Field.ofCode?_code f)

end Node

/-- A row that is derived from some tokens is derived from those it is written with. -/
theorem Row.canonical {ns : List Node} {ks : List Kind} (row : Row ns ks) :
    Row ns (kindsOf (Node.piecesOfRow ns)) := by
  induction row with
  | nil => exact Row.nil
  | @term field before ns ks value binding more ih =>
    rw [Node.kindsOf_piecesOfRow_cons, Node.canonicalPieces, kindsOf_append, List.append_assoc]
    exact Row.term value (Node.binding_codePieces field) ih
  | @group field before inside ns ls ks binding body chain more ihb ihr =>
    rw [Node.kindsOf_piecesOfRow_cons, Node.canonicalPieces, kindsOf_append, kindsOf_lexeme,
      kindsOf_append, List.append_assoc, List.cons_append, List.append_assoc]
    exact Row.group (Node.binding_codePieces field) ihb chain ihr
  | connector c more ih =>
    rw [Node.kindsOf_piecesOfRow_cons, Node.canonicalPieces, Node.kindsOf_connector]
    exact Row.connector c ih

theorem Row.termsOf_eq {ns : List Node} {ks : List Kind} (row : Row ns ks) :
    termsOf ks = (Node.termNodesOfRow ns).map (·.1) := by
  have hbinding : ∀ {field : Option Field} {before : List Kind}, Binding field before →
      termsOf before = [] := by
    intro field before binding
    cases binding <;> rfl
  induction row with
  | nil => rfl
  | term value binding more ih =>
    rw [termsOf_append, hbinding binding, List.nil_append, termsOf_term, ih]
    rfl
  | @group field before inside ns ls ks binding body chain more ihb ihr =>
    have hclosing : termsOf (.closing :: ks) = termsOf ks := rfl
    have hopening : termsOf (.opening :: (ls ++ .closing :: ks)) = termsOf (ls ++ .closing :: ks) :=
      rfl
    rw [termsOf_append, hbinding binding, List.nil_append, hopening, termsOf_append, hclosing, ihb,
      ihr, ← List.map_append]
    rfl
  | connector c more ih =>
    have hwords : termsOf (c.keywords.map .keyword) = [] := by cases c <;> rfl
    rw [termsOf_append, hwords, List.nil_append, ih]
    rfl

/-! ## No keyword touches a term -/

namespace Node

theorem gluedPieces_codePieces (field : Option Field) (ps : List Piece) :
    gluedPieces (codePieces field ++ ps) = gluedPieces ps := by
  cases field with
  | none => rfl
  | some f => exact gluedPieces_cons _ (isNeutral_lexeme _ _ rfl rfl) ps

mutual

theorem gluedPieces_canonicalPieces : ∀ n : Node, gluedPieces n.canonicalPieces = false
  | root cs => gluedPieces_piecesOfRow cs
  | term v f => gluedPieces_codePieces f _
  | connector c => by cases c <;> rfl
  | group cs f => by
    have hrow := gluedPieces_piecesOfRow cs
    have hclosing := gluedPieces_append_cons (piecesOfRow cs) [] (.lexeme .closing [')'])
      (isNeutral_lexeme _ _ rfl rfl)
    rw [canonicalPieces, gluedPieces_codePieces, gluedPieces_cons _ (isNeutral_lexeme _ _ rfl rfl),
      hclosing, hrow]
    rfl

theorem gluedPieces_piecesOfRow : ∀ ns : List Node, gluedPieces (piecesOfRow ns) = false
  | [] => rfl
  | [n] => by
    have hone : piecesOfRow [n] = n.canonicalPieces := List.append_nil _
    rw [hone]
    exact gluedPieces_canonicalPieces n
  | n :: m :: ns => by
    have hn := gluedPieces_canonicalPieces n
    have hns := gluedPieces_piecesOfRow (m :: ns)
    change gluedPieces (n.canonicalPieces ++ .blank ' ' :: piecesOfRow (m :: ns)) = false
    rw [gluedPieces_append_cons _ _ _ (isNeutral_blank ' '), hn, hns]
    rfl

end

/-! ## Nothing to trim -/

/-- The text neither begins nor ends with a blank, and is not empty. -/
def Firm (text : List Char) : Prop :=
  (∃ c cs, text = c :: cs ∧ Text.isBlank c = false) ∧
    ∃ cs c, text = cs ++ [c] ∧ Text.isBlank c = false

theorem Firm.append {front back : List Char} (hf : Firm front) (hb : Firm back)
    (between : List Char) : Firm (front ++ (between ++ back)) := by
  obtain ⟨⟨c, cs, rfl, hc⟩, -⟩ := hf
  obtain ⟨-, ds, d, rfl, hd⟩ := hb
  exact ⟨⟨c, _, rfl, hc⟩, _, d, by rw [← List.append_assoc, ← List.append_assoc], hd⟩

theorem Firm.trim_eq {text : List Char} (h : Firm text) : Text.trim text = text := by
  obtain ⟨⟨c, cs, hfirst, hc⟩, ds, d, hlast, hd⟩ := h
  apply trim_eq_self
  · intro e he
    rw [hfirst] at he
    obtain rfl := Option.some.inj he
    exact hc
  · intro e he
    rw [hlast, List.getLast?_append_cons] at he
    obtain rfl := Option.some.inj he
    exact hd

theorem firm_operand (n : Node) (h : n.isOperand = true) : Firm (written n.canonicalPieces) := by
  have hcode : ∀ (field : Option Field) (c : Char) (cs : List Char), Text.isBlank c = false →
      ∃ d ds, written (codePieces field) ++ c :: cs = d :: ds ∧ Text.isBlank d = false := by
    intro field c cs hc
    cases field with
    | none => exact ⟨c, cs, rfl, hc⟩
    | some f => cases f <;> exact ⟨_, _, rfl, by decide⟩
  cases n with
  | root | connector => exact absurd h Bool.false_ne_true
  | term v f =>
    have htext : written (canonicalPieces (.term v f)) =
        written (codePieces f) ++ '[' :: (v.toList ++ [']']) := by
      rw [canonicalPieces, written_append]
      simp [written, Piece.written]
    rw [htext]
    exact ⟨hcode f _ _ (by decide), written (codePieces f) ++ '[' :: v.toList, ']', by simp,
      by decide⟩
  | group cs f =>
    have htext : written (canonicalPieces (.group cs f)) =
        written (codePieces f) ++ '(' :: (written (piecesOfRow cs) ++ [')']) := by
      rw [canonicalPieces, written_append]
      simp [written, Piece.written]
    rw [htext]
    exact ⟨hcode f _ _ (by decide), written (codePieces f) ++ '(' :: written (piecesOfRow cs), ')',
      by simp, by decide⟩

end Node

theorem Alternating.firm {ns : List Node} (h : Alternating ns) :
    Node.Firm (Node.written (Node.piecesOfRow ns)) := by
  induction h with
  | single n hn =>
    have hone : Node.piecesOfRow [n] = n.canonicalPieces := List.append_nil _
    rw [hone]
    exact Node.firm_operand n hn
  | @more ns n c hn rest ih =>
    have hsplit : Node.piecesOfRow (n :: .connector c :: ns) =
        n.canonicalPieces ++ ((.blank ' ' :: c.pieces) ++ Node.gap ns ++ Node.piecesOfRow ns) := by
      rw [Node.piecesOfRow, Node.piecesOfRow, Node.canonicalPieces]
      simp [Node.gap]
    rw [hsplit, Node.written_append, Node.written_append]
    exact (Node.firm_operand n hn).append ih _

end BooleanSearch

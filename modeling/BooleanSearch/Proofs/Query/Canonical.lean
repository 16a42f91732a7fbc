import BooleanSearch.Proofs.Node.Canonical
import BooleanSearch.Proofs.Query.Compile

/-!
# The canonical text is a query again

* `Tiles.term_closed`, `scan_closed`: no term of a text holds a closing bracket.
* `pieces_canonical`: the canonical text of a row is read as the pieces that it was written with.
* `Query.compile_canonical`: the canonical text of a query is compiled to the same tree, and is its own
  canonical text.
-/

namespace BooleanSearch
set_option autoImplicit false

theorem Tiles.term_closed {ps : List Piece} {text : List Char} (h : Tiles ps text) :
    ∀ v ∈ termsOf (kindsOf ps), ']' ∉ v.toList := by
  induction h with
  | nil => simp
  | blank c hc rest ih => exact ih
  | @lexeme ps text kind written spelled rest ih =>
    rw [kindsOf_lexeme]
    cases spelled with
    | term inside _ hin =>
      intro v hv
      rw [termsOf_term] at hv
      rcases List.mem_cons.mp hv with rfl | hv
      · rw [String.toList_ofList]
        exact hin
      · exact ih v hv
    | word run _ hne hw hb =>
      rw [termsOf_wordKind]
      exact ih
    | _ => exact ih

theorem scan_closed (text : String) :
    ∀ v ∈ termsOf ((Token.scan text).map (·.kind)), ']' ∉ v.toList := by
  have hkinds : (Token.scan text).map (·.kind) = kindsOf (pieces text.toList) := kindsIn_eq text
  rw [hkinds]
  exact (tiles_pieces text.toList).term_closed

/-- Reading the canonical text of a row finds the pieces that it was written with. -/
theorem pieces_canonical (ms : List Node)
    (hclosed : ∀ v ∈ (Node.termNodesOfRow ms).map (·.1), ']' ∉ v.toList) :
    pieces (Node.root ms).canonical.toList = Node.piecesOfRow ms := by
  have hstop : Stops isWordChar [] := by
    intro c hc
    exact absurd hc (by simp)
  have tiles := Node.tiles_piecesOfRow ms hclosed Tiles.nil hstop
  rw [List.append_nil, List.append_nil, ← Node.toList_canonical] at tiles
  exact tiles.eq_pieces.symm

theorem scan_canonical (ms : List Node)
    (hclosed : ∀ v ∈ (Node.termNodesOfRow ms).map (·.1), ']' ∉ v.toList) :
    (Token.scan (Node.root ms).canonical).map (·.kind) = kindsOf (Node.piecesOfRow ms) ∧
      Rule.hasGlued (Token.scan (Node.root ms).canonical) = false := by
  have hpieces := pieces_canonical ms hclosed
  constructor
  · exact (kindsIn_eq _).trans (congrArg kindsOf hpieces)
  · rw [hasGlued_scan, hpieces]
    exact Node.gluedPieces_piecesOfRow ms

theorem isQuery_canonical {tokens : List Token} (h : IsQuery tokens) {ns ms : List Node}
    (row : Row ns (tokens.map (·.kind))) {ks : List Kind} (row' : Row ms ks) (alt : Alternating ms)
    (hvalues : (Node.termNodesOfRow ms).map (·.1) = (Node.termNodesOfRow ns).map (·.1))
    (hclosed : ∀ v ∈ (Node.termNodesOfRow ms).map (·.1), ']' ∉ v.toList) :
    IsQuery (Token.scan (Node.root ms).canonical) := by
  obtain ⟨hkinds, hglued⟩ := scan_canonical ms hclosed
  have hterms : termsOf ((Token.scan (Node.root ms).canonical).map (·.kind)) =
      termsOf (tokens.map (·.kind)) := by
    rw [hkinds, row'.canonical.termsOf_eq, row.termsOf_eq, hvalues]
  exact h.of_terms ms (hkinds ▸ row'.canonical) alt hterms hglued

theorem trimmed_canonical {ms : List Node} (alt : Alternating ms) :
    trimmed (Node.root ms).canonical = (Node.root ms).canonical := by
  rw [trimmed, Node.toList_canonical, alt.firm.trim_eq, ← Node.toList_canonical,
    String.ofList_toList]

namespace Query

/-- A tree that compiling would not change is compiled from its own canonical text. -/
theorem compile_root_canonical (settings : Settings) {ms : List Node} {ks : List Kind}
    (row : Row ms ks) (alt : Alternating ms)
    (hclosed : ∀ v ∈ (Node.termNodesOfRow ms).map (·.1), ']' ∉ v.toList)
    (hquery : IsQuery (Token.scan (Node.root ms).canonical))
    (hdepth : Node.depthOfRow ms ≤ settings.maxNestingDepth.toNat)
    (hstays : Node.bindRow none (Node.settleRow ms) = ms) :
    compile settings (Node.root ms).canonical = .ok ⟨(Node.root ms).canonical, ms⟩ := by
  have htrim := trimmed_canonical alt
  have hvalid : validate (Node.root ms).canonical = .ok () := by
    rw [validate_iff_trimmed, htrim]
    exact hquery
  have hrow : Row ms ((Token.scan (trimmed (Node.root ms).canonical)).map (·.kind)) := by
    rw [htrim, (scan_canonical ms hclosed).1]
    exact row.canonical
  have hread := compile_of_row settings hvalid hrow alt hdepth
  rw [hstays, htrim] at hread
  exact hread

/-- The canonical text of a query has nothing to trim. It is compiled with the same settings, to the
same tree, and is its own canonical text. -/
theorem compile_canonical (settings : Settings) (raw : String) (q : Query)
    (h : compile settings raw = .ok q) :
    ∃ again, compile settings q.canonical = .ok again ∧ again.root = q.root ∧
      again.text = q.canonical ∧ again.canonical = q.canonical := by
  obtain ⟨hvalid, ns, row, alt, hdeep, rfl⟩ := (compile_eq_ok_iff settings q).mp h
  have hquery := (validate_iff_trimmed raw).mp hvalid
  obtain ⟨_, hsettled⟩ := row.exists_settle
  obtain ⟨_, hbound⟩ := hsettled.exists_bind none
  have halt := alt.settle.bind none
  have hvalues : (Node.termNodesOfRow (Node.bindRow none (Node.settleRow ns))).map (·.1) =
      (Node.termNodesOfRow ns).map (·.1) := by
    rw [Node.values_bindRow, Node.termNodesOfRow_settleRow]
  have hclosed : ∀ v ∈ (Node.termNodesOfRow (Node.bindRow none (Node.settleRow ns))).map (·.1),
      ']' ∉ v.toList := by
    intro v hv
    rw [hvalues, ← row.termsOf_eq] at hv
    have hkinds : (Token.scan (trimmed raw)).map (·.kind) = kindsOf (pieces (trimmed raw).toList) :=
      kindsIn_eq _
    rw [hkinds] at hv
    exact (tiles_pieces _).term_closed v hv
  have hagain := isQuery_canonical hquery row hbound halt hvalues hclosed
  have hdepth : Node.depthOfRow (Node.bindRow none (Node.settleRow ns)) ≤
      settings.maxNestingDepth.toNat := by
    rw [Node.depthOfRow_bindRow, Node.depthOfRow_settleRow]
    exact hdeep
  have hread := compile_root_canonical settings hbound halt hclosed hagain hdepth
    (Node.bindRow_settleRow_again none ns)
  exact ⟨_, hread, rfl, rfl, rfl⟩

theorem compile_canonical_key :
    ∃ q again, compile Settings.default " KEY([b] and ti[c] OR) or [a] " = .ok q ∧
      q.canonical = "(key[b] AND ti[c]) OR [a]" ∧
      compile Settings.default "(key[b] AND ti[c]) OR [a]" = .ok again ∧ again.root = q.root := by
  have hread : compile Settings.default " KEY([b] and ti[c] OR) or [a] " =
      .ok ⟨"KEY([b] and ti[c] OR) or [a]",
        [.group [.term "b" (some .keyword), .connector .and, .term "c" (some .title)] none,
          .connector .or, .term "a" none]⟩ := by
    decide +kernel
  obtain ⟨again, hagain, hroot, -, -⟩ := compile_canonical Settings.default _ _ hread
  refine ⟨_, again, hread, by decide +kernel, ?_, hroot⟩
  refine Eq.trans ?_ hagain
  decide +kernel

end Query
end BooleanSearch

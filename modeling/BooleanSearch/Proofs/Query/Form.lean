import BooleanSearch.Proofs.Query.Compile
import BooleanSearch.Proofs.Rule.Form

/-!
# The form of a text does not matter

* `Row.inCapitals`, `Row.ofTokens_bare`: a row of tokens is derived and read alike in capitals.
* `Query.SameOutcome`: two texts are compiled to the same tree, or refused for the same reason.
* `Query.compile_sameForm`: texts of the same form are.
-/

namespace BooleanSearch
set_option autoImplicit false

/-! ## Rows in capitals -/

theorem Binding.inCapitals {field : Option Field} {before : List Kind} (h : Binding field before) :
    Binding field (before.map Kind.inCapitals) := by
  cases h with
  | free => exact Binding.free
  | code code f hf => exact Binding.code _ f ((ofCode?_upper code).trans hf)

theorem Row.inCapitals {ns : List Node} {ks : List Kind} (h : Row ns ks) :
    Row ns (ks.map Kind.inCapitals) := by
  induction h with
  | nil => exact Row.nil
  | term value binding rest ih =>
    rw [List.map_append, List.map_cons]
    exact Row.term value binding.inCapitals ih
  | group binding body chain rest ihb ihr =>
    rw [List.map_append, List.map_cons, List.map_append, List.map_cons]
    exact Row.group binding.inCapitals ihb chain ihr
  | connector c rest ih =>
    rw [List.map_append, List.map_map]
    exact Row.connector c ih

theorem mostOpen_inCapitals (here : Nat) (ks : List Kind) :
    mostOpen here (ks.map Kind.inCapitals) = mostOpen here ks := by
  induction ks generalizing here with
  | nil => rfl
  | cons k ks ih =>
    have hopen : k.inCapitals.openAfter here = k.openAfter here := by cases k <;> rfl
    rw [List.map_cons, mostOpen, mostOpen, hopen, ih]

/-- The tree of a row holds no text from outside brackets and no place. -/
theorem Row.ofTokens_bare {limit : Nat} {ns : List Node} {tokens : List Token}
    (row : Row ns (tokens.map (·.kind))) (chain : ns.IsChain Node.MayPrecede)
    (hdeep : Node.depthOfRow ns ≤ limit) :
    Node.ofTokens limit (tokens.map Token.bare) = Node.ofTokens limit tokens := by
  have hbare : Row ns ((tokens.map Token.bare).map (·.kind)) := by
    rw [kinds_bare]
    exact row.inCapitals
  rw [Node.ofTokens, Node.ofTokens, hbare.readTokens_eq chain hdeep, row.readTokens_eq chain hdeep]

/-! ## Compiling texts of the same form -/

namespace Query

/-- Both are queries with the same tree, or both break a rule in the same way, or both are refused by
the parser with the same complaint. The places that a complaint names are not compared. -/
inductive SameOutcome : Except Refusal Query → Except Refusal Query → Prop
  | query {q q' : Query} (h : q.root = q'.root) : SameOutcome (.ok q) (.ok q')
  | violation {v v' : Violation} (h : v.ctorIdx = v'.ctorIdx) :
      SameOutcome (.error (.violation v)) (.error (.violation v'))
  | fault {f f' : Fault} (h : f.complaint.message = f'.complaint.message) :
      SameOutcome (.error (.fault f)) (.error (.fault f'))

theorem exists_tree_bare (settings : Settings) {raw : String} (h : validate raw = .ok ())
    (hroom : mostOpen 0 ((Token.scan (trimmed raw)).map (·.kind)) ≤ settings.maxNestingDepth.toNat) :
    ∃ tree, parse settings.maxNestingDepth.toNat (trimmed raw) = .ok tree ∧
      Node.ofTokens settings.maxNestingDepth.toNat ((Token.scan (trimmed raw)).map Token.bare) =
        .ok tree := by
  obtain ⟨ns, row, alt⟩ := exists_row_of_validate h
  rw [row.mostOpen_eq] at hroom
  have hparse : parse settings.maxNestingDepth.toNat (trimmed raw) = .ok (.root (Node.settleRow ns)) :=
    congrArg Prod.fst (row.readTokens_eq alt.isChain hroom)
  exact ⟨_, hparse, (row.ofTokens_bare alt.isChain hroom).trans hparse⟩

/-- Neither the case of letters outside brackets nor the blanks between words decide whether a text is
a query, which tree it has, or what it is refused for. -/
theorem compile_sameForm (settings : Settings) (raw raw' : String)
    (h : SameForm raw.toList raw'.toList) :
    SameOutcome (compile settings raw) (compile settings raw') := by
  have htrimmed := h.toList_trimmed
  rcases h.validate_agrees.cases with ⟨hvalid, hvalid'⟩ | ⟨v, v', hvalid, hvalid', hsame⟩
  · have hopen : mostOpen 0 ((Token.scan (trimmed raw)).map (·.kind)) =
        mostOpen 0 ((Token.scan (trimmed raw')).map (·.kind)) := by
      rw [← mostOpen_inCapitals, htrimmed.kinds_scan, mostOpen_inCapitals]
    rcases Nat.lt_or_ge settings.maxNestingDepth.toNat
      (mostOpen 0 ((Token.scan (trimmed raw)).map (·.kind))) with hdeep | hroom
    · obtain ⟨_, _, _, _, _, _, _, hstop⟩ := compile_of_deep settings hvalid hdeep
      rw [hopen] at hdeep
      obtain ⟨_, _, _, _, _, _, _, hstop'⟩ := compile_of_deep settings hvalid' hdeep
      rw [hstop, hstop']
      exact SameOutcome.fault rfl
    · obtain ⟨tree, hparse, hbare⟩ := exists_tree_bare settings hvalid hroom
      rw [hopen] at hroom
      obtain ⟨tree', hparse', hbare'⟩ := exists_tree_bare settings hvalid' hroom
      rw [htrimmed.scan_bare, hbare'] at hbare
      obtain rfl := Except.ok.inj hbare
      rw [compile_of_tree settings hvalid _ hparse, compile_of_tree settings hvalid' _ hparse']
      exact SameOutcome.query rfl
  · rw [compile_of_violation settings hvalid, compile_of_violation settings hvalid']
    exact SameOutcome.violation hsame

theorem compile_sameForm_spaced :
    SameForm "ti[a] or [b]".toList "Ti[a]\n\tOR\t[b]".toList ∧
      ∃ q, compile Settings.default "Ti[a]\n\tOR\t[b]" = .ok q ∧
        q.root = .root [.term "a" (some .title), .connector .or, .term "b" none] := by
  have hread : compile Settings.default "ti[a] or [b]" =
      .ok ⟨"ti[a] or [b]", [.term "a" (some .title), .connector .or, .term "b" none]⟩ := by
    decide +kernel
  have htext : "ti[a] or [b]".toList =
      ['t', 'i', '[', 'a', ']', ' ', 'o', 'r', ' ', '[', 'b', ']'] := rfl
  have htext' : "Ti[a]\n\tOR\t[b]".toList =
      ['T', 'i', '[', 'a', ']', '\n', '\t', 'O', 'R', '\t', '[', 'b', ']'] := rfl
  have hform : SameForm "ti[a] or [b]".toList "Ti[a]\n\tOR\t[b]".toList := by
    rw [htext, htext']
    refine SameForm.char _ _ rfl rfl (by decide) (SameForm.char _ _ rfl rfl (by decide) ?_)
    refine SameForm.bracket ['a'] (by decide) ?_
    refine SameForm.gap [' '] ['\n', '\t'] (by decide) (by decide) (by simp [Text.isBlank])
      (by simp [Text.isBlank]) ?_
    refine SameForm.char _ _ rfl rfl (by decide) (SameForm.char _ _ rfl rfl (by decide) ?_)
    refine SameForm.gap [' '] ['\t'] (by decide) (by decide) (by simp [Text.isBlank])
      (by simp [Text.isBlank]) ?_
    exact SameForm.bracket ['b'] (by decide) SameForm.nil
  have hsame := compile_sameForm Settings.default _ _ hform
  rw [hread] at hsame
  generalize compile Settings.default "Ti[a]\n\tOR\t[b]" = outcome at hsame ⊢
  cases hsame with
  | query hroot => exact ⟨hform, _, rfl, hroot.symm⟩

end Query
end BooleanSearch

import BooleanSearch.Proofs.Grammar.Readable
import BooleanSearch.Proofs.Node.Reading

/-!
# Every list of tokens, read as a tree

Tokens need not keep the rules of a query to be read. Which of them make a tree, and what the tree
keeps of them.

* `Node.kinds`: the tokens that a tree stands for.
* `withoutOpenRuns`: tokens without the keywords that no operand follows.
* `Builder.told`: what a machine has read and what is still ahead, as the tree will tell it.
* `Builder.step_follows`, `Builder.run_agrees`: one token changes none of it, so the end of the tokens
  decides.
* `Node.ofTokens_iff`: the tokens that make a tree, and the tokens that the tree stands for.
-/

namespace BooleanSearch
set_option autoImplicit false

/-! ## The tokens of a tree -/

/-- The code that an operand is written with when it has a field of its own. -/
def fieldKinds (field : Option Field) : List Kind := (field.map fun f => .fieldPrefix f.code).toList

/-- A field code in its usual form. -/
def Kind.usual : Kind → Kind
  | .fieldPrefix code => .fieldPrefix (((Field.ofCode? code).map Field.code).getD code)
  | k => k

theorem Binding.usual {field : Option Field} {codes : List Kind} (h : Binding field codes) :
    codes.map Kind.usual = fieldKinds field := by
  cases h with
  | free => rfl
  | code code f hf =>
    rw [List.map_singleton, Kind.usual, hf]
    rfl

namespace Node

mutual

/-- The tokens that a tree stands for. -/
def kinds : Node → List Kind
  | root cs => kindsOfRow cs
  | term v f => fieldKinds f ++ [.term v]
  | connector c => c.keywords.map .keyword
  | group cs f => fieldKinds f ++ .opening :: (kindsOfRow cs ++ [.closing])

def kindsOfRow : List Node → List Kind
  | [] => []
  | n :: ns => n.kinds ++ kindsOfRow ns

end

theorem kindsOfRow_append (ns ms : List Node) :
    kindsOfRow (ns ++ ms) = kindsOfRow ns ++ kindsOfRow ms := by
  induction ns with
  | nil => rfl
  | cons n ns ih => rw [List.cons_append, kindsOfRow, kindsOfRow, ih, List.append_assoc]

theorem kindsOfRow_reverse_cons (n : Node) (ns : List Node) :
    kindsOfRow (n :: ns).reverse = kindsOfRow ns.reverse ++ n.kinds := by
  rw [List.reverse_cons, kindsOfRow_append, kindsOfRow, kindsOfRow, List.append_nil]

end Node

/-! ## Keywords without an operand -/

/-- Behind keywords, if there are any, a row ends: a group is closed, or no token is left. -/
def endsRow (behind : List Kind) : Bool :=
  match behind.dropWhile Kind.isKeyword with
  | [] => true
  | k :: _ => k == .closing

/-- Tokens without the runs of keywords that stand directly before a closing or at the end. -/
def withoutOpenRuns : List Kind → List Kind
  | [] => []
  | k :: ks => if k.isKeyword && endsRow ks then withoutOpenRuns ks else k :: withoutOpenRuns ks

theorem endsRow_keywords (ws : List Keyword) (ks : List Kind) :
    endsRow (ws.map .keyword ++ ks) = endsRow ks := by
  induction ws with
  | nil => rfl
  | cons w ws ih => exact ih

theorem withoutOpenRuns_cons {k : Kind} (hk : k.isKeyword = false) (ks : List Kind) :
    withoutOpenRuns (k :: ks) = k :: withoutOpenRuns ks := by
  rw [withoutOpenRuns, hk, Bool.false_and, if_neg Bool.false_ne_true]

/-- A run of keywords is kept or left out as a whole. -/
theorem withoutOpenRuns_keywords (ws : List Keyword) (ks : List Kind) :
    withoutOpenRuns (ws.map .keyword ++ ks) =
      (if endsRow ks then [] else ws.map .keyword) ++ withoutOpenRuns ks := by
  induction ws with
  | nil => rw [List.map_nil, ite_self, List.nil_append]; rfl
  | cons w ws ih =>
    rw [List.map_cons, List.cons_append, withoutOpenRuns, endsRow_keywords, ih]
    cases endsRow ks <;> rfl

theorem Binding.withoutOpenRuns_append {field : Option Field} {codes : List Kind}
    (h : Binding field codes) {k : Kind} (hk : k.isTerm = true ∨ k = .opening) (ks : List Kind) :
    endsRow (codes ++ k :: ks) = false ∧
      withoutOpenRuns (codes ++ k :: ks) = codes ++ k :: withoutOpenRuns ks := by
  obtain ⟨hkey, -, -, -, hclosing⟩ := k.operand_facts hk
  cases h with
  | free =>
    refine ⟨?_, withoutOpenRuns_cons hkey ks⟩
    rw [List.nil_append, endsRow, List.dropWhile_cons_of_neg (by simp [hkey])]
    exact beq_eq_false_iff_ne.mpr hclosing
  | code code f hf =>
    refine ⟨rfl, ?_⟩
    rw [List.singleton_append, withoutOpenRuns_cons rfl, withoutOpenRuns_cons hkey]
    rfl

/-! ## What the machine has and what is ahead -/

theorem map_usual_keywords (ws : List Keyword) :
    (ws.map Kind.keyword).map Kind.usual = ws.map .keyword := by
  rw [List.map_map]
  rfl

/-- The tokens of the rows around the groups that are open. -/
def kindsOfOuter : List OpenRow → List Kind
  | [] => []
  | around :: outer => kindsOfOuter outer ++
    (Node.kindsOfRow around.before.reverse ++ (fieldKinds around.field ++ [.opening]))

namespace Builder

def words (b : Builder) : List Keyword := b.waiting.map (·.1)

/-- The tokens that a machine has put into rows, and those ahead that will come into the tree. -/
def told (b : Builder) (ahead : List Kind) : List Kind :=
  kindsOfOuter b.outer ++ (Node.kindsOfRow b.row.reverse ++
    (withoutOpenRuns (b.words.map .keyword ++ ahead)).map Kind.usual)

/-- From one machine to the next neither what can be read changes nor what the tree will tell. -/
structure Follows (limit : Nat) (b : Builder) (ahead : List Kind) (b' : Builder)
    (ahead' : List Kind) : Prop where
  room : b'.outer.length ≤ limit
  reads : ReadsOn limit b.outer.length b.words ahead ↔ ReadsOn limit b'.outer.length b'.words ahead'
  told_eq : b.told ahead = b'.told ahead'

/-- A step is right about the tokens ahead: it goes on with the tokens behind the first one, or these
tokens cannot be read. A field that waits has its code ahead still. -/
def StepAgrees (limit : Nat) (b : Builder) (ahead ks : List Kind) : Except Fault Builder → Prop
  | .ok b' => ∃ codes, Binding b'.field codes ∧ b.Follows limit ahead b' (codes ++ ks)
  | .error _ => ¬ ReadsOn limit b.outer.length b.words ahead

theorem kindsOfRow_part (b : Builder) (held : Option Connector) (h : b.Holds held) :
    Node.kindsOfRow (Connector.part held) = b.words.map .keyword := by
  have hwords : b.words = (held.map Connector.keywords).getD [] := h
  rw [hwords]
  cases held with
  | none => rfl
  | some c => exact List.append_nil _

theorem kindsOfRow_row_part (b : Builder) (held : Option Connector) (h : b.Holds held) :
    Node.kindsOfRow (Connector.part held ++ b.row).reverse =
      Node.kindsOfRow b.row.reverse ++ b.words.map .keyword := by
  rw [List.reverse_append, Node.kindsOfRow_append, part_reverse, kindsOfRow_part b held h]

/-- Keywords, a field code and an operand ahead are all kept. -/
theorem told_operand {b : Builder} {codes : List Kind} (binding : Binding b.field codes) {k : Kind}
    (hk : k.isTerm = true ∨ k = .opening) (ks : List Kind) : b.told (codes ++ k :: ks) =
      kindsOfOuter b.outer ++ (Node.kindsOfRow b.row.reverse ++ (b.words.map .keyword ++
        (fieldKinds b.field ++ k :: (withoutOpenRuns ks).map Kind.usual))) := by
  obtain ⟨-, -, -, hcode, -⟩ := k.operand_facts hk
  have husual : k.usual = k := by
    cases k with
    | fieldPrefix code => exact absurd rfl (hcode code)
    | _ => rfl
  obtain ⟨hends, hkept⟩ := binding.withoutOpenRuns_append hk ks
  rw [told, withoutOpenRuns_keywords, hends, if_neg Bool.false_ne_true, hkept, List.map_append,
    map_usual_keywords, List.map_append, binding.usual, List.map_cons, husual]

/-! ## One token -/

variable {limit : Nat}

theorem join_error (b : Builder) (h : ¬ Joins b.words) : ∃ fault, b.join = .error fault := by
  cases hj : b.join with
  | error fault => exact ⟨fault, rfl⟩
  | ok joined => exact absurd (exists_holds_of_join hj) h

theorem stepAgrees_term (b : Builder) (codes : List Kind) (binding : Binding b.field codes)
    (hroom : b.outer.length ≤ limit) (value : String) (span : Span) (ks : List Kind) :
    b.StepAgrees limit (codes ++ .term value :: ks) ks (b.step limit ⟨.term value, span⟩) := by
  have hreads : ReadsOn limit b.outer.length b.words (codes ++ .term value :: ks) ↔
      Joins b.words ∧ ReadsOn limit b.outer.length [] ks :=
    readsOn_operand binding (.term value) (Or.inl rfl) ks hroom
  by_cases hjoins : Joins b.words
  · have hrest := hreads.trans (and_iff_right hjoins)
    obtain ⟨held, hheld⟩ := hjoins
    rw [step_term limit b held value span hheld]
    refine ⟨[], Binding.free, hroom, hrest, ?_⟩
    rw [told_operand binding (Or.inl rfl), told, words, Node.kindsOfRow_reverse_cons,
      kindsOfRow_row_part b held hheld, Node.kinds, List.append_assoc, List.append_assoc,
      List.append_assoc]
    rfl
  · obtain ⟨fault, hfault⟩ := join_error b hjoins
    have hstep : b.step limit ⟨.term value, span⟩ = .error fault := by
      change b.putTerm value = _
      unfold putTerm
      rw [hfault]
      rfl
    rw [hstep]
    exact fun h => hjoins (hreads.mp h).1

theorem stepAgrees_opening (b : Builder) (codes : List Kind) (binding : Binding b.field codes)
    (hroom : b.outer.length ≤ limit) (span : Span) (ks : List Kind) :
    b.StepAgrees limit (codes ++ .opening :: ks) ks (b.step limit ⟨.opening, span⟩) := by
  have hreads : ReadsOn limit b.outer.length b.words (codes ++ .opening :: ks) ↔
      Joins b.words ∧ ReadsOn limit (b.outer.length + 1) [] ks :=
    readsOn_operand binding .opening (Or.inr rfl) ks hroom
  by_cases hjoins : Joins b.words
  · have hrest := hreads.trans (and_iff_right hjoins)
    obtain ⟨held, hheld⟩ := hjoins
    by_cases hfree : b.outer.length < limit
    · rw [step_opening limit b held span hheld hfree]
      refine ⟨[], Binding.free, hfree, hrest, ?_⟩
      rw [told_operand binding (Or.inr rfl), told, words, kindsOfOuter,
        kindsOfRow_row_part b held hheld]
      simp only [List.append_assoc]
      rfl
    · have hstep : b.step limit ⟨.opening, span⟩ = .error ⟨.tooDeep limit, some span⟩ :=
        (b.openGroup_eq limit held span hheld).trans (if_pos (Nat.not_lt.mp hfree))
      rw [hstep]
      -- the group itself is one too many, whatever follows it
      exact fun h => hfree ((le_mostOpen _ ks).trans (hreads.mp h).2.room)
  · obtain ⟨fault, hfault⟩ := join_error b hjoins
    have hstep : b.step limit ⟨.opening, span⟩ = .error fault := by
      change b.openGroup limit span = _
      unfold openGroup
      rw [hfault]
      rfl
    rw [hstep]
    exact fun h => hjoins (hreads.mp h).1

/-- A field code that waits and a token that is no operand cannot be read. -/
theorem not_readsOn_code {here : Nat} {waiting : List Keyword} (code : String) (k : Kind)
    (hterm : k.isTerm = false) (hopening : k ≠ .opening) (ks : List Kind) :
    ¬ ReadsOn limit here waiting (.fieldPrefix code :: k :: ks) := by
  intro h
  obtain ⟨l, hl, hleads⟩ := ((prefixesLead_cons _ _).mp h.lead).1 code rfl
  obtain rfl : k = l := Option.some.inj hl
  rcases hleads with hleads | hleads
  · rw [hterm] at hleads
    exact Bool.noConfusion hleads
  · exact hopening hleads

theorem stepAgrees_keyword (outer : List OpenRow) (row : List Node)
    (waiting : List (Keyword × Span)) (hroom : outer.length ≤ limit) (w : Keyword) (span : Span)
    (ks : List Kind) : StepAgrees limit ⟨outer, row, waiting, none⟩ (.keyword w :: ks) ks
      (.ok ⟨outer, row, waiting ++ [(w, span)], none⟩) := by
  have hwords : words ⟨outer, row, waiting ++ [(w, span)], none⟩ =
      words ⟨outer, row, waiting, none⟩ ++ [w] := List.map_append
  refine ⟨[], Binding.free, hroom, ?_, ?_⟩
  · rw [hwords]
    exact readsOn_keyword w
  · rw [told, told, hwords, List.map_append, List.append_assoc]
    rfl

/-- The group that is closed tells what its row held, without the keywords left at its end. -/
theorem stepAgrees_closing (around : OpenRow) (outer : List OpenRow) (row : List Node)
    (waiting : List (Keyword × Span)) (hroom : (around :: outer).length ≤ limit) (ks : List Kind) :
    StepAgrees limit ⟨around :: outer, row, waiting, none⟩ (.closing :: ks) ks
      (.ok ⟨outer, .group row.reverse around.field :: around.before, [], none⟩) := by
  have hreads : ReadsOn limit (around :: outer).length (waiting.map (·.1)) (.closing :: ks) ↔
      0 < (around :: outer).length ∧ ReadsOn limit outer.length [] ks := readsOn_closing hroom
  have hends : endsRow (.closing :: ks) = true := rfl
  refine ⟨[], Binding.free, Nat.le_of_succ_le hroom,
    hreads.trans (and_iff_right (Nat.succ_pos _)), ?_⟩
  rw [told, told, withoutOpenRuns_keywords, withoutOpenRuns_cons rfl, hends, if_pos rfl, kindsOfOuter,
    Node.kindsOfRow_reverse_cons, Node.kinds]
  simp only [List.append_assoc, List.cons_append, List.nil_append, List.map_cons]
  rfl

theorem stepAgrees_code (outer : List OpenRow) (row : List Node) (waiting : List (Keyword × Span))
    (hroom : outer.length ≤ limit) (code : String) (span : Span) (ks : List Kind) :
    StepAgrees limit ⟨outer, row, waiting, none⟩ (.fieldPrefix code :: ks) ks
      (step limit ⟨outer, row, waiting, none⟩ ⟨.fieldPrefix code, span⟩) := by
  cases hf : Field.ofCode? code with
  | some f =>
    rw [step_code limit outer row waiting code f span hf]
    exact ⟨[.fieldPrefix code], Binding.code code f hf, hroom, Iff.rfl, rfl⟩
  | none =>
    have hstep : step limit ⟨outer, row, waiting, none⟩ ⟨.fieldPrefix code, span⟩ =
        .error ⟨.unknownField code, some span⟩ := by
      unfold step
      dsimp only
      rw [hf]
    rw [hstep]
    intro h
    have husable : (Field.ofCode? code).isSome = true := h.usable _ List.mem_cons_self
    rw [hf] at husable
    exact Bool.noConfusion husable

/-- What one token does agrees with what can be read, and nothing is lost: by the kind of the token,
and whether a field waits. -/
theorem step_agrees (b : Builder) (codes : List Kind) (binding : Binding b.field codes)
    (hroom : b.outer.length ≤ limit) (t : Token) (ks : List Kind) :
    b.StepAgrees limit (codes ++ t.kind :: ks) ks (b.step limit t) := by
  obtain ⟨kind, span⟩ := t
  by_cases hterm : kind.isTerm = true
  · cases kind with
    | term value => exact stepAgrees_term b codes binding hroom value span ks
    | _ => exact Bool.noConfusion hterm
  by_cases hopening : kind = .opening
  · subst hopening
    exact stepAgrees_opening b codes binding hroom span ks
  rw [Bool.not_eq_true] at hterm
  obtain ⟨outer, row, waiting, field⟩ := b
  cases binding with
  | code code f hf =>
    have hstep : step limit ⟨outer, row, waiting, some f⟩ ⟨kind, span⟩ =
        .error ⟨.noOperand kind, some span⟩ := by
      cases kind with
      | term value => exact Bool.noConfusion hterm
      | opening => exact absurd rfl hopening
      | _ => rfl
    rw [hstep]
    exact not_readsOn_code code kind hterm hopening ks
  | free =>
    cases kind with
    | term value => exact Bool.noConfusion hterm
    | opening => exact absurd rfl hopening
    | keyword w => exact stepAgrees_keyword outer row waiting hroom w span ks
    | closing =>
      cases outer with
      | nil => exact fun h => Nat.lt_irrefl 0 ((readsOn_closing hroom).mp h).1
      | cons around outer => exact stepAgrees_closing around outer row waiting hroom ks
    | fieldPrefix code => exact stepAgrees_code outer row waiting hroom code span ks
    | word text => exact fun h => h.usable _ List.mem_cons_self
    | illegal => exact fun h => h.usable _ List.mem_cons_self

/-! ## All tokens -/

/-- A result is right about the tokens ahead: a row tells all there is to tell, or these tokens cannot
be read. -/
def RunAgrees (limit : Nat) (b : Builder) (ahead : List Kind) : Except Fault (List Node) → Prop
  | .ok parts => ReadsOn limit b.outer.length b.words ahead ∧ Node.kindsOfRow parts = b.told ahead
  | .error _ => ¬ ReadsOn limit b.outer.length b.words ahead

theorem Follows.runAgrees {b b' : Builder} {ahead ahead' : List Kind}
    (h : b.Follows limit ahead b' ahead') {result : Except Fault (List Node)}
    (hresult : b'.RunAgrees limit ahead' result) : b.RunAgrees limit ahead result := by
  cases result with
  | error fault => exact fun hreads => hresult (h.reads.mp hreads)
  | ok parts => exact ⟨h.reads.mpr hresult.1, hresult.2.trans h.told_eq.symm⟩

theorem finish_agrees (b : Builder) (codes : List Kind) (binding : Binding b.field codes) :
    b.RunAgrees limit codes b.finish := by
  obtain ⟨outer, row, waiting, field⟩ := b
  cases binding with
  | code code f hf =>
    intro h
    obtain ⟨l, hl, -⟩ := ((prefixesLead_cons _ _).mp h.lead).1 code rfl
    exact absurd hl (by simp)
  | free =>
    cases outer with
    | cons around outer => exact fun h => absurd (readsOn_nil.mp h) (Nat.succ_ne_zero _)
    | nil =>
      refine ⟨readsOn_nil.mpr rfl, ?_⟩
      have hends : endsRow [] = true := rfl
      rw [told, withoutOpenRuns_keywords, hends, if_pos rfl]
      exact (List.append_nil _).symm

/-- Tokens are read as a row exactly when they can be read, and then the row tells all there is to
tell: an induction over the tokens, where each step leaves both as they are. -/
theorem run_agrees (ts : List Token) (b : Builder) (codes : List Kind)
    (binding : Binding b.field codes) (hroom : b.outer.length ≤ limit) :
    b.RunAgrees limit (codes ++ ts.map (·.kind)) (b.run limit ts).1 := by
  induction ts generalizing b codes with
  | nil =>
    rw [List.map_nil, List.append_nil]
    exact finish_agrees b codes binding
  | cons t ts ih =>
    have hstep := step_agrees b codes binding hroom t (ts.map (·.kind))
    rw [List.map_cons, run]
    cases hresult : b.step limit t with
    | error fault =>
      rw [hresult] at hstep
      exact hstep
    | ok b' =>
      rw [hresult] at hstep
      obtain ⟨codes', binding', hfollows⟩ := hstep
      exact hfollows.runAgrees (ih b' codes' binding' hfollows.room)

end Builder

/-- Tokens make a tree exactly when they are readable. The tree then stands for all of them, in order,
but the runs of keywords directly before a closing or at the end. -/
theorem Node.ofTokens_iff (limit : Nat) (tokens : List Token) :
    ((∃ tree, Node.ofTokens limit tokens = .ok tree) ↔ Readable limit (tokens.map (·.kind))) ∧
      ∀ tree, Node.ofTokens limit tokens = .ok tree →
        tree.kinds = (withoutOpenRuns (tokens.map (·.kind))).map Kind.usual := by
  have hrun := Builder.run_agrees tokens Builder.start [] Binding.free (Nat.zero_le limit)
  have htold : Builder.start.told (tokens.map (·.kind)) =
      (withoutOpenRuns (tokens.map (·.kind))).map Kind.usual := rfl
  unfold ofTokens readTokens
  rw [List.nil_append] at hrun
  rw [readable_iff]
  dsimp only
  cases hresult : (Builder.start.run limit tokens).1 with
  | error fault =>
    rw [hresult] at hrun
    refine ⟨⟨?_, fun h => absurd h hrun⟩, fun tree htree => by cases htree⟩
    rintro ⟨tree, htree⟩
    cases htree
  | ok parts =>
    rw [hresult] at hrun
    refine ⟨⟨fun _ => hrun.1, fun _ => ⟨.root parts, rfl⟩⟩, fun tree htree => ?_⟩
    obtain rfl : Node.root parts = tree := Except.ok.inj htree
    rw [← htold, ← hrun.2]
    rfl

/-- No query begins or ends with a keyword, or has two of them before a closing. -/
theorem Node.ofTokens_iff_loose :
    let tokens : List Token :=
      [⟨.keyword .and, ⟨0, 3⟩⟩, ⟨.fieldPrefix "ABS", ⟨4, 7⟩⟩, ⟨.opening, ⟨7, 8⟩⟩,
        ⟨.term "a", ⟨8, 11⟩⟩, ⟨.keyword .not, ⟨12, 15⟩⟩, ⟨.keyword .or, ⟨16, 18⟩⟩,
        ⟨.closing, ⟨18, 19⟩⟩, ⟨.term "b", ⟨20, 23⟩⟩, ⟨.keyword .or, ⟨24, 26⟩⟩]
    let tree : Node :=
      .root [.connector .and, .group [.term "a" none] (some .abstract), .term "b" none]
    Node.ofTokens 1 tokens = .ok tree ∧ Readable 1 (tokens.map (·.kind)) ∧
      tree.kinds = (withoutOpenRuns (tokens.map (·.kind))).map Kind.usual := by
  intro tokens tree
  have hread : Node.ofTokens 1 tokens = .ok tree := by decide +kernel
  obtain ⟨hiff, hkinds⟩ := Node.ofTokens_iff 1 tokens
  exact ⟨hread, hiff.mp ⟨tree, hread⟩, hkinds tree hread⟩

end BooleanSearch

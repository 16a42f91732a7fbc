import BooleanSearch.Proofs.Node.Below
import BooleanSearch.Proofs.Node.Canonical
import BooleanSearch.Proofs.Node.Reading

/-!
# Trees that can be read

Tokens are read as a tree whether they keep the rules of a query or not. Which trees come out, and what
the canonical text of such a tree is read as.

* `Node.Leads`, `Node.Parsable`: the trees that come out when the number of open groups is limited.
* `Node.Legible`, `Node.RowFits`: the same, asked of each node below a root, and of a row.
* `Node.readTokens_canonical`: the tokens of such a row are read as the row.
* `Builder.Fits`: what a machine has put into rows so far can be read.
* `Builder.Moves.fits`, `Builder.run_fits`: a token leaves it so, and then all tokens do.
-/

namespace BooleanSearch
set_option autoImplicit false

namespace Node

/-! ## The trees -/

/-- Every connector of a row has an operand directly behind it. -/
def Leads (row : List Node) : Prop :=
  ∀ before c behind, row = before ++ connector c :: behind →
    ∃ n ∈ behind.head?, n.isOperand = true

/-- A root with no root below it, where no term holds a closing bracket, every connector has its
operand, and no more than `limit` groups are around each other. -/
structure Parsable (limit : Nat) (tree : Node) : Prop where
  isRoot : ∃ parts, tree = root parts
  noRoot : ∀ cs, root cs ∉ tree.nodesBelow
  closed : ∀ v f, term v f ∈ tree.nodesBelow → ']' ∉ v.toList
  leads : ∀ n ∈ tree :: tree.nodesBelow, Leads n.children
  room : tree.depth ≤ limit

/-- A node that may stand below a root. -/
def Legible : Node → Prop
  | root _ => False
  | term v _ => ']' ∉ v.toList
  | connector _ => True
  | group cs _ => Leads cs

/-- A part of a row, with all that is below it. -/
structure Fits (limit : Nat) (n : Node) : Prop where
  legible : ∀ m ∈ n :: n.nodesBelow, m.Legible
  room : n.depth ≤ limit

structure RowFits (limit : Nat) (row : List Node) : Prop where
  leads : Leads row
  parts : ∀ n ∈ row, n.Fits limit

/-! ## Connectors and their operands -/

theorem leads_nil : Leads [] := by
  intro before c behind h
  simp at h

theorem leads_cons (n : Node) (ns : List Node) : Leads (n :: ns) ↔
    (∀ c, n = connector c → ∃ m ∈ ns.head?, m.isOperand = true) ∧ Leads ns := by
  constructor
  · intro h
    refine ⟨?_, fun before c behind hns => h (n :: before) c behind (congrArg (n :: ·) hns)⟩
    rintro c rfl
    exact h [] c ns rfl
  · rintro ⟨hfirst, hrest⟩ before c behind hrow
    rcases List.cons_eq_append_iff.mp hrow with ⟨rfl, hcons⟩ | ⟨between, rfl, hns⟩
    · obtain ⟨hc, rfl⟩ := List.cons.inj hcons
      exact hfirst c hc.symm
    · exact hrest between c behind hns

theorem Leads.append {ns ms : List Node} (hns : Leads ns) (hms : Leads ms) : Leads (ns ++ ms) := by
  induction ns with
  | nil => exact hms
  | cons n ns ih =>
    obtain ⟨hfirst, hrest⟩ := (leads_cons n ns).mp hns
    rw [List.cons_append, leads_cons]
    refine ⟨fun c hc => ?_, ih hrest⟩
    obtain ⟨m, hm, hop⟩ := hfirst c hc
    refine ⟨m, ?_, hop⟩
    rw [List.head?_append, hm]
    rfl

theorem Leads.isChain {ns : List Node} (h : Leads ns) : ns.IsChain ConnectorsApart := by
  induction ns with
  | nil => exact List.IsChain.nil
  | cons n ns ih =>
    obtain ⟨hfirst, hrest⟩ := (leads_cons n ns).mp h
    refine List.isChain_cons.mpr ⟨fun m hm => ?_, ih hrest⟩
    cases n with
    | connector c =>
      obtain ⟨m', hm', hop⟩ := hfirst c rfl
      obtain rfl : m = m' := Option.some.inj (hm.symm.trans hm')
      cases m with
      | connector d => exact absurd hop Bool.false_ne_true
      | _ => trivial
    | _ => trivial

/-! ## From the whole tree to its parts -/

theorem mem_nodesOfRow_iff (m : Node) (ns : List Node) :
    m ∈ nodesOfRow ns ↔ ∃ n ∈ ns, m ∈ n :: n.nodesBelow := by
  induction ns with
  | nil => simp [nodesOfRow]
  | cons n ns ih =>
    rw [nodesOfRow, ← List.cons_append, List.mem_append, ih]
    simp only [List.mem_cons, exists_eq_or_imp]

theorem depthOfRow_le_iff (limit : Nat) (ns : List Node) :
    depthOfRow ns ≤ limit ↔ ∀ n ∈ ns, n.depth ≤ limit := by
  induction ns with
  | nil => simp [depthOfRow]
  | cons n ns ih => rw [depthOfRow, Nat.max_le, ih, List.forall_mem_cons]

theorem RowFits.legible {limit : Nat} {row : List Node} (h : RowFits limit row) :
    ∀ m ∈ nodesOfRow row, m.Legible := by
  intro m hm
  obtain ⟨n, hn, hbelow⟩ := (mem_nodesOfRow_iff m row).mp hm
  exact (h.parts n hn).legible m hbelow

theorem RowFits.room {limit : Nat} {row : List Node} (h : RowFits limit row) :
    depthOfRow row ≤ limit :=
  (depthOfRow_le_iff limit row).mpr fun n hn => (h.parts n hn).room

theorem parsable_root_iff (limit : Nat) (row : List Node) :
    Parsable limit (root row) ↔ RowFits limit row := by
  constructor
  · intro h
    refine ⟨h.leads _ List.mem_cons_self, fun n hn => ⟨fun m hm => ?_, ?_⟩⟩
    · have hbelow : m ∈ (root row).nodesBelow := (mem_nodesOfRow_iff m row).mpr ⟨n, hn, hm⟩
      cases m with
      | root cs => exact h.noRoot cs hbelow
      | term v f => exact h.closed v f hbelow
      | connector c => trivial
      | group cs f => exact h.leads _ (List.mem_cons_of_mem _ hbelow)
    · exact (depthOfRow_le_iff limit row).mp h.room n hn
  · intro h
    refine ⟨⟨row, rfl⟩, fun cs hcs => h.legible _ hcs, fun v f hv => h.legible _ hv, ?_, h.room⟩
    intro n hn
    rcases List.mem_cons.mp hn with rfl | hbelow
    · exact h.leads
    · cases n with
      | root cs => exact absurd (h.legible _ hbelow) id
      | term | connector => exact leads_nil
      | group cs f => exact h.legible _ hbelow

theorem RowFits.closed {limit : Nat} {row : List Node} (h : RowFits limit row) :
    ∀ v ∈ (termNodesOfRow row).map (·.1), ']' ∉ v.toList := by
  intro v hv
  obtain ⟨⟨w, f⟩, hterm, rfl⟩ := List.mem_map.mp hv
  rw [termNodesOfRow_eq, List.mem_filterMap] at hterm
  obtain ⟨n, hn, hsome⟩ := hterm
  cases n with
  | term u g =>
    obtain ⟨rfl, rfl⟩ := Prod.mk.inj (Option.some.inj hsome)
    exact h.legible _ hn
  | _ => cases hsome

/-! ## Read from its canonical text -/

mutual

theorem looseRow_canonicalPieces : ∀ n : Node, (∀ m ∈ n :: n.nodesBelow, m.Legible) →
    ∀ {ns : List Node} {ks : List Kind}, LooseRow ns ks →
      LooseRow (n :: ns) (kindsOf n.canonicalPieces ++ ks)
  | root cs, h, _, _, _ => absurd (h _ List.mem_cons_self) id
  | term v f, _, ns, ks, more => by
    rw [canonicalPieces, kindsOf_append, List.append_assoc]
    exact LooseRow.term v (binding_codePieces f) more
  | connector c, _, ns, ks, more => by
    rw [canonicalPieces, kindsOf_connector]
    exact LooseRow.connector c more
  | group cs f, h, ns, ks, more => by
    obtain ⟨hleads, hbelow⟩ := List.forall_mem_cons.mp h
    have hbody := looseRow_piecesOfRow cs hbelow
    rw [canonicalPieces, kindsOf_append, kindsOf_lexeme, kindsOf_append, List.append_assoc,
      List.cons_append, List.append_assoc]
    exact LooseRow.group (binding_codePieces f) hbody (Leads.isChain hleads) more

theorem looseRow_piecesOfRow : ∀ ns : List Node, (∀ m ∈ nodesOfRow ns, m.Legible) →
    LooseRow ns (kindsOf (piecesOfRow ns))
  | [], _ => LooseRow.nil
  | n :: ns, h => by
    obtain ⟨hn, hbelow, hns⟩ := (forall_mem_nodesOfRow_cons Legible n ns).mp h
    have hmore := looseRow_piecesOfRow ns hns
    rw [kindsOf_piecesOfRow_cons]
    exact looseRow_canonicalPieces n (List.forall_mem_cons.mpr ⟨hn, hbelow⟩) hmore

end

mutual

theorem settle_eq_self : ∀ n : Node, (∀ m ∈ n :: n.nodesBelow, m.Legible) → n.settle = n
  | root cs, h => absurd (h _ List.mem_cons_self) id
  | term _ _, _ => rfl
  | connector _, _ => rfl
  | group cs f, h => by
    obtain ⟨hleads, hbelow⟩ := List.forall_mem_cons.mp h
    rw [settle, settleRow_eq_self cs hleads hbelow]

theorem settleRow_eq_self : ∀ ns : List Node, Leads ns → (∀ m ∈ nodesOfRow ns, m.Legible) →
    settleRow ns = ns
  | [], _, _ => rfl
  | n :: ns, hleads, h => by
    obtain ⟨hfirst, hrest⟩ := (leads_cons n ns).mp hleads
    obtain ⟨hn, hbelow, hns⟩ := (forall_mem_nodesOfRow_cons Legible n ns).mp h
    have ihn := settle_eq_self n (List.forall_mem_cons.mpr ⟨hn, hbelow⟩)
    have ihns := settleRow_eq_self ns hrest hns
    rcases settleRow_cons_cases n ns with hrow | ⟨⟨c, rfl⟩, hempty, -⟩
    · rw [hrow, ihn, ihns]
    · -- the operand of the connector is still there
      obtain ⟨m, hm, -⟩ := hfirst c rfl
      rw [ihns] at hempty
      rw [hempty] at hm
      cases hm

end

/-- The tokens that a row is written with are read as the row. -/
theorem readTokens_canonical {limit : Nat} {row : List Node} (h : RowFits limit row)
    (tokens : List Token) (hkinds : tokens.map (·.kind) = kindsOf (piecesOfRow row)) :
    readTokens limit tokens = (.ok (root row), []) := by
  have hloose : LooseRow row (tokens.map (·.kind)) := by
    rw [hkinds]
    exact looseRow_piecesOfRow row h.legible
  rw [hloose.readTokens_eq h.leads.isChain h.room, settleRow_eq_self row h.leads h.legible]

/-! ## Rows that are being filled -/

variable {limit : Nat}

theorem Fits.term {v : String} (f : Option Field) (hv : ']' ∉ v.toList) :
    (Node.term v f).Fits limit := by
  refine ⟨fun m hm => ?_, Nat.zero_le limit⟩
  obtain rfl := List.mem_singleton.mp hm
  exact hv

theorem Fits.connector (c : Connector) : (Node.connector c).Fits limit := by
  refine ⟨fun m hm => ?_, Nat.zero_le limit⟩
  obtain rfl := List.mem_singleton.mp hm
  trivial

theorem RowFits.group {inside : List Node} (h : RowFits limit inside) (f : Option Field) :
    (Node.group inside f).Fits (limit + 1) := by
  refine ⟨List.forall_mem_cons.mpr ⟨h.leads, h.legible⟩, ?_⟩
  have hroom := h.room
  rw [depth]
  omega

/-- A row goes on with an operand, behind the connector that waits for it. -/
theorem RowFits.operand {row : List Node} (h : RowFits limit row.reverse) (held : Option Connector)
    {n : Node} (hop : n.isOperand = true) (hn : n.Fits limit) :
    RowFits limit (n :: (Connector.part held ++ row)).reverse := by
  have hsplit : (n :: (Connector.part held ++ row)).reverse =
      row.reverse ++ (Connector.part held ++ [n]) := by
    rw [List.reverse_cons, List.reverse_append, part_reverse, List.append_assoc]
  have hlast : Leads [n] := by
    refine (leads_cons n []).mpr ⟨?_, leads_nil⟩
    rintro c rfl
    exact absurd hop Bool.false_ne_true
  rw [hsplit]
  constructor
  · apply h.leads.append
    cases held with
    | none => exact hlast
    | some c => exact (leads_cons _ _).mpr ⟨fun _ _ => ⟨n, rfl, hop⟩, hlast⟩
  · intro m hm
    rcases List.mem_append.mp hm with hm | hm
    · exact h.parts m hm
    · cases held with
      | none =>
        obtain rfl := List.mem_singleton.mp hm
        exact hn
      | some c =>
        rcases List.mem_cons.mp hm with rfl | hm
        · exact Fits.connector c
        · obtain rfl := List.mem_singleton.mp hm
          exact hn

end Node

/-! ## What the machine keeps -/

namespace Builder

variable {limit : Nat}

/-- The rows around the groups that are open. Each may end with the connector of its group. -/
def OuterFits (limit : Nat) : List OpenRow → Prop
  | [] => True
  | around :: outer =>
    (∃ held row, around.before = Connector.part held ++ row ∧
      Node.RowFits (limit - outer.length) row.reverse) ∧ OuterFits limit outer

/-- All rows can be read. Inside a group there is room for one group less. -/
structure Fits (limit : Nat) (b : Builder) : Prop where
  room : b.outer.length ≤ limit
  row : Node.RowFits (limit - b.outer.length) b.row.reverse
  outer : OuterFits limit b.outer

theorem fits_start (limit : Nat) : start.Fits limit :=
  ⟨Nat.zero_le limit, ⟨Node.leads_nil, nofun⟩, trivial⟩

theorem Moves.fits {t : Token} {b b' : Builder} (h : b.Moves limit t b') (hb : b.Fits limit)
    (hclosed : ∀ v, t.kind = .term v → ']' ∉ v.toList) : b'.Fits limit := by
  cases h with
  | term _ held v span hheld =>
    have hterm : (Node.term v b.field).Fits (limit - b.outer.length) :=
      Node.Fits.term b.field (hclosed v rfl)
    exact ⟨hb.room, hb.row.operand held rfl hterm, hb.outer⟩
  | opening _ held span hheld hroom =>
    exact ⟨hroom, ⟨Node.leads_nil, nofun⟩, ⟨held, b.row, rfl, hb.row⟩, hb.outer⟩
  | closing around outer row waiting span =>
    obtain ⟨⟨held, before, hbefore, haround⟩, houter⟩ := hb.outer
    have hroom : outer.length + 1 ≤ limit := hb.room
    have hless : limit - (outer.length + 1) + 1 = limit - outer.length := by omega
    have hgroup := Node.RowFits.group hb.row around.field
    rw [List.length_cons, hless] at hgroup
    refine ⟨Nat.le_of_succ_le hroom, ?_, houter⟩
    rw [hbefore]
    exact haround.operand held rfl hgroup
  | keyword | code => exact ⟨hb.room, hb.row, hb.outer⟩

theorem fits_of_finish {b : Builder} {parts : List Node} (h : b.finish = .ok parts)
    (hb : b.Fits limit) : Node.RowFits limit parts := by
  unfold finish at h
  split at h
  · cases h
  · split at h
    · next hempty =>
      obtain rfl := Except.ok.inj h
      have hrow := hb.row
      rw [List.isEmpty_iff.mp hempty] at hrow
      exact hrow
    · cases h

/-- The induction is over the tokens, where each that is taken leaves all rows so that they can be
read. -/
theorem run_fits (ts : List Token) (b : Builder) (hb : b.Fits limit)
    (hclosed : ∀ t ∈ ts, ∀ v, t.kind = .term v → ']' ∉ v.toList) (parts : List Node)
    (h : (b.run limit ts).1 = .ok parts) : Node.RowFits limit parts := by
  induction ts generalizing b with
  | nil => exact fits_of_finish h hb
  | cons t ts ih =>
    obtain ⟨hfirst, hrest⟩ := List.forall_mem_cons.mp hclosed
    cases hstep : b.step limit t with
    | error fault =>
      rw [run, hstep] at h
      cases h
    | ok b' =>
      rw [run_of_step ts hstep] at h
      exact ih b' ((moves_of_step hstep).fits hb hfirst) hrest h

end Builder

theorem Node.parsable_of_ofTokens {limit : Nat} {tokens : List Token} {tree : Node}
    (h : ofTokens limit tokens = .ok tree)
    (hclosed : ∀ t ∈ tokens, ∀ v, t.kind = .term v → ']' ∉ v.toList) : tree.Parsable limit := by
  obtain ⟨parts, hrun, rfl⟩ := exists_run_of_ofTokens h
  apply (parsable_root_iff limit parts).mpr
  exact Builder.run_fits tokens Builder.start (Builder.fits_start limit) hclosed parts hrun

end BooleanSearch

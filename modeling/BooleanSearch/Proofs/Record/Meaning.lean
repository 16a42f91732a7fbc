import Mathlib.Control.Monad.Basic
import BooleanSearch.Proofs.Record

/-!
# What a record means

A record can come from anywhere, so it need not be that of a tree. Which records mean a tree, what is
said about the others, and which record the tree is stored as again.

* `Record.Live`, `Record.Meaningful`: the records that are looked at, and what is asked of each.
* `Record.faults`: all that is wrong in the records that are looked at, in order.
* `Record.usual`: the record without the parts that mean nothing, and with the others in their usual
  spelling.
* `Reads`: a reading fails with the first of some faults, or none is there.
* `Record.toNode_iff`: when a record means a tree, what is said if it does not, and the record of the
  tree.
-/

namespace BooleanSearch
set_option autoImplicit false

/-! ## Readings and their faults -/

/-- A reading fails with the first of some faults. Without a fault it gives a result of the kind `good`. -/
def Reads {α : Type} (faults : List Misreading) (good : α → Prop) : Except Misreading α → Prop
  | .ok a => faults = [] ∧ good a
  | .error m => faults.head? = some m

theorem Reads.bind {α β : Type} {fs gs : List Misreading} {P : α → Prop} {Q : β → Prop}
    {x : Except Misreading α} {f : α → Except Misreading β} (hx : Reads fs P x)
    (hf : ∀ a, P a → Reads gs Q (f a)) : Reads (fs ++ gs) Q (x >>= f) := by
  cases x with
  | error m =>
    have hfirst : fs.head? = some m := hx
    change (fs ++ gs).head? = some m
    rw [List.head?_append, hfirst]
    rfl
  | ok a =>
    obtain ⟨rfl, ha⟩ := hx
    exact hf a ha

theorem Reads.map {α β : Type} {fs : List Misreading} {P : α → Prop} {Q : β → Prop}
    {x : Except Misreading α} {f : α → β} (hx : Reads fs P x) (hf : ∀ a, P a → Q (f a)) :
    Reads fs Q (x >>= fun a => pure (f a)) := by
  have hbind : Reads (fs ++ []) Q (x >>= fun a => pure (f a)) := hx.bind fun a ha => ⟨rfl, hf a ha⟩
  rwa [List.append_nil] at hbind

theorem Reads.error_iff {α : Type} {fs : List Misreading} {P : α → Prop} {x : Except Misreading α}
    (hx : Reads fs P x) (m : Misreading) : x = .error m ↔ fs.head? = some m := by
  cases x with
  | error m' =>
    have hfirst : fs.head? = some m' := hx
    rw [hfirst, Except.error.injEq, Option.some.injEq]
  | ok a =>
    rw [hx.1]
    exact ⟨nofun, nofun⟩

theorem Reads.ok_iff {α : Type} {fs : List Misreading} {P : α → Prop} {x : Except Misreading α}
    (hx : Reads fs P x) : (∃ a, x = .ok a) ↔ fs = [] := by
  cases x with
  | error m =>
    have hfirst : fs.head? = some m := hx
    refine ⟨nofun, ?_⟩
    rintro rfl
    cases hfirst
  | ok a => exact ⟨fun _ => hx.1, fun _ => ⟨a, rfl⟩⟩

/-! ## Names, codes and connectors -/

theorem NodeKind.ofName?_cases (text : String) :
    (∃ k : NodeKind, text = k.name) ∨ ofName? text = none := by
  by_cases h : ∃ k : NodeKind, text = k.name
  · exact Or.inl h
  · exact Or.inr (List.find?_eq_none.mpr fun k _ hk => h ⟨k, (beq_iff_eq.mp hk).symm⟩)

namespace Record

/-- A code in lower case. -/
def usualCode (code : String) : String := String.ofList (Text.lower code.toList)

/-- A connector in capitals and with single spaces. -/
def usualConnector (text : String) : String :=
  String.ofList (Text.upper (List.intercalate [' '] (Text.words text.toList)))

theorem code_eq_usualCode {code : String} {f : Field} (h : Field.ofCode? code = some f) :
    f.code = usualCode code := by
  have hfound := List.find?_some h
  exact beq_iff_eq.mp hfound

theorem text_eq_usualConnector {text : String} {c : Connector}
    (h : Connector.ofText? text = some c) : c.text = usualConnector text := by
  have hfound := List.find?_some h
  rw [usualConnector, ← beq_iff_eq.mp hfound, String.ofList_toList]

/-! ## What is wrong with one record -/

/-- The record is that of a node with a row in it. -/
def holdsRow (r : Record) : Bool := r.kind == NodeKind.root.name || r.kind == NodeKind.group.name

def kindFault (r : Record) : Option Misreading :=
  if (NodeKind.ofName? r.kind).isSome then none else some (.unknownKind r.kind)

def fieldFault : Option String → Option Misreading
  | none => none
  | some code => if (Field.ofCode? code).isSome then none else some (.unknownField code)

def connectorFault : Option String → Option Misreading
  | none => some .missingConnector
  | some text => if (Connector.ofText? text).isSome then none else some (.unknownConnector text)

/-- What is wrong with the part of a record that its kind asks for. -/
def partFault (r : Record) : Option Misreading :=
  match NodeKind.ofName? r.kind with
  | some .connector => connectorFault r.value
  | some .term | some .group => fieldFault r.field
  | _ => none

/-- A record says by itself what node it is: its kind is known, a connector has a value that spells one,
and the field of a term or a group is known, if there is one. -/
def Meaningful (r : Record) : Prop :=
  match NodeKind.ofName? r.kind with
  | none => False
  | some .root => True
  | some .connector => ∃ text, r.value = some text ∧ (Connector.ofText? text).isSome = true
  | some .term | some .group =>
    ∀ code, r.field = some code → (Field.ofCode? code).isSome = true

theorem fieldFault_eq_none_iff (field : Option String) : fieldFault field = none ↔
    ∀ code, field = some code → (Field.ofCode? code).isSome = true := by
  cases field with
  | none => exact ⟨nofun, fun _ => rfl⟩
  | some code =>
    simp [fieldFault, Option.isSome_iff_ne_none]

theorem connectorFault_eq_none_iff (value : Option String) : connectorFault value = none ↔
    ∃ text, value = some text ∧ (Connector.ofText? text).isSome = true := by
  cases value with
  | none => exact ⟨nofun, nofun⟩
  | some text =>
    simp [connectorFault, Option.isSome_iff_ne_none]

theorem meaningful_iff (r : Record) : r.Meaningful ↔ r.kindFault = none ∧ r.partFault = none := by
  unfold Meaningful kindFault partFault
  cases NodeKind.ofName? r.kind with
  | none => exact ⟨nofun, nofun⟩
  | some k =>
    rw [Option.isSome_some, if_pos rfl, eq_self_iff_true, true_and]
    cases k with
    | root => exact ⟨fun _ => rfl, fun _ => trivial⟩
    | connector => exact (connectorFault_eq_none_iff r.value).symm
    | term => exact (fieldFault_eq_none_iff r.field).symm
    | group => exact (fieldFault_eq_none_iff r.field).symm

/-! ## What is wrong in a whole record -/

/-- The records that are looked at: the whole one, and the children of one that holds a row. -/
inductive Live (whole : Record) : Record → Prop
  | whole : Live whole whole
  | child {r c : Record} (h : Live whole r) (hrow : r.holdsRow = true) (hc : c ∈ r.children) :
      Live whole c

mutual

/-- All that is wrong in the records that are looked at: with the kind of a record, then in its
children from left to right, then with its own part. -/
def faults : Record → List Misreading
  | ⟨kind, value, field, children⟩ =>
    (kindFault ⟨kind, value, field, children⟩).toList ++
      ((if holdsRow ⟨kind, value, field, children⟩ then faultsOfRow children else []) ++
        (partFault ⟨kind, value, field, children⟩).toList)

def faultsOfRow : List Record → List Misreading
  | [] => []
  | r :: rs => faults r ++ faultsOfRow rs

end

mutual

/-- The record with each part in its usual spelling, and without parts that its kind does not use. An
empty value of a term is left out. -/
def usual : Record → Record
  | ⟨kind, value, field, children⟩ =>
    match NodeKind.ofName? kind with
    | none => ⟨kind, value, field, children⟩
    | some .root => ⟨kind, none, none, usualRow children⟩
    | some .term => ⟨kind, value.filter (· != ""), field.map usualCode, []⟩
    | some .connector => ⟨kind, value.map usualConnector, none, []⟩
    | some .group => ⟨kind, none, field.map usualCode, usualRow children⟩

def usualRow : List Record → List Record
  | [] => []
  | r :: rs => usual r :: usualRow rs

end

theorem live_iff (whole r : Record) : Live whole r ↔
    r = whole ∨ whole.holdsRow = true ∧ ∃ c ∈ whole.children, Live c r := by
  constructor
  · intro h
    induction h with
    | whole => exact Or.inl rfl
    | @child r c h hrow hc ih =>
      rcases ih with rfl | ⟨hwhole, first, hfirst, hlive⟩
      · exact Or.inr ⟨hrow, c, hc, .whole⟩
      · exact Or.inr ⟨hwhole, first, hfirst, hlive.child hrow hc⟩
  · rintro (rfl | ⟨hwhole, first, hfirst, h⟩)
    · exact .whole
    · induction h with
      | whole => exact Live.whole.child hwhole hfirst
      | child h hrow hc ih => exact ih.child hrow hc

mutual

/-- The faults are those of the records that are looked at. -/
theorem mem_faults_iff (m : Misreading) : ∀ whole : Record, m ∈ whole.faults ↔
    ∃ r, Live whole r ∧ (r.kindFault = some m ∨ r.partFault = some m)
  | ⟨kind, value, field, children⟩ => by
    have hrow := mem_faultsOfRow_iff m children
    rw [faults, List.mem_append, List.mem_append, Option.mem_toList, Option.mem_toList]
    constructor
    · rintro (hkind | hchild | hpart)
      · exact ⟨_, .whole, Or.inl hkind⟩
      · split at hchild
        · next hholds =>
          obtain ⟨c, hc, r, hlive, hr⟩ := hrow.mp hchild
          exact ⟨r, (live_iff _ r).mpr (Or.inr ⟨hholds, c, hc, hlive⟩), hr⟩
        · cases hchild
      · exact ⟨_, .whole, Or.inr hpart⟩
    · rintro ⟨r, hlive, hr⟩
      rcases (live_iff _ r).mp hlive with rfl | ⟨hholds, c, hc, hbelow⟩
      · exact hr.imp id Or.inr
      · rw [if_pos hholds]
        exact Or.inr (Or.inl (hrow.mpr ⟨c, hc, r, hbelow, hr⟩))

theorem mem_faultsOfRow_iff (m : Misreading) : ∀ rs : List Record, m ∈ faultsOfRow rs ↔
    ∃ c ∈ rs, ∃ r, Live c r ∧ (r.kindFault = some m ∨ r.partFault = some m)
  | [] => ⟨nofun, nofun⟩
  | r :: rs => by
    rw [faultsOfRow, List.mem_append, mem_faults_iff m r, mem_faultsOfRow_iff m rs]
    simp only [List.mem_cons, or_and_right, exists_or, exists_eq_left]

end

/-! ## The reading of a record -/

theorem reads_readField (field : Option String) :
    Reads (fieldFault field).toList (fun f => f.map Field.code = field.map usualCode)
      (readField field) := by
  cases field with
  | none => exact ⟨rfl, rfl⟩
  | some code =>
    unfold readField fieldFault
    dsimp only
    cases h : Field.ofCode? code with
    | none => rfl
    | some f => exact ⟨rfl, congrArg some (code_eq_usualCode h)⟩

theorem reads_readConnector (value : Option String) :
    Reads (connectorFault value).toList (fun c => some c.text = value.map usualConnector)
      (readConnector value) := by
  cases value with
  | none => rfl
  | some text =>
    unfold readConnector connectorFault
    dsimp only
    cases h : Connector.ofText? text with
    | none => rfl
    | some c => exact ⟨rfl, congrArg some (text_eq_usualConnector h)⟩

theorem value_eq_filter (value : Option String) :
    (if value.getD "" == "" then none else some (value.getD "")) = value.filter (· != "") := by
  cases value with
  | none => rfl
  | some v =>
    by_cases hv : v = ""
    · subst hv
      rfl
    · simp [hv, Option.filter]

/-- The faults of a record whose kind is known. -/
theorem faults_name (k : NodeKind) (value field : Option String) (children : List Record) :
    faults ⟨k.name, value, field, children⟩ =
      match k with
      | .root => faultsOfRow children
      | .term => (fieldFault field).toList
      | .connector => (connectorFault value).toList
      | .group => faultsOfRow children ++ (fieldFault field).toList := by
  rw [faults, kindFault, partFault, NodeKind.ofName?_name]
  cases k with
  | root => exact List.append_nil _
  | _ => rfl

mutual

theorem reads_toNode : ∀ r : Record, Reads r.faults (fun n => ofNode n = r.usual) r.toNode
  | ⟨kind, value, field, children⟩ => by
    have hrow := reads_toNodes children
    rcases NodeKind.ofName?_cases kind with ⟨k, rfl⟩ | hnone
    · rw [faults_name, usual, toNode, NodeKind.ofName?_name]
      cases k with
      | root => exact hrow.map fun cs hcs => by rw [ofNode, hcs]
      | term =>
        exact (reads_readField field).map fun f hf => by rw [ofNode, hf, value_eq_filter]
      | connector => exact (reads_readConnector value).map fun c hc => by rw [ofNode, hc]
      | group =>
        exact hrow.bind fun cs hcs => (reads_readField field).map fun f hf => by
          rw [ofNode, hcs, hf]
    · rw [faults, kindFault, toNode, hnone]
      rfl

theorem reads_toNodes : ∀ rs : List Record,
    Reads (faultsOfRow rs) (fun ns => ofNodes ns = usualRow rs) (toNodes rs)
  | [] => ⟨rfl, rfl⟩
  | r :: rs => (reads_toNode r).bind fun n hn => (reads_toNodes rs).map fun ns hns => by
    rw [ofNodes, usualRow, hn, hns]

end

/-- A record means a tree exactly when every record that is looked at is meaningful. Otherwise the
complaint is about the first of the faults, in the order in which they are looked for. The tree is
stored as the record in its usual form. -/
theorem toNode_iff (r : Record) :
    ((∃ n, r.toNode = .ok n) ↔ ∀ q, Live r q → q.Meaningful) ∧
    (∀ m, r.toNode = .error m ↔ r.faults.head? = some m) ∧
    ∀ n, r.toNode = .ok n → ofNode n = r.usual := by
  have hreads := reads_toNode r
  refine ⟨?_, hreads.error_iff, fun n hn => ?_⟩
  · rw [hreads.ok_iff, List.eq_nil_iff_forall_not_mem]
    constructor
    · intro hnone q hlive
      refine (meaningful_iff q).mpr ⟨?_, ?_⟩
      · exact Option.eq_none_iff_forall_ne_some.mpr fun m hm =>
          hnone m ((mem_faults_iff m r).mpr ⟨q, hlive, Or.inl hm⟩)
      · exact Option.eq_none_iff_forall_ne_some.mpr fun m hm =>
          hnone m ((mem_faults_iff m r).mpr ⟨q, hlive, Or.inr hm⟩)
    · intro hall m hm
      obtain ⟨q, hlive, hq⟩ := (mem_faults_iff m r).mp hm
      obtain ⟨hkind, hpart⟩ := (meaningful_iff q).mp (hall q hlive)
      rw [hkind, hpart] at hq
      exact hq.elim nofun nofun
  · rw [hn] at hreads
    exact hreads.2

/-- The child of the term is not looked at. -/
theorem toNode_iff_foreign :
    let r : Record := ⟨"root", some "x", none,
      [⟨"term", some "", some "TI", [⟨"leaf", none, none, []⟩]⟩,
        ⟨"connector", some " and  Not ", some "x", []⟩, ⟨"group", none, none, []⟩]⟩
    let tree : Node := .root [.term "" (some .title), .connector .andNot, .group [] none]
    r.toNode = .ok tree ∧ (∀ q, Live r q → q.Meaningful) ∧ ofNode tree = r.usual := by
  intro r tree
  have hread : r.toNode = .ok tree := by decide +kernel
  obtain ⟨hok, -, hstored⟩ := toNode_iff r
  exact ⟨hread, hok.mp ⟨tree, hread⟩, hstored tree hread⟩

end Record
end BooleanSearch

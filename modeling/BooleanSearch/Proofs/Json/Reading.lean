import BooleanSearch.Json.Expect
import BooleanSearch.Proofs.Json.Source

/-!
# Which texts are read as a value

A text is read as a complete value exactly when it holds one.

* `passOver_value`: what a written value is read as is complete.
* `Reading.step_broken`, `Reading.passOver_stop`: where reading stops, no complete value comes of it.
* `Reading.run_source`: the words of a value put what they mean in its place, whatever is open around it.
* `Reading.demands`, `Reading.exists_source`: where a complete value comes of reading, the words of a
  value stand.
* `read_iff`: a text is read as a complete value, with nothing behind it, when it holds that value.
-/

namespace BooleanSearch.Json
set_option autoImplicit false

/-! ## Complete values -/

mutual

theorem passOver_value : ∀ d : Source, d.value.passOver = .ok ()
  | .null | .bool _ | .number _ | .string _ => rfl
  | .array items => passOver_items items
  | .object members => passOver_members members

theorem passOver_items : ∀ ds : List Source, (itemsOfSources ds).passOver = .ok ()
  | [] => rfl
  | d :: ds => by
    rw [itemsOfSources, Items.passOver, passOver_value d]
    exact passOver_items ds

theorem passOver_members : ∀ ms : List Pair, (membersOfPairs ms).passOver = .ok ()
  | [] => rfl
  | .mk key d :: ms => by
    rw [membersOfPairs, Members.passOver, passOver_value d]
    exact passOver_members ms

end

theorem ne_ok_of_error {r : Reader Unit} {f : Fault} (h : r = .error f) : r ≠ .ok () := by
  rw [h]
  nofun

theorem passOver_prepend_items (rest : Items) {before : List Value}
    (h : (rest.prepend before).passOver = .ok ()) : rest.passOver = .ok () := by
  induction before generalizing rest with
  | nil => exact h
  | cons v before ih =>
    have hitem := ih (.item v rest) h
    rw [Items.passOver] at hitem
    obtain ⟨-, -, hrest⟩ := bind_eq_ok_iff.mp hitem
    exact hrest

theorem passOver_prepend_members (rest : Members) {before : List (Option String × Value)}
    (h : (rest.prepend before).passOver = .ok ()) : rest.passOver = .ok () := by
  induction before generalizing rest with
  | nil => exact h
  | cons m before ih =>
    have hmember := ih (.member m.1 m.2 rest) h
    rw [Members.passOver] at hmember
    obtain ⟨-, -, hrest⟩ := bind_eq_ok_iff.mp hmember
    exact hrest

namespace Reading

theorem passOver_abandon {v : Value} (h : v.passOver ≠ .ok ()) (stack : List Frame) :
    (abandon v stack).passOver ≠ .ok () := by
  induction stack generalizing v with
  | nil => exact h
  | cons frame stack ih =>
    cases frame with
    | array before =>
      refine ih fun hall => ?_
      have hitem := passOver_prepend_items (.item v (.stopped .malformed)) hall
      rw [Items.passOver] at hitem
      obtain ⟨⟨⟩, hv, -⟩ := bind_eq_ok_iff.mp hitem
      exact h hv
    | object before key =>
      refine ih fun hall => ?_
      have hmember := passOver_prepend_members (.member key v (.stopped .malformed)) hall
      rw [Members.passOver] at hmember
      obtain ⟨⟨⟩, hv, -⟩ := bind_eq_ok_iff.mp hmember
      exact h hv

theorem passOver_abandonRow {items : Items} {members : Members} (hitems : items.passOver ≠ .ok ())
    (hmembers : members.passOver ≠ .ok ()) (stack : List Frame) :
    (abandonRow items members stack).passOver ≠ .ok () := by
  cases stack with
  | nil => exact ne_ok_of_error rfl
  | cons frame stack =>
    cases frame with
    | array before =>
      have hrow : (Value.array (items.prepend before)).passOver ≠ .ok () := fun h =>
        hitems (passOver_prepend_items _ h)
      exact passOver_abandon hrow stack
    | object before key =>
      have hrow : (Value.object (members.prepend before)).passOver ≠ .ok () := fun h =>
        hmembers (passOver_prepend_members _ h)
      exact passOver_abandon hrow stack

theorem passOver_stop (s : State) (why : Stop) : (stop s why).passOver ≠ .ok () := by
  obtain ⟨stack, awaits⟩ := s
  cases awaits with
  | value | colon => exact passOver_abandon (ne_ok_of_error rfl) stack
  | _ => exact passOver_abandonRow (ne_ok_of_error rfl) (ne_ok_of_error rfl) stack

/-- Reading does not go on behind a part that breaks off, and the value that is read is not complete. -/
theorem step_broken (s : State) {part : Lexeme} (h : part.isWhole = false) :
    ∃ v, step s part = .done v ∧ v.passOver ≠ .ok () := by
  obtain ⟨stack, awaits⟩ := s
  cases part with
  | broken used passed =>
    cases awaits with
    | value | firstItem | item => exact ⟨_, rfl, passOver_abandon (ne_ok_of_error rfl) stack⟩
    | _ => exact ⟨_, rfl, passOver_stop _ _⟩
  | brokenString used passed =>
    cases awaits with
    | value | firstItem | item => exact ⟨_, rfl, passOver_abandon (ne_ok_of_error rfl) stack⟩
    | firstKey | key =>
      exact ⟨_, rfl, passOver_abandonRow (ne_ok_of_error rfl) (ne_ok_of_error rfl) stack⟩
    | _ => exact ⟨_, rfl, passOver_stop _ _⟩
  | _ => exact Bool.noConfusion h

/-! ## From the words of a value to what they mean -/

/-- Reading goes on with the parts that follow, unless it is done. -/
def follow : Progress → List Lexeme → Value × List Lexeme
  | .more s, parts => run s parts
  | .done v, parts => (v, parts)

theorem run_cons (s : State) (part : Lexeme) (parts : List Lexeme) :
    run s (part :: parts) = follow (step s part) parts := by
  rw [run]
  cases step s part <;> rfl

def TakesValue (awaits : Awaits) : Prop := awaits = .value ∨ awaits = .firstItem ∨ awaits = .item

theorem step_openArray (stack : List Frame) {awaits : Awaits} (h : TakesValue awaits) :
    step ⟨stack, awaits⟩ (.mark .openArray) = .more ⟨.array [] :: stack, .firstItem⟩ := by
  rcases h with rfl | rfl | rfl <;> rfl

theorem step_openObject (stack : List Frame) {awaits : Awaits} (h : TakesValue awaits) :
    step ⟨stack, awaits⟩ (.mark .openObject) = .more ⟨.object [] none :: stack, .firstKey⟩ := by
  rcases h with rfl | rfl | rfl <;> rfl

theorem step_key (before : List (Option String × Value)) (stack : List Frame) {awaits : Awaits}
    (h : awaits = .firstKey ∨ awaits = .key) (key : Option String) :
    step ⟨.object before none :: stack, awaits⟩ (.string key) =
      .more ⟨.object before key :: stack, .colon⟩ := by
  rcases h with rfl | rfl <;> rfl

theorem run_key (before : List (Option String × Value)) (stack : List Frame) {awaits : Awaits}
    (h : awaits = .firstKey ∨ awaits = .key) (key : List StringPart) (ws : List Word) :
    run ⟨.object before none :: stack, awaits⟩
        ((.string key :: .mark .colon :: ws).map Word.lexeme) =
      run ⟨.object before ((meaning key).map String.ofList) :: stack, .value⟩
        (ws.map Word.lexeme) := by
  rw [List.map_cons, run_cons, Word.lexeme, step_key before stack h]
  change run ⟨.object before ((meaning key).map String.ofList) :: stack, .colon⟩
    (.mark .colon :: ws.map Word.lexeme) = _
  exact run_cons _ _ _

-- A row is read from behind its first value on, where the rest of it and its bracket are awaited.
mutual

theorem run_source : ∀ (d : Source) (awaits : Awaits) (stack : List Frame) (rest : List Word),
    TakesValue awaits → run ⟨stack, awaits⟩ ((d.words ++ rest).map Word.lexeme) =
      follow (place d.value stack) (rest.map Word.lexeme)
  | .null, _, _, _, h => by
    rcases h with rfl | rfl | rfl <;> exact run_cons _ _ _
  | .bool _, _, _, _, h => by
    rcases h with rfl | rfl | rfl <;> exact run_cons _ _ _
  | .number _, _, _, _, h => by
    rcases h with rfl | rfl | rfl <;> exact run_cons _ _ _
  | .string _, _, _, _, h => by
    rcases h with rfl | rfl | rfl <;> exact run_cons _ _ _
  | .array [], _, _, _, h => by
    rcases h with rfl | rfl | rfl <;> exact (run_cons _ _ _).trans (run_cons _ _ _)
  | .array (d :: ds), awaits, stack, rest, h => by
    have hfirst := run_source d .firstItem (.array [] :: stack)
      (wordsOfSources [.mark .comma] ds ++ .mark .closeArray :: rest) (Or.inr (Or.inl rfl))
    have hmore := run_sources ds [d.value] stack rest
    rw [words_array]
    refine (run_cons _ _ _).trans ?_
    rw [Word.lexeme, step_openArray stack h]
    exact hfirst.trans hmore
  | .object [], _, _, _, h => by
    rcases h with rfl | rfl | rfl <;> exact (run_cons _ _ _).trans (run_cons _ _ _)
  | .object (.mk key d :: ms), awaits, stack, rest, h => by
    have hfirst := run_source d .value (.object [] ((meaning key).map String.ofList) :: stack)
      (wordsOfPairs [.mark .comma] ms ++ .mark .closeObject :: rest) (Or.inl rfl)
    have hmore := run_pairs ms [((meaning key).map String.ofList, d.value)] stack rest
    rw [words_object]
    refine (run_cons _ _ _).trans ?_
    rw [Word.lexeme, step_openObject stack h]
    exact (run_key [] stack (Or.inl rfl) key _).trans (hfirst.trans hmore)

theorem run_sources : ∀ (ds : List Source) (before : List Value) (stack : List Frame)
    (rest : List Word), run ⟨.array before :: stack, .afterItem⟩
        ((wordsOfSources [.mark .comma] ds ++ .mark .closeArray :: rest).map Word.lexeme) =
      follow (place (.array ((itemsOfSources ds).prepend before)) stack) (rest.map Word.lexeme)
  | [], _, _, _ => run_cons _ _ _
  | d :: ds, before, stack, rest => by
    have hd := run_source d .item (.array before :: stack)
      (wordsOfSources [.mark .comma] ds ++ .mark .closeArray :: rest) (Or.inr (Or.inr rfl))
    have hmore := run_sources ds (d.value :: before) stack rest
    rw [wordsOfSources_cons]
    exact (run_cons _ _ _).trans (hd.trans hmore)

theorem run_pairs : ∀ (ms : List Pair) (before : List (Option String × Value))
    (stack : List Frame) (rest : List Word), run ⟨.object before none :: stack, .afterMember⟩
        ((wordsOfPairs [.mark .comma] ms ++ .mark .closeObject :: rest).map Word.lexeme) =
      follow (place (.object ((membersOfPairs ms).prepend before)) stack) (rest.map Word.lexeme)
  | [], _, _, _ => run_cons _ _ _
  | .mk key d :: ms, before, stack, rest => by
    have hd := run_source d .value (.object before ((meaning key).map String.ofList) :: stack)
      (wordsOfPairs [.mark .comma] ms ++ .mark .closeObject :: rest) (Or.inl rfl)
    have hmore := run_pairs ms (((meaning key).map String.ofList, d.value) :: before) stack rest
    rw [wordsOfPairs_cons]
    refine (run_cons _ _ _).trans ?_
    exact (run_key before stack (Or.inr rfl) key _).trans (hd.trans hmore)

end

/-! ## From what is read to the words of a value -/

/-- A complete value comes of reading the words. -/
def Completes (s : State) (ws : List Word) : Prop :=
  (run s (ws.map Word.lexeme)).1.passOver = .ok ()

theorem not_completes_nil (s : State) : ¬ Completes s [] := passOver_stop s .ended

theorem completes_cons {s : State} {w : Word} {ws : List Word} (h : Completes s (w :: ws)) :
    (∃ v, step s w.lexeme = .done v ∧ v.passOver = .ok ()) ∨
      ∃ next, step s w.lexeme = .more next ∧ Completes next ws := by
  rw [Completes, List.map_cons, run_cons] at h
  cases hstep : step s w.lexeme with
  | done v =>
    rw [hstep] at h
    exact Or.inl ⟨v, rfl, h⟩
  | more next =>
    rw [hstep] at h
    exact Or.inr ⟨next, rfl, h⟩

theorem completes_next {s next : State} {w : Word} {ws : List Word} (h : Completes s (w :: ws))
    (hstep : step s w.lexeme = .more next) : Completes next ws := by
  obtain ⟨v, hdone, -⟩ | ⟨other, hmore, hws⟩ := completes_cons h
  · rw [hstep] at hdone
    cases hdone
  · rw [hstep] at hmore
    cases hmore
    exact hws

theorem not_completes_stop {s : State} {w : Word} {ws : List Word} {why : Stop}
    (hstep : step s w.lexeme = .done (stop s why)) : ¬ Completes s (w :: ws) := by
  intro h
  obtain ⟨v, hdone, hv⟩ | ⟨next, hmore, -⟩ := completes_cons h
  · rw [hstep] at hdone
    cases hdone
    exact passOver_stop s why hv
  · rw [hstep] at hmore
    cases hmore

theorem completes_source {d : Source} {awaits : Awaits} {stack : List Frame} {rest : List Word}
    {next : State} (h : Completes ⟨stack, awaits⟩ (d.words ++ rest)) (htakes : TakesValue awaits)
    (hplace : place d.value stack = .more next) : Completes next rest := by
  rw [Completes, run_source d awaits stack rest htakes, hplace] at h
  exact h

/-- What the words begin with, by what has to come next. -/
structure Demands (ws : List Word) : Prop where
  value : ∀ (awaits : Awaits) (stack : List Frame), TakesValue awaits →
    (awaits = .firstItem → ws.head? ≠ some (.mark .closeArray)) → Completes ⟨stack, awaits⟩ ws →
      ∃ (d : Source) (rest : List Word), ws = d.words ++ rest
  items : ∀ (before : List Value) (stack : List Frame),
    Completes ⟨.array before :: stack, .afterItem⟩ ws →
      ∃ ds rest, ws = wordsOfSources [.mark .comma] ds ++ .mark .closeArray :: rest
  member : ∀ (awaits : Awaits) (before : List (Option String × Value)) (stack : List Frame),
    awaits = .firstKey ∨ awaits = .key →
      (awaits = .firstKey → ws.head? ≠ some (.mark .closeObject)) →
        Completes ⟨.object before none :: stack, awaits⟩ ws →
          ∃ key d rest, ws = .string key :: .mark .colon :: (Source.words d ++ rest)
  members : ∀ (before : List (Option String × Value)) (stack : List Frame),
    Completes ⟨.object before none :: stack, .afterMember⟩ ws →
      ∃ ms rest, ws = wordsOfPairs [.mark .comma] ms ++ .mark .closeObject :: rest

section Demands

variable {ws : List Word} (ih : ∀ vs : List Word, vs.length < ws.length + 1 → Demands vs)

include ih in
theorem array_of_completes {stack : List Frame} (h : Completes ⟨.array [] :: stack, .firstItem⟩ ws) :
    ∃ (d : Source) (rest : List Word), .mark .openArray :: ws = d.words ++ rest := by
  by_cases hclose : ws.head? = some (.mark .closeArray)
  · obtain ⟨rest, rfl⟩ := List.head?_eq_some_iff.mp hclose
    exact ⟨.array [], rest, rfl⟩
  · have htakes : TakesValue .firstItem := Or.inr (Or.inl rfl)
    obtain ⟨d, behind, rfl⟩ := (ih ws (Nat.lt_succ_self _)).value _ _ htakes (fun _ => hclose) h
    have hmore := completes_source h htakes rfl
    have hshorter : behind.length < (d.words ++ behind).length + 1 := by
      rw [List.length_append]
      omega
    obtain ⟨ds, rest, rfl⟩ := (ih behind hshorter).items _ _ hmore
    exact ⟨.array (d :: ds), rest, (words_array d ds rest).symm⟩

include ih in
theorem object_of_completes {stack : List Frame}
    (h : Completes ⟨.object [] none :: stack, .firstKey⟩ ws) :
    ∃ (d : Source) (rest : List Word), .mark .openObject :: ws = d.words ++ rest := by
  by_cases hclose : ws.head? = some (.mark .closeObject)
  · obtain ⟨rest, rfl⟩ := List.head?_eq_some_iff.mp hclose
    exact ⟨.object [], rest, rfl⟩
  · obtain ⟨key, d, behind, rfl⟩ := (ih ws (Nat.lt_succ_self _)).member _ _ _ (Or.inl rfl)
      (fun _ => hclose) h
    rw [Completes, run_key [] stack (Or.inl rfl)] at h
    have hmore := completes_source h (Or.inl rfl) rfl
    have hshorter :
        behind.length < (Word.string key :: .mark .colon :: (d.words ++ behind)).length + 1 := by
      simp only [List.length_cons, List.length_append]
      omega
    obtain ⟨ms, rest, rfl⟩ := (ih behind hshorter).members _ _ hmore
    exact ⟨.object (.mk key d :: ms), rest, (words_object d key ms rest).symm⟩

include ih in
theorem value_of_completes {w : Word} {awaits : Awaits} {stack : List Frame}
    (htakes : TakesValue awaits)
    (hopen : awaits = .firstItem → (w :: ws).head? ≠ some (.mark .closeArray))
    (h : Completes ⟨stack, awaits⟩ (w :: ws)) :
    ∃ (d : Source) (rest : List Word), w :: ws = d.words ++ rest := by
  cases w with
  | null => exact ⟨.null, ws, rfl⟩
  | bool b => exact ⟨.bool b, ws, rfl⟩
  | number l => exact ⟨.number l, ws, rfl⟩
  | string parts => exact ⟨.string parts, ws, rfl⟩
  | mark m =>
    cases m with
    | openArray => exact array_of_completes ih (completes_next h (step_openArray stack htakes))
    | openObject => exact object_of_completes ih (completes_next h (step_openObject stack htakes))
    | closeArray =>
      rcases htakes with rfl | rfl | rfl
      · exact absurd h (not_completes_stop rfl)
      · exact absurd rfl (hopen rfl)
      · exact absurd h (not_completes_stop rfl)
    | _ => rcases htakes with rfl | rfl | rfl <;> exact absurd h (not_completes_stop rfl)

include ih in
theorem items_of_completes {w : Word} {before : List Value} {stack : List Frame}
    (h : Completes ⟨.array before :: stack, .afterItem⟩ (w :: ws)) :
    ∃ ds rest, w :: ws = wordsOfSources [.mark .comma] ds ++ .mark .closeArray :: rest := by
  cases w with
  | mark m =>
    cases m with
    | closeArray => exact ⟨[], ws, rfl⟩
    | comma =>
      have htakes : TakesValue .item := Or.inr (Or.inr rfl)
      have hitem := completes_next h rfl
      obtain ⟨d, behind, rfl⟩ := (ih ws (Nat.lt_succ_self _)).value _ _ htakes nofun hitem
      have hmore := completes_source hitem htakes rfl
      have hshorter : behind.length < (d.words ++ behind).length + 1 := by
        rw [List.length_append]
        omega
      obtain ⟨ds, rest, rfl⟩ := (ih behind hshorter).items _ _ hmore
      exact ⟨d :: ds, rest, (wordsOfSources_cons d ds _).symm⟩
    | _ => exact absurd h (not_completes_stop rfl)
  | _ => exact absurd h (not_completes_stop rfl)

include ih in
theorem member_of_completes {w : Word} {awaits : Awaits} {before : List (Option String × Value)}
    {stack : List Frame} (hkey : awaits = .firstKey ∨ awaits = .key)
    (hopen : awaits = .firstKey → (w :: ws).head? ≠ some (.mark .closeObject))
    (h : Completes ⟨.object before none :: stack, awaits⟩ (w :: ws)) :
    ∃ key d rest, w :: ws = .string key :: .mark .colon :: (Source.words d ++ rest) := by
  cases w with
  | string key =>
    have hcolon := completes_next h (step_key before stack hkey _)
    cases ws with
    | nil => exact absurd hcolon (not_completes_nil _)
    | cons w ws =>
      cases w with
      | mark m =>
        cases m with
        | colon =>
          have hvalue := completes_next hcolon rfl
          have hshorter : ws.length < (Word.mark .colon :: ws).length + 1 :=
            Nat.lt_succ_of_lt (Nat.lt_succ_self _)
          obtain ⟨d, rest, rfl⟩ := (ih ws hshorter).value _ _ (Or.inl rfl) nofun hvalue
          exact ⟨key, d, rest, rfl⟩
        | _ => exact absurd hcolon (not_completes_stop rfl)
      | _ => exact absurd hcolon (not_completes_stop rfl)
  | mark m =>
    cases m with
    | closeObject =>
      rcases hkey with rfl | rfl
      · exact absurd rfl (hopen rfl)
      · exact absurd h (not_completes_stop rfl)
    | _ => rcases hkey with rfl | rfl <;> exact absurd h (not_completes_stop rfl)
  | _ => rcases hkey with rfl | rfl <;> exact absurd h (not_completes_stop rfl)

include ih in
theorem members_of_completes {w : Word} {before : List (Option String × Value)}
    {stack : List Frame} (h : Completes ⟨.object before none :: stack, .afterMember⟩ (w :: ws)) :
    ∃ ms rest, w :: ws = wordsOfPairs [.mark .comma] ms ++ .mark .closeObject :: rest := by
  cases w with
  | mark m =>
    cases m with
    | closeObject => exact ⟨[], ws, rfl⟩
    | comma =>
      have hmember := completes_next h rfl
      obtain ⟨key, d, behind, rfl⟩ := (ih ws (Nat.lt_succ_self _)).member _ _ _ (Or.inr rfl) nofun
        hmember
      rw [Completes, run_key before stack (Or.inr rfl)] at hmember
      have hmore := completes_source hmember (Or.inl rfl) rfl
      have hshorter :
          behind.length < (Word.string key :: .mark .colon :: (d.words ++ behind)).length + 1 := by
        simp only [List.length_cons, List.length_append]
        omega
      obtain ⟨ms, rest, rfl⟩ := (ih behind hshorter).members _ _ hmore
      exact ⟨.mk key d :: ms, rest, (wordsOfPairs_cons d key ms _).symm⟩
    | _ => exact absurd h (not_completes_stop rfl)
  | _ => exact absurd h (not_completes_stop rfl)

end Demands

/-- The four kinds of places need each other, but always for fewer words. -/
theorem demands (ws : List Word) : Demands ws := by
  induction hn : ws.length using Nat.strongRecOn generalizing ws with
  | ind n ih =>
    cases ws with
    | nil => exact ⟨fun _ _ _ _ h => absurd h (not_completes_nil _),
        fun _ _ h => absurd h (not_completes_nil _), fun _ _ _ _ _ h => absurd h (not_completes_nil _),
        fun _ _ h => absurd h (not_completes_nil _)⟩
    | cons w ws =>
      have hless : ∀ vs : List Word, vs.length < ws.length + 1 → Demands vs := fun vs hvs =>
        ih vs.length (hn ▸ hvs) vs rfl
      exact ⟨fun _ _ => value_of_completes hless, fun _ _ => items_of_completes hless,
        fun _ _ _ => member_of_completes hless, fun _ _ => members_of_completes hless⟩

theorem exists_source {ws : List Word} (h : Completes start ws) :
    ∃ (d : Source) (rest : List Word), ws = d.words ++ rest :=
  (demands ws).value .value [] (Or.inl rfl) nofun h

theorem isWhole_of_run {s : State} {parts : List Lexeme} {v : Value} (h : run s parts = (v, []))
    (hv : v.passOver = .ok ()) : ∀ part ∈ parts, part.isWhole = true := by
  induction parts generalizing s with
  | nil => exact List.forall_mem_nil _
  | cons part parts ih =>
    rw [run_cons] at h
    have hpart : part.isWhole = true := by
      by_contra hbroken
      obtain ⟨w, hdone, hw⟩ := step_broken s (Bool.eq_false_iff.mpr hbroken)
      rw [hdone] at h
      exact hw ((Prod.mk.inj h).1 ▸ hv)
    refine List.forall_mem_cons.mpr ⟨hpart, ?_⟩
    cases hstep : step s part with
    | more next =>
      rw [hstep] at h
      exact ih h
    | done w =>
      rw [hstep] at h
      rw [(Prod.mk.inj h).2]
      exact List.forall_mem_nil _

end Reading

/-! ## Complete texts -/

open Reading in
theorem read_source {d : Source} {text : String} (h : d.IsTextOf text.toList) :
    read text = (d.value, true) := by
  have hrun := run_source d .value [] [] (Or.inl rfl)
  rw [List.append_nil] at hrun
  unfold read
  rw [Source.lexemes_eq h, start, hrun]
  rfl

open Reading in
/-- A text is read as a complete value, with nothing behind it, when it holds that value. -/
theorem read_iff (text : String) (v : Value) :
    (read text = (v, true) ∧ v.passOver = .ok ()) ↔
      ∃ d : Source, d.value = v ∧ d.IsTextOf text.toList := by
  constructor
  · rintro ⟨hread, hv⟩
    have hrun : run start (lexemes text.toList) = (v, []) := by
      unfold read at hread
      cases hrun : run start (lexemes text.toList) with
      | mk w rest =>
        rw [hrun] at hread
        obtain ⟨rfl, hend⟩ := Prod.mk.inj hread
        rw [List.isEmpty_iff.mp hend]
    obtain ⟨ws, hws, hlays⟩ := exists_words (isWhole_of_run hrun hv)
    rw [← hws] at hrun
    have hcompletes : Completes start ws := by rw [Completes, hrun, hv]
    obtain ⟨d, rest, rfl⟩ := exists_source hcompletes
    rw [start, run_source d .value [] rest (Or.inl rfl)] at hrun
    obtain ⟨hvalue, hrest⟩ := Prod.mk.inj hrun
    rw [List.map_eq_nil_iff.mp hrest, List.append_nil] at hlays
    exact ⟨d, hvalue, hlays⟩
  · rintro ⟨d, rfl, htext⟩
    exact ⟨read_source htext, passOver_value d⟩

end BooleanSearch.Json

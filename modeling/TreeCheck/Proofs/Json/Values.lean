import TreeCheck.Json.Reader
import TreeCheck.Proofs.Json.Grammar

namespace TreeCheck.Json

/-- Parts with a comma after each. -/
def followed (parts : List (List Token)) : List Token := parts.flatMap (· ++ [.comma])

theorem commas_shift (parts : List (List Token)) :
    parts.flatMap (.comma :: ·) ++ [.comma] = .comma :: followed parts := by
  induction parts with
  | nil => rfl
  | cons part rest ih =>
    rw [List.flatMap_cons, List.append_assoc, ih]
    simp [followed]

theorem separated_comma {parts : List (List Token)} (h : parts ≠ []) :
    separated parts ++ [.comma] = followed parts := by
  cases parts with
  | nil => exact absurd rfl h
  | cons first rest =>
    rw [separated, List.append_assoc, commas_shift]
    simp [followed]

theorem separated_concat (parts : List (List Token)) (last : List Token) :
    separated (parts ++ [last]) = followed parts ++ last := by
  cases parts with
  | nil => simp [separated, followed]
  | cons first rest =>
    have hcons : separated (first :: rest ++ [last]) = separated (first :: rest) ++ [.comma] ++ last := by
      simp [separated]
    rw [hcons, separated_comma (by simp)]

section Sound

/-- The tokens so far have opened the containers of a stack, and a value is due. -/
inductive Opens : List Token → List Frame → Prop where
  | nil : Opens [] []
  | item {before : List Token} {outer : List Frame} (items : List (List Token × Json)) :
    Opens before outer → (∀ item ∈ items, Value item.1 item.2) →
      Opens (before ++ .openArray :: followed (items.map Prod.fst))
        (.arr (items.map Prod.snd).reverse :: outer)
  | field {before : List Token} {outer : List Frame} (members : List Member) (name : Text) :
    Opens before outer → (∀ m ∈ members, Value m.tokens m.value) →
      Opens (before ++ .openObject :: followed (members.map Member.text) ++ [.str name, .colon])
        (.field (Record.putAll [] (members.map Member.field)) name :: outer)

/-- The tokens that have been read in a state. -/
inductive Reads : List Token → Reader → Prop where
  | value {tokens : List Token} {stack : List Frame} : Opens tokens stack →
    Reads tokens ⟨.value, stack⟩
  | item {before : List Token} {outer : List Frame} : Opens before outer →
    Reads (before ++ [.openArray]) ⟨.item, .arr [] :: outer⟩
  | name {before : List Token} {outer : List Frame} : Opens before outer →
    Reads (before ++ [.openObject]) ⟨.name, .obj [] :: outer⟩
  | nextName {before : List Token} {outer : List Frame} (members : List Member) :
    Opens before outer → (∀ m ∈ members, Value m.tokens m.value) →
      Reads (before ++ .openObject :: followed (members.map Member.text))
        ⟨.nextName, .obj (Record.putAll [] (members.map Member.field)) :: outer⟩
  | colon {before : List Token} {outer : List Frame} (members : List Member) (name : Text) :
    Opens before outer → (∀ m ∈ members, Value m.tokens m.value) →
      Reads (before ++ .openObject :: followed (members.map Member.text) ++ [.str name])
        ⟨.colon, .field (Record.putAll [] (members.map Member.field)) name :: outer⟩
  | afterItem {before : List Token} {outer : List Frame} (items : List (List Token × Json)) :
    Opens before outer → items ≠ [] → (∀ item ∈ items, Value item.1 item.2) →
      Reads (before ++ .openArray :: separated (items.map Prod.fst))
        ⟨.comma, .arr (items.map Prod.snd).reverse :: outer⟩
  | afterField {before : List Token} {outer : List Frame} (members : List Member) :
    Opens before outer → members ≠ [] → (∀ m ∈ members, Value m.tokens m.value) →
      Reads (before ++ .openObject :: separated (members.map Member.text))
        ⟨.comma, .obj (Record.putAll [] (members.map Member.field)) :: outer⟩
  | done {tokens : List Token} {value : Json} : Value tokens value →
    Reads tokens ⟨.done value, []⟩

variable {before tokens : List Token} {token : Token} {stack outer : List Frame} {value : Json}
  {r r' : Reader}

theorem putAll_concat (fields : Record Json) (name : Text) (value : Json) :
    Record.putAll [] (fields ++ [(name, value)]) =
      Record.put name value (Record.putAll [] fields) := by
  simp [Record.putAll]

/-- A finished value moves the reader on in the container around it. -/
theorem reads_deliver (ho : Opens before stack) (hv : Value tokens value)
    (h : Reader.deliver value stack = some r) : Reads (before ++ tokens) r := by
  cases ho with
  | nil =>
    cases h
    exact .done hv
  | @item before outer items ho hitems =>
    cases h
    have hall : ∀ item ∈ items ++ [(tokens, value)], Value item.1 item.2 := by
      intro item hi
      cases List.mem_append.mp hi with
      | inl hi => exact hitems item hi
      | inr hi =>
        cases List.mem_singleton.mp hi
        exact hv
    have hreads := Reads.afterItem (items ++ [(tokens, value)]) ho (by simp) hall
    simpa [separated_concat] using hreads
  | @field before outer members name ho hmembers =>
    cases h
    have hall : ∀ m ∈ members ++ [⟨name, tokens, value⟩], Value m.tokens m.value := by
      intro m hm
      cases List.mem_append.mp hm with
      | inl hm => exact hmembers m hm
      | inr hm =>
        cases List.mem_singleton.mp hm
        exact hv
    have hreads := Reads.afterField (members ++ [⟨name, tokens, value⟩]) ho (by simp) hall
    rw [List.map_append, List.map_append, List.map_singleton, List.map_singleton,
      separated_concat, Member.field, putAll_concat] at hreads
    simpa [Member.text] using hreads

theorem reads_value (ho : Opens before stack) (h : Reader.value stack token = some r) :
    Reads (before ++ [token]) r := by
  cases token with
  | null => exact reads_deliver ho .null h
  | bool b => exact reads_deliver ho (.bool b) h
  | num n => exact reads_deliver ho (.num n) h
  | str s => exact reads_deliver ho (.str s) h
  | openArray =>
    cases h
    exact .item ho
  | openObject =>
    cases h
    exact .name ho
  | closeArray | closeObject | comma | colon => cases h

/-- The end of an array. -/
theorem reads_closeArray (items : List (List Token × Json)) (ho : Opens before outer)
    (hitems : ∀ item ∈ items, Value item.1 item.2)
    (h : Reader.close (.arr (items.map Prod.snd).reverse :: outer) token = some r) :
    Reads (before ++ .openArray :: separated (items.map Prod.fst) ++ [token]) r := by
  cases token with
  | closeArray =>
    have hreads := reads_deliver ho (.arr items hitems) (by simpa [Reader.close] using h)
    simpa using hreads
  | _ => cases h

/-- The end of an object. -/
theorem reads_closeObject (members : List Member) (ho : Opens before outer)
    (hmembers : ∀ m ∈ members, Value m.tokens m.value)
    (h : Reader.close (.obj (Record.putAll [] (members.map Member.field)) :: outer) token = some r) :
    Reads (before ++ .openObject :: separated (members.map Member.text) ++ [token]) r := by
  cases token with
  | closeObject =>
    have hreads := reads_deliver ho (.obj members hmembers) h
    simpa using hreads
  | _ => cases h

theorem reads_name (members : List Member) (ho : Opens before outer)
    (hmembers : ∀ m ∈ members, Value m.tokens m.value)
    (h : Reader.name (.obj (Record.putAll [] (members.map Member.field)) :: outer) token = some r) :
    Reads (before ++ .openObject :: followed (members.map Member.text) ++ [token]) r := by
  cases token with
  | str name =>
    cases h
    exact .colon members name ho hmembers
  | _ => cases h

theorem reads_step (hr : Reads tokens r) (h : r.step token = some r') :
    Reads (tokens ++ [token]) r' := by
  cases hr with
  | value ho => exact reads_value ho h
  | item ho =>
    simp only [Reader.step] at h
    split at h
    · exact reads_closeArray [] ho (by simp) h
    · exact reads_value (.item [] ho (by simp)) h
  | name ho =>
    simp only [Reader.step] at h
    split at h
    · exact reads_closeObject [] ho (by simp) h
    · exact reads_name [] ho (by simp) h
  | nextName members ho hmembers => exact reads_name members ho hmembers h
  | colon members name ho hmembers =>
    simp only [Reader.step] at h
    split at h
    · next ht =>
      cases h
      cases ht
      have hreads := Reads.value (.field members name ho hmembers)
      simpa using hreads
    · cases h
  | afterItem items ho hne hitems =>
    by_cases ht : token = .comma
    · cases ht
      cases h
      have hreads := Reads.value (.item items ho hitems)
      rw [← separated_comma (by simpa using hne)] at hreads
      simpa using hreads
    · exact reads_closeArray items ho hitems (by simpa [Reader.step, ht] using h)
  | afterField members ho hne hmembers =>
    by_cases ht : token = .comma
    · cases ht
      cases h
      have hreads := Reads.nextName members ho hmembers
      rw [← separated_comma (by simpa using hne)] at hreads
      simpa using hreads
    · exact reads_closeObject members ho hmembers (by simpa [Reader.step, ht] using h)
  | done hv => cases h

theorem reads_run (hr : Reads tokens r) {more : List Token} (h : r.run more = some r') :
    Reads (tokens ++ more) r' := by
  induction more generalizing tokens r with
  | nil =>
    cases h
    simpa using hr
  | cons token rest ih =>
    rw [Reader.run, List.foldlM_cons] at h
    obtain ⟨r₁, hstep, hrest⟩ := Option.bind_eq_some_iff.mp h
    have hreads := ih (reads_step hr hstep) hrest
    simpa using hreads

end Sound

section Complete

theorem run_cons (r : Reader) (token : Token) (rest : List Token) :
    r.run (token :: rest) = (r.step token).bind (·.run rest) := rfl

/-- No value starts with a closing bracket, so a first item is read like any other. -/
theorem run_item {tokens : List Token} {value : Json} (h : Value tokens value)
    (stack : List Frame) (rest : List Token) :
    Reader.run ⟨.item, stack⟩ (tokens ++ rest) = Reader.run ⟨.value, stack⟩ (tokens ++ rest) := by
  cases h <;> rfl

/-- The tokens take the reader past a value that is due. -/
def Passes (tokens : List Token) (value : Json) : Prop :=
  ∀ stack rest, Reader.run ⟨.value, stack⟩ (tokens ++ rest) =
    (Reader.deliver value stack).bind (·.run rest)

/-- Further items and the end of the array. -/
theorem run_items (items : List (List Token × Json)) (h : ∀ item ∈ items, Passes item.1 item.2)
    (read : List Json) (stack : List Frame) (rest : List Token) :
    Reader.run ⟨.comma, .arr read :: stack⟩
        ((items.map Prod.fst).flatMap (.comma :: ·) ++ .closeArray :: rest) =
      (Reader.deliver (.arr (read.reverse ++ items.map Prod.snd)) stack).bind (·.run rest) := by
  induction items generalizing read with
  | nil =>
    rw [List.map_nil, List.map_nil, List.append_nil]
    rfl
  | cons item items ih =>
    have hitem := h item List.mem_cons_self
    have hitems := ih (fun other ho => h other (List.mem_cons_of_mem item ho)) (item.2 :: read)
    rw [List.map_cons, List.flatMap_cons, List.append_assoc, List.cons_append, run_cons]
    change Reader.run ⟨.value, .arr read :: stack⟩ _ = _
    rw [hitem]
    change Reader.run ⟨.comma, .arr (item.2 :: read) :: stack⟩ _ = _
    rw [hitems, List.reverse_cons, List.append_assoc, List.map_cons, List.singleton_append]

/-- A field, from its name to the end of its value. -/
theorem run_member {m : Member} (h : Passes m.tokens m.value) {expect : Expect}
    (he : expect = .name ∨ expect = .nextName) (fields : Record Json) (stack : List Frame)
    (rest : List Token) :
    Reader.run ⟨expect, .obj fields :: stack⟩ (m.text ++ rest) =
      Reader.run ⟨.comma, .obj (Record.put m.name m.value fields) :: stack⟩ rest := by
  have hvalue := h (.field fields m.name :: stack) rest
  rw [Member.text, List.cons_append, List.cons_append, run_cons]
  cases he with
  | inl he =>
    cases he
    exact hvalue
  | inr he =>
    cases he
    exact hvalue

/-- Further fields and the end of the object. -/
theorem run_members (members : List Member) (h : ∀ m ∈ members, Passes m.tokens m.value)
    (read : Record Json) (stack : List Frame) (rest : List Token) :
    Reader.run ⟨.comma, .obj read :: stack⟩
        ((members.map Member.text).flatMap (.comma :: ·) ++ .closeObject :: rest) =
      (Reader.deliver (.obj (Record.putAll read (members.map Member.field))) stack).bind
        (·.run rest) := by
  induction members generalizing read with
  | nil => rfl
  | cons m members ih =>
    have hmembers := ih (fun other ho => h other (List.mem_cons_of_mem m ho))
      (Record.put m.name m.value read)
    rw [List.map_cons, List.flatMap_cons, List.append_assoc, List.cons_append, run_cons]
    change Reader.run ⟨.nextName, .obj read :: stack⟩ _ = _
    rw [run_member (h m List.mem_cons_self) (.inr rfl), hmembers]
    rfl

theorem Value.passes {tokens : List Token} {value : Json} (h : Value tokens value) :
    Passes tokens value := by
  induction h with
  | null | bool | num | str => exact fun stack rest => rfl
  | arr items hitems ih =>
    intro stack rest
    cases items with
    | nil => rfl
    | cons first items =>
      have hfirst := ih first List.mem_cons_self
      rw [List.map_cons, separated, List.cons_append, List.cons_append, run_cons]
      change Reader.run ⟨.item, .arr [] :: stack⟩ _ = _
      rw [List.append_assoc, List.append_assoc, run_item (hitems first List.mem_cons_self), hfirst]
      change Reader.run ⟨.comma, .arr [first.2] :: stack⟩ _ = _
      exact run_items items (fun item hi => ih item (List.mem_cons_of_mem first hi)) [first.2] stack rest
  | obj members hmembers ih =>
    intro stack rest
    cases members with
    | nil => rfl
    | cons first members =>
      rw [List.map_cons, separated, List.cons_append, List.cons_append, run_cons]
      change Reader.run ⟨.name, .obj [] :: stack⟩ _ = _
      rw [List.append_assoc, List.append_assoc, run_member (ih first List.mem_cons_self) (.inl rfl)]
      exact run_members members (fun m hm => ih m (List.mem_cons_of_mem first hm)) _ stack rest

end Complete

/-- The reader gives the value that the tokens make up, and none if there is none. -/
theorem ofTokens?_eq_some {tokens : List Token} {value : Json} :
    ofTokens? tokens = some value ↔ Value tokens value := by
  constructor
  · intro h
    obtain ⟨r, hrun, hfinish⟩ := Option.bind_eq_some_iff.mp h
    have hreads := reads_run (.value .nil) hrun
    rw [List.nil_append] at hreads
    cases hreads with
    | done hv =>
      cases hfinish
      exact hv
    | _ => cases hfinish
  · intro h
    have hrun := h.passes [] []
    rw [List.append_nil] at hrun
    rw [ofTokens?]
    change (Reader.run ⟨.value, []⟩ tokens).bind Reader.finish = some value
    rw [hrun]
    rfl

end TreeCheck.Json

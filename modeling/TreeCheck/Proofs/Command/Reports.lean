import TreeCheck.Command

namespace TreeCheck

/-- The value has a code that is known, and a message. -/
def Json.IsDiagnostic (value : Json) : Prop :=
  ∃ (code : Code) (message : Text), value.field? "code" = some (.str code.text) ∧
    value.field? "message" = some (.str message)

/-- The failure is a list of diagnostics, or an error that carries one. -/
def Failure.Lists (f : Failure) (items : List Json) : Prop :=
  (f = .value (.arr items) ∨ ∃ message code, f = .error message code (some (.arr items))) ∧
    ∀ item ∈ items, item.IsDiagnostic

namespace Notice

def isError : Notice → Bool
  | .error _ => true
  | .hint _ => false

/-- The mark of an error. -/
def cross (colored : Bool) : Text := if colored then "\x1b[31m✗\x1b[0m" else "✗"

theorem text_error (colored : Bool) (message : Text) :
    (Notice.error message).text colored = cross colored ++ " " ++ message ++ "\n" := by
  cases colored <;> rfl

/-- The records are of this many errors. The first one is of an error, and without errors there is
no record. -/
structure Reports (records : List Notice) (number : Nat) : Prop where
  count : records.countP isError = number
  first : 0 < number → ∃ message rest, records = .error message :: rest
  silent : number = 0 → records = []

theorem reports_nil : Reports [] 0 :=
  ⟨rfl, fun h => absurd h (Nat.lt_irrefl 0), fun _ => rfl⟩

theorem reports_error (message : Text) : Reports [.error message] 1 :=
  ⟨rfl, fun _ => ⟨message, [], rfl⟩, fun h => absurd h Nat.one_ne_zero⟩

theorem Reports.append {first second : List Notice} {m n : Nat} (h : Reports first m)
    (h' : Reports second n) : Reports (first ++ second) (m + n) where
  count := by rw [List.countP_append, h.count, h'.count]
  first hpos := by
    by_cases hm : m = 0
    · rw [h.silent hm, List.nil_append]
      exact h'.first (by omega)
    · obtain ⟨message, rest, hrest⟩ := h.first (by omega)
      exact ⟨message, rest ++ second, by rw [hrest, List.cons_append]⟩
  silent hzero := by
    rw [h.silent (by omega), h'.silent (by omega), List.append_nil]

/-- A hint does not count. -/
theorem reports_ofDiagnostic (code message : Text) : Reports (ofDiagnostic code message) 1 := by
  unfold ofDiagnostic
  refine ⟨?_, fun _ => ⟨_, _, rfl⟩, fun h => absurd h Nat.one_ne_zero⟩
  cases advice? code <;> rfl

end Notice

section Lists

variable {value item : Json} {items : List Json} {records : List Notice}

theorem Code.isSome_ofText? {text : Text} :
    (Code.ofText? text).isSome ↔ ∃ code : Code, code.text = text := by
  have hall (code : Code) : code ∈ Code.all := by cases code <;> decide
  simp [ofText?, hall]

theorem bind_str?_eq_some {field : Option Json} {text : Text} :
    field.bind Json.str? = some text ↔ field = some (.str text) := by
  cases field with
  | none => simp
  | some value => cases value <;> simp [Json.str?]

theorem codeAndMessage?_isSome : (codeAndMessage? value).isSome ↔ value.IsDiagnostic := by
  rw [Option.isSome_iff_exists]
  constructor
  · intro h
    obtain ⟨part, hpart⟩ := h
    obtain ⟨text, htext, hrest⟩ := Option.bind_eq_some_iff.mp hpart
    obtain ⟨message, hmessage, hknown⟩ := Option.bind_eq_some_iff.mp hrest
    have hsome : (Code.ofText? text).isSome := (Option.ite_none_right_eq_some.mp hknown).1
    obtain ⟨code, rfl⟩ := Code.isSome_ofText?.mp hsome
    exact ⟨code, message, bind_str?_eq_some.mp htext, bind_str?_eq_some.mp hmessage⟩
  · intro h
    obtain ⟨code, message, hcode, hmessage⟩ := h
    have hknown : (Code.ofText? code.text).isSome := Code.isSome_ofText?.mpr ⟨code, rfl⟩
    refine ⟨(code.text, message), ?_⟩
    simp [codeAndMessage?, hcode, hmessage, hknown, Json.str?]

theorem ofDiagnostics?_arr (items : List Json) : Notice.ofDiagnostics? (.arr items) =
    (items.mapM codeAndMessage?).map fun parts =>
      parts.flatMap fun part => Notice.ofDiagnostic part.1 part.2 := by
  rw [Option.map_eq_bind]
  rfl

theorem ofDiagnostics?_cons (item : Json) (items : List Json) :
    Notice.ofDiagnostics? (.arr (item :: items)) =
      (codeAndMessage? item).bind fun part =>
        (Notice.ofDiagnostics? (.arr items)).map fun records =>
          Notice.ofDiagnostic part.1 part.2 ++ records := by
  rw [ofDiagnostics?_arr, ofDiagnostics?_arr, List.mapM_cons]
  cases codeAndMessage? item with
  | none => rfl
  | some part => cases items.mapM codeAndMessage? <;> rfl

/-- A list is reported diagnostic by diagnostic. -/
theorem ofDiagnostics?_of_all (h : ∀ item ∈ items, item.IsDiagnostic) :
    ∃ records, Notice.ofDiagnostics? (.arr items) = some records ∧
      Notice.Reports records items.length := by
  induction items with
  | nil => exact ⟨[], rfl, Notice.reports_nil⟩
  | cons item items ih =>
    obtain ⟨records, hrecords, hreports⟩ :=
      ih fun other ho => h other (List.mem_cons_of_mem _ ho)
    obtain ⟨part, hpart⟩ := Option.isSome_iff_exists.mp
      (codeAndMessage?_isSome.mpr (h item List.mem_cons_self))
    refine ⟨Notice.ofDiagnostic part.1 part.2 ++ records, ?_, ?_⟩
    · rw [ofDiagnostics?_cons, hpart, hrecords]
      rfl
    · rw [List.length_cons, Nat.add_comm]
      exact (Notice.reports_ofDiagnostic part.1 part.2).append hreports

/-- Only a list of diagnostics is reported so. -/
theorem all_of_ofDiagnostics? (h : Notice.ofDiagnostics? value = some records) :
    ∃ items, value = .arr items ∧ ∀ item ∈ items, item.IsDiagnostic := by
  cases value with
  | arr items =>
    refine ⟨items, rfl, ?_⟩
    induction items generalizing records with
    | nil => simp
    | cons item items ih =>
      rw [ofDiagnostics?_cons] at h
      obtain ⟨part, hpart, hrest⟩ := Option.bind_eq_some_iff.mp h
      obtain ⟨others, hothers, -⟩ := Option.map_eq_some_iff.mp hrest
      have hitem : item.IsDiagnostic := codeAndMessage?_isSome.mp (Option.isSome_of_eq_some hpart)
      exact List.forall_mem_cons.mpr ⟨hitem, ih hothers⟩
  | _ => cases h

end Lists

namespace Failure

variable {f : Failure} {items : List Json}

theorem notices_of_some {message : Text} {code diagnostics : Option Json}
    {records : List Notice} (h : diagnostics.bind Notice.ofDiagnostics? = some records) :
    (error message code diagnostics).notices = records := by
  simp only [notices, h]

/-- A list has as many errors as diagnostics. -/
theorem reports_of_lists (h : f.Lists items) : Notice.Reports f.notices items.length := by
  obtain ⟨records, hrecords, hreports⟩ := ofDiagnostics?_of_all h.2
  rcases h.1 with hf | ⟨message, code, hf⟩
  · rw [hf, notices, hrecords]
    exact hreports
  · have hbind : (some (Json.arr items)).bind Notice.ofDiagnostics? = some records := hrecords
    rw [hf, notices_of_some hbind]
    exact hreports

/-- A failure that is no list has one error. -/
theorem reports_of_not_lists (h : ∀ items, ¬ f.Lists items) : Notice.Reports f.notices 1 := by
  cases f with
  | diagnostic code message => exact Notice.reports_ofDiagnostic code message
  | error message code diagnostics =>
    have hnone : diagnostics.bind Notice.ofDiagnostics? = none := by
      apply Option.eq_none_iff_forall_ne_some.mpr
      intro records hrecords
      obtain ⟨value, rfl, hvalue⟩ := Option.bind_eq_some_iff.mp hrecords
      obtain ⟨items, rfl, hall⟩ := all_of_ofDiagnostics? hvalue
      exact h items ⟨.inr ⟨message, code, rfl⟩, hall⟩
    simp only [notices, hnone]
    split <;> exact Notice.reports_error _
  | value given =>
    have hnone : Notice.ofDiagnostics? given = none := by
      apply Option.eq_none_iff_forall_ne_some.mpr
      intro records hrecords
      obtain ⟨items, rfl, hall⟩ := all_of_ofDiagnostics? hrecords
      exact h items ⟨.inl rfl, hall⟩
    simp only [notices, hnone]
    exact Notice.reports_error _

/-- Whatever fails, there is an error to report, unless it is a list without diagnostics. -/
theorem exists_first_error (h : ¬ f.Lists []) :
    ∃ message rest, f.notices = .error message :: rest := by
  by_cases hlist : ∃ items, f.Lists items
  · obtain ⟨items, hitems⟩ := hlist
    apply (reports_of_lists hitems).first
    cases items with
    | nil => exact absurd hitems h
    | cons item items => exact Nat.succ_pos _
  · apply (reports_of_not_lists fun items hitems => hlist ⟨items, hitems⟩).first
    exact Nat.one_pos

/-- Every failure ends the program with exit code one. The error output starts with a record under a
cross, unless the failure is a list without diagnostics or carries one: then nothing is written. There
is one such record for each diagnostic of a list, and one for any other failure. -/
theorem handle_reports (colored : Bool) (f : Failure) :
    (f.handle colored).exitCode = 1 ∧
    (f.handle colored).errors = Text.join (f.notices.map (Notice.text colored)) ∧
    (∀ items, f.Lists items → f.notices.countP Notice.isError = items.length) ∧
    ((∀ items, ¬ f.Lists items) → f.notices.countP Notice.isError = 1) ∧
    (f.Lists [] → (f.handle colored).errors = "") ∧
    (¬ f.Lists [] → ∃ message rest, .error message ∈ f.notices ∧
      (f.handle colored).errors = Notice.cross colored ++ " " ++ message ++ "\n" ++ rest) := by
  refine ⟨rfl, rfl, fun items h => (reports_of_lists h).count,
    fun h => (reports_of_not_lists h).count, fun h => ?_, fun h => ?_⟩
  · have hsilent : f.notices = [] := (reports_of_lists h).silent rfl
    rw [handle, report, hsilent]
    rfl
  · obtain ⟨message, rest, hrest⟩ := exists_first_error h
    refine ⟨message, Text.join (rest.map (Notice.text colored)), ?_, ?_⟩
    · rw [hrest]
      exact List.mem_cons_self
    · rw [handle, report, hrest, List.map_cons, Text.join_cons, Notice.text_error]

/-- An error that carries an empty list ends the program without a word. -/
theorem handle_empty_carrier :
    (Command.carrier (.arr [])).Lists [] ∧
    (Command.carrier (.arr [])).handle false = { exitCode := 1, errors := "" } ∧
    ¬ ∃ before message after, ((Command.carrier (.arr [])).handle false).errors =
      before ++ Notice.cross false ++ " " ++ message ++ "\n" ++ after := by
  have hsilent : (Command.carrier (.arr [])).handle false = { exitCode := 1, errors := "" } := rfl
  refine ⟨⟨.inr ⟨_, _, rfl⟩, fun item h => absurd h List.not_mem_nil⟩, hsilent, ?_⟩
  intro h
  obtain ⟨before, message, after, heq⟩ := h
  rw [hsilent] at heq
  have hnil : (Text.ofString "").units = [] := rfl
  have hend : (Text.ofString "\n").units = [Text.unit '\n'] := rfl
  have hunits := congrArg Text.units heq
  simp [hnil, hend] at hunits

end Failure

end TreeCheck

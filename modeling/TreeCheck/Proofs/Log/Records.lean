import TreeCheck.Log
import TreeCheck.Proofs.Json.Lines

namespace TreeCheck

namespace Json

variable {fields : Record (Option Json)} {name : Text}

theorem names_ofFields (fields : Record (Option Json)) :
    (ofFields fields).fields.names = Record.names (fields.filter fun field => field.2.isSome) := by
  induction fields with
  | nil => rfl
  | cons field rest ih =>
    obtain ⟨key, value⟩ := field
    have hrest : Record.names (rest.filterMap fun field => field.2.map fun value => (field.1, value)) =
        Record.names (rest.filter fun field => field.2.isSome) := ih
    cases value with
    | none => exact hrest
    | some value => exact congrArg (key :: ·) hrest

/-- A field that was given without a value is not found. -/
theorem field?_ofFields (h : fields.names.Nodup) :
    (ofFields fields).field? name = (fields.lookup name).join := by
  induction fields with
  | nil => rfl
  | cons field rest ih =>
    obtain ⟨key, value⟩ := field
    obtain ⟨hnew, hrest⟩ := List.nodup_cons.mp h
    have hfound := ih hrest
    by_cases hk : name = key
    · subst hk
      rw [List.lookup_cons_self]
      cases value with
      | none =>
        rw [Record.lookup_eq_none hnew] at hfound
        exact hfound
      | some value => exact List.lookup_cons_self
    · rw [Record.lookup_cons_of_ne hk, ← hfound]
      cases value with
      | none => rfl
      | some value => exact Record.lookup_cons_of_ne hk

/-- An object of plain values is plain. -/
theorem plain_ofFields (hnames : fields.names.Nodup)
    (h : ∀ name value, (name, some value) ∈ fields → value.Plain) : (ofFields fields).Plain := by
  refine .obj ?_ fun field hf => ?_
  · have hsub : (Record.names (fields.filter fun field => field.2.isSome)).Sublist fields.names :=
      List.filter_sublist.map Prod.fst
    exact names_ofFields fields ▸ hsub.nodup hnames
  · obtain ⟨⟨key, given⟩, hg, heq⟩ := List.mem_filterMap.mp hf
    obtain ⟨value, rfl, rfl⟩ := Option.map_eq_some_iff.mp heq
    exact h key value hg

end Json

/-- A call of a logger. -/
structure LogCall where
  logger : Logger
  entry : LogEntry

namespace LogCall

/-- The entry has the lowest level of the logger or a higher one. -/
def passes (c : LogCall) : Bool := c.logger.accepts c.entry.level

/-- What calls write, one after another. -/
def text (calls : List LogCall) : Text := Text.join (calls.map fun c => c.logger.write c.entry)

/-- The four fields of every line. -/
def own (c : LogCall) : Record Text :=
  [("level", c.entry.level.name), ("timestamp", c.logger.timestamp),
    ("component", c.logger.component), ("message", c.entry.message)]

/-- The fields that are given have distinct names, and their values can be read back. -/
structure Plain (c : LogCall) : Prop where
  distinct : c.entry.fields.names.Nodup
  values : ∀ name value, (name, some value) ∈ c.entry.fields → value.Plain

/-- The fields of a line tell what was given to the call, and no more. -/
structure Tells (c : LogCall) (record : Record Json) : Prop where
  given : ∀ name value, (name, some value) ∈ c.entry.fields → record.lookup name = some value
  own : ∀ name text, (name, text) ∈ c.own → name ∉ c.entry.fields.names →
    record.lookup name = some (.str text)
  /-- A field that is given without a value is not shown, nor is the one whose place it takes. -/
  names : record.names =
    (c.own.names.filter fun name => (c.entry.fields.lookup name).all Option.isSome) ++
      Record.names (c.entry.fields.filter fun field => field.2.isSome && field.1 ∉ c.own.names)

/-- The object of a line. -/
def record (c : LogCall) : Json := .ofFields (c.logger.fields c.entry)

section Fields

variable {c : LogCall}

/-- The fields of every line, before any others are given. -/
def base (c : LogCall) : Record (Option Json) := c.own.map fun field => (field.1, some (.str field.2))

theorem fields_eq (c : LogCall) : c.logger.fields c.entry = c.base.putAll c.entry.fields := rfl

theorem base_nodup (c : LogCall) : c.base.names.Nodup := by
  have hnames : (["level", "timestamp", "component", "message"] : List Text).Nodup := by decide
  exact hnames

theorem fields_nodup (c : LogCall) : (c.logger.fields c.entry).names.Nodup :=
  Record.nodup_putAll c.base_nodup c.entry.fields

theorem field?_record (h : c.entry.fields.names.Nodup) (name : Text) :
    c.record.field? name = ((c.entry.fields.lookup name).or (c.base.lookup name)).join := by
  rw [record, Json.field?_ofFields c.fields_nodup, fields_eq, Record.lookup_putAll h]

theorem Plain.record (h : c.Plain) : c.record.Plain := by
  refine Json.plain_ofFields c.fields_nodup fun name value hf => ?_
  rw [fields_eq] at hf
  cases Record.mem_putAll hf with
  | inl hbase =>
    obtain ⟨field, _, heq⟩ := List.mem_map.mp hbase
    cases heq
    exact .str field.2
  | inr hgiven =>
    obtain ⟨⟨key, given⟩, hg, heq⟩ := hgiven
    cases heq
    exact h.values key value hg

theorem base_lookup {name text : Text} (h : (name, text) ∈ c.own) :
    c.base.lookup name = some (some (.str text)) :=
  Record.lookup_of_mem c.base_nodup (List.mem_map_of_mem h)

theorem names_record (h : c.entry.fields.names.Nodup) : c.record.fields.names =
    (c.own.names.filter fun name => (c.entry.fields.lookup name).all Option.isSome) ++
      Record.names (c.entry.fields.filter fun field => field.2.isSome && field.1 ∉ c.own.names) := by
  have hnames : c.base.names = c.own.names := rfl
  have hlookup (name : Text) : (c.base.putAll c.entry.fields).lookup name =
      (c.entry.fields.lookup name).or (c.base.lookup name) := Record.lookup_putAll h
  rw [record, Json.names_ofFields, Record.names_filter c.fields_nodup, fields_eq,
    Record.names_putAll h, List.filter_append, Record.names_filter h,
    List.filter_filter, hnames]
  congr 1
  · -- a field of every line has a value of its own, so only a given one can take it away
    refine List.filter_congr fun name hn => ?_
    obtain ⟨field, hf, rfl⟩ := List.mem_map.mp hn
    rw [hlookup, base_lookup hf]
    cases c.entry.fields.lookup field.1 <;> rfl
  · refine List.filter_congr fun name hn => ?_
    obtain ⟨field, hf, rfl⟩ := List.mem_map.mp hn
    rw [hlookup, Record.lookup_of_mem h hf]
    simp

/-- A field of every line is shown unless its name is given. -/
theorem lookup_record (h : c.entry.fields.names.Nodup) {name text : Text}
    (ho : (name, text) ∈ c.own) (hn : name ∉ c.entry.fields.names) :
    c.record.fields.lookup name = some (.str text) := by
  have hfield := field?_record h name
  rw [Record.lookup_eq_none hn, base_lookup ho] at hfield
  exact hfield

theorem tells_record (h : c.Plain) : c.Tells c.record.fields where
  given name value hg := by
    have hfound : c.entry.fields.lookup name = some (some value) := Record.lookup_of_mem h.distinct hg
    have hfield := field?_record h.distinct name
    rw [hfound] at hfield
    exact hfield
  own name text ho hn := lookup_record h.distinct ho hn
  names := names_record h.distinct

end Fields

/-- A call writes its line or nothing. -/
theorem text_eq_lines (calls : List LogCall) :
    text calls = Json.lines ((calls.filter passes).map record) := by
  induction calls with
  | nil => rfl
  | cons c rest ih =>
    have hcons : text (c :: rest) = c.logger.write c.entry ++ text rest := Text.join_cons
    have hwrite : c.logger.write c.entry = if c.passes then c.record.compact ++ "\n" else "" := rfl
    rw [hcons, ih, hwrite, List.filter_cons]
    split
    · exact Text.join_cons.symm
    · exact Text.empty_append

end LogCall

/-- The text of a log, split into lines that are read as JSON, gives one object for each call that
is let through, in the order of the calls, and nothing else. -/
theorem log_tells_calls (calls : List LogCall) (h : ∀ c ∈ calls, c.Plain) :
    ∃ records : List (Record Json),
      Json.readLines? (LogCall.text calls) = some (records.map .obj) ∧
      List.Forall₂ LogCall.Tells (calls.filter LogCall.passes) records := by
  have hplain : ∀ c ∈ calls.filter LogCall.passes, c.Plain :=
    fun c hc => h c (List.mem_of_mem_filter hc)
  refine ⟨(calls.filter LogCall.passes).map fun c => c.record.fields, ?_, ?_⟩
  · have hrecords : ∀ value ∈ (calls.filter LogCall.passes).map LogCall.record, value.Plain := by
      intro value hv
      obtain ⟨c, hc, rfl⟩ := List.mem_map.mp hv
      exact (hplain c hc).record
    rw [LogCall.text_eq_lines, Json.readLines?_lines hrecords, List.map_map]
    rfl
  · rw [List.forall₂_map_right_iff, List.forall₂_same]
    exact fun c hc => LogCall.tells_record (hplain c hc)

/-- Two loggers write in turn, and the call between them is not let through. The first line takes
one of its fields from the call, has one that is given without a value, and breaks no line. -/
theorem log_tells_calls_warning :
    let quiet : Logger := { component := "a\nb", minimum := .warn }
    let calls : List LogCall :=
      [⟨quiet, { level := .warn, message := "\"first\"\n"
                 fields := [("code", some (.ofInt 7)), ("message", some (.str "second\u2028")),
                   ("gone", none), ("nested", some (.obj [("x", .arr [.null, .bool true])]))] }⟩,
        ⟨quiet, { level := .info, message := "dropped" }⟩,
        ⟨{ component := "c" }, .failure "failed" none [("level", some .null), ("timestamp", none)]⟩]
    (∀ c ∈ calls, c.Plain) ∧
    ∃ first last : Record Json,
      Json.readLines? (LogCall.text calls) = some [.obj first, .obj last] ∧
      first.names = (["level", "timestamp", "component", "message", "code", "nested"] : List Text) ∧
      first.lookup ↑"component" = some (.str "a\nb") ∧
      first.lookup ↑"message" = some (.str "second\u2028") ∧
      last.names = (["level", "component", "message"] : List Text) ∧
      last.lookup ↑"level" = some .null := by
  intro quiet calls
  have hplain : ∀ c ∈ calls, c.Plain := by
    have hcode : (Json.ofInt 7).Plain := .ofInt (by decide)
    have hnested : (Json.obj [("x", .arr [.null, .bool true])]).Plain := by
      refine .obj (by decide) ?_
      simp only [List.forall_mem_singleton]
      exact .arr (by simp [Json.Plain.null, Json.Plain.bool])
    simp only [calls, List.forall_mem_cons]
    refine ⟨⟨by decide, ?_⟩, ⟨by decide, by simp⟩, ⟨by decide, ?_⟩, by simp⟩
    · intro name value h
      simp only [List.mem_cons, Prod.mk.injEq, Option.some.injEq, List.not_mem_nil, or_false,
        reduceCtorEq, and_false, false_or] at h
      obtain ⟨-, rfl⟩ | ⟨-, rfl⟩ | ⟨-, rfl⟩ := h
      · exact hcode
      · exact .str _
      · exact hnested
    · intro name value h
      simp only [LogEntry.failure, List.mem_cons, Prod.mk.injEq, Option.some.injEq,
        List.not_mem_nil, or_false, reduceCtorEq, and_false] at h
      obtain ⟨-, rfl⟩ := h
      exact .null
  refine ⟨hplain, ?_⟩
  obtain ⟨records, hread, htells⟩ := log_tells_calls calls hplain
  have hpass : calls.filter LogCall.passes = [calls[0], calls[2]] := rfl
  rw [hpass] at htells
  obtain _ | ⟨hfirst, _ | ⟨hlast, ⟨⟩⟩⟩ := htells
  exact ⟨_, _, hread, hfirst.names, hfirst.own "component" _ (by decide) (by decide),
    hfirst.given "message" _ (by simp [calls]), hlast.names,
    hlast.given "level" _ (by simp [calls, LogEntry.failure])⟩

end TreeCheck

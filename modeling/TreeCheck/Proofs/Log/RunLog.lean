import TreeCheck.Proofs.Check.Alike
import TreeCheck.Proofs.Check.Runs
import TreeCheck.Proofs.Check.Trace
import TreeCheck.Proofs.Command.Readings
import TreeCheck.Proofs.Log.Records

namespace TreeCheck

namespace Level

theorem ofName?_name (level : Level) : ofName? level.name = some level := by
  cases level <;> decide

/-- The level that a record shows. -/
def ofRecord? (record : Record Json) : Option Level :=
  match record.lookup ↑"level" with
  | some (.str name) => ofName? name
  | _ => none

theorem ofRecord?_of_lookup {record : Record Json} {level : Level}
    (h : record.lookup ↑"level" = some (.str level.name)) : ofRecord? record = some level := by
  rw [ofRecord?, h]
  exact ofName?_name level

/-- The record shows the level or a higher one. -/
def reached (minimum : Level) (record : Record Json) : Bool :=
  (ofRecord? record).any fun level => minimum.rank ≤ level.rank

end Level

/-- The text has these records, one JSON object a line, and they can be read back if their values
can. -/
structure Shows (text : Text) (records : List (Record Json)) : Prop where
  lines : pieces text = (records.map fun record => (Json.obj record).compact) ++ [("" : Text)]
  read : (∀ record ∈ records, (Json.obj record).Plain) →
    Json.readLines? text = some (records.map .obj)

theorem shows_lines (records : List (Record Json)) :
    Shows (Json.lines (records.map .obj)) records where
  lines := by
    rw [Json.pieces_lines, List.map_map]
    rfl
  read h := by
    refine Json.readLines?_lines fun value hv => ?_
    obtain ⟨record, hr, rfl⟩ := List.mem_map.mp hv
    exact h record hr

/-- An entry that has no field twice, and none that hides the level. -/
structure LogEntry.Ordinary (entry : LogEntry) : Prop where
  distinct : entry.fields.names.Nodup
  level : ("level" : Text) ∉ entry.fields.names

theorem LogEntry.ordinary_of_names {entry : LogEntry} (names : List Text)
    (h : entry.fields.names = names) (hd : names.Nodup) (hl : ↑"level" ∉ names) : entry.Ordinary :=
  ⟨h ▸ hd, h ▸ hl⟩

namespace Logger

variable {l : Logger} {entry : LogEntry} {entries : List LogEntry}

/-- The record of an entry, whether or not it is let through. -/
def shown (l : Logger) (entry : LogEntry) : Record Json := (LogCall.mk l entry).record.fields

theorem ofRecord?_shown (h : entry.Ordinary) :
    Level.ofRecord? (l.shown entry) = some entry.level :=
  Level.ofRecord?_of_lookup (LogCall.lookup_record h.distinct List.mem_cons_self h.level)

theorem reached_shown (h : entry.Ordinary) (minimum : Level) :
    minimum.reached (l.shown entry) = decide (minimum.rank ≤ entry.level.rank) := by
  rw [Level.reached, ofRecord?_shown h, Option.any_some]

/-- The log shows the records that reach the level of the logger. -/
theorem shows_writeAll (h : ∀ e ∈ entries, e.Ordinary) :
    Shows (l.writeAll entries) ((entries.map l.shown).filter l.minimum.reached) := by
  have htext : l.writeAll entries = LogCall.text (entries.map (LogCall.mk l)) := by
    rw [writeAll, LogCall.text, List.map_map]
    rfl
  have hsame : entries.filter (LogCall.passes ∘ LogCall.mk l) =
      entries.filter (l.minimum.reached ∘ l.shown) :=
    List.filter_congr fun e he => (reached_shown (h e he) l.minimum).symm
  have hrecords : ((entries.map (LogCall.mk l)).filter LogCall.passes).map LogCall.record =
      ((entries.map l.shown).filter l.minimum.reached).map .obj := by
    rw [List.filter_map, List.filter_map, hsame, List.map_map, List.map_map]
    rfl
  rw [htext, LogCall.text_eq_lines, hrecords]
  exact shows_lines _

/-- A record with these fields after the four of every line. -/
def record (l : Logger) (level : Level) (message : Text) (fields : Record Json) : Record Json :=
  ("level", .str level.name) :: ("timestamp", .str l.timestamp) ::
    ("component", .str l.component) :: ("message", .str message) :: fields

theorem ofRecord?_record (level : Level) (message : Text) (fields : Record Json) :
    Level.ofRecord? (l.record level message fields) = some level :=
  Level.ofRecord?_of_lookup List.lookup_cons_self

theorem reached_record (minimum level : Level) (message : Text) (fields : Record Json) :
    minimum.reached (l.record level message fields) = decide (minimum.rank ≤ level.rank) := by
  rw [Level.reached, ofRecord?_record, Option.any_some]

theorem plain_record {level : Level} {message : Text} {fields : Record Json} (names : List Text)
    (h : fields.names = names)
    (hd : ((["level", "timestamp", "component", "message"] : List Text) ++ names).Nodup)
    (hvalues : ∀ field ∈ fields, field.2.Plain) :
    (Json.obj (l.record level message fields)).Plain := by
  subst h
  refine .obj hd ?_
  simpa [record, Json.Plain.str] using hvalues

def startRecord (l : Logger) (program : Node) : Record Json :=
  l.record .debug "开始语义分析" [("statements", .ofInt program.children.length)]

def typedRecord (l : Logger) (t : Typed) : Record Json :=
  l.record .debug "表达式类型" [("kind", .str t.kind.name), ("type", .str t.type.keyword)]

/-- The end of a run that succeeds, with all counters. -/
def successRecord (l : Logger) (usage : Usage) : Record Json :=
  l.record .info "语义分析完成" <|
    ("duration_ms", .num l.elapsed) :: Counter.all.map fun k => (↑k.name, .ofInt (usage.get k))

/-- The end of a run that fails. The message is that of the finding, which hides the one of the
record. -/
def failureRecord (l : Logger) (finding : Finding) : Record Json :=
  l.record .debug finding.problem.message [("code", .str finding.problem.code.text)]

theorem shown_start (l : Logger) (p : Node) : l.shown (Analyzer.startEntry p) = l.startRecord p := rfl

theorem shown_typed (l : Logger) (typed : List Typed) :
    (typed.map Typed.entry).map l.shown = typed.map l.typedRecord := by
  rw [List.map_map]
  rfl

theorem shown_success (l : Logger) (u : Usage) :
    l.shown (Analyzer.successEntry l.elapsed u) = l.successRecord u := rfl

theorem shown_failure (l : Logger) (f : Finding) :
    l.shown (Analyzer.failureEntry f) = l.failureRecord f := rfl

end Logger

namespace Analyzer

section Entries

variable {a : Analyzer} {p : Node} {state : State} {last : LogEntry}

theorem ordinary_start (p : Node) : (startEntry p).Ordinary :=
  LogEntry.ordinary_of_names ["statements"] rfl (by decide) (by decide)

theorem ordinary_typed (t : Typed) : t.entry.Ordinary :=
  LogEntry.ordinary_of_names ["kind", "type"] rfl (by decide) (by decide)

theorem ordinary_success (elapsed : Number) (u : Usage) : (successEntry elapsed u).Ordinary :=
  LogEntry.ordinary_of_names ["duration_ms", "VAR", "WHILE", "IF", "FUNC", "OP"] rfl
    (by decide) (by decide)

theorem ordinary_failure (f : Finding) : (failureEntry f).Ordinary :=
  LogEntry.ordinary_of_names ["code", "message"] rfl (by decide) (by decide)

theorem ordinary_runEntries (h : last.Ordinary) : ∀ e ∈ a.runEntries p state last, e.Ordinary := by
  intro e he
  simp only [runEntries, traceEntries, List.mem_cons, List.mem_append, List.not_mem_nil,
    or_false] at he
  rcases he with rfl | he | rfl
  · exact ordinary_start p
  · split at he
    · obtain ⟨t, -, rfl⟩ := List.mem_map.mp he
      exact ordinary_typed t
    · cases he
  · exact h

/-- The records of a run, with an end. -/
def runRecords (a : Analyzer) (p : Node) (typed : List Typed) (last : Record Json) :
    List (Record Json) :=
  a.logger.startRecord p :: ((if a.traceTypes then typed.map a.logger.typedRecord else []) ++ [last])

theorem forall_mem_runRecords {typed : List Typed} {last : Record Json} {P : Record Json → Prop}
    (hstart : P (a.logger.startRecord p)) (htyped : ∀ t, P (a.logger.typedRecord t))
    (hlast : P last) : ∀ record ∈ a.runRecords p typed last, P record := by
  intro record hr
  simp only [runRecords, List.mem_cons, List.mem_append, List.not_mem_nil, or_false] at hr
  rcases hr with rfl | hr | rfl
  · exact hstart
  · split at hr
    · obtain ⟨t, -, rfl⟩ := List.mem_map.mp hr
      exact htyped t
    · cases hr
  · exact hlast

theorem shown_runEntries : (a.runEntries p state last).map a.logger.shown =
    a.runRecords p state.trace (a.logger.shown last) := by
  have htrace : (a.traceEntries state).map a.logger.shown =
      if a.traceTypes then state.trace.map a.logger.typedRecord else [] := by
    unfold traceEntries
    split
    · exact Logger.shown_typed a.logger state.trace
    · rfl
  rw [runEntries, List.map_cons, List.map_append, htrace, Logger.shown_start]
  rfl

/-- The same analyzer with another lowest level of its logger. -/
def atLevel (a : Analyzer) (minimum : Level) : Analyzer :=
  { a with logger := { a.logger with minimum } }

/-- At every level the log shows the records that reach it. -/
theorem shows_runEntries (h : last.Ordinary) (minimum : Level) :
    Shows ((a.atLevel minimum).logger.writeAll ((a.atLevel minimum).runEntries p state last))
      ((a.runRecords p state.trace (a.logger.shown last)).filter minimum.reached) := by
  have hall : ∀ e ∈ (a.atLevel minimum).runEntries p state last, e.Ordinary :=
    ordinary_runEntries h
  have hshows := Logger.shows_writeAll (l := (a.atLevel minimum).logger) hall
  rw [shown_runEntries] at hshows
  exact hshows

end Entries

/-- The analyzer that an environment sets up, with a logger of its own or one that is given. -/
def ofEnvironment (e : Environment) (logger : Option Logger) : Analyzer :=
  let settings := Settings.ofEnvironment e
  { logger := logger.getD (settings.logger Command.component), traceTypes := settings.traceTypes }

/-- What a run on a program has to show: types of expressions, and its end. -/
structure Observed (a : Analyzer) (p : Node) (typed : List Typed) (last : Record Json) : Prop where
  /-- The types are those of the first expressions that the checker meets, each one after its parts,
  and of all of them in a run that succeeds. -/
  types : ∃ part, part <+: settled (.statement none) p ∧
    List.Forall₂ (Typed.Describes (a.analyze p).2.state.scope) part typed ∧
    ((∃ analysis, (a.analyze p).1.outcome = .ok analysis) → part = settled (.statement none) p)
  succeeds : (∃ analysis, (a.analyze p).1.outcome = .ok analysis) ↔
    Level.ofRecord? last = some .info
  success : ∀ analysis, (a.analyze p).1.outcome = .ok analysis →
    last = a.logger.successRecord analysis.usage
  fails : (∃ error, (a.analyze p).1.outcome = .error error) ↔ Level.ofRecord? last = some .debug
  failure : ∀ error, (a.analyze p).1.outcome = .error error →
    ∃ finding, error = .rejected finding ∧ last = a.logger.failureRecord finding

section Runs

variable {a : Analyzer} {p : Node} {state : State}

/-- A walk that succeeds has settled the types of all expressions. -/
theorem observed_ok (hused : a.used = false) (htrace : a.state.trace = [])
    (hp : p.kind = .program) (h : Check.visit none p a.state = .ok () state) :
    a.Observed p state.trace (a.logger.successRecord state.usage) := by
  have hrecorded := (Check.visit_records none p).ok h
  have hlevel : Level.ofRecord? (a.logger.successRecord state.usage) = some .info :=
    Logger.ofRecord?_record ..
  obtain ⟨records, hrecords, hall⟩ := hrecorded.trace
  rw [htrace, List.nil_append] at hrecords
  constructor
  · rw [analyze_ok hused hp h, hrecords]
    exact ⟨_, List.prefix_refl _, hall, fun _ => rfl⟩
  · rw [analyze_ok hused hp h, hlevel]
    simp
  · intro analysis ho
    rw [analyze_ok hused hp h] at ho
    cases ho
    rfl
  · rw [analyze_ok hused hp h, hlevel]
    simp
  · intro error ho
    rw [analyze_ok hused hp h] at ho
    cases ho

/-- A walk that fails has settled the types of the first expressions. -/
theorem observed_error {finding : Finding} (hused : a.used = false) (htrace : a.state.trace = [])
    (hp : p.kind = .program) (h : Check.visit none p a.state = .error finding state) :
    a.Observed p state.trace (a.logger.failureRecord finding) := by
  obtain ⟨part, hpart, hrecorded⟩ := (Check.visit_records none p).error h
  have hlevel : Level.ofRecord? (a.logger.failureRecord finding) = some .debug :=
    Logger.ofRecord?_record ..
  obtain ⟨records, hrecords, hall⟩ := hrecorded.trace
  rw [htrace, List.nil_append] at hrecords
  constructor
  · rw [analyze_error hused hp h, hrecords]
    refine ⟨part, hpart, hall, ?_⟩
    rintro ⟨analysis, ho⟩
    cases ho
  · rw [analyze_error hused hp h, hlevel]
    simp
  · intro analysis ho
    rw [analyze_error hused hp h] at ho
    cases ho
  · rw [analyze_error hused hp h, hlevel]
    simp
  · intro error ho
    rw [analyze_error hused hp h] at ho
    cases ho
    exact ⟨finding, rfl, rfl⟩

/-- Only the end of a run can reach a higher level than the lowest. -/
theorem filter_info (typed : List Typed) (last : Record Json) :
    (a.runRecords p typed last).filter (Level.reached .info) =
      [last].filter (Level.reached .info) := by
  have hstart : Level.reached .info (a.logger.startRecord p) = false :=
    Logger.reached_record ..
  have htyped : (typed.map a.logger.typedRecord).filter (Level.reached .info) = [] := by
    rw [List.filter_eq_nil_iff]
    intro record hr
    obtain ⟨t, -, rfl⟩ := List.mem_map.mp hr
    have ht : Level.reached .info (a.logger.typedRecord t) = false :=
      Logger.reached_record ..
    rw [ht]
    exact Bool.false_ne_true
  rw [runRecords, List.filter_cons, hstart, if_neg Bool.false_ne_true, List.filter_append]
  split
  · rw [htyped, List.nil_append]
  · rw [List.filter_nil, List.nil_append]

/-- All records reach the lowest level. -/
theorem filter_debug {typed : List Typed} {last : Record Json}
    (h : Level.reached .debug last = true) :
    (a.runRecords p typed last).filter (Level.reached .debug) = a.runRecords p typed last := by
  rw [List.filter_eq_self]
  exact forall_mem_runRecords (Logger.reached_record ..) (fun t => Logger.reached_record ..) h

end Runs

section Ends

variable {a : Analyzer} {p : Node} {typed : List Typed} {last : Record Json}

theorem Observed.reached_debug (h : a.Observed p typed last) : Level.reached .debug last = true := by
  rw [Level.reached]
  cases ho : (a.analyze p).1.outcome with
  | ok analysis =>
    rw [h.succeeds.mp ⟨analysis, ho⟩]
    rfl
  | error error =>
    rw [h.fails.mp ⟨error, ho⟩]
    rfl

/-- The end of a success is the only one that reaches the usual level. -/
theorem Observed.filter_last (h : a.Observed p typed last) :
    [last].filter (Level.reached .info) =
      match (a.analyze p).1.outcome with | .ok _ => [last] | .error _ => [] := by
  rw [List.filter_singleton, Level.reached]
  cases ho : (a.analyze p).1.outcome with
  | ok analysis =>
    rw [h.succeeds.mp ⟨analysis, ho⟩]
    rfl
  | error error =>
    rw [h.fails.mp ⟨error, ho⟩]
    rfl

end Ends

section Plain

variable {l : Logger} {p : Node}

theorem plain_start (hn : p.nodes.length < 2 ^ 53) : (Json.obj (l.startRecord p)).Plain := by
  have hlength : p.children.length < 2 ^ 53 := Nat.lt_trans p.length_children_lt hn
  have hstatements : (Json.ofInt p.children.length).Plain := .ofInt (Nat.le_of_lt hlength)
  refine Logger.plain_record ["statements"] rfl (by decide) ?_
  simpa using hstatements

theorem plain_typed (t : Typed) : (Json.obj (l.typedRecord t)).Plain := by
  refine Logger.plain_record ["kind", "type"] rfl (by decide) ?_
  simp [Json.Plain.str]

theorem plain_failure (f : Finding) : (Json.obj (l.failureRecord f)).Plain := by
  refine Logger.plain_record ["code"] rfl (by decide) ?_
  simp [Json.Plain.str]

theorem plain_success {u : Usage} (h : u.Exact) (hl : l.elapsed.Storable) :
    (Json.obj (l.successRecord u)).Plain := by
  have hcounter (k : Counter) : (Json.ofInt (u.get k)).Plain := h.plain_get k
  refine Logger.plain_record ["duration_ms", "VAR", "WHILE", "IF", "FUNC", "OP"] rfl
    (by decide) ?_
  simp [Counter.all, hcounter, Json.Plain.num hl]

end Plain

/-- The records of a run can be read back as long as the program has fewer than `2 ^ 53` nodes and the
clock shows a number that can be stored. -/
theorem Observed.plain {logger : Logger} {traceTypes : Bool} {p : Node} {typed : List Typed}
    {last : Record Json} (h : Observed { logger, traceTypes } p typed last)
    (hn : p.nodes.length < 2 ^ 53) (hl : logger.elapsed.Storable) :
    ∀ record ∈ runRecords { logger, traceTypes } p typed last, (Json.obj record).Plain := by
  refine forall_mem_runRecords (plain_start hn) plain_typed ?_
  cases ho : (analyzeAlone logger traceTypes p).outcome with
  | ok analysis =>
    rw [h.success analysis ho]
    exact plain_success (usage_exact ho (Nat.le_of_lt hn)) hl
  | error error =>
    obtain ⟨finding, -, hlast⟩ := h.failure error ho
    rw [hlast]
    exact plain_failure finding

/-- Analyzers that have the same names and counters do the same with a program, however they are
observed and whatever they have traced. -/
theorem analyze_alike {a b : Analyzer} (hused : b.used = a.used)
    (hscope : b.state.scope = a.state.scope) (husage : b.state.usage = a.state.usage) (p : Node) :
    (b.analyze p).1.outcome = (a.analyze p).1.outcome ∧
    (b.analyze p).1.written = (a.analyze p).1.written ∧
    (b.analyze p).2.state.scope = (a.analyze p).2.state.scope ∧
    (b.analyze p).2.state.usage = (a.analyze p).2.state.usage := by
  cases ha : a.used with
  | true =>
    rw [analyze_used ha, analyze_used (hused.trans ha)]
    exact ⟨rfl, rfl, hscope, husage⟩
  | false =>
    have hb : b.used = false := hused.trans ha
    by_cases hp : p.kind = .program
    · have hends := Check.visit_alike none p (Check.untraced_bears _) a.state b.state
        ⟨hscope, husage⟩
      generalize hvisit : Check.visit none p a.state = first at hends
      generalize hother : Check.visit none p b.state = second at hends
      cases hends with
      | ok _ hs =>
        rw [analyze_ok ha hp hvisit, analyze_ok hb hp hother, hs.1, hs.2]
        exact ⟨rfl, rfl, rfl, rfl⟩
      | error hf hs =>
        cases hf
        rw [analyze_error ha hp hvisit, analyze_error hb hp hother]
        exact ⟨rfl, rfl, hs.1, hs.2⟩
    · rw [analyze_not_program ha hp, analyze_not_program hb hp]
      exact ⟨rfl, rfl, hscope, husage⟩

/-- What a run on a program has to show, and what of it the log has at each level. -/
theorem exists_observed {logger : Logger} {traceTypes : Bool} {p : Node} (hp : p.kind = .program) :
    ∃ typed last, Observed { logger, traceTypes } p typed last ∧
      ∀ minimum, Shows ((atLevel { logger, traceTypes } minimum).analyze p).1.log
        ((runRecords { logger, traceTypes } p typed last).filter minimum.reached) := by
  cases h : Check.visit none p {} with
  | ok value state =>
    refine ⟨_, _, observed_ok rfl rfl hp h, fun minimum => ?_⟩
    rw [analyze_ok rfl hp h, ← Logger.shown_success]
    exact shows_runEntries (ordinary_success _ state.usage) minimum
  | error finding state =>
    refine ⟨_, _, observed_error rfl rfl hp h, fun minimum => ?_⟩
    rw [analyze_error rfl hp h, ← Logger.shown_failure]
    exact shows_runEntries (ordinary_failure finding) minimum

/-- What comes of a program, what is written for it, and the names and counters that are left are the
same in every environment, with every logger and after every trace. The log of a run on a program has
its records, all of them at the lowest level, and at a higher level those that reach it: the end of a
success alone at the usual level, and nothing of a failure. A tree that is no program leaves no log. -/
theorem analyze_observed (p : Node) :
    (∀ e e' logger logger' trace trace',
      let a : Analyzer := { ofEnvironment e logger with state := { trace } }
      let b : Analyzer := { ofEnvironment e' logger' with state := { trace := trace' } }
      (b.analyze p).1.outcome = (a.analyze p).1.outcome ∧
      (b.analyze p).1.written = (a.analyze p).1.written ∧
      (b.analyze p).2.state.scope = (a.analyze p).2.state.scope ∧
      (b.analyze p).2.state.usage = (a.analyze p).2.state.usage) ∧
    (p.kind = .program → ∀ logger traceTypes, ∃ typed last,
      let a : Analyzer := { logger, traceTypes }
      let records := a.runRecords p typed last
      let log (minimum : Level) := ((a.atLevel minimum).analyze p).1.log
      a.Observed p typed last ∧ Shows (log .debug) records ∧
      (∀ minimum, Shows (log minimum) (records.filter minimum.reached)) ∧
      Shows (log .info) (match (a.analyze p).1.outcome with | .ok _ => [last] | .error _ => []) ∧
      (p.nodes.length < 2 ^ 53 → logger.elapsed.Storable →
        ∀ record ∈ records, (Json.obj record).Plain)) ∧
    (p.kind ≠ .program → ∀ logger traceTypes, (analyzeAlone logger traceTypes p).log = "") := by
  refine ⟨fun e e' logger logger' trace trace' => ?_, fun hp logger traceTypes => ?_,
    fun hp logger traceTypes => ?_⟩
  · intro a b
    exact analyze_alike (a := a) (b := b) rfl rfl rfl p
  · obtain ⟨typed, last, hobserved, hshows⟩ := exists_observed hp
    refine ⟨typed, last, hobserved, ?_, hshows, ?_, hobserved.plain⟩
    · have hlog := hshows .debug
      rwa [filter_debug hobserved.reached_debug] at hlog
    · have hlog := hshows .info
      rwa [filter_info, hobserved.filter_last] at hlog
  · rw [analyzeAlone, analyze_not_program rfl hp]

/-- A sum is traced after its operands, and the end has the counters; at the usual level the log has
the end alone. -/
theorem analyze_observed_sum :
    let p := Node.program [Node.declaration "num" "x",
      Node.assignStmt "x" (Node.addExpr [Node.reference "x", Node.intValue 1] ["+"])]
    let a : Analyzer := { logger := { component := "analyzer" }, traceTypes := true }
    p.kind = .program ∧ ∃ typed : List Typed,
      let last := a.logger.successRecord { var := 1, op := 1 }
      typed.map Typed.kind = [.genValue, .intValue, .addExpr] ∧
      Shows ((a.atLevel .debug).analyze p).1.log
        (a.logger.startRecord p :: (typed.map a.logger.typedRecord ++ [last])) ∧
      Shows ((a.atLevel .info).analyze p).1.log [last] := by
  intro p a
  refine ⟨rfl, ?_⟩
  obtain ⟨typed, last, hobserved, hdebug, -, hinfo, -⟩ :=
    (analyze_observed p).2.1 rfl { component := "analyzer" } true
  have hlast : last = a.logger.successRecord { var := 1, op := 1 } := hobserved.success _ rfl
  obtain ⟨part, -, hall, hpart⟩ := hobserved.types
  rw [hpart ⟨_, rfl⟩] at hall
  refine ⟨typed, ?_, hlast ▸ hdebug, hlast ▸ hinfo⟩
  obtain _ | ⟨hread, _ | ⟨hvalue, _ | ⟨hsum, ⟨⟩⟩⟩⟩ := hall
  simp [hread.kind, hvalue.kind, hsum.kind]

end Analyzer

end TreeCheck

import TreeCheck.Proofs.Command.Readings
import TreeCheck.Proofs.Document.Parse

namespace TreeCheck

section Records

/-- The advice for a document that is not in order. -/
def documentAdvice : Text := "AST JSON 不符合 ast.schema.json，请按照 schema 修复后重试"

/-- The advice for a tree that is not in order. -/
def treeAdvice : Text := "语法树结构不符合文法，请检查解析器输出"

/-- The advice for a code, which the report finds by the first letter of its text. -/
def Code.advice? : Code → Option Text
  | .malformedTree => some treeAdvice
  | .invalidDocument | .unsupportedVersion | .fileNotFound => some documentAdvice
  | _ => none

theorem advice?_text (code : Code) : TreeCheck.advice? code.text = code.advice? := by
  cases code <;> decide

theorem codeAndMessage?_toJson (d : Diagnostic) :
    codeAndMessage? d.toJson = some (↑d.code.text, d.message) := by
  have hcode : d.toJson.field? "code" = some (.str d.code.text) := rfl
  have hmessage : d.toJson.field? "message" = some (.str d.message) := rfl
  have hknown : (Code.ofText? d.code.text).isSome = true := by cases d.code <;> decide
  simp [codeAndMessage?, hcode, hmessage, hknown, Json.str?]

theorem ofDiagnostics?_toJson (list : List Diagnostic) :
    Notice.ofDiagnostics? (.arr (list.map Diagnostic.toJson)) =
      some (list.flatMap fun d => Notice.ofDiagnostic d.code.text d.message) := by
  have hparts : (list.map Diagnostic.toJson).mapM codeAndMessage? =
      some (list.map fun d => (↑d.code.text, d.message)) := by
    induction list with
    | nil => rfl
    | cons d rest ih => simp [codeAndMessage?_toJson, ih]
  simp [Notice.ofDiagnostics?, Json.arr?, hparts, List.flatMap_map]

/-- A problem of a document has one record and one hint. -/
theorem ofDiagnostic_document (p : Document.Problem) :
    Notice.ofDiagnostic p.diagnostic.code.text p.diagnostic.message =
      [.error ("[" ++ p.diagnostic.code.text ++ "] " ++ p.diagnostic.message),
        .hint documentAdvice] := by
  have hadvice : p.diagnostic.code.advice? = some documentAdvice := by cases p <;> rfl
  rw [Notice.ofDiagnostic, advice?_text, hadvice]
  rfl

/-- A finding has one record, and a hint only if the tree is out of shape. -/
theorem ofDiagnostic_finding (f : Finding) :
    Notice.ofDiagnostic f.problem.code.text f.problem.message =
      .error ("[" ++ f.problem.code.text ++ "] " ++ f.problem.message) ::
        if f.problem.code = .malformedTree then [.hint treeAdvice] else [] := by
  have hadvice : f.problem.code.advice? =
      if f.problem.code = .malformedTree then some treeAdvice else none := by
    cases f.problem <;> rfl
  rw [Notice.ofDiagnostic, advice?_text, hadvice]
  split <;> rfl

end Records

/-- A run of its own accepts the program and sums it up, or finds something in it. -/
theorem analyzeAlone_cases (logger : Logger) (traceTypes : Bool) (program : Node) :
    (∃ finding, (analyzeAlone logger traceTypes program).outcome = .error (.rejected finding)) ∨
    ∃ analysis, (analyzeAlone logger traceTypes program).outcome = .ok analysis ∧
      (analyzeAlone logger traceTypes program).written = [analysis.usage.summary ++ "\n"] := by
  unfold analyzeAlone Analyzer.analyze
  simp only [Bool.false_eq_true, if_false]
  split
  · exact .inl ⟨_, rfl⟩
  · cases Check.visit none program {} with
    | ok value state => exact .inr ⟨_, rfl, rfl⟩
    | error finding state => exact .inl ⟨finding, rfl⟩

namespace Command

variable {files : FileSystem} {refusal : Text → Text} {settings : Settings} {logger : Logger}
  {file : Option Argument}

/-- The records that the command reports. -/
def Result.notices (r : Result) : List Notice := r.error.elim [] fun error => error.failure.notices

theorem errorText_eq (r : Result) (colored : Bool) :
    r.errorText colored = r.log ++ Text.join (r.notices.map (Notice.text colored)) := by
  rw [Result.errorText, Result.notices]
  cases r.error with
  | none => exact Text.append_empty.symm
  | some error => rfl

/-- One text is written, nothing is reported, and the exit code is zero. -/
structure Result.Succeeds (r : Result) : Prop where
  written : r.written.length = 1
  notices : r.notices = []
  exitCode : r.exitCode = 0

/-- Nothing is written, the exit code is one, and there is a record of an error. -/
structure Result.Fails (r : Result) : Prop where
  written : r.written = []
  notices : ∃ message, .error message ∈ r.notices
  exitCode : r.exitCode = 1

theorem Result.Succeeds.not_fails {r : Result} (h : r.Succeeds) : ¬ r.Fails := by
  intro hfails
  have hone := h.written
  rw [hfails.written] at hone
  cases hone

theorem line_inj {text other : Text} (h : [text ++ "\n"] = [other ++ "\n"]) : text = other :=
  (Text.append_left_inj "\n").mp (List.singleton_inj.mp h)

section Cases

variable {program : Node}

theorem analyze_unloaded {error : LoadError} (h : Document.load files refusal file = .error error)
    (json : Bool) :
    analyze files refusal settings logger file json = { error := some (.load error) } := by
  rw [analyze, h]

theorem analyze_rejected {finding : Finding} (h : Document.load files refusal file = .ok program)
    (hf : (analyzeAlone logger settings.traceTypes program).outcome = .error (.rejected finding))
    (json : Bool) : ∃ log, analyze files refusal settings logger file json =
      { error := some (.analysis (.rejected finding)), log } := by
  refine ⟨(analyzeAlone logger settings.traceTypes program).log, ?_⟩
  simp only [analyze, h, hf]

theorem analyze_accepted {analysis : Analysis} (h : Document.load files refusal file = .ok program)
    (ha : (analyzeAlone logger settings.traceTypes program).outcome = .ok analysis) (json : Bool) :
    ∃ log, analyze files refusal settings logger file json =
      { written := [(if json then (usageJson analysis.usage).compact
          else analysis.usage.summary) ++ "\n"], log } := by
  refine ⟨(analyzeAlone logger settings.traceTypes program).log, ?_⟩
  rcases analyzeAlone_cases logger settings.traceTypes program with
    ⟨finding, hf⟩ | ⟨found, hfound, hwritten⟩
  · rw [ha] at hf
    cases hf
  · rw [ha] at hfound
    cases hfound
    simp only [analyze, h, ha, hwritten]
    cases json <;> rfl

theorem notices_problems (problems : List Document.Problem) :
    (Error.load (.problems problems)).failure.notices = problems.flatMap fun p =>
      [.error ("[" ++ p.diagnostic.code.text ++ "] " ++ p.diagnostic.message),
        .hint documentAdvice] := by
  have hfound := ofDiagnostics?_toJson (problems.map Document.Problem.diagnostic)
  simp only [List.map_map, List.flatMap_map, ofDiagnostic_document] at hfound
  have hbind : (some (Json.arr (problems.map fun p => p.diagnostic.toJson))).bind
      Notice.ofDiagnostics? = some _ := hfound
  simp only [Error.failure, carrier, Failure.notices, hbind]

/-- There is a problem to report if a document is refused. -/
theorem load_problems {problems : List Document.Problem}
    (h : Document.load files refusal file = .error (.problems problems)) : problems ≠ [] := by
  have hbytes {bytes : List UInt8}
      (h : Document.ofBytes refusal bytes = .error (.problems problems)) : problems ≠ [] := by
    rw [Document.ofBytes] at h
    split at h
    · cases h
    · next hparse =>
      cases h
      exact (Document.parse_eq_error hparse).1
  rw [Document.load] at h
  split at h
  · cases h
  · rw [Document.loadPath] at h
    split at h
    · cases h
      exact List.cons_ne_nil _ _
    · cases h
    · exact hbytes h
  · rw [Document.loadOpen] at h
    split at h
    · cases h
    · exact hbytes h

/-- Whatever stops the command is reported as an error. -/
theorem exists_error_notice {error : LoadError} (h : Document.load files refusal file = .error error) :
    ∃ message, .error message ∈ (Error.load error).failure.notices := by
  cases error with
  | unreadable error => exact ⟨_, List.mem_singleton.mpr rfl⟩
  | problems problems =>
    obtain ⟨p, rest, rfl⟩ := List.exists_cons_of_ne_nil (load_problems h)
    rw [notices_problems]
    exact ⟨_, List.mem_cons_self⟩

/-- What stops the command does not depend on the form of the text. -/
theorem error_eq (json other : Bool) : (analyze files refusal settings logger file json).error =
    (analyze files refusal settings logger file other).error := by
  unfold analyze
  cases Document.load files refusal file with
  | error error => rfl
  | ok program =>
    dsimp only
    cases (analyzeAlone logger settings.traceTypes program).outcome <;> rfl

/-- The command succeeds if the document holds a program that is accepted, and fails otherwise. -/
theorem analyze_ends (files : FileSystem) (refusal : Text → Text) (settings : Settings)
    (logger : Logger) (file : Option Argument) (json : Bool) :
    let accepted := ∃ program analysis, Document.load files refusal file = .ok program ∧
      (analyzeAlone logger settings.traceTypes program).outcome = .ok analysis
    (accepted ∧ (analyze files refusal settings logger file json).Succeeds) ∨
      (¬ accepted ∧ (analyze files refusal settings logger file json).Fails) := by
  intro accepted
  cases hload : Document.load files refusal file with
  | error error =>
    refine .inr ⟨?_, ?_⟩
    · rintro ⟨program, analysis, hok, _⟩
      rw [hload] at hok
      cases hok
    · rw [analyze_unloaded hload json]
      exact ⟨rfl, exists_error_notice hload, rfl⟩
  | ok program =>
    rcases analyzeAlone_cases logger settings.traceTypes program with
      ⟨finding, hf⟩ | ⟨analysis, ha, _⟩
    · obtain ⟨log, hresult⟩ := analyze_rejected hload hf json
      refine .inr ⟨?_, ?_⟩
      · rintro ⟨program, analysis, hok, ha⟩
        rw [hload] at hok
        cases hok
        rw [hf] at ha
        cases ha
      · rw [hresult]
        exact ⟨rfl, ⟨_, List.mem_cons_self⟩, rfl⟩
    · obtain ⟨log, hresult⟩ := analyze_accepted hload ha json
      refine .inl ⟨⟨program, analysis, hload, ha⟩, ?_⟩
      rw [hresult]
      exact ⟨rfl, rfl, rfl⟩

end Cases

/-- For every file system, file and environment, and for either form of the text: the command either
writes one text, reports nothing and ends well, or writes nothing, ends with the exit code one and
reports an error. It succeeds exactly if the document holds a program that is accepted; then it
writes the counters, and the counters can be told from either text, from the JSON text as long as
the program has at most `2 ^ 53` nodes. Otherwise there is a record and a hint for each problem of
the document, or one record for a file that cannot be read or for what was found in the program,
with a hint only if the tree is out of shape. -/
theorem analyze_exact (files : FileSystem) (refusal : Text → Text) (file : Option Argument)
    (environment : Environment) (timestamp : Text) (elapsed : Number) (terminal : Bool) :
    let settings := Settings.ofEnvironment environment
    let logger := { settings.logger component with timestamp, elapsed }
    let colored := terminal && environment.noColor.isNone
    let result := analyze files refusal settings logger file
    let outcome (program : Node) := (analyzeAlone logger settings.traceTypes program).outcome
    (∀ json, (result json).errorText colored =
      (result json).log ++ Text.join ((result json).notices.map (Notice.text colored))) ∧
    (∀ json, Xor (result json).Succeeds (result json).Fails) ∧
    (∀ json, (result json).Succeeds ↔ ∃ program analysis,
      Document.load files refusal file = .ok program ∧ outcome program = .ok analysis) ∧
    (result true).notices = (result false).notices ∧
    (∀ program analysis, Document.load files refusal file = .ok program →
      outcome program = .ok analysis →
      (result false).written = [analysis.usage.summary ++ "\n"] ∧
      (result true).written = [(usageJson analysis.usage).compact ++ "\n"] ∧
      (∀ usage : Usage, [usage.summary ++ "\n"] = (result false).written →
        usage = analysis.usage) ∧
      (program.nodes.length ≤ 2 ^ 53 → analysis.usage.Exact ∧
        ∀ usage : Usage, usage.Exact →
          [(usageJson usage).compact ++ "\n"] = (result true).written → usage = analysis.usage)) ∧
    (∀ problems, Document.load files refusal file = .error (.problems problems) → problems ≠ [] ∧
      ∀ json, (result json).notices = problems.flatMap fun p =>
        [.error ("[" ++ p.diagnostic.code.text ++ "] " ++ p.diagnostic.message),
          .hint documentAdvice]) ∧
    (∀ error, Document.load files refusal file = .error (.unreadable error) → ∀ json,
      (result json).notices = [.error ("文件系统错误(" ++ error.code ++ ")：" ++ error.message)]) ∧
    (∀ program error, Document.load files refusal file = .ok program →
      outcome program = .error error → ∃ finding, error = .rejected finding ∧
      ∀ json, (result json).notices =
        .error ("[" ++ finding.problem.code.text ++ "] " ++ finding.problem.message) ::
          if finding.problem.code = .malformedTree then [.hint treeAdvice] else []) := by
  intro settings logger colored result outcome
  have hends := analyze_ends files refusal settings logger file
  refine ⟨fun json => errorText_eq _ _, fun json => ?_, fun json => ?_, ?_, ?_, ?_, ?_, ?_⟩
  · rcases hends json with ⟨_, hs⟩ | ⟨_, hf⟩
    · exact .inl ⟨hs, hs.not_fails⟩
    · exact .inr ⟨hf, fun hs => hs.not_fails hf⟩
  · rcases hends json with ⟨ha, hs⟩ | ⟨hn, hf⟩
    · exact iff_of_true hs ha
    · exact iff_of_false (fun hs => hs.not_fails hf) hn
  · exact congrArg (Option.elim · [] fun error => error.failure.notices) (error_eq true false)
  · intro program analysis hload ha
    obtain ⟨_, hplain⟩ := analyze_accepted hload ha false
    obtain ⟨_, hjson⟩ := analyze_accepted hload ha true
    have hfalse : (result false).written = [analysis.usage.summary ++ "\n"] :=
      congrArg Result.written hplain
    have htrue : (result true).written = [(usageJson analysis.usage).compact ++ "\n"] :=
      congrArg Result.written hjson
    refine ⟨hfalse, htrue, fun usage h => ?_, fun hnodes => ?_⟩
    · exact Usage.summary_inj (line_inj (h.trans hfalse))
    · have hexact := usage_exact ha hnodes
      exact ⟨hexact, fun usage hu h => Usage.compact_inj hu hexact (line_inj (h.trans htrue))⟩
  · intro problems hload
    refine ⟨load_problems hload, fun json => ?_⟩
    exact (congrArg Result.notices (analyze_unloaded hload json)).trans (notices_problems problems)
  · intro error hload json
    exact congrArg Result.notices (analyze_unloaded hload json)
  · intro program error hload herror
    rcases analyzeAlone_cases logger settings.traceTypes program with
      ⟨finding, hf⟩ | ⟨analysis, ha, _⟩
    · have heq := herror.symm.trans hf
      cases heq
      refine ⟨finding, rfl, fun json => ?_⟩
      obtain ⟨_, hresult⟩ := analyze_rejected hload hf json
      exact (congrArg Result.notices hresult).trans (ofDiagnostic_finding finding)
    · have heq := herror.symm.trans ha
      cases heq

/-- A program that declares two names, each of them half of a pair, a document with two problems, and a
program with an expression that has no part. -/
def sampleFiles : FileSystem :=
  let content (value : Json) : ReadResult :=
    .content (value.compact.units.map fun u => u.toNat.toUInt8)
  let program (children : List Json) : ReadResult :=
    content (.obj [("version", .str "1.0"),
      ("program", .obj [("kind", .str "Program"), ("children", .arr children)])])
  let declared (name : Text) : Json :=
    .obj [("kind", .str "Declaration"), ("value", .str "num"),
      ("children", .arr [.obj [("kind", .str "Identifier"), ("value", .str name)]])]
  { file := fun path =>
      if path = "good" then program [declared ⟨[0xD800]⟩, declared ⟨[0xD801]⟩]
      else if path = "empty" then content (.obj [])
      else if path = "bad" then program [.obj [("kind", .str "Expr")]]
      else .failed .isDirectory
    descriptor := fun _ => .error .notOpen }

theorem eq_ok_of_toOption {ε α : Type} {result : Except ε α} {value : α}
    (h : result.toOption = some value) : result = .ok value := by
  cases result with
  | error error => cases h
  | ok found => rw [Option.some.inj h]

/-- Two names that are halves of a pair are told apart, and the counters are read off the JSON text;
the two problems have a hint each, and so has the tree that is out of shape. -/
theorem analyze_exact_sample :
    let result (path : Text) := analyze sampleFiles id (Settings.ofEnvironment {})
      ((Settings.ofEnvironment {}).logger component) (some (.text path))
    ((result "good" true).written =
        [("\x7b\"VAR\":2,\"WHILE\":0,\"IF\":0,\"FUNC\":0,\"OP\":0\x7d\n" : Text)] ∧
      ∀ usage : Usage, usage.Exact →
        [(usageJson usage).compact ++ "\n"] = (result "good" true).written →
          usage = ⟨2, 0, 0, 0, 0⟩) ∧
    (result "empty" true).notices =
      [.error "[J001] Invalid AST JSON: / must have required property 'version'",
        .hint documentAdvice,
        .error "[J001] Invalid AST JSON: / must have required property 'program'",
        .hint documentAdvice] ∧
    (result "bad" true).notices =
      [.error "[A001] Malformed tree: Expr is missing child 0", .hint treeAdvice] := by
  intro result
  let outcome (program : Node) :=
    (analyzeAlone ((Settings.ofEnvironment {}).logger component) false program).outcome
  refine ⟨?_, ?_, ?_⟩
  · have hread : (Document.load sampleFiles id (some (.text "good"))).toOption.map
        (fun program => (program.nodes.length, (outcome program).toOption.map Analysis.usage)) =
          some (5, some ⟨2, 0, 0, 0, 0⟩) := by decide +kernel
    obtain ⟨program, hprogram, heq⟩ := Option.map_eq_some_iff.mp hread
    obtain ⟨hnodes, hcounted⟩ := Prod.mk.inj heq
    obtain ⟨analysis, hanalysis, husage⟩ := Option.map_eq_some_iff.mp hcounted
    obtain ⟨_, _, _, _, htexts, _⟩ :=
      analyze_exact sampleFiles id (some (.text "good")) {} epoch (.ofInt 0) false
    obtain ⟨_, hwritten, _, hunique⟩ :=
      htexts program analysis (eq_ok_of_toOption hprogram) (eq_ok_of_toOption hanalysis)
    rw [husage] at hwritten hunique
    exact ⟨hwritten.trans (by decide +kernel), (hunique (by omega)).2⟩
  · have hload : Document.load sampleFiles id (some (.text "empty")) =
        .error (.problems [.violation ⟨[], .required "version"⟩,
          .violation ⟨[], .required "program"⟩]) := by rfl
    obtain ⟨_, _, _, _, _, hproblems, _⟩ :=
      analyze_exact sampleFiles id (some (.text "empty")) {} epoch (.ofInt 0) false
    exact ((hproblems _ hload).2 true).trans (by decide +kernel)
  · have hread : (Document.load sampleFiles id (some (.text "bad"))).toOption.map outcome =
        some (.error (.rejected (.malformed (.missingChild .expr 0) none))) := by decide +kernel
    obtain ⟨program, hprogram, houtcome⟩ := Option.map_eq_some_iff.mp hread
    obtain ⟨_, _, _, _, _, _, _, hfindings⟩ :=
      analyze_exact sampleFiles id (some (.text "bad")) {} epoch (.ofInt 0) false
    obtain ⟨finding, heq, hnotices⟩ := hfindings program _ (eq_ok_of_toOption hprogram) houtcome
    cases heq
    exact (hnotices true).trans (by decide +kernel)

end Command

end TreeCheck

import TreeCheck.Proofs.Check.Counting
import TreeCheck.Proofs.Check.Runs

namespace TreeCheck

/-- A tree that is accepted, with what the counters come to. -/
structure Node.Accepted (p : Node) (usage : Usage) : Prop where
  root : p.kind = .program
  admissible : Admissible (visits (.statement none) p)
  counts : ∀ k, usage.get k = Node.tally (nodesAt (visits (.statement none) p)) k

/-- What is to be written for trees: a line for each one that is accepted, in order. -/
inductive Summaries : List Node → List Text → Prop
  | nil : Summaries [] []
  | accepted {p : Node} {usage : Usage} {rest : List Node} {lines : List Text} :
      p.Accepted usage → Summaries rest lines →
      Summaries (p :: rest) ((usage.summary ++ "\n") :: lines)
  | rejected {p : Node} {rest : List Node} {lines : List Text} :
      (∀ usage, ¬ p.Accepted usage) → Summaries rest lines → Summaries (p :: rest) lines

/-- A tree and how its run is set up. -/
structure Job where
  program : Node
  logger : Logger
  traceTypes : Bool

/-- The run of a job on its own. -/
def Job.run (j : Job) : Run := analyzeAlone j.logger j.traceTypes j.program

/-- Analyses programs in turn, each with an analyzer of its own; all write to one sink. -/
def analyzeEach (sink : List Text) : List Job → List Run × List Text
  | [] => ([], sink)
  | job :: rest =>
    let run := analyzeAlone job.logger job.traceTypes job.program
    let (runs, sink) := analyzeEach (sink ++ run.written) rest
    (run :: runs, sink)

section Accepted

variable {p : Node} {logger : Logger} {traceTypes : Bool}

/-- From the empty scope a tree is accepted exactly if its positions are admissible. -/
theorem Check.visit_empty_iff (p : Node) :
    (∃ state, visit none p {} = .ok () state) ↔ Admissible (visits (.statement none) p) := by
  rw [← fits_empty_iff]
  refine visit_admits none p {} _ fun name type h => ?_
  simpa [Scope.after] using h

/-- The counters of an accepted tree start at zero. -/
theorem Check.visit_empty_usage {state : State} (h : visit none p {} = .ok () state) (k : Counter) :
    state.usage.get k = Node.tally (nodesAt (visits (.statement none) p)) k := by
  have hzero : (State.usage {}).get k = 0 := by cases k <;> rfl
  rw [(visit_ok_counts h).2 k, hzero, Int.zero_add]

/-- A run of its own, as the tree has it: the line of an accepted tree, and nothing else. -/
theorem analyzeAlone_written (logger : Logger) (traceTypes : Bool) (p : Node) :
    (∃ usage symbols, p.Accepted usage ∧
      (analyzeAlone logger traceTypes p).outcome = .ok ⟨usage, symbols⟩ ∧
      (analyzeAlone logger traceTypes p).written = [usage.summary ++ "\n"]) ∨
    (∀ usage, ¬ p.Accepted usage) ∧ ∃ finding,
      (analyzeAlone logger traceTypes p).outcome = .error (.rejected finding) ∧
      (analyzeAlone logger traceTypes p).written = [] := by
  unfold analyzeAlone
  by_cases hp : p.kind = .program
  · cases h : Check.visit none p {} with
    | ok value state =>
      left
      rw [Analyzer.analyze_ok rfl hp h]
      refine ⟨state.usage, state.scope.entries, ⟨hp, ?_, Check.visit_empty_usage h⟩, rfl, rfl⟩
      exact (Check.visit_empty_iff p).mp ⟨state, h⟩
    | error finding state =>
      right
      rw [Analyzer.analyze_error rfl hp h]
      -- a tree cannot fail whose positions are admissible
      refine ⟨fun usage ha => ?_, finding, rfl, rfl⟩
      obtain ⟨other, ho⟩ := (Check.visit_empty_iff p).mpr ha.admissible
      rw [h] at ho
      cases ho
  · right
    rw [Analyzer.analyze_not_program rfl hp]
    exact ⟨fun usage ha => hp ha.root, _, rfl, rfl⟩

theorem Node.Accepted.unique {usage other : Usage} (h : p.Accepted usage) (h' : p.Accepted other) :
    usage = other :=
  Usage.eq_of_get fun k => (h.counts k).trans (h'.counts k).symm

/-- The first line of a sequence, if any, is that of its first tree. -/
theorem Summaries.cons_written {rest : List Node} {lines : List Text} (h : Summaries rest lines) :
    Summaries (p :: rest) ((analyzeAlone logger traceTypes p).written ++ lines) := by
  rcases analyzeAlone_written logger traceTypes p with
    ⟨usage, symbols, ha, -, hw⟩ | ⟨hr, finding, -, hw⟩
  · rw [hw]
    exact .accepted ha h
  · rw [hw]
    exact .rejected hr h

theorem analyzeEach_eq (sink : List Text) (jobs : List Job) :
    analyzeEach sink jobs = (jobs.map Job.run, sink ++ jobs.flatMap fun j => j.run.written) := by
  induction jobs generalizing sink with
  | nil => rw [analyzeEach, List.flatMap_nil, List.append_nil, List.map_nil]
  | cons job rest ih =>
    rw [analyzeEach]
    simp only [ih, List.map_cons, List.flatMap_cons, ← List.append_assoc]
    rfl

theorem summaries_jobs (jobs : List Job) :
    Summaries (jobs.map Job.program) (jobs.flatMap fun j => j.run.written) := by
  induction jobs with
  | nil => exact .nil
  | cons job rest ih =>
    rw [List.map_cons, List.flatMap_cons]
    exact ih.cons_written

end Accepted

/-- In a sequence of programs an analyzer works on the first one alone: all others are refused
without a line, a log or a change of its state, whatever came of the first. The sink has the line of
the first program if that is accepted, and nothing otherwise. Analyzers of their own run as they do
alone, and a sink that they share gets the lines of the accepted programs in order. Acceptance and
the counters of a line are a matter of the tree. -/
theorem analyze_once (logger : Logger) (traceTypes : Bool) :
    (∀ p rest, let a : Analyzer := { logger, traceTypes }
      a.analyzeAll (p :: rest) =
        (analyzeAlone logger traceTypes p ::
          rest.map fun _ => { outcome := .error .reused, written := [], log := "" },
          (a.analyze p).2) ∧
      Summaries [p] ((a.analyzeAll (p :: rest)).1.flatMap Run.written)) ∧
    Analyzer.Error.reused.message =
      "SemanticAnalyzer instances are single-use; create a new analyzer per run" ∧
    (∀ sink jobs, ∃ lines, analyzeEach sink jobs = (jobs.map Job.run, sink ++ lines) ∧
      Summaries (jobs.map Job.program) lines) ∧
    ∀ p usage, (∃ symbols, (analyzeAlone logger traceTypes p).outcome = .ok ⟨usage, symbols⟩) ↔
      p.Accepted usage := by
  refine ⟨fun p rest => ?_, rfl, fun sink jobs => ?_, fun p usage => ?_⟩
  · intro a
    have hall := a.analyzeAll_cons p rest
    refine ⟨hall, ?_⟩
    have hnone : (rest.map fun _ => ({ outcome := .error .reused } : Run)).flatMap Run.written = [] := by
      simp
    rw [hall, List.flatMap_cons, hnone]
    exact Summaries.nil.cons_written
  · exact ⟨_, analyzeEach_eq sink jobs, summaries_jobs jobs⟩
  · rcases analyzeAlone_written logger traceTypes p with
      ⟨own, symbols, ha, ho, -⟩ | ⟨hr, finding, ho, -⟩
    · rw [ho]
      constructor
      · rintro ⟨others, heq⟩
        cases heq
        exact ha
      · intro h
        exact ⟨symbols, by rw [ha.unique h]⟩
    · rw [ho]
      constructor
      · rintro ⟨others, heq⟩
        cases heq
      · intro h
        exact absurd h (hr usage)

end TreeCheck

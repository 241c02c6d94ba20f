import TreeCheck.Analyzer

namespace TreeCheck.Analyzer

variable {a : Analyzer} {p : Node} {state : State}

/-- An analyzer that has been used stays as it is. -/
theorem analyze_used (ha : a.used = true) (p : Node) :
    a.analyze p = ({ outcome := .error .reused }, a) := by
  rw [analyze, if_pos ha]

theorem analyze_not_program (ha : a.used = false) (hp : p.kind ≠ .program) :
    a.analyze p =
      ({ outcome := .error (.rejected (.malformed (.notProgram p.kind) p.span)) },
        { a with used := true }) := by
  have hused : ¬ a.used = true := by rw [ha]; exact Bool.false_ne_true
  rw [analyze, if_neg hused, if_pos hp]

/-- The run of a program that is accepted. -/
theorem analyze_ok (ha : a.used = false) (hp : p.kind = .program)
    (h : Check.visit none p a.state = .ok () state) :
    a.analyze p =
      ({ outcome := .ok ⟨state.usage, state.scope.entries⟩
         written := [state.usage.summary ++ "\n"]
         log := a.logger.writeAll
           (a.runEntries p state (successEntry a.logger.elapsed state.usage)) },
        { a with used := true, state }) := by
  have hused : ¬ a.used = true := by rw [ha]; exact Bool.false_ne_true
  rw [analyze, if_neg hused, if_neg (fun h => h hp), h]
  rfl

/-- The run of a program that is rejected by the check of its tree. -/
theorem analyze_error {finding : Finding} (ha : a.used = false) (hp : p.kind = .program)
    (h : Check.visit none p a.state = .error finding state) :
    a.analyze p =
      ({ outcome := .error (.rejected finding)
         log := a.logger.writeAll (a.runEntries p state (failureEntry finding)) },
        { a with used := true, state }) := by
  have hused : ¬ a.used = true := by rw [ha]; exact Bool.false_ne_true
  rw [analyze, if_neg hused, if_neg (fun h => h hp), h]

/-- Whatever comes of a program, the analyzer is used up. -/
theorem used_analyze (a : Analyzer) (p : Node) : (a.analyze p).2.used = true := by
  cases ha : a.used with
  | true => rw [analyze_used ha]; exact ha
  | false =>
    by_cases hp : p.kind = .program
    · cases h : Check.visit none p a.state with
      | ok value state => rw [analyze_ok ha hp h]
      | error finding state => rw [analyze_error ha hp h]
    · rw [analyze_not_program ha hp]

/-- All further programs are refused. -/
theorem analyzeAll_used (ha : a.used = true) (programs : List Node) :
    a.analyzeAll programs = (programs.map fun _ => { outcome := .error .reused }, a) := by
  induction programs with
  | nil => rfl
  | cons p rest ih =>
    rw [analyzeAll, analyze_used ha]
    simp only [ih, List.map_cons]

/-- Only the first program of a sequence is analyzed. -/
theorem analyzeAll_cons (a : Analyzer) (p : Node) (rest : List Node) :
    a.analyzeAll (p :: rest) =
      ((a.analyze p).1 :: rest.map fun _ => { outcome := .error .reused }, (a.analyze p).2) := by
  rw [analyzeAll]
  simp only [analyzeAll_used (a.used_analyze p)]

end TreeCheck.Analyzer

import TreeCheck.Diagnostic.Basic

namespace TreeCheck

/-- What can end a command. -/
inductive Failure where
  | diagnostic (code message : Text)
  | error (message : Text) (code diagnostics : Option Json)
  | value (value : Json)

/-- A line for the reader of a report. -/
inductive Notice where
  | error (message : Text)
  | hint (message : Text)
deriving DecidableEq, Repr

/-- A marked line; the mark is red or yellow if colours are wanted. -/
def Notice.text (colored : Bool) (notice : Notice) : Text :=
  let mark (symbol color : String) : String :=
    if colored then "\x1b[" ++ color ++ "m" ++ symbol ++ "\x1b[0m" else symbol
  match notice with
  | .error message => mark "✗" "31" ++ " " ++ message ++ "\n"
  | .hint message => mark "⚠" "33" ++ " " ++ message ++ "\n"

/-- Advice by the first letter of a code. -/
def advice? (code : Text) : Option Text :=
  match (code.units.map Text.letter).head? with
  | some 'A' => some "语法树结构不符合文法，请检查解析器输出"
  | some 'J' => some "AST JSON 不符合 ast.schema.json，请按照 schema 修复后重试"
  | _ => none

/-- The lines for a diagnostic. -/
def Notice.ofDiagnostic (code message : Text) : List Notice :=
  .error ("[" ++ code ++ "] " ++ message) :: ((advice? code).map Notice.hint).toList

/-- The code and the message of a value that has the shape of a diagnostic. -/
def codeAndMessage? (value : Json) : Option (Text × Text) := do
  let code ← (value.field? "code").bind Json.str?
  let message ← (value.field? "message").bind Json.str?
  if (Code.ofText? code).isSome then some (code, message) else none

/-- The lines for a list of diagnostics, if the value is one. -/
def Notice.ofDiagnostics? (value : Json) : Option (List Notice) := do
  let items ← value.arr?
  let parts ← items.mapM codeAndMessage?
  return parts.flatMap fun (code, message) => Notice.ofDiagnostic code message

namespace Failure

/-- The lines of a report. Diagnostics come before a code, and a code before the mere message. -/
def notices : Failure → List Notice
  | .diagnostic code message => Notice.ofDiagnostic code message
  | .error message code diagnostics =>
    match diagnostics.bind Notice.ofDiagnostics? with
    | some notices => notices
    | none =>
      match code with
      | some (.str code) => [.error ("文件系统错误(" ++ code ++ ")：" ++ message)]
      | _ => [.error message]
  | .value given =>
    match Notice.ofDiagnostics? given with
    | some notices => notices
    | none => [.error "发生未知错误，请重试"]

/-- The text of a report. -/
def report (colored : Bool) (f : Failure) : Text :=
  Text.join (f.notices.map (Notice.text colored))

end Failure

/-- How a program ends: its exit code, and what it has written for errors. -/
structure Ending where
  exitCode : Nat
  errors : Text
deriving DecidableEq, Repr

/-- Reports a failure and ends the program. -/
def Failure.handle (colored : Bool) (f : Failure) : Ending :=
  { exitCode := 1, errors := f.report colored }

end TreeCheck

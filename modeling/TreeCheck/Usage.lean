import TreeCheck.Text

namespace TreeCheck

inductive Counter where
  | var
  | loop
  | branch
  | func
  | op
deriving DecidableEq, Repr

namespace Counter

def all : List Counter := [.var, .loop, .branch, .func, .op]

def name : Counter → String
  | .var => "VAR"
  | .loop => "WHILE"
  | .branch => "IF"
  | .func => "FUNC"
  | .op => "OP"

def ofName? (name : String) : Option Counter := all.find? fun counter => counter.name = name

end Counter

/-- The reading of each counter. -/
structure Usage where
  var : Int := 0
  loop : Int := 0
  branch : Int := 0
  func : Int := 0
  op : Int := 0
deriving DecidableEq, Repr

namespace Usage

def get (u : Usage) : Counter → Int
  | .var => u.var
  | .loop => u.loop
  | .branch => u.branch
  | .func => u.func
  | .op => u.op

theorem eq_of_get {u v : Usage} (h : ∀ k, u.get k = v.get k) : u = v := by
  have hvar := h .var
  have hloop := h .loop
  have hbranch := h .branch
  have hfunc := h .func
  have hop := h .op
  obtain ⟨var, loop, branch, func, op⟩ := u
  obtain ⟨var', loop', branch', func', op'⟩ := v
  simp_all [get]

/-- Moves one counter by an amount. -/
def add (u : Usage) (counter : Counter) (amount : Int) : Usage :=
  match counter with
  | .var => { u with var := u.var + amount }
  | .loop => { u with loop := u.loop + amount }
  | .branch => { u with branch := u.branch + amount }
  | .func => { u with func := u.func + amount }
  | .op => { u with op := u.op + amount }

def ofCounts (count : Counter → Int) : Usage :=
  ⟨count .var, count .loop, count .branch, count .func, count .op⟩

/-- Names and readings, in the order of a report. -/
def entries (u : Usage) : List (String × Int) :=
  Counter.all.map fun counter => (counter.name, u.get counter)

/-- Names and readings on one line. -/
def line (entries : List (Text × Text)) : Text :=
  "\x7b" ++ Text.intercalate ", " (entries.map fun (name, reading) => name ++ ":" ++ reading) ++
    "\x7d"

/-- The readings on one line. -/
def summary (u : Usage) : Text := line (u.entries.map fun (name, n) => (↑name, ↑(toString n)))

end Usage

end TreeCheck

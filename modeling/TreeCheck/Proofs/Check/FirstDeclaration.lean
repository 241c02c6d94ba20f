import Mathlib.Data.Finset.Card
import TreeCheck.Scope

namespace TreeCheck

/-- The finding is about a name, under a code and at a span. -/
structure Finding.Reports (f : Finding) (code name : Text) (span : Option Span) : Prop where
  code : f.diagnostic.code.text = code
  data : f.diagnostic.data = [(("name" : Text), some (Json.str name))]
  span : f.diagnostic.span = span

namespace Scope

/-- Carries out calls one after the other. -/
def run (s : Scope) : List Call → List (Except Finding Answer) × Scope
  | [] => ([], s)
  | c :: rest =>
    let (outcome, next) := s.call c
    let (outcomes, last) := next.run rest
    (outcome :: outcomes, last)

/-- What a new scope gives for calls. -/
def answers (calls : List Call) : List (Except Finding Answer) := (run {} calls).1

/-- The declaration that a call asks for. -/
def Call.asked? : Call → Option Symbol
  | .declare symbol => some symbol
  | _ => none

/-- The declarations that calls ask for, whether they are refused or not. -/
def asked (calls : List Call) : List Symbol := calls.filterMap Call.asked?

/-- The first declaration of a name in a history of declarations. -/
def first? (history : List Symbol) (name : Text) : Option Symbol :=
  history.find? fun symbol => symbol.name = name

def names (history : List Symbol) : List Text := history.map Symbol.name

/-- The first declaration of a name stands before that of another. -/
def Precedes (history : List Symbol) (name other : Text) : Prop :=
  (names history).idxOf name < (names history).idxOf other

/-- The list has each declared name once, with the type of its first declaration and in the order of
first declarations. -/
structure ListsFirsts (history : List Symbol) (list : List (Text × Ty)) : Prop where
  once : (list.map Prod.fst).Nodup
  mem : ∀ name type, (name, type) ∈ list ↔
    ∃ symbol, first? history name = some symbol ∧ symbol.type = type
  ordered : (list.map Prod.fst).Pairwise (Precedes history)

/-- What a call comes to after a history of declarations. -/
inductive Settles (history : List Symbol) : Call → Except Finding Answer → Prop where
  | declared {symbol : Symbol} : symbol.name ∉ names history →
    Settles history (.declare symbol) (.ok (.declared symbol))
  | redeclared {symbol : Symbol} {f : Finding} : symbol.name ∈ names history →
    f.Reports "S003" symbol.name symbol.span → Settles history (.declare symbol) (.error f)
  | lookup {name : Text} :
    Settles history (.lookup name) (.ok (.lookup ((first? history name).map Symbol.type)))
  | required {name : Text} {span : Option Span} {symbol : Symbol} :
    first? history name = some symbol →
    Settles history (.require name span) (.ok (.required symbol.type))
  | undefined {name : Text} {span : Option Span} {f : Finding} : name ∉ names history →
    f.Reports "S001" name span → Settles history (.require name span) (.error f)
  | contains {name : Text} :
    Settles history (.contains name) (.ok (.contains (name ∈ names history)))
  | size : Settles history .size (.ok (.size (names history).toFinset.card))
  | entries {list : List (Text × Ty)} : ListsFirsts history list →
    Settles history .entries (.ok (.entries list))

section History

variable {history : List Symbol} {symbol : Symbol} {name other : Text}

theorem first?_isSome : (first? history name).isSome ↔ name ∈ names history := by
  simp [first?, names]

theorem first?_eq_none : first? history name = none ↔ name ∉ names history := by
  rw [← first?_isSome]
  simp

theorem name_of_first? (h : first? history name = some symbol) : symbol.name = name := by
  simpa using List.find?_some h

theorem first?_concat (history : List Symbol) (symbol : Symbol) (name : Text) :
    first? (history ++ [symbol]) name =
      (first? history name).or (if symbol.name = name then some symbol else none) := by
  unfold first?
  rw [List.find?_append]
  by_cases h : symbol.name = name <;> simp [h]

theorem names_concat (history : List Symbol) (symbol : Symbol) :
    names (history ++ [symbol]) = names history ++ [symbol.name] := by
  simp [names]

/-- A further declaration does not move the names that are there. -/
theorem Precedes.concat (h : Precedes history name other) (hname : name ∈ names history)
    (hother : other ∈ names history) (symbol : Symbol) :
    Precedes (history ++ [symbol]) name other := by
  unfold Precedes
  rw [names_concat, List.idxOf_append_of_mem hname, List.idxOf_append_of_mem hother]
  exact h

/-- A new name comes after all others. -/
theorem precedes_new (hname : name ∈ names history) (hnew : symbol.name ∉ names history) :
    Precedes (history ++ [symbol]) name symbol.name := by
  have hlt : (names history).idxOf name < (names history).length :=
    List.idxOf_lt_length_of_mem hname
  unfold Precedes
  rw [names_concat, List.idxOf_append_of_mem hname, List.idxOf_append_of_notMem hnew]
  omega

end History

/-- The scope holds the first declarations of a history, in their order. -/
structure Keeps (s : Scope) (history : List Symbol) : Prop where
  found : ∀ name, s.find? name = first? history name
  ordered : (names s.symbols).Pairwise (Precedes history)

namespace Keeps

variable {s : Scope} {history : List Symbol} {name : Text} {symbol : Symbol}

theorem nodup (h : s.Keeps history) : (names s.symbols).Nodup := by
  apply h.ordered.imp
  intro name other hlt heq
  rw [heq] at hlt
  exact Nat.lt_irrefl _ hlt

theorem mem_names (h : s.Keeps history) : name ∈ names s.symbols ↔ name ∈ names history := by
  rw [← first?_isSome, ← first?_isSome, ← h.found]
  rfl

theorem contains_eq (h : s.Keeps history) (name : Text) :
    s.contains name = decide (name ∈ names history) := by
  rw [contains, h.found, Bool.eq_iff_iff, decide_eq_true_iff]
  exact first?_isSome

theorem lookup_eq (h : s.Keeps history) (name : Text) :
    s.lookup name = (first? history name).map Symbol.type := by
  rw [lookup, h.found]

/-- The symbols of the scope are the first declarations. -/
theorem mem_symbols (h : s.Keeps history) :
    symbol ∈ s.symbols ↔ first? history symbol.name = some symbol := by
  rw [← h.found]
  constructor
  · intro hmem
    have hsome : (s.find? symbol.name).isSome := first?_isSome.mpr (List.mem_map_of_mem hmem)
    obtain ⟨other, hother⟩ := Option.isSome_iff_exists.mp hsome
    have heq : other = symbol :=
      List.inj_on_of_nodup_map h.nodup (List.mem_of_find?_eq_some hother) hmem
        (name_of_first? hother)
    rw [hother, heq]
  · exact List.mem_of_find?_eq_some

theorem size_eq (h : s.Keeps history) : s.size = (names history).toFinset.card := by
  have hset : (names s.symbols).toFinset = (names history).toFinset := by
    ext name
    rw [List.mem_toFinset, List.mem_toFinset]
    exact h.mem_names
  rw [← hset, List.toFinset_card_of_nodup h.nodup, size, names, List.length_map]

theorem listsFirsts (h : s.Keeps history) : ListsFirsts history s.entries := by
  have hnames : s.entries.map Prod.fst = names s.symbols := by
    simp [entries, names]
  refine ⟨hnames ▸ h.nodup, fun name type => ?_, hnames ▸ h.ordered⟩
  unfold entries
  rw [List.mem_map]
  constructor
  · intro hmem
    obtain ⟨symbol, hsymbol, heq⟩ := hmem
    cases heq
    exact ⟨symbol, h.mem_symbols.mp hsymbol, rfl⟩
  · intro hfirst
    obtain ⟨symbol, hsymbol, htype⟩ := hfirst
    obtain rfl : symbol.name = name := name_of_first? hsymbol
    exact ⟨symbol, h.mem_symbols.mpr hsymbol, by rw [htype]⟩

theorem ordered_concat (h : s.Keeps history) (symbol : Symbol) :
    (names s.symbols).Pairwise (Precedes (history ++ [symbol])) := by
  apply h.ordered.imp_of_mem
  intro name other hname hother hlt
  exact hlt.concat (h.mem_names.mp hname) (h.mem_names.mp hother) symbol

/-- A name that is declared again stays what it was. -/
theorem again (h : s.Keeps history) (hold : symbol.name ∈ names history) :
    s.Keeps (history ++ [symbol]) where
  found name := by
    rw [first?_concat, h.found]
    by_cases hname : symbol.name = name
    · subst hname
      obtain ⟨earlier, he⟩ := Option.isSome_iff_exists.mp (first?_isSome.mpr hold)
      simp [he]
    · simp [hname]
  ordered := h.ordered_concat symbol

/-- A new name is added at the end. -/
theorem concat (h : s.Keeps history) (hnew : symbol.name ∉ names history) :
    Keeps ⟨s.symbols ++ [symbol]⟩ (history ++ [symbol]) where
  found name := by
    have hs : find? ⟨s.symbols ++ [symbol]⟩ name =
        (s.find? name).or (if symbol.name = name then some symbol else none) :=
      first?_concat s.symbols symbol name
    rw [hs, h.found, first?_concat]
  ordered := by
    rw [names_concat, List.pairwise_append]
    refine ⟨h.ordered_concat symbol, List.pairwise_singleton _ _, ?_⟩
    intro name hname other hother
    obtain rfl : other = symbol.name := List.mem_singleton.mp hother
    exact precedes_new (h.mem_names.mp hname) hnew

theorem empty : Keeps {} [] := ⟨fun _ => rfl, .nil⟩

/-- A declaration is refused if the name has been declared before, and carried out otherwise. -/
theorem declare (h : s.Keeps history) (symbol : Symbol) :
    Settles history (.declare symbol) (s.call (.declare symbol)).1 ∧
      (s.call (.declare symbol)).2.Keeps (history ++ [symbol]) := by
  by_cases hold : symbol.name ∈ names history
  · have hcall : s.call (.declare symbol) =
        (.error ⟨.redeclared symbol.name, symbol.span⟩, s) := by
      simp [call, Scope.declare, h.contains_eq, hold]
    rw [hcall]
    exact ⟨.redeclared hold ⟨rfl, rfl, rfl⟩, h.again hold⟩
  · have hcall : s.call (.declare symbol) =
        (.ok (.declared symbol), ⟨s.symbols ++ [symbol]⟩) := by
      simp [call, Scope.declare, h.contains_eq, hold]
    rw [hcall]
    exact ⟨.declared hold, h.concat hold⟩

/-- A name that is needed has its first type, or it is refused. -/
theorem require (h : s.Keeps history) (name : Text) (span : Option Span) :
    Settles history (.require name span) (s.call (.require name span)).1 := by
  cases hfirst : first? history name with
  | some symbol =>
    have hcall : (s.call (.require name span)).1 = .ok (.required symbol.type) := by
      simp [call, Scope.require, h.lookup_eq, hfirst, Except.map]
    rw [hcall]
    exact .required hfirst
  | none =>
    have hcall : (s.call (.require name span)).1 = .error ⟨.undefined name, span⟩ := by
      simp [call, Scope.require, h.lookup_eq, hfirst, Except.map]
    rw [hcall]
    exact .undefined (first?_eq_none.mp hfirst) ⟨rfl, rfl, rfl⟩

/-- What one call does: the history settles it, and afterwards the scope holds the first
declarations of the history that the call leaves. -/
theorem step (h : s.Keeps history) (c : Call) :
    Settles history c (s.call c).1 ∧ (s.call c).2.Keeps (history ++ c.asked?.toList) := by
  have hsame : s.Keeps (history ++ []) := by rwa [List.append_nil]
  cases c with
  | declare symbol => exact h.declare symbol
  | require name span => exact ⟨h.require name span, hsame⟩
  | lookup name =>
    refine ⟨?_, hsame⟩
    rw [call, h.lookup_eq]
    exact .lookup
  | contains name =>
    refine ⟨?_, hsame⟩
    rw [call, h.contains_eq]
    exact .contains
  | size =>
    refine ⟨?_, hsame⟩
    rw [call, h.size_eq]
    exact .size
  | entries => exact ⟨.entries h.listsFirsts, hsame⟩

/-- What a whole run does. -/
theorem run (h : s.Keeps history) (calls : List Call) :
    (s.run calls).2.Keeps (history ++ asked calls) := by
  induction calls generalizing s history with
  | nil =>
    rw [asked, List.filterMap_nil, List.append_nil]
    exact h
  | cons c rest ih =>
    have hasked : asked (c :: rest) = c.asked?.toList ++ asked rest := by
      unfold asked
      cases c <;> rfl
    rw [hasked, ← List.append_assoc]
    exact ih (h.step c).2

end Keeps

section Runs

variable {s : Scope} {c : Call} {f : Finding}

theorem run_append (s : Scope) (first second : List Call) :
    (s.run (first ++ second)).1 = (s.run first).1 ++ ((s.run first).2.run second).1 := by
  induction first generalizing s with
  | nil => rfl
  | cons c rest ih => exact congrArg ((s.call c).1 :: ·) (ih (s.call c).2)

theorem length_run (s : Scope) (calls : List Call) : (s.run calls).1.length = calls.length := by
  induction calls generalizing s with
  | nil => rfl
  | cons c rest ih => exact congrArg (· + 1) (ih (s.call c).2)

/-- A call that is refused leaves the scope alone. -/
theorem call_refused (h : (s.call c).1 = .error f) : (s.call c).2 = s := by
  cases c with
  | declare symbol =>
    cases hdeclare : s.declare symbol with
    | ok next => simp [call, hdeclare] at h
    | error finding => simp [call, hdeclare]
  | _ => rfl

end Runs

/-- A scope refines the history of its declarations. After any calls, the next one has an answer that
the declarations before it settle, and no later call takes that answer back. If the call is refused,
those that follow are answered as if it had not been made. -/
theorem answers_settled (before : List Call) (c : Call) :
    (answers before).length = before.length ∧
    ∃ outcome, Settles (asked before) c outcome ∧
      ∀ later, ∃ rest, answers (before ++ c :: later) = answers before ++ outcome :: rest ∧
        ∀ f, outcome = .error f → rest = (answers (before ++ later)).drop before.length := by
  let s : Scope := (run {} before).2
  have hkeeps : s.Keeps (asked before) := by
    have hrun := Keeps.empty.run before
    rwa [List.nil_append] at hrun
  have hlength : (answers before).length = before.length := length_run {} before
  refine ⟨hlength, (s.call c).1, (hkeeps.step c).1, fun later => ?_⟩
  refine ⟨((s.call c).2.run later).1, run_append {} before (c :: later), fun f hf => ?_⟩
  have hlater : answers (before ++ later) = answers before ++ (s.run later).1 :=
    run_append {} before later
  rw [call_refused hf, hlater, ← hlength, List.drop_left]

end Scope

end TreeCheck

import TreeCheck.Command
import TreeCheck.Proofs.Check.Counting
import TreeCheck.Proofs.Json.Lines

namespace TreeCheck

namespace Usage

/-- A number that stands before the text ends where the text begins. -/
def stops (text : List Char) : Bool := text.head?.any fun c => !c.isDigit

theorem takeWhile_stops {text : List Char} (h : stops text = true) :
    text.takeWhile Char.isDigit = [] := by
  cases text with
  | nil => rfl
  | cons c rest =>
    have hc : c.isDigit = false := by simpa [stops] using h
    rw [List.takeWhile_cons, hc]
    rfl

theorem takeWhile_digits (n : Nat) {text : List Char} (h : stops text = true) :
    (Nat.toDigits 10 n ++ text).takeWhile Char.isDigit = Nat.toDigits 10 n := by
  rw [List.takeWhile_append_of_pos (Json.toDigits_isDigits n).2, takeWhile_stops h, List.append_nil]

theorem digits_cancel {m n : Nat} {text other : List Char} (ht : stops text = true)
    (ho : stops other = true) (h : Nat.toDigits 10 m ++ text = Nat.toDigits 10 n ++ other) :
    m = n ∧ text = other := by
  have hdigits : Nat.toDigits 10 m = Nat.toDigits 10 n := by
    rw [← takeWhile_digits m ht, h, takeWhile_digits n ho]
  have hread : m = n := by
    rw [← Nat.ofDigitChars_ten_toDigits (n := m), hdigits, Nat.ofDigitChars_ten_toDigits]
  rw [hdigits] at h
  exact ⟨hread, List.append_cancel_left h⟩

theorem minus_ne_digits (n : Nat) (text other : List Char) :
    '-' :: text ≠ Nat.toDigits 10 n ++ other := by
  intro h
  cases hdigits : Nat.toDigits 10 n with
  | nil => exact Nat.toDigits_ne_nil hdigits
  | cons c rest =>
    rw [hdigits] at h
    have hc : c.isDigit = true := (Json.toDigits_isDigits n).2 c (by simp [hdigits])
    rw [← (List.cons.inj h).1] at hc
    exact absurd hc (by decide)

/-- A number is told from what follows it. -/
theorem intText_cancel {m n : Int} {text other : List Char} (ht : stops text = true)
    (ho : stops other = true) (h : Number.intText m ++ text = Number.intText n ++ other) :
    m = n ∧ text = other := by
  unfold Number.intText Decimal.ofNat at h
  split at h <;> split at h
  · obtain ⟨habs, hrest⟩ := digits_cancel ht ho (List.cons.inj h).2
    exact ⟨by omega, hrest⟩
  · exact absurd h (minus_ne_digits _ _ _)
  · exact absurd h.symm (minus_ne_digits _ _ _)
  · obtain ⟨habs, hrest⟩ := digits_cancel ht ho h
    exact ⟨by omega, hrest⟩

/-- The readings of some counters, each after a text of its own. -/
def spelled (lead : Counter → List Char) (close : List Char) (u : Usage) :
    List Counter → List Char
  | [] => close
  | k :: rest => lead k ++ (Number.intText (u.get k) ++ spelled lead close u rest)

section Spelled

variable {lead : Counter → List Char} {close : List Char} {u v : Usage}

theorem stops_spelled (hlead : ∀ k, stops (lead k) = true) (hclose : stops close = true)
    (list : List Counter) : stops (spelled lead close u list) = true := by
  cases list with
  | nil => exact hclose
  | cons k rest =>
    have hk := hlead k
    rw [spelled]
    cases hl : lead k with
    | nil =>
      rw [hl] at hk
      cases hk
    | cons c more =>
      rw [hl] at hk
      exact hk

theorem get_eq_of_spelled (hlead : ∀ k, stops (lead k) = true) (hclose : stops close = true)
    {list : List Counter} (h : spelled lead close u list = spelled lead close v list) :
    ∀ k ∈ list, u.get k = v.get k := by
  induction list with
  | nil => intro k hk; cases hk
  | cons first rest ih =>
    obtain ⟨hfirst, hrest⟩ := intText_cancel (stops_spelled hlead hclose rest)
      (stops_spelled hlead hclose rest) (List.append_cancel_left h)
    intro k hk
    cases List.mem_cons.mp hk with
    | inl hk => rw [hk, hfirst]
    | inr hk => exact ih hrest k hk

theorem eq_of_spelled (hlead : ∀ k, stops (lead k) = true) (hclose : stops close = true)
    (h : spelled lead close u Counter.all = spelled lead close v Counter.all) : u = v :=
  eq_of_get fun k => get_eq_of_spelled hlead hclose h k (by cases k <;> decide)

end Spelled

/-- What stands before a reading in the summary. -/
def summaryLead (k : Counter) : List Char :=
  (if k = .var then ['{'] else [',', ' ']) ++ k.name.toList ++ [':']

theorem repr_toList (n : Int) : n.repr.toList = Number.intText n := by
  cases n with
  | ofNat n =>
    have hpos : ¬ Int.ofNat n < 0 := Int.not_lt.mpr (Int.natCast_nonneg n)
    rw [Number.intText, if_neg hpos]
    exact Nat.toList_repr
  | negSucc n =>
    rw [Number.intText, if_pos (Int.negSucc_lt_zero n), Int.repr, String.toList_append,
      Nat.toList_repr]
    rfl

theorem summary_eq (u : Usage) :
    u.summary = Text.ofList (spelled summaryLead ['}'] u Counter.all) := by
  have hreading (n : Int) : Text.ofString n.repr = Text.ofList (Number.intText n) :=
    congrArg Text.ofList (repr_toList n)
  have hlead (k : Counter) : Text.ofList (summaryLead k) =
      (if k = .var then ↑"\x7b" else ↑", ") ++ ↑k.name ++ ↑":" := by
    cases k <;> decide
  have hclose : Text.ofList ['}'] = ↑"\x7d" := rfl
  simp only [spelled, Counter.all, Text.ofList_append, hlead, hclose, ← hreading]
  simp [summary, line, entries, Counter.all, Text.intercalate, Text.ext_iff, List.intercalate]

/-- The summary determines the counters. -/
theorem summary_inj {u v : Usage} (h : u.summary = v.summary) : u = v := by
  have hlist := congrArg Text.toString h
  rw [summary_eq, summary_eq, Text.toString_ofList, Text.toString_ofList, String.ofList_inj] at hlist
  exact eq_of_spelled (by intro k; cases k <;> decide) (by decide) hlist

theorem usageJson_eq (u : Usage) : Command.usageJson u =
    .obj (Counter.all.map fun k => (↑k.name, .ofInt (u.get k))) := by
  rw [Command.usageJson, entries, List.map_map]
  rfl

/-- A JSON text holds every reading in full. -/
def Exact (u : Usage) : Prop := ∀ k, 0 ≤ u.get k ∧ u.get k ≤ 2 ^ 53

theorem Exact.plain_get {u : Usage} (h : u.Exact) (k : Counter) : (Json.ofInt (u.get k)).Plain := by
  have hk := h k
  exact .ofInt (by omega)

theorem Exact.plain {u : Usage} (h : u.Exact) : (Command.usageJson u).Plain := by
  rw [usageJson_eq]
  refine .obj ?_ fun field hf => ?_
  · rw [Record.names, List.map_map]
    exact (by decide : (Counter.all.map fun k => Text.ofString k.name).Nodup)
  · obtain ⟨k, _, rfl⟩ := List.mem_map.mp hf
    exact h.plain_get k

/-- The JSON text determines the counters that it holds in full. -/
theorem compact_inj {u v : Usage} (hu : u.Exact) (hv : v.Exact)
    (h : (Command.usageJson u).compact = (Command.usageJson v).compact) : u = v := by
  have hjson : Command.usageJson u = Command.usageJson v := by
    rw [← Option.some_inj, ← hu.plain.parse?_compact, h, hv.plain.parse?_compact]
  rw [usageJson_eq, usageJson_eq] at hjson
  refine eq_of_get fun k => ?_
  have hfields := List.map_inj_left.mp (Json.obj.inj hjson) k (by cases k <;> decide)
  exact (Number.finite.inj (Json.num.inj (Prod.mk.inj hfields).2)).1

end Usage

theorem length_visitsFrom_le {list : List Node}
    (h : ∀ c ∈ list, ∀ place, (visits place c).length ≤ c.nodes.length)
    (child : Nat → Kind → Option Place) (index : Nat) :
    (visitsFrom child index list).length ≤ (list.flatMap Node.nodes).length := by
  induction list generalizing index with
  | nil => exact Nat.le_refl 0
  | cons c rest ih =>
    have hrest := ih (fun d hd => h d (List.mem_cons_of_mem c hd)) (index + 1)
    rw [visitsFrom, List.flatMap_cons, List.length_append, List.length_append]
    cases child index c.kind with
    | none =>
      rw [List.length_nil, Nat.zero_add]
      exact Nat.le_add_left_of_le hrest
    | some place => exact Nat.add_le_add (h c List.mem_cons_self place) hrest

/-- A node is checked in one place at most. -/
theorem length_visits_le (n : Node) : ∀ place, (visits place n).length ≤ n.nodes.length := by
  induction n using Node.childInduction with
  | step n ih =>
    intro place
    rw [visits_eq, Node.nodes_eq, List.length_cons, List.length_cons]
    exact Nat.succ_le_succ (length_visitsFrom_le ih (place.child n.kind n.value) 0)

/-- No counter of an accepted program exceeds the number of its nodes. -/
theorem usage_le_nodes {logger : Logger} {traceTypes : Bool} {program : Node} {analysis : Analysis}
    (h : (analyzeAlone logger traceTypes program).outcome = .ok analysis) (k : Counter) :
    0 ≤ analysis.usage.get k ∧ analysis.usage.get k ≤ program.nodes.length := by
  obtain ⟨t, ht, rfl⟩ := analyzeAlone_ok h
  have husage := ((Check.visit_covers none program).ok ht).usage k
  have hcost : Check.costOf (visits (.statement none) program) k ≤ program.nodes.length :=
    Nat.le_trans List.countP_le_length (length_visits_le program (.statement none))
  have hzero : (State.usage {}).get k = 0 := by cases k <;> rfl
  rw [hzero, Int.zero_add] at husage
  change 0 ≤ t.usage.get k ∧ t.usage.get k ≤ program.nodes.length
  omega

theorem usage_exact {logger : Logger} {traceTypes : Bool} {program : Node} {analysis : Analysis}
    (h : (analyzeAlone logger traceTypes program).outcome = .ok analysis)
    (hn : program.nodes.length ≤ 2 ^ 53) : analysis.usage.Exact := by
  intro k
  have hk := usage_le_nodes h k
  omega

end TreeCheck

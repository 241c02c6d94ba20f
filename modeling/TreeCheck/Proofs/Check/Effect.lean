import TreeCheck.Proofs.Check.Visit

namespace TreeCheck.Check

variable {α β : Type}

theorem bind_eq_ok {check : Check α} {next : α → Check β} {s t : State} {b : β} :
    (check >>= next) s = .ok b t ↔ ∃ a u, check s = .ok a u ∧ next a u = .ok b t := by
  change EStateM.bind check next s = _ ↔ _
  unfold EStateM.bind
  cases check s with
  | ok a u => simp [and_assoc]
  | error f u => simp

theorem bind_eq_error {check : Check α} {next : α → Check β} {s t : State} {f : Finding} :
    (check >>= next) s = .error f t ↔
      check s = .error f t ∨ ∃ a u, check s = .ok a u ∧ next a u = .error f t := by
  change EStateM.bind check next s = _ ↔ _
  unfold EStateM.bind
  cases check s with
  | ok a u => simp [and_assoc]
  | error f u => simp

theorem lift_eq_ok {result : Except Finding α} {s t : State} {a : α} :
    lift result s = .ok a t ↔ result = .ok a ∧ s = t := by
  cases result with
  | ok value =>
    change EStateM.Result.ok value s = _ ↔ _
    simp
  | error finding =>
    change EStateM.Result.error finding s = _ ↔ _
    simp

theorem lift_eq_error {result : Except Finding α} {s t : State} {f : Finding} :
    lift result s = .error f t ↔ result = .error f ∧ s = t := by
  cases result with
  | ok value =>
    change EStateM.Result.ok value s = _ ↔ _
    simp
  | error finding =>
    change EStateM.Result.error finding s = _ ↔ _
    simp

/-- The state after a success: these entries are declared, and the counters have moved by the
cost. -/
structure Reached (s : State) (entries : List (Option Symbol)) (cost : Counter → Nat)
    (t : State) : Prop where
  symbols : t.scope.symbols.map some = s.scope.symbols.map some ++ entries
  usage : ∀ k, t.usage.get k = s.usage.get k + cost k

/-- The state after a failure on the way there: a first part of the entries is declared, and no
counter has moved back or further than the cost. -/
structure Stopped (s : State) (entries : List (Option Symbol)) (cost : Counter → Nat)
    (t : State) : Prop where
  symbols : ∃ part, part <+: entries ∧ t.scope.symbols.map some = s.scope.symbols.map some ++ part
  usage : ∀ k, s.usage.get k ≤ t.usage.get k ∧ t.usage.get k ≤ s.usage.get k + cost k

/-- The scope after a success. -/
theorem Reached.scope {s t : State} {entries : List (Option Symbol)} {cost : Counter → Nat}
    (h : Reached s entries cost t) : t.scope = ⟨s.scope.symbols ++ entries.filterMap id⟩ := by
  have hs : t.scope.symbols = s.scope.symbols ++ entries.filterMap id := by
    simpa using congrArg (List.filterMap id) h.symbols
  exact congrArg Scope.mk hs

theorem Reached.refl (s : State) : Reached s [] (fun _ => 0) s :=
  ⟨by simp, fun k => by simp⟩

theorem Stopped.refl (s : State) (entries : List (Option Symbol)) (cost : Counter → Nat) :
    Stopped s entries cost s :=
  ⟨⟨[], List.nil_prefix, by simp⟩, fun k => by omega⟩

section Sequence

variable {s t u : State} {first second : List (Option Symbol)} {c d : Counter → Nat}

theorem Reached.trans (h : Reached s first c t) (h' : Reached t second d u) :
    Reached s (first ++ second) (fun k => c k + d k) u := by
  constructor
  · rw [h'.symbols, h.symbols, List.append_assoc]
  · intro k
    have hc := h.usage k
    have hd := h'.usage k
    omega

theorem Reached.stopped (h : Reached s first c t) (h' : Stopped t second d u) :
    Stopped s (first ++ second) (fun k => c k + d k) u := by
  obtain ⟨part, hp, hu⟩ := h'.symbols
  constructor
  · refine ⟨first ++ part, (List.prefix_append_right_inj first).mpr hp, ?_⟩
    rw [hu, h.symbols, List.append_assoc]
  · intro k
    have hc := h.usage k
    have hd := h'.usage k
    omega

theorem Stopped.mono (h : Stopped s first c t) (more : List (Option Symbol))
    (hcd : ∀ k, c k ≤ d k) : Stopped s (first ++ more) d t := by
  obtain ⟨part, hp, hu⟩ := h.symbols
  constructor
  · exact ⟨part, hp.trans (List.prefix_append first more), hu⟩
  · intro k
    have hk := h.usage k
    have hd := hcd k
    omega

end Sequence

/-- A check that declares these entries at this cost when it succeeds, and keeps within them when it
fails. -/
structure Effect (check : Check α) (entries : List (Option Symbol)) (cost : Counter → Nat) :
    Prop where
  ok : ∀ {s t a}, check s = .ok a t → Reached s entries cost t
  error : ∀ {s t f}, check s = .error f t → Stopped s entries cost t

/-- A counter that moves by one. -/
def once (counter : Counter) : Counter → Nat := fun k => if k = counter then 1 else 0

namespace Effect

variable {entries first second : List (Option Symbol)} {cost c d : Counter → Nat}

theorem pure (a : α) : Effect (Pure.pure a : Check α) [] fun _ => 0 where
  ok {s t b} h := by
    cases h
    exact Reached.refl s
  error h := by cases h

theorem throw (f : Finding) : Effect (throw f : Check α) entries cost where
  ok h := by cases h
  error {s t g} h := by
    cases h
    exact Stopped.refl s entries cost

theorem bind {check : Check α} {next : α → Check β} (hc : Effect check first c)
    (hn : ∀ a, Effect (next a) second d) :
    Effect (check >>= next) (first ++ second) fun k => c k + d k where
  ok h := by
    obtain ⟨a, u, ha, hb⟩ := bind_eq_ok.mp h
    exact (hc.ok ha).trans ((hn a).ok hb)
  error h := by
    rcases bind_eq_error.mp h with ha | ⟨a, u, ha, hb⟩
    · exact (hc.error ha).mono second fun k => by omega
    · exact (hc.ok ha).stopped ((hn a).error hb)

/-- A lookup in the tree changes nothing, and what follows may depend on what was found. -/
theorem lift_bind {result : Except Finding α} {next : α → Check β}
    (h : ∀ a, result = .ok a → Effect (next a) entries cost) :
    Effect (lift result >>= next) entries cost where
  ok hb := by
    obtain ⟨a, u, ha, hb⟩ := bind_eq_ok.mp hb
    obtain ⟨hr, rfl⟩ := lift_eq_ok.mp ha
    exact (h a hr).ok hb
  error {s t f} hb := by
    rcases bind_eq_error.mp hb with ha | ⟨a, u, ha, hb⟩
    · obtain ⟨-, rfl⟩ := lift_eq_error.mp ha
      exact Stopped.refl s entries cost
    · obtain ⟨hr, rfl⟩ := lift_eq_ok.mp ha
      exact (h a hr).error hb

theorem count (counter : Counter) : Effect (Check.count counter) [] (once counter) where
  ok {s t a} h := by
    cases h
    constructor
    · simp
    · intro k
      cases counter <;> cases k <;> simp [Usage.add, Usage.get, once]
  error h := by cases h

theorem declare (symbol : Symbol) :
    Effect (Check.declare symbol) [some symbol] fun _ => 0 where
  ok {s t a} h := by
    unfold Check.declare Scope.declare at h
    by_cases hs : s.scope.contains symbol.name
    · simp [hs] at h
    · simp only [hs] at h
      cases h
      exact ⟨by simp, fun k => by simp⟩
  error {s t f} h := by
    unfold Check.declare Scope.declare at h
    by_cases hs : s.scope.contains symbol.name
    · simp only [hs, if_true] at h
      cases h
      exact Stopped.refl s _ _
    · simp [hs] at h

theorem require (name : Text) (span : Option Span) :
    Effect (Check.require name span) [] fun _ => 0 where
  ok {s t a} h := by
    unfold Check.require at h
    cases hs : s.scope.require name span with
    | ok type =>
      simp only [hs] at h
      cases h
      exact Reached.refl s
    | error finding => simp [hs] at h
  error {s t f} h := by
    unfold Check.require at h
    cases hs : s.scope.require name span with
    | ok type => simp [hs] at h
    | error finding =>
      simp only [hs] at h
      cases h
      exact Stopped.refl s _ _

/-- A condition that ends the walk when it is met. -/
theorem guard (p : Prop) [Decidable p] (f : Finding) :
    Effect (if p then MonadExcept.throw f else Pure.pure () : Check Unit) [] fun _ => 0 := by
  split
  · exact throw f
  · exact pure ()

theorem traced {check : Check Ty} (kind : Kind) (h : Effect check entries cost) :
    Effect (Check.traced kind check) entries cost where
  ok {s t a} ht := by
    obtain ⟨b, u, hb, hu⟩ := bind_eq_ok.mp ht
    cases hu
    exact ⟨(h.ok hb).symbols, (h.ok hb).usage⟩
  error {s t f} ht := by
    rcases bind_eq_error.mp ht with hb | ⟨b, u, -, hu⟩
    · exact h.error hb
    · cases hu

end Effect

/-- What positions declare, in order. -/
def entriesOf (vs : List Visit) : List (Option Symbol) :=
  (vs.filter Visit.declares).map (·.node.symbol?)

/-- What positions count for. -/
def costOf (vs : List Visit) (counter : Counter) : Nat := vs.countP (·.counts counter)

theorem entriesOf_append (vs ws : List Visit) :
    entriesOf (vs ++ ws) = entriesOf vs ++ entriesOf ws := by
  simp [entriesOf]

theorem entriesOf_cons_of_not {v : Visit} (vs : List Visit) (hv : v.declares = false) :
    entriesOf (v :: vs) = entriesOf vs := by
  simp [entriesOf, hv]

theorem costOf_append (vs ws : List Visit) (k : Counter) :
    costOf (vs ++ ws) k = costOf vs k + costOf ws k := by
  simp [costOf]

theorem costOf_cons (v : Visit) (vs : List Visit) (k : Counter) :
    costOf (v :: vs) k = costOf vs k + if v.counts k then 1 else 0 := by
  simp [costOf, List.countP_cons]

/-- A check whose effect is that of the positions. -/
abbrev Covers (check : Check α) (vs : List Visit) : Prop :=
  Effect check (entriesOf vs) (costOf vs)

namespace Covers

variable {check : Check α} {vs ws : List Visit} {v : Visit}

theorem bind {next : α → Check β} (hc : Covers check vs) (hn : ∀ a, Covers (next a) ws) :
    Covers (check >>= next) (vs ++ ws) := by
  have h := Effect.bind hc hn
  rw [← entriesOf_append] at h
  have hk : (fun k => costOf vs k + costOf ws k) = costOf (vs ++ ws) :=
    funext fun k => (costOf_append vs ws k).symm
  rwa [hk] at h

/-- A check followed by steps without any effect on scope or counters. -/
theorem bind_idle {next : α → Check β} (hc : Covers check vs)
    (hn : ∀ a, Effect (next a) [] fun _ => 0) : Covers (check >>= next) vs := by
  have h := Effect.bind hc hn
  rwa [List.append_nil] at h

/-- A node counts for itself on top of its parts; only declarations declare. -/
theorem own (hv : v.declares = false)
    (h : Effect check (entriesOf vs) fun k => costOf vs k + if v.counts k then 1 else 0) :
    Covers check (v :: vs) := by
  unfold Covers
  rwa [entriesOf_cons_of_not vs hv, funext (costOf_cons v vs)]

/-- A node that counts for nothing itself. -/
theorem below (hv : v.declares = false) (hk : ∀ k, v.counts k = false)
    (h : Covers check vs) : Covers check (v :: vs) := by
  apply own hv
  simpa [hk] using h

/-- A node that moves one counter, which happens after the check of its parts. -/
theorem counted {next : α → Check β} {counter : Counter} (hv : v.declares = false)
    (hk : ∀ k, v.counts k = decide (k = counter)) (h : Covers check vs)
    (hn : ∀ a, Effect (next a) [] (once counter)) : Covers (check >>= next) (v :: vs) := by
  apply own hv
  have hb := Effect.bind h hn
  simpa [hk, once] using hb

end Covers

/-- Counting and then returning something. -/
theorem count_then (counter : Counter) (a : α) :
    Effect (do count counter; return a) [] (once counter) :=
  Effect.bind (Effect.count counter) fun _ => Effect.pure a

end TreeCheck.Check

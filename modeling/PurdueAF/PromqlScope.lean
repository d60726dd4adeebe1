import PurdueAF.Binary64
import PurdueAF.Dict

/-!
# Scoping a PromQL query

`Scope` of `promql-scope/main.go` adds matchers to every selector of a query, prints it and
checks what it printed. Prometheus' parser and printer are parameters; of its evaluator it is
taken that a query reads the stored series through its vector selectors, and that only
`absent` and `absent_over_time` look at a selector's matchers besides: they derive the labels
of their result from them.
-/
namespace PurdueAF.PromqlScope

/-- `labels.MatchType`. -/
inductive MatchType
  | equal | notEqual | regexp | notRegexp
  deriving DecidableEq, Repr

/-- `labels.Matcher`. -/
structure Matcher where
  type : MatchType
  name : String
  value : String
  deriving DecidableEq, Repr

/-- A duration that is written as an expression; no selector stands in one. -/
inductive DurationExpr
  | number (val : Binary64.Value)
  | node (op : String) (lhs rhs : Option DurationExpr) (wrapped : Bool)

/-- Offset and `@` of a selector or a subquery. -/
structure Modifiers where
  originalOffset : ℤ
  originalOffsetExpr : Option DurationExpr
  timestamp : Option ℤ
  startOrEnd : Option String
  anchored : Bool
  smoothed : Bool

/-- `parser.VectorSelector`, its matchers less the one that the parser adds for the name:
the printer leaves that one out, and parsing adds it again after the others. -/
structure VectorSelector where
  name : String
  modifiers : Modifiers
  matchers : List Matcher

def VectorSelector.labelMatchers (s : VectorSelector) : List Matcher :=
  s.matchers ++ if s.name = "" then [] else [⟨.equal, "__name__", s.name⟩]

structure VectorMatching where
  card : String
  matchingLabels : List String
  on : Bool
  includes : List String
  fillValues : Option Binary64.Value × Option Binary64.Value

/-- `parser.Expr`, over what its selectors are. -/
inductive Expr (σ : Type)
  | vectorSelector (s : σ)
  | matrixSelector (s : σ) (range : ℤ) (rangeExpr : Option DurationExpr)
  | aggregate (op : String) (expr : Expr σ) (param : Option (Expr σ)) (grouping : List String)
      (without : Bool)
  | binary (op : String) (lhs rhs : Expr σ) (vectorMatching : Option VectorMatching)
      (returnBool : Bool)
  | call (func : String) (args : List (Expr σ))
  | subquery (expr : Expr σ) (range : ℤ) (rangeExpr : Option DurationExpr)
      (modifiers : Modifiers) (step : ℤ) (stepExpr : Option DurationExpr)
  | numberLiteral (val : Binary64.Value) (duration : Bool)
  | stringLiteral (val : String)
  | paren (expr : Expr σ)
  | unary (op : String) (expr : Expr σ)
  | stepInvariant (expr : Expr σ)

abbrev Query := Expr VectorSelector

/-- Whether a function derives the labels of its result from its argument's matchers. -/
def derivesLabels (func : String) : Bool := func = "absent" || func = "absent_over_time"

variable {σ τ υ : Type}

namespace Expr

-- The walk of `parser.Inspect` over a node's children. A selector is given with whether
-- `absent` or `absent_over_time` is applied to it.
mutual
def map (f : Bool → σ → τ) (absent : Bool) : Expr σ → Expr τ
  | .vectorSelector s => .vectorSelector (f absent s)
  | .matrixSelector s range rangeExpr => .matrixSelector (f absent s) range rangeExpr
  | .aggregate op e param grouping without =>
    .aggregate op (e.map f false) (mapParam f param) grouping without
  | .binary op lhs rhs matching returnBool =>
    .binary op (lhs.map f false) (rhs.map f false) matching returnBool
  | .call func args => .call func (mapArgs f (derivesLabels func) args)
  | .subquery e range rangeExpr modifiers step stepExpr =>
    .subquery (e.map f false) range rangeExpr modifiers step stepExpr
  | .numberLiteral val duration => .numberLiteral val duration
  | .stringLiteral val => .stringLiteral val
  | .paren e => .paren (e.map f absent)
  | .unary op e => .unary op (e.map f false)
  | .stepInvariant e => .stepInvariant (e.map f absent)

def mapParam (f : Bool → σ → τ) : Option (Expr σ) → Option (Expr τ)
  | none => none
  | some e => some (e.map f false)

def mapArgs (f : Bool → σ → τ) (absent : Bool) : List (Expr σ) → List (Expr τ)
  | [] => []
  | e :: es => e.map f absent :: mapArgs f absent es
end

-- The selectors in the order of the walk.
mutual
def visit (absent : Bool) : Expr σ → List (Bool × σ)
  | .vectorSelector s | .matrixSelector s _ _ => [(absent, s)]
  | .aggregate _ e param _ _ => e.visit false ++ visitParam param
  | .binary _ lhs rhs _ _ => lhs.visit false ++ rhs.visit false
  | .call func args => visitArgs (derivesLabels func) args
  | .subquery e _ _ _ _ _ | .unary _ e => e.visit false
  | .numberLiteral _ _ | .stringLiteral _ => []
  | .paren e | .stepInvariant e => e.visit absent

def visitParam : Option (Expr σ) → List (Bool × σ)
  | none => []
  | some e => e.visit false

def visitArgs (absent : Bool) : List (Expr σ) → List (Bool × σ)
  | [] => []
  | e :: es => e.visit absent ++ visitArgs absent es
end

def selectors (e : Expr σ) : List σ := (e.visit false).map Prod.snd

mutual
theorem map_map (f : Bool → σ → τ) (g : Bool → τ → υ) (absent : Bool) :
    ∀ e : Expr σ, (e.map f absent).map g absent = e.map (fun b s => g b (f b s)) absent
  | .vectorSelector s => by simp [map]
  | .matrixSelector s range rangeExpr => by simp [map]
  | .aggregate op e param grouping without => by
    simp [map, map_map f g false e, mapParam_mapParam f g param]
  | .binary op lhs rhs matching returnBool => by
    simp [map, map_map f g false lhs, map_map f g false rhs]
  | .call func args => by simp [map, mapArgs_mapArgs f g (derivesLabels func) args]
  | .subquery e range rangeExpr modifiers step stepExpr => by simp [map, map_map f g false e]
  | .numberLiteral val duration => by simp [map]
  | .stringLiteral val => by simp [map]
  | .paren e => by simp [map, map_map f g absent e]
  | .unary op e => by simp [map, map_map f g false e]
  | .stepInvariant e => by simp [map, map_map f g absent e]

theorem mapParam_mapParam (f : Bool → σ → τ) (g : Bool → τ → υ) :
    ∀ param : Option (Expr σ),
      mapParam g (mapParam f param) = mapParam (fun b s => g b (f b s)) param
  | none => by simp [mapParam]
  | some e => by simp [mapParam, map_map f g false e]

theorem mapArgs_mapArgs (f : Bool → σ → τ) (g : Bool → τ → υ) (absent : Bool) :
    ∀ args : List (Expr σ),
      mapArgs g absent (mapArgs f absent args) = mapArgs (fun b s => g b (f b s)) absent args
  | [] => by simp [mapArgs]
  | e :: es => by simp [mapArgs, map_map f g absent e, mapArgs_mapArgs f g absent es]
end

mutual
theorem visit_map (f : Bool → σ → τ) (absent : Bool) :
    ∀ e : Expr σ, (e.map f absent).visit absent = (e.visit absent).map fun x => (x.1, f x.1 x.2)
  | .vectorSelector s => by simp [map, visit]
  | .matrixSelector s range rangeExpr => by simp [map, visit]
  | .aggregate op e param grouping without => by
    simp [map, visit, visit_map f false e, visitParam_map f param]
  | .binary op lhs rhs matching returnBool => by
    simp [map, visit, visit_map f false lhs, visit_map f false rhs]
  | .call func args => by simp [map, visit, visitArgs_map f (derivesLabels func) args]
  | .subquery e range rangeExpr modifiers step stepExpr => by
    simp [map, visit, visit_map f false e]
  | .numberLiteral val duration => by simp [map, visit]
  | .stringLiteral val => by simp [map, visit]
  | .paren e => by simp [map, visit, visit_map f absent e]
  | .unary op e => by simp [map, visit, visit_map f false e]
  | .stepInvariant e => by simp [map, visit, visit_map f absent e]

theorem visitParam_map (f : Bool → σ → τ) :
    ∀ param : Option (Expr σ),
      visitParam (mapParam f param) = (visitParam param).map fun x => (x.1, f x.1 x.2)
  | none => by simp [mapParam, visitParam]
  | some e => by simp [mapParam, visitParam, visit_map f false e]

theorem visitArgs_map (f : Bool → σ → τ) (absent : Bool) :
    ∀ args : List (Expr σ),
      visitArgs absent (mapArgs f absent args) =
        (visitArgs absent args).map fun x => (x.1, f x.1 x.2)
  | [] => by simp [mapArgs, visitArgs]
  | e :: es => by simp [mapArgs, visitArgs, visit_map f absent e, visitArgs_map f absent es]
end

-- Two walks that treat every selector alike give the same tree.
mutual
theorem map_congr {f g : Bool → σ → τ} (absent : Bool) :
    ∀ e : Expr σ, (∀ x ∈ e.visit absent, f x.1 x.2 = g x.1 x.2) → e.map f absent = e.map g absent
  | .vectorSelector s, h => by simpa [map, visit] using h
  | .matrixSelector s range rangeExpr, h => by simpa [map, visit] using h
  | .aggregate op e param grouping without, h => by
    simp only [visit, List.forall_mem_append] at h
    simp only [map, map_congr false e h.1, mapParam_congr param h.2]
  | .binary op lhs rhs matching returnBool, h => by
    simp only [visit, List.forall_mem_append] at h
    simp only [map, map_congr false lhs h.1, map_congr false rhs h.2]
  | .call func args, h => by
    simp only [visit] at h
    simp only [map, mapArgs_congr (derivesLabels func) args h]
  | .subquery e range rangeExpr modifiers step stepExpr, h => by
    simp only [visit] at h
    simp only [map, map_congr false e h]
  | .numberLiteral val duration, h => by simp only [map]
  | .stringLiteral val, h => by simp only [map]
  | .paren e, h => by
    simp only [visit] at h
    simp only [map, map_congr absent e h]
  | .unary op e, h => by
    simp only [visit] at h
    simp only [map, map_congr false e h]
  | .stepInvariant e, h => by
    simp only [visit] at h
    simp only [map, map_congr absent e h]

theorem mapParam_congr {f g : Bool → σ → τ} :
    ∀ param : Option (Expr σ), (∀ x ∈ visitParam param, f x.1 x.2 = g x.1 x.2) →
      mapParam f param = mapParam g param
  | none, h => by simp only [mapParam]
  | some e, h => by
    simp only [visitParam] at h
    simp only [mapParam, map_congr false e h]

theorem mapArgs_congr {f g : Bool → σ → τ} (absent : Bool) :
    ∀ args : List (Expr σ), (∀ x ∈ visitArgs absent args, f x.1 x.2 = g x.1 x.2) →
      mapArgs f absent args = mapArgs g absent args
  | [], h => by simp only [mapArgs]
  | e :: es, h => by
    simp only [visitArgs, List.forall_mem_append] at h
    simp only [mapArgs, map_congr absent e h.1, mapArgs_congr absent es h.2]
end

end Expr

def matchTypes : Dict String MatchType :=
  [("=", .equal), ("!=", .notEqual), ("=~", .regexp), ("!~", .notRegexp)]

/-- A matcher of a request. -/
structure RequestMatcher where
  name : String
  type : String
  value : String

structure Request where
  query : String
  matchers : List RequestMatcher

structure Response where
  query : String
  error : String
  deriving DecidableEq

/-- Prometheus' parser and printer, what its compiler says of a regular expression that is
none, and Go's `%q`. -/
structure Prometheus where
  parse : String → Except String Query
  print : Query → String
  regexError : String → Option String
  quote : String → String

def VectorSelector.enforce (enforced : List Matcher) (s : VectorSelector) : VectorSelector where
  name := s.name
  modifiers := s.modifiers
  matchers := s.matchers ++ enforced

/-- `selector.LabelMatchers = append(selector.LabelMatchers, enforced...)` at every selector. -/
def enforce (enforced : List Matcher) (e : Query) : Query :=
  e.map (fun _ s => s.enforce enforced) false

/-- Whether a selector carries a matcher equal to `want`. -/
def has (s : VectorSelector) (want : Matcher) : Bool :=
  s.labelMatchers.any fun m => m.name = want.name && m.type = want.type && m.value = want.value

namespace Prometheus
variable (p : Prometheus)

def newMatcher (t : MatchType) (m : RequestMatcher) : Except String Matcher :=
  match t, p.regexError m.value with
  | .regexp, some e | .notRegexp, some e => .error e
  | _, _ => .ok ⟨t, m.name, m.value⟩

def build : List RequestMatcher → Except String (List Matcher)
  | [] => .ok []
  | m :: ms =>
    match matchTypes.get? m.type with
    | none => .error ("unknown matcher type " ++ p.quote m.type)
    | some t => do
      let built ← p.newMatcher t m
      let rest ← build ms
      return built :: rest

def scope (query : String) (enforced : List Matcher) : Except String String := do
  let expr ← p.parse query
  let printed := p.print (enforce enforced expr)
  -- The printed query is what runs, so it is parsed again and checked.
  match p.parse printed with
  | .error e => .error ("the scoped query does not parse: " ++ e)
  | .ok reparsed =>
    if reparsed.selectors.all fun s => enforced.all (has s) then .ok printed
    else .error "a selector lost its scope when printed"

def run (req : Request) : Response :=
  match p.build req.matchers with
  | .error e => ⟨"", "bad matcher: " ++ e⟩
  | .ok enforced =>
    match p.scope req.query enforced with
    | .error e => ⟨"", e⟩
    | .ok printed => ⟨printed, ""⟩

variable {p}

theorem has_iff {s : VectorSelector} {want : Matcher} : has s want = true ↔ want ∈ s.labelMatchers := by
  simp only [has, List.any_eq_true, Bool.and_eq_true, decide_eq_true_eq]
  constructor
  · rintro ⟨m, hm, ⟨hname, htype⟩, hvalue⟩
    have heq : m = want := by
      cases m
      cases want
      simp only at hname htype hvalue
      rw [hname, htype, hvalue]
    exact heq ▸ hm
  · intro h
    exact ⟨want, h, ⟨rfl, rfl⟩, rfl⟩

end Prometheus

theorem visit_enforce (enforced : List Matcher) (e : Query) :
    (enforce enforced e).visit false =
      (e.visit false).map fun x => (x.1, x.2.enforce enforced) :=
  Expr.visit_map _ _ e

theorem selectors_enforce (enforced : List Matcher) (e : Query) :
    (enforce enforced e).selectors = e.selectors.map (VectorSelector.enforce enforced) := by
  simp [Expr.selectors, visit_enforce]

/-- A query less what its selectors match. -/
def skeleton (e : Query) : Expr (String × Modifiers) := e.map (fun _ s => (s.name, s.modifiers)) false

theorem skeleton_enforce (enforced : List Matcher) (e : Query) :
    skeleton (enforce enforced e) = skeleton e :=
  Expr.map_map _ _ _ e

/-- A series: its labels, and its samples. -/
structure Series (δ : Type) where
  labels : Dict String String
  samples : δ

/-- An absent label reads as the empty string; `re` says whether a regular expression matches
the whole of a text. -/
def Matcher.matches (re : String → String → Bool) (m : Matcher) (labels : Dict String String) : Bool :=
  let value := (labels.get? m.name).getD ""
  match m.type with
  | .equal => value = m.value
  | .notEqual => value ≠ m.value
  | .regexp => re m.value value
  | .notRegexp => !re m.value value

variable {δ ℓ β : Type}

def select (re : String → String → Bool) (ms : List Matcher) (stored : List (Series δ)) :
    List (Series δ) :=
  stored.filter fun s => ms.all fun m => m.matches re s.labels

/-- What evaluation sees of a selector: the series it selects, and the labels derived from
its matchers where `absent` or `absent_over_time` is applied to it. -/
structure View (δ ℓ : Type) where
  name : String
  modifiers : Modifiers
  series : List (Series δ)
  derived : Option ℓ

/-- Evaluation, given what it sees of each selector. -/
structure Evaluator (δ ℓ β : Type) where
  derive : List Matcher → ℓ
  value : Expr (View δ ℓ) → β

namespace Evaluator
variable (ev : Evaluator δ ℓ β) (re : String → String → Bool)

def view (stored : List (Series δ)) (absent : Bool) (s : VectorSelector) : View δ ℓ where
  name := s.name
  modifiers := s.modifiers
  series := select re s.labelMatchers stored
  derived := if absent then some (ev.derive s.matchers) else none

def evaluate (e : Query) (stored : List (Series δ)) : β :=
  ev.value (e.map (ev.view re stored) false)

theorem select_enforce (s : VectorSelector) (enforced : List Matcher) (stored : List (Series δ)) :
    select re (s.enforce enforced).labelMatchers stored =
      select re s.labelMatchers (select re enforced stored) := by
  unfold select
  rw [List.filter_filter]
  apply List.filter_congr
  intro x _
  simp only [VectorSelector.labelMatchers, VectorSelector.enforce, List.all_append]
  ac_rfl

/-- A scoped selector over all series shows what the selector shows over the enforced ones. -/
theorem view_enforce {enforced : List Matcher} {absent : Bool} {s : VectorSelector}
    (stored : List (Series δ))
    (h : absent = true → ev.derive (s.matchers ++ enforced) = ev.derive s.matchers) :
    ev.view re stored absent (s.enforce enforced) =
      ev.view re (select re enforced stored) absent s := by
  unfold view
  rw [select_enforce]
  cases absent with
  | false => rfl
  | true => simp only [if_true, VectorSelector.enforce, h rfl]

theorem evaluate_enforce {enforced : List Matcher} {e : Query} (stored : List (Series δ))
    (h : ∀ s, (true, s) ∈ e.visit false →
      ev.derive (s.matchers ++ enforced) = ev.derive s.matchers) :
    ev.evaluate re (enforce enforced e) stored =
      ev.evaluate re e (select re enforced stored) := by
  unfold evaluate enforce
  rw [Expr.map_map]
  apply congrArg
  apply Expr.map_congr
  rintro ⟨absent, s⟩ hx
  apply view_enforce
  rintro rfl
  exact h s hx

end Evaluator

/-- Scoping confines a query: with a printer that the parser reads back, every selector has
the enforced matchers besides its own and nothing else changes; and unless the labels that
`absent` derives differ, the query evaluates as over the enforced series alone. -/
theorem scope_confines {p : Prometheus} {query : String} {enforced : List Matcher} {e : Query}
    (hparse : p.parse query = .ok e)
    (hround : p.parse (p.print (enforce enforced e)) = .ok (enforce enforced e)) :
    p.scope query enforced = .ok (p.print (enforce enforced e)) ∧
    (∀ matchers, p.build matchers = .ok enforced →
      p.run ⟨query, matchers⟩ = ⟨p.print (enforce enforced e), ""⟩) ∧
    (enforce enforced e).selectors = e.selectors.map (VectorSelector.enforce enforced) ∧
    skeleton (enforce enforced e) = skeleton e ∧
    ∀ (δ ℓ β : Type) (ev : Evaluator δ ℓ β) (re : String → String → Bool),
      (∀ s, (true, s) ∈ e.visit false →
        ev.derive (s.matchers ++ enforced) = ev.derive s.matchers) →
      ∀ stored, ev.evaluate re (enforce enforced e) stored =
        ev.evaluate re e (select re enforced stored) := by
  have hall : (enforce enforced e).selectors.all (fun s => enforced.all (has s)) = true := by
    rw [selectors_enforce, List.all_eq_true]
    intro s hs
    obtain ⟨own, _, rfl⟩ := List.mem_map.mp hs
    rw [List.all_eq_true]
    intro m hm
    have hin : m ∈ own.matchers ++ enforced := List.mem_append_right _ hm
    exact Prometheus.has_iff.mpr (List.mem_append_left _ hin)
  have hscope : p.scope query enforced = .ok (p.print (enforce enforced e)) := by
    simp [Prometheus.scope, hparse, hround, bind, Except.bind, hall]
  refine ⟨hscope, fun matchers hbuild => ?_, selectors_enforce enforced e,
    skeleton_enforce enforced e, fun δ ℓ β ev re h stored => ev.evaluate_enforce re stored h⟩
  simp only [Prometheus.run, hbuild, hscope]

def plain : Modifiers := ⟨0, none, none, none, false, false⟩

/-- `absent` of a selector: one element where it selects nothing, with the labels that its
equality matchers name. -/
def absentEvaluator : Evaluator Unit (List (String × String)) (List (List (String × String))) where
  derive ms := (ms.filter fun m => m.type = .equal).map fun m => (m.name, m.value)
  value
    | .call "absent" [.vectorSelector v] =>
      if v.series.isEmpty then [v.derived.getD []] else []
    | _ => []

/-- `absent(x)` has no labels, and scoped to `job="a"` it has that label. -/
theorem not_confined_absent :
    ¬∀ (ev : Evaluator Unit (List (String × String)) (List (List (String × String))))
      (re : String → String → Bool) (e : Query) (enforced : List Matcher)
      (stored : List (Series Unit)),
      ev.evaluate re (enforce enforced e) stored = ev.evaluate re e (select re enforced stored) := by
  intro h
  have heq := h absentEvaluator (fun _ _ => false) (.call "absent" [.vectorSelector ⟨"x", plain, []⟩])
    [⟨.equal, "job", "a"⟩] []
  revert heq
  decide

/-- `sum by (pod) (rate(up[5m])) unless absent(up)`, its selectors with these matchers. -/
def busy (matchers : List Matcher) : Query :=
  .binary "unless"
    (.aggregate "sum"
      (.call "rate" [.matrixSelector ⟨"up", plain, matchers⟩ 300000000000 none]) none ["pod"] false)
    (.call "absent" [.vectorSelector ⟨"up", plain, matchers⟩])
    (some ⟨"many-to-many", [], false, [], (none, none)⟩) false

def notCms : Matcher := ⟨.regexp, "namespace", "|cms"⟩

def busyText : String := "sum by (pod) (rate(up[5m])) unless absent(up)"

def busyScoped : String :=
  "sum by (pod) (rate(up\x7bnamespace=~\"|cms\"\x7d[5m])) unless absent(up\x7bnamespace=~\"|cms\"\x7d)"

/-- Prometheus' parser and printer on the query, as it is and with one regular expression. -/
def busyProm : Prometheus where
  parse q :=
    if q = busyText then .ok (busy [])
    else if q = busyScoped then .ok (busy [notCms])
    else .error "unexpected character"
  print e := if e.selectors.all fun s => s.matchers = [] then busyText else busyScoped
  regexError _ := none
  quote s := "\"" ++ s ++ "\""

theorem scope_confines_busy :
    busyProm.run ⟨busyText, [⟨"namespace", "=~", "|cms"⟩]⟩ = ⟨busyScoped, ""⟩ ∧
    ∀ (δ ℓ β : Type) (ev : Evaluator δ ℓ β) (re : String → String → Bool),
      ev.derive [notCms] = ev.derive [] → ∀ stored,
        ev.evaluate re (busy [notCms]) stored =
          ev.evaluate re (busy []) (select re [notCms] stored) := by
  have hparse : busyProm.parse busyText = .ok (busy []) := rfl
  have hround : busyProm.parse (busyProm.print (enforce [notCms] (busy []))) =
      .ok (enforce [notCms] (busy [])) := rfl
  obtain ⟨-, hrun, -, -, hev⟩ := scope_confines hparse hround
  refine ⟨hrun [⟨"namespace", "=~", "|cms"⟩] rfl, fun δ ℓ β ev re hderive stored => hev δ ℓ β ev re ?_ stored⟩
  intro s hs
  obtain rfl : s = ⟨"up", plain, []⟩ := by
    simpa [busy, Expr.visit, Expr.visitArgs, Expr.visitParam, derivesLabels] using hs
  exact hderive

end PurdueAF.PromqlScope

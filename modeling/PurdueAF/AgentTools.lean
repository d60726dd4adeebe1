import PurdueAF.SessionRestarts
import PurdueAF.Waiting

/-!
# What the tools of the agentic interface raise

`errors.py`: each failure says what was tried, why it failed in the words of the service that
was asked, and what to do next.
-/
namespace PurdueAF.AgentTools
open Py Binary64

structure Failed where
  kind : SessionRestarts.Failure
  text : String
  deriving DecidableEq, Repr

inductive Raised
  | failure (failed : Failed)
  | needsChoices (help : String)
  /-- A wait has used up the looks it was given. -/
  | unfinished
  deriving DecidableEq, Repr

def userError (text : String) : Raised := .failure ⟨.user, text⟩
def authError (text : String) : Raised := .failure ⟨.auth, text⟩
def upstreamError (text : String) : Raised := .failure ⟨.upstream, text⟩

/-- The errors of a request that got no answer. -/
inductive Unreached
  | connectTimeout
  | timeout
  | dropped
  | connect (detail : String)
  | other (name detail : String)

/-- `json` is what `resp.json()` gives, unless it raises. -/
structure Response where
  status : ℕ
  text : String
  json : Option Json

/-- Python's own functions on values and text, as they are called here. -/
structure Words where
  loads : String → Option Json
  str : Json → String
  repr : String → String
  upper : String → String
  lower : String → String
  /-- `f"{x}"` -/
  number : Value → String
  /-- `f"{x:.0f}"` -/
  rounded : ℚ → String
  int : String → Option ℤ

def strip (text : String) : String := String.ofList (stripSpace text.toList)

/-- `_TAG_RE.sub(" ", text)`; `inside` a tag nothing is kept. -/
def untag (inside : Bool) : List Char → List Char
  | [] => []
  | c :: cs =>
    if inside then untag (c ≠ '>') cs
    else if c = '<' && cs.head? ≠ some '>' && cs.contains '>' then ' ' :: untag true cs
    else c :: untag false cs

/-- `_WS_RE.sub(" ", text)`; `after` a space the next are dropped. -/
def squeeze (after : Bool) : List Char → List Char
  | [] => []
  | c :: cs =>
    if isSpace c then (if after then squeeze true cs else ' ' :: squeeze true cs)
    else c :: squeeze false cs

def cut (text : List Char) (limit : ℕ) : String := String.ofList (text.take limit)

def detailKeys : List String := ["message", "error", "detail", "reason", "error_description"]

/-- The message under this key, if it says something. -/
def messageAt (entries : List (String × Json)) (key : String) : Option (List Char) :=
  let value := match Json.lookup entries key with
    | .dict inner => Json.lookup inner "message"
    | value => value
  match value with
  | .str text => if strip text ≠ "" then some (stripSpace text.toList) else none
  | _ => none

section Words
variable (w : Words)

def responseDetail (resp : Response) (limit : ℕ) : String :=
  let message := match w.loads resp.text with
    | some (.dict entries) => detailKeys.findSome? (messageAt entries)
    | _ => none
  match message with
  | some text => cut (squeeze false text) limit
  | none =>
    let text := resp.text.toList
    let text := if text.contains '<' && text.contains '>' then untag false text else text
    cut (stripSpace (squeeze false text)) limit

def describe : Unreached → String
  | .connectTimeout => "connection timed out"
  | .timeout => "timed out waiting for a response"
  | .dropped => "the connection was dropped before a response arrived"
  | .connect detail =>
    if strip detail ≠ "" then s!"connection failed ({strip detail})" else "connection refused"
  | .other name detail => if strip detail ≠ "" then s!"{name}: {strip detail}" else name

def finish (message next : String) : String :=
  let kept := message.toList.reverse.dropWhile fun c => c = ' ' || c = '.'
  let message := String.ofList kept.reverse
  let message := message ++ "."
  if next ≠ "" then s!"{message} {next}" else message

def retryLater : String :=
  "Try again in a minute; if it keeps failing, get_facility_health shows " ++
  "whether the facility itself is degraded."

def reportIfPersistent : String :=
  "This is a fault between the agentic interface and the facility, not in the " ++
  "request; report it to AF support if it persists."

def statusHint (code : ℕ) : String :=
  match code with
  | 502 => "it is down or restarting behind its proxy"
  | 503 => "it is down, restarting, or overloaded"
  | 504 => "it did not answer in time"
  | _ => if code ≥ 500 then "it hit an internal error" else ""

def unreachable (service : String) (e : Unreached) (next : String) : Raised :=
  upstreamError (finish s!"Error: {service} unreachable — {describe e}"
    (if next ≠ "" then next else retryLater))

def httpError (service : String) (resp : Response) (action : String) : Raised :=
  let code := resp.status
  let message := s!"Error: {service} returned HTTP {code}"
  let message := if action ≠ "" then message ++ s!" while trying to {action}" else message
  let hint := statusHint code
  let message := if hint ≠ "" then message ++ s!" ({hint})" else message
  let detail := responseDetail w resp 300
  let message := if detail ≠ "" then message ++ s!" — {detail}" else message
  upstreamError (finish message (if code ≥ 500 then retryLater else ""))

def malformedResponse (service : String) (resp : Response) (expected : String) : Failed :=
  let detail := responseDetail w resp 120
  let message := s!"Error: {service} returned HTTP {resp.status} but the response " ++
    s!"was not {expected}"
  let message := if detail ≠ "" then message ++ s!" — {detail}" else message
  ⟨.upstream, finish message reportIfPersistent⟩

end Words

/-- `except Failure`: what else is raised goes on. -/
def catching {ρ : Type} {β : ρ → Type} {α : Type} (p : Asking.Raising ρ β Raised α) :
    Asking.Raising ρ β Raised (Except Failed α) :=
  tryCatch (Except.ok <$> p) fun
    | .failure failed => return .error failed
    | raised => throw raised

section Catching
open Asking
variable {ρ : Type} {β : ρ → Type} {α : Type} {P : List (Exchange ρ β) → ρ → Prop}
  {D E : List (Exchange ρ β) → Raised → Prop} {Q : List (Exchange ρ β) → α → Prop}
  {h : List (Exchange ρ β)}

/-- What is caught is a failure, and what goes on is none. -/
theorem meets_catching {p : Raising ρ β Raised α} (hp : Meets P D Q h p)
    (hE : ∀ h' raised, D h' raised → (∀ failed, raised ≠ .failure failed) → E h' raised) :
    Meets P E (fun h' r => match r with
      | .ok a => Q h' a
      | .error failed => D h' (.failure failed)) h (catching p) := by
  refine Meets.tryCatch (D := D) (Meets.bind hp fun h' a ha => Meets.pure ha) fun h' raised hr => ?_
  cases raised with
  | failure failed => exact Meets.pure hr
  | needsChoices help => exact Meets.throw (hE h' _ hr nofun)
  | unfinished => exact Meets.throw (hE h' _ hr nofun)

end Catching

end PurdueAF.AgentTools

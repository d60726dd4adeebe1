import PurdueAF.Coroutine
import PurdueAF.LlmGate

/-!
# The proxy for NRP's language models

`forward` of `llm_proxy.py` as a program: one suspension point for each lock it takes, each
look at whether its client is gone, each request upstream and each wait. A thread in
`cond.wait` may wake at any moment, and the upstream may answer anything.
-/
namespace PurdueAF.LlmProxy
open Py Binary64 Coroutine

structure Slot where
  callId : Json := .str ""
  name : String := ""
  arguments : String := ""

/-- One upstream answer, kept whole. -/
structure Reply where
  status : ℤ := 0
  payloads : List (List UInt8) := []
  done : Bool := false
  finish : Json := .null
  content : String := ""
  reasoning : String := ""
  reasoningName : String := "reasoning_content"
  calls : Dict Json.Key Slot := []
  usage : Json := .null
  ttft : Option ℚ := none
  seconds : ℚ := 0
  error : String := ""
  code : String := ""
  headers : Dict String String := []

def failure (status : ℤ) (code message : String) : Reply :=
  { status := status, error := message, code := code }

namespace Reply

def takeReasoning (r : Reply) (delta : Json) (name : String) : Except Exc Reply := do
  let x ← delta.get name
  if x.truthy then
    let text ← x.appendTo r.reasoning
    return { r with reasoning := text, reasoningName := name }
  else return r

/-- One entry of a delta's `tool_calls`, the `n`th. -/
def takeCall (r : Reply) (n : ℕ) (call : Json) : Except Exc Reply := do
  let index ← call.getD "index" (.int n)
  let key ← index.hashed
  let slot := (r.calls.get? key).getD {}
  let callId ← call.get "id"
  let function := (← call.get "function").or (.dict [])
  let name ← ((← function.get "name").or (.str "")).appendTo slot.name
  let arguments ← ((← function.get "arguments").or (.str "")).appendTo slot.arguments
  return { r with calls := r.calls.set key ⟨callId.or slot.callId, name, arguments⟩ }

def takeCalls (r : Reply) : ℕ → List Json → Except Exc Reply
  | _, [] => .ok r
  | n, call :: calls => do
    let r ← r.takeCall n call
    takeCalls r (n + 1) calls

def takeChoice (r : Reply) (choice : Json) : Except Exc Reply := do
  let delta := ((← choice.get "delta").or (← choice.get "message")).or (.dict [])
  let content ← ((← delta.get "content").or (.str "")).appendTo r.content
  let r := { r with content := content }
  let r ← r.takeReasoning delta "reasoning_content"
  let r ← r.takeReasoning delta "reasoning"
  let calls ← ((← delta.get "tool_calls").or (.list [])).iter
  let r ← r.takeCalls 0 calls
  let finish ← choice.get "finish_reason"
  return if finish.truthy then { r with finish := finish } else r

def takeChoices (r : Reply) : List Json → Except Exc Reply
  | [] => .ok r
  | choice :: choices => do
    let r ← r.takeChoice choice
    takeChoices r choices

def take (r : Reply) (chunk : Json) : Except Exc Reply := do
  let usage ← chunk.get "usage"
  let r := if usage.truthy then { r with usage := usage } else r
  let choices ← ((← chunk.get "choices").or (.list [])).iter
  r.takeChoices choices

/-- Output tokens: as counted, or for a cut reply its chunks, about a token each. -/
def completion (r : Reply) : Except Exc ℤ := do
  let counted ← (r.usage.or (.dict [])).get "completion_tokens"
  (counted.or (.int r.payloads.length)).toInt

inductive Problem
  | cut | noToolCall | badToolArguments
  deriving DecidableEq, Repr

/-- Whether one of the calls' arguments is not JSON. -/
def badArguments (std : Std) : Dict Json.Key Slot → Except Exc Bool
  | [] => .ok false
  | (_, slot) :: calls =>
    match std.loads (if slot.arguments = "" then "\x7b\x7d" else slot.arguments).toUTF8.toList with
    | .ok _ => badArguments std calls
    | .error .invalid => .ok true
    | .error .nestedTooDeep => .error .recursionError

/-- Why this reply must not reach the agent as it is, if it must not. -/
def problem (std : Std) (r : Reply) : Except Exc (Option Problem) := do
  if !r.done then return some .cut
  if r.finish.isStr "tool_calls" && r.calls.isEmpty then return some .noToolCall
  let bad ← badArguments std r.calls
  return if bad then some .badToolArguments else none

def decode (r : Reply) : Except Exc (Option Value) := do
  let tokens ← r.completion
  let spent := r.seconds - r.ttft.getD 0
  if decodeTokens < tokens && decodeSeconds < spent then
    let q ← floatOfInt tokens
    return some (nearest (q / spent))
  else return none

end Reply

def retryHeader (headers : Dict String String) (name : String) : Option Value :=
  ((headers.get? name).bind floatOfText).map fun x => Binary64.max (.finite 1) x

def retryAfter (r : Reply) : Value :=
  ((retryHeader r.headers "retry-after").or (retryHeader r.headers "x-ratelimit-reset")).getD
    rateLimitWait

def isName (b : UInt8) : Bool :=
  let c := Char.ofNat b.toNat
  c.isAlphanum || c = '.' || c = '+' || c = '-'

def isBase64 (b : UInt8) : Bool :=
  let c := Char.ofNat b.toNat
  c.isAlphanum || c = '+' || c = '/' || c = '='

def strip? (text : String) (raw : List UInt8) : Option (List UInt8) :=
  if text.toUTF8.toList.isPrefixOf raw then some (raw.drop text.toUTF8.toList.length) else none

/-- What is left after a match of `DATA_URL` at the start. -/
def dataUrl? (raw : List UInt8) : Option (List UInt8) := do
  let rest ← strip? "\"data:image/" raw
  guard (rest.head?.any isName)
  let rest ← strip? ";base64," (rest.dropWhile isName)
  strip? "\"" (rest.dropWhile isBase64)

/-- The bytes of the images in a body; the fuel is its length. -/
def pictureBytes : ℕ → List UInt8 → ℕ
  | 0, _ | _, [] => 0
  | fuel + 1, b :: raw =>
    match dataUrl? (b :: raw) with
    | some rest => (b :: raw).length - rest.length + pictureBytes fuel rest
    | none => pictureBytes fuel raw

def countImages : List Json → Except Exc ℤ
  | [] => .ok 0
  | part :: parts => do
    let kind ← part.get "type"
    let n ← countImages parts
    return if kind.isStr "image_url" then n + 1 else n

def imagesOf : List Json → Except Exc ℤ
  | [] => .ok 0
  | message :: messages => do
    let content ← message.get "content"
    let here ← match content with
      | .list parts => countImages parts
      | _ => .ok 0
    let n ← imagesOf messages
    return here + n

abbrev Body := List (String × Json)

def images (body : Body) : Except Exc ℤ := do
  let messages ← ((Json.lookup body "messages").or (.list [])).iter
  imagesOf messages

/-- Prompt tokens of a request: its text by size, its images by count. -/
def estimate (settings : Settings) (raw : List UInt8) (body : Body) (m : Model) : Except Exc ℤ := do
  let bytes ← floatOfInt (raw.length - pictureBytes raw.length raw : ℕ)
  if settings.bytesPerToken = 0 then throw .zeroDivisionError
  let text ← intOfFloat (nearest (bytes / settings.bytesPerToken))
  let pictures ← images body
  return text + pictures * m.imageTokens

/-- `SHARE * context`. -/
def share (m : Model) : Except Exc Value := do
  let context ← floatOfInt m.context
  return mul shareOfContext (.finite context)

/-- The most output tokens a request of `prompt` tokens may ask of the model within fair use. -/
def room (prompt : ℤ) (m : Model) : Except Exc ℤ := do
  let n ← intOfFloat (← share m)
  return n - prompt - 1

example : (share ⟨"", 180, (1, 1), 0, 0, (1, 1), 0, (0, 0), (0, 0), [], by decide, by decide⟩ >>=
    intOfFloat) = .ok 62 := by decide +kernel

def usable (settings : Settings) (raw : List UInt8) (body : Body) (b : Backend) :
    Except Exc Bool := do
  let prompt ← estimate settings raw body b.model
  let n ← room prompt b.model
  return b.model.maxTokens.1 ≤ n

def usables (settings : Settings) (raw : List UInt8) (body : Body) :
    List Backend → Except Exc (List Backend)
  | [] => .ok []
  | b :: bs => do
    let u ← usable settings raw body b
    let us ← usables settings raw body bs
    return if u then b :: us else us

/-- A payload sent upstream, with the two entries that `forward` reads. -/
structure Payload where
  entries : List (String × Json)
  maxTokens : ℤ
  stream : Bool

/-- An entry of a variant: it is merged into a dictionary of the client's, and else replaces it. -/
def addExtra (out : List (String × Json)) (extra : String × Json) : List (String × Json) :=
  match extra.2, Json.lookup out extra.1 with
  | .dict more, .dict old => Json.setEntry out extra.1 (.dict (Json.merge old more))
  | value, _ => Json.setEntry out extra.1 value

/-- The client's own figure, or the cap where it gives none. -/
def asked (body : Body) (cap : ℤ) : Json :=
  ((Json.lookup body "max_tokens").or (Json.lookup body "max_completion_tokens")).or (.int cap)

def shape (body : Body) (b : Backend) (cap : ℤ) (stream : Bool) : Except Exc Payload := do
  let out := Json.setEntry (body.filter fun e => e.1 ≠ "max_completion_tokens") "model"
    (.str b.model.name)
  let out := ((b.model.variants.get? b.variant).getD []).foldl addExtra out
  let n ← (asked body cap).toInt
  let sent := Min.min n cap
  let out := Json.setEntry (Json.setEntry out "max_tokens" (.int sent)) "stream" (.bool stream)
  if stream then
    let options ← ((Json.lookup body "stream_options").or (.dict [])).spread
    let out := Json.setEntry out "stream_options"
      (.dict (Json.setEntry options "include_usage" (.bool true)))
    return ⟨out, sent, stream⟩
  else return ⟨out.filter fun e => e.1 ≠ "stream_options", sent, stream⟩

/-- How a body or a stream ends: whole, by a TransportError, or by another HTTPError. -/
inductive Ending
  | whole | broken | undecodable
  deriving DecidableEq, Repr

/-- What comes of a request: no answer, an HTTPError of some kind; or an answer. Before each
line of a stream, `cancelled` says whether the client is gone. -/
inductive Upstream
  | unreachable
  | answered (status : ℤ) (headers : Dict String String) (content : List UInt8)
      (lines : List (Bool × String)) (ending : Ending) (ttft seconds : ℚ)

/-- How `exchange` fails. -/
inductive Failed
  | http
  | exc (e : Exc)
  deriving DecidableEq, Repr

def raising {α : Type} : Except Exc α → Except Failed α
  | .ok x => .ok x
  | .error e => .error (.exc e)

def loading (std : Std) (content : List UInt8) : Except Failed Json :=
  match std.loads content with
  | .ok x => .ok x
  | .error e => .error (.exc e.exc)

def isInfix (part text : List Char) : Bool :=
  match text with
  | [] => part.isEmpty
  | _ :: rest => part.isPrefixOf text || isInfix part rest

/-- An upstream refusal, passed on in the code that fits it. -/
def upstreamError (std : Std) (r : Reply) (content : List UInt8) : Reply :=
  let message := (std.decode content).toList.take 2000
  let code := if isInfix "context".toList (message.map lowerAscii) then "context_length_exceeded"
    else "invalid_prompt"
  { r with error := String.ofList message, code := code }

/-- The payload of a stream's line. -/
def dataOf (line : String) : Option String :=
  if "data:".toList.isPrefixOf line.toList then
    some (String.ofList (stripSpace (line.toList.drop 5)))
  else none

def readLines (std : Std) (ttft : ℚ) (r : Reply) :
    List (Bool × String) → Except Failed (Reply × Bool)
  | [] => .ok (r, false)
  | (gone, line) :: lines =>
    if gone then .ok (r, true)
    else
      match dataOf line with
      | none => readLines std ttft r lines
      | some data =>
        if data = "[DONE]" then .ok ({ r with done := true }, true)
        else do
          let r := { r with ttft := some (r.ttft.getD ttft),
                            payloads := r.payloads ++ [data.toUTF8.toList] }
          let r ← raising (r.take (← loading std data.toUTF8.toList))
          readLines std ttft r lines

/-- One request upstream. A stream that breaks off after its headers comes back as a cut
reply with what it carried. -/
def exchange (std : Std) (stream : Bool) : Upstream → Except Failed Reply
  | .unreachable => .error .http
  | .answered status headers content lines ending ttft seconds =>
    let r : Reply := { status := status, headers := headers, seconds := seconds }
    if status ≠ 200 then
      if stream && ending ≠ .whole then .error .http else .ok (upstreamError std r content)
    else if stream then do
      let (r, left) ← readLines std ttft r lines
      -- A TransportError ends the reply where it is; other errors of the stream are not caught.
      if !left && ending = .undecodable then .error .http else .ok r
    else do
      let r ← raising (r.take (← loading std content))
      return { r with done := true }

/-- The arguments of `forward`. -/
structure Request where
  role : Role
  raw : List UInt8
  body : Body
  session : String

structure World where
  now : ℚ
  stopping : Bool

structure Memory where
  gates : String → Gate
  sticky : List ((String × String) × Backend)

def Memory.gate (g : Memory) (m : Model) : Gate := g.gates m.name

def Memory.setGate (g : Memory) (m : Model) (gate : Gate) : Memory :=
  { g with gates := fun name => if name = m.name then gate else g.gates name }

def healthy (w : World) (g : Memory) (b : Backend) : Bool := (g.gate b.model).unhealthyUntil ≤ w.now

/-- `pick` remembers a session's backend, last used first, up to `STICKY`. -/
def remember (g : Memory) (key : String × String) (b : Backend) : Memory :=
  { g with sticky := ((key, b) :: g.sticky.filter fun e => e.1 ≠ key).take stickyMax }

def pickAnew (w : World) (g : Memory) (role : Role) (session : String)
    (candidates : List Backend) : Memory × Backend :=
  let candidates := if candidates.isEmpty then role.backends else candidates
  let chosen := (candidates.find? (healthy w g)).getD
    (candidates.headD (role.backends.head role.backends_ne))
  (if session = "" then g else remember g (role.name, session) chosen, chosen)

def kept? (g : Memory) (role : Role) (session : String) : Option Backend :=
  if session = "" then none
  else ((g.sticky.find? fun e => e.1 = (role.name, session)).map Prod.snd).bind fun b =>
    role.backends.find? b.same

/-- The backend this session last went to in this role while it is healthy and usable, else
the role's first such one. -/
def pick (settings : Settings) (w : World) (g : Memory) (req : Request) :
    Except Exc (Memory × Backend) :=
  match (kept? g req.role req.session).filter (healthy w g) with
  | some b => do
    if ← usable settings req.raw req.body b then return (g, b)
    let us ← usables settings req.raw req.body req.role.backends
    return pickAnew w g req.role req.session us
  | none => do
    let us ← usables settings req.raw req.body req.role.backends
    return pickAnew w g req.role req.session us

/-- The variables of `forward`, and whether `cancelled` has said that the client is gone,
which it then stays. -/
structure Loop where
  req : Request
  deadline : ℚ
  cuts : ℤ := 0
  shrink : ℤ := 0
  failures : ℕ := 0
  streamed : Option Reply := none
  gone : Bool := false

/-- A request that waits for room or is in flight. -/
structure Attempt where
  backend : Backend
  prompt : ℤ
  payload : Payload

def Attempt.tokens (a : Attempt) : ℤ := a.prompt + a.payload.maxTokens

/-- Where a thread is, with what it keeps. -/
inductive Pc
  | head (l : Loop)
  | pick (l : Loop)
  | cap (l : Loop) (backend : Backend) (prompt room : ℤ)
  | acquire (l : Loop) (a : Attempt) (seq : Option ℕ)
  | denied (l : Loop)
  | exchange (l : Loop) (a : Attempt)
  | release (l : Loop) (a : Attempt) (reply : Reply) (completion : ℤ) (raised : Option Exc)
  | failing (l : Loop) (a : Attempt) (reply : Reply)
  | failed (l : Loop) (a : Attempt) (reply : Reply)
  | pause (l : Loop) (till : Value)
  | observe (l : Loop) (a : Attempt) (reply : Reply) (decode : Option Value)
  | recovered (a : Attempt) (reply : Reply) (decode : Option Value)
  | succeeded (a : Attempt) (reply : Reply) (decode : Option Value)

inductive Answer
  | go
  | bool (answer : Bool)
  | uniform (r : ℚ)
  | upstream (u : Upstream)

inductive Event
  | acquired (model : String) (tokens : ℤ)
  | released (model : String) (tokens : ℤ)
  | returned (reply : Reply)
  | raised (e : Exc)

inductive Call
  | forward (role : String) (raw : List UInt8) (body : Body) (session : String)

inductive Move
  | tick (seconds : ℚ)
  | stop

abbrev Step := Ran Memory Pc Event

def awaiting (g : Memory) (pc : Pc) : Step := ⟨g, some pc, []⟩

def returns (g : Memory) (r : Reply) : Step := ⟨g, none, [.returned r]⟩

def raises (g : Memory) (e : Exc) : Step := ⟨g, none, [.raised e]⟩

/-- Code without a lock that may raise before it goes on. -/
def trying {α : Type} (g : Memory) (x : Except Exc α) (next : α → Step) : Step :=
  match x with
  | .ok y => next y
  | .error e => raises g e

def clientGone : Reply := failure 499 "server_error" "the client is gone"

def start (config : Config) (w : World) (g : Memory) : Call → Option Step
  | .forward name raw body session =>
    (config.roles.get? name).map fun role =>
      awaiting g (.head ⟨⟨role, raw, body, session⟩, w.now + config.settings.holdHours * 3600,
        0, 0, 0, none, false⟩)

/-- The gate's lock is given, the client asked after, the upstream answers; a wait ends with
its time, or early where the proxy stops. -/
def serve (w : World) (pc : Pc) (c : Answer) : Option (World × Answer) :=
  match pc, c with
  | .pick _, .go | .cap _ _ _ _, .go | .release _ _ _ _ _, .go | .observe _ _ _ _, .go
  | .recovered _ _ _, .go | .succeeded _ _ _, .go => some (w, .go)
  | .acquire _ _ _, .bool b | .denied _, .bool b | .failing _ _ _, .bool b => some (w, .bool b)
  | .head l, .bool b => if l.gone && !b then none else some (w, .bool b)
  | .failed _ _ _, .uniform r => if 3 / 4 ≤ r && r ≤ 5 / 4 then some (w, .uniform r) else none
  | .exchange _ _, .upstream u => some (w, .upstream u)
  | .pause _ till, .go =>
    if w.stopping then some (w, .bool true)
    else if le till (.finite w.now) then some (w, .bool false)
    else none
  | _, _ => none

def resumeHead (w : World) (g : Memory) (l : Loop) (gone : Bool) : Step :=
  if gone then returns g clientGone
  else
    match l.streamed with
    | some r => if l.deadline ≤ w.now then returns g r else awaiting g (.pick l)
    | none => awaiting g (.pick l)

def overSize : Reply := failure 413 "context_length_exceeded" "over the models' fair-use size"

def resumePick (settings : Settings) (w : World) (g : Memory) (l : Loop) : Step :=
  trying g (LlmProxy.pick settings w g l.req) fun (g, b) =>
  trying g (estimate settings l.req.raw l.req.body b.model) fun prompt =>
  trying g (room prompt b.model) fun n =>
    if n < b.model.maxTokens.1 then returns g overSize else awaiting g (.cap l b prompt n)

def resumeCap (settings : Settings) (w : World) (g : Memory) (l : Loop) (b : Backend)
    (prompt n : ℤ) : Step :=
  let gate := (g.gate b.model).trim w.now
  let g := g.setGate b.model gate
  trying g (gate.cap b.model settings.streamSeconds) fun c =>
    let cap := Min.min (Min.min c n) (if l.shrink = 0 then n else l.shrink)
    trying g (shape l.req.body b cap l.streamed.isNone) fun payload =>
      awaiting g (.acquire l ⟨b, prompt, payload⟩ none)

/-- The gate with the request in its queue, which it is from the first look on. -/
def queued (w : World) (g : Memory) (l : Loop) (m : Model) : Option ℕ → Gate
  | some _ => g.gate m
  | none => (g.gate m).enqueue l.req.role.rank w.now

/-- One look of `acquire` under the gate's lock. -/
def resumeAcquire (w : World) (g : Memory) (l : Loop) (a : Attempt) (seq : Option ℕ)
    (gone : Bool) : Step :=
  let m := a.backend.model
  let gate := queued w g l m seq
  let seq := seq.getD gate.seq
  if gone then awaiting (g.setGate m (gate.leave seq)) (.denied l)
  else if gate.fits m a.tokens w.now && gate.first seq w.now then
    ⟨g.setGate m ((gate.leave seq).take a.tokens), some (.exchange l a), [.acquired m.name a.tokens]⟩
  else if l.deadline ≤ w.now then awaiting (g.setGate m (gate.leave seq)) (.denied l)
  else awaiting (g.setGate m gate) (.acquire l a (some seq))

def resumeDenied (g : Memory) (l : Loop) (gone : Bool) : Step :=
  if gone then returns g clientGone
  else
    match l.streamed with
    | some r => returns g r
    | none => returns g (failure 503 "server_error" "no room within the hold")

/-- `exchange` ended, and its `finally` works out what to release with. -/
def resumeExchange (std : Std) (g : Memory) (l : Loop) (a : Attempt) (u : Upstream) : Step :=
  match LlmProxy.exchange std a.payload.stream u with
  | .ok reply =>
    if reply.status = 200 then
      trying g reply.completion fun n => awaiting g (.release l a reply n none)
    else awaiting g (.release l a reply 0 none)
  | .error .http | .error (.exc .valueError) =>
    awaiting g (.release l a { status := 599 } 0 none)
  | .error (.exc e) => awaiting g (.release l a {} 0 (some e))

def unhealthyReply (r : Reply) (problem : Option Reply.Problem) (cutSeconds : ℚ) : Bool :=
  r.status = 429 || 500 ≤ r.status ||
    (problem = some .cut && lt (.finite r.seconds) (mul earlyCut (.finite cutSeconds)))

/-- What `forward` makes of a reply once its slot is given back. -/
def judged (settings : Settings) (std : Std) (g : Memory) (l : Loop) (a : Attempt)
    (reply : Reply) : Step :=
  trying g (if reply.status = 200 then reply.problem std else .ok none) fun problem =>
    match l.streamed with
    | some streamed =>
      if reply.status ≠ 200 || problem = some .cut then returns g streamed else going problem
    | none => going problem
where
  going (problem : Option Reply.Problem) : Step :=
    if unhealthyReply reply problem settings.cutSeconds then awaiting g (.failing l a reply)
    else if reply.status ≠ 200 then returns g reply
    else if problem = some .cut then
      trying g reply.decode fun d => awaiting g (.observe l a reply d)
    else if problem.isSome && !reply.finish.isStr "length" && l.streamed.isNone then
      awaiting g (.head { l with streamed := some reply })
    else trying g reply.decode fun d => awaiting g (.recovered a reply d)

def resumeRelease (settings : Settings) (std : Std) (w : World) (g : Memory) (l : Loop)
    (a : Attempt) (reply : Reply) (completion : ℤ) (raised : Option Exc) : Step :=
  let m := a.backend.model
  let g := g.setGate m ((g.gate m).release a.tokens completion w.now)
  let next := match raised with
    | some e => raises g e
    | none => judged settings std g l a reply
  { next with events := .released m.name a.tokens :: next.events }

def keptFailing : Reply := failure 503 "server_error" "the model kept failing"

/-- `gate.failed` under its lock, and the wait it gives. -/
def resumeFailed (settings : Settings) (w : World) (g : Memory) (l : Loop) (a : Attempt)
    (reply : Reply) (uniform : ℚ) : Step :=
  let m := a.backend.model
  let gate := (g.gate m).noteFailure settings w.now
  let waiting (g : Memory) (wait : Value) : Step :=
    let till := later w.now wait
    if le (.finite l.deadline) till then returns g keptFailing else awaiting g (.pause l till)
  if reply.status = 429 then
    waiting (g.setGate m (gate.pause (retryAfter reply) w.now)) (retryAfter reply)
  else
    let g := g.setGate m gate
    trying g (backoff settings l.failures uniform) (waiting g)

def resumePause (g : Memory) (l : Loop) (stopping : Bool) : Step :=
  if stopping then returns g (failure 503 "server_error" "the proxy is restarting")
  else awaiting g (.head l)

def cutOff : Reply := failure 502 "server_error" "the model's reply was cut off"

/-- Less than the cut reply reached, so that the next one ends in time. -/
def shrunk (floor : ℤ) (reply : Reply) : Except Exc ℤ := do
  let q ← floatOfInt (← reply.completion)
  let n ← intOfFloat (mul cutShrink (.finite q))
  return Max.max floor n

def resumeObserve (settings : Settings) (w : World) (g : Memory) (l : Loop) (a : Attempt)
    (reply : Reply) (decode : Option Value) : Step :=
  let m := a.backend.model
  let g := g.setGate m ((g.gate m).observe m reply.ttft decode w.now)
  let l := { l with cuts := l.cuts + 1 }
  if settings.cutRetries < l.cuts || l.deadline ≤ w.now then returns g cutOff
  else trying g (shrunk m.maxTokens.1 reply) fun n => awaiting g (.head { l with shrink := n })

def resume (config : Config) (std : Std) (w : World) (g : Memory) (pc : Pc) (a : Answer) :
    Option Step :=
  match pc, a with
  | .head l, .bool gone => some (resumeHead w g l gone)
  | .pick l, .go => some (resumePick config.settings w g l)
  | .cap l b prompt n, .go => some (resumeCap config.settings w g l b prompt n)
  | .acquire l a seq, .bool gone => some (resumeAcquire w g l a seq gone)
  | .denied l, .bool gone => some (resumeDenied g l gone)
  | .exchange l a, .upstream u => some (resumeExchange std g l a u)
  | .release l a reply n raised, .go =>
    some (resumeRelease config.settings std w g l a reply n raised)
  | .failing l a reply, .bool gone =>
    some (if gone then awaiting g (.head { l with gone := true })
      else awaiting g (.failed { l with failures := l.failures + 1 } a reply))
  | .failed l a reply, .uniform r => some (resumeFailed config.settings w g l a reply r)
  | .pause l _, .bool stopping => some (resumePause g l stopping)
  | .observe l a reply d, .go => some (resumeObserve config.settings w g l a reply d)
  | .recovered a reply d, .go =>
    some (awaiting (g.setGate a.backend.model (g.gate a.backend.model).recovered)
      (.succeeded a reply d))
  | .succeeded a reply d, .go =>
    let m := a.backend.model
    some (returns (g.setGate m ((g.gate m).observe m reply.ttft d w.now)) reply)
  | _, _ => none

def env (w : World) (g : Memory) : Move → Option (World × Memory)
  | .tick d => if 0 ≤ d then some ({ w with now := w.now + d }, g) else none
  | .stop => some ({ w with stopping := true }, g)

def program (config : Config) (std : Std) : Program World Memory Pc Answer Call Event Answer Move :=
  ⟨start config, serve, resume config std, env⟩

abbrev St := State World Memory Pc Answer
abbrev Act := Action Call Answer Move

def initial (config : Config) (now : ℚ) : St where
  world := ⟨now, false⟩
  mem := ⟨fun name => ⟨((config.models.get? name).map fun m => m.slots.1).getD 1, 0, 0, [], [], [],
    [], .finite 0, 0, none, none, 0, none, 0⟩, []⟩
  threads := []

end PurdueAF.LlmProxy

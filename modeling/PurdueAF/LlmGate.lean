import PurdueAF.Dict
import PurdueAF.PyJson

/-!
# The models of the LLM proxy and their gates

The values of `models.toml` as `load` accepts them, and `Gate` of `llm_proxy.py`: slots, the
tokens that the requests in flight hold, and how speeds and failures move the slots. Moments
are exact; what is computed from the upstream's own figures is binary64.
-/
namespace PurdueAF.LlmProxy
open Py Binary64

/-- Of `SHARE * context`, and of the fractions below, the doubles that the source's literals are. -/
def shareOfContext : Value := nearest (35 / 100)
def slowDecode : Value := nearest (1 / 10)
def slowTtft : Value := nearest (9 / 10)
def earlyCut : Value := nearest (9 / 10)
def cutShrink : Value := nearest (8 / 10)
def decodeSlowdown : Value := nearest (5 / 10)
def ttftSlowdown : Value := .finite 3
def window : ℚ := 900
def samples : ℕ := 5
def shrinkPeriod : ℚ := 300
def growPeriod : ℚ := 600
def failingSeconds : ℚ := 1800
def unhealthySeconds : ℚ := 600
def decodeTokens : ℤ := 50
def decodeSeconds : ℚ := 1
def rateLimitWait : Value := .finite 60
def aging : ℚ := 600
def stickyMax : ℕ := 10000

structure Settings where
  bytesPerToken : ℚ
  holdHours : ℚ
  streamSeconds : ℚ
  cutSeconds : ℚ
  backoffSeconds : ℚ
  backoffMaxSeconds : ℚ
  cutRetries : ℤ

/-- A model as `load` accepts it. -/
structure Model where
  name : String
  context : ℤ
  slots : ℤ × ℤ
  budget : ℤ
  outputPerMinute : ℤ
  maxTokens : ℤ × ℤ
  imageTokens : ℤ
  ttft : ℚ × ℚ
  decode : ℚ × ℚ
  variants : Dict String (List (String × Json))
  slots_ok : 1 ≤ slots.1 ∧ slots.1 ≤ slots.2
  maxTokens_ok : 0 < maxTokens.1 ∧ maxTokens.1 ≤ maxTokens.2

/-- A model by its name, as `config.models` has it, and one of its variants. -/
structure Backend where
  model : Model
  variant : String

def Backend.same (a b : Backend) : Bool := a.model.name = b.model.name && a.variant = b.variant

structure Role where
  name : String
  backends : List Backend
  rank : ℤ
  backends_ne : backends ≠ []

/-- What `load` returns: every backend of a role names one of the models. -/
structure Config where
  settings : Settings
  models : Dict String Model
  roles : Dict String Role
  known : ∀ r ∈ roles, ∀ b ∈ r.2.backends, models.get? b.model.name = some b.model

/-- Python's `json.loads` of bytes, and their text with what does not decode replaced. -/
structure Std where
  loads : List UInt8 → Except Undecoded Json
  decode : List UInt8 → String

/-- Minus infinity is `none` of a moment. -/
structure Gate where
  slots : ℤ
  busy : ℤ := 0
  held : ℤ := 0
  output : List (ℚ × ℤ) := []
  ttfts : List (ℚ × Value) := []
  decodes : List (ℚ × Value) := []
  waiting : List (ℕ × ℤ × ℚ) := []
  pausedUntil : Value := .finite 0
  failures : ℕ := 0
  failingSince : Option ℚ := none
  lastFailure : Option ℚ := none
  unhealthyUntil : ℚ := 0
  adjusted : Option ℚ := none
  seq : ℕ := 0

/-- `now - t > d`, for a moment that may be minus infinity. -/
def past (now : ℚ) (t : Option ℚ) (d : ℚ) : Bool :=
  match t with
  | some t => d < now - t
  | none => true

def atLeast (now : ℚ) (t : Option ℚ) (d : ℚ) : Bool :=
  match t with
  | some t => d ≤ now - t
  | none => true

/-- The moment `d` after `now`. -/
def later (now : ℚ) : Value → Value
  | .finite d => .finite (now + d)
  | d => d

namespace Gate

def out (g : Gate) (now : ℚ) : ℤ :=
  ((g.output.dropWhile fun e => 60 < now - e.1).map Prod.snd).sum

def fits (g : Gate) (m : Model) (tokens : ℤ) (now : ℚ) : Bool :=
  g.busy < g.slots && (g.held + tokens ≤ m.budget || g.busy = 0) &&
    le g.pausedUntil (.finite now) && g.out now < m.outputPerMinute

/-- The class of a waiting request now, and since when it waits. -/
def order (now : ℚ) (e : ℕ × ℤ × ℚ) : ℤ × ℚ :=
  (Max.max 0 (e.2.1 - ⌊(now - e.2.2) / aging⌋), e.2.2)

def before (now : ℚ) (d e : ℕ × ℤ × ℚ) : Bool :=
  (order now d).1 < (order now e).1 ||
    ((order now d).1 = (order now e).1 && (order now d).2 < (order now e).2)

/-- `min`: the first of the least. -/
def leastWaiting (now : ℚ) : List (ℕ × ℤ × ℚ) → Option (ℕ × ℤ × ℚ)
  | [] => none
  | e :: es =>
    match leastWaiting now es with
    | some d => if before now d e then some d else some e
    | none => some e

def first (g : Gate) (seq : ℕ) (now : ℚ) : Bool :=
  (leastWaiting now g.waiting).any fun e => e.1 = seq

def enqueue (g : Gate) (rank : ℤ) (now : ℚ) : Gate :=
  { g with seq := g.seq + 1, waiting := g.waiting ++ [(g.seq + 1, rank, now)] }

def leave (g : Gate) (seq : ℕ) : Gate :=
  { g with waiting := g.waiting.filter fun e => e.1 ≠ seq }

def take (g : Gate) (tokens : ℤ) : Gate := { g with busy := g.busy + 1, held := g.held + tokens }

def release (g : Gate) (tokens completion : ℤ) (now : ℚ) : Gate :=
  { g with
    busy := g.busy - 1
    held := g.held - tokens
    output := if completion = 0 then g.output else g.output ++ [(now, completion)] }

def trim (g : Gate) (now : ℚ) : Gate :=
  { g with
    ttfts := g.ttfts.dropWhile fun e => window < now - e.1
    decodes := g.decodes.dropWhile fun e => window < now - e.1 }

end Gate

def sorted (values : List Value) : List Value := values.mergeSort le

/-- `_quantile` of values that are not none. -/
def quantile (values : List Value) (q : Value) : Except Exc Value := do
  let n ← intOfFloat (mul q (.finite values.length))
  return (sorted values).getD (Min.min (values.length - 1) n.toNat) .nan

/-- `statistics.median` of values that are not none. -/
def median (values : List Value) : Value :=
  let ordered := sorted values
  let n := ordered.length
  if n % 2 = 1 then ordered.getD (n / 2) .nan
  else mul (add (ordered.getD (n / 2 - 1) .nan) (ordered.getD (n / 2) .nan)) (.finite (1 / 2))

namespace Gate

/-- The slow decode speed and time to the first token that the cap goes by. -/
def slowSpeed (g : Gate) (m : Model) : Except Exc (Value × Value) :=
  if samples ≤ g.decodes.length then do
    let slow ← quantile (g.decodes.map Prod.snd) slowDecode
    let late ← if g.ttfts.isEmpty then .ok (Value.finite 0) else quantile (g.ttfts.map Prod.snd) slowTtft
    return (slow, late)
  else .ok (.finite m.decode.2, .finite m.ttft.2)

/-- The tokens that a slow reply decodes within `stream_seconds`. -/
def within (g : Gate) (m : Model) (streamSeconds : ℚ) : Except Exc ℤ := do
  let (slow, late) ← g.slowSpeed m
  intOfFloat (mul slow (add (.finite streamSeconds) (neg late)))

/-- `cap` once its samples are trimmed. -/
def cap (g : Gate) (m : Model) (streamSeconds : ℚ) : Except Exc ℤ := do
  let n ← g.within m streamSeconds
  return Max.max m.maxTokens.1 (Min.min m.maxTokens.2 n)

def halveSlots (g : Gate) (now : ℚ) : Gate :=
  { g with slots := Max.max 1 (g.slots / 2), adjusted := some now }

def adjust (g : Gate) (m : Model) (now : ℚ) : Gate :=
  if g.decodes.length < samples || !atLeast now g.adjusted shrinkPeriod then g
  else
    let ttft := if g.ttfts.isEmpty then Value.finite 0 else median (g.ttfts.map Prod.snd)
    let decode := median (g.decodes.map Prod.snd)
    if lt (mul ttftSlowdown (.finite m.ttft.1)) ttft ||
        lt decode (mul decodeSlowdown (.finite m.decode.1)) then g.halveSlots now
    else if atLeast now g.adjusted growPeriod && g.slots < m.slots.2 then
      { g with slots := g.slots + 1, adjusted := some now }
    else g

def observe (g : Gate) (m : Model) (ttft : Option ℚ) (decode : Option Value) (now : ℚ) : Gate :=
  let g := { g with
    ttfts := g.ttfts ++ (ttft.map fun t => (now, Value.finite t)).toList
    decodes := g.decodes ++ (decode.map fun d => (now, d)).toList }
  (g.trim now).adjust m now

/-- The first half of `succeeded`, under its own lock. -/
def recovered (g : Gate) : Gate := { g with failures := 0, failingSince := none }

/-- What `failed` writes before it works out the wait. A moment of 0.0 counts as none. -/
def noteFailure (g : Gate) (settings : Settings) (now : ℚ) : Gate :=
  let g := if past now g.lastFailure settings.backoffMaxSeconds then g.recovered else g
  let since := match g.failingSince with
    | some t => if t = 0 then now else t
    | none => now
  let g := { g with failures := g.failures + 1, lastFailure := some now, failingSince := some since }
  let g := if atLeast now g.adjusted shrinkPeriod then g.halveSlots now else g
  if failingSeconds ≤ now - since then { g with unhealthyUntil := now + unhealthySeconds } else g

def pause (g : Gate) (retryAfter : Value) (now : ℚ) : Gate :=
  { g with pausedUntil := later now retryAfter }

end Gate

/-- The backoff of `failed`: a power of two beyond the doubles fails. -/
def backoff (settings : Settings) (attempt : ℕ) (uniform : ℚ) : Except Exc Value :=
  if 1023 < attempt - 1 then .error .overflowError
  else
    let base := mul (.finite settings.backoffSeconds) (.finite (2 ^ (attempt - 1)))
    .ok (mul (Binary64.min (.finite settings.backoffMaxSeconds) base) (.finite uniform))

end PurdueAF.LlmProxy

import PurdueAF.LlmProxy

/-!
# What the upstream may send

`take` walks the JSON of a reply without looking at its types, and `completion` counts by
what it kept. Here is the shape of the JSON they get through, said of the JSON alone, and
that they do.
-/
namespace PurdueAF.LlmProxy
open Py Binary64

/-- Nothing, or a string: what `text += x or ""` takes. -/
def textual (x : Json) : Bool :=
  !x.truthy || match x with
    | .str _ => true
    | _ => false

def hashable : Json → Bool
  | .list _ | .dict _ => false
  | _ => true

/-- Nothing, or a list of which each is so. -/
def listed (p : Json → Bool) (x : Json) : Bool :=
  !x.truthy || match x with
    | .list items => items.all p
    | _ => false

/-- Nothing, or a dictionary that is so. -/
def nested (p : List (String × Json) → Bool) (x : Json) : Bool :=
  !x.truthy || match x with
    | .dict entries => p entries
    | _ => false

def functionShaped (function : List (String × Json)) : Bool :=
  textual (Json.lookup function "name") && textual (Json.lookup function "arguments")

def callShaped : Json → Bool
  | .dict call => ((List.lookup "index" call).all hashable) &&
      nested functionShaped (Json.lookup call "function")
  | _ => false

def deltaShaped (delta : List (String × Json)) : Bool :=
  textual (Json.lookup delta "content") && textual (Json.lookup delta "reasoning_content") &&
    textual (Json.lookup delta "reasoning") && listed callShaped (Json.lookup delta "tool_calls")

def choiceShaped : Json → Bool
  | .dict choice =>
    nested deltaShaped ((Json.lookup choice "delta").or (Json.lookup choice "message"))
  | _ => false

def chunkShaped : Json → Bool
  | .dict chunk => listed choiceShaped (Json.lookup chunk "choices")
  | _ => false

/-- The usage that stands after a chunk. -/
def usageAfter (usage : Json) : Json → Json
  | .dict chunk => (Json.lookup chunk "usage").or usage
  | _ => usage

/-- A count that `int` takes and a double holds. -/
def countShaped (count : Json) : Bool :=
  !count.truthy || match count.toInt with
    | .ok n => (ofInt n).isSome
    | .error _ => false

def usageShaped (usage : Json) : Bool :=
  nested (fun entries => countShaped (Json.lookup entries "completion_tokens")) usage

/-- What a stream's lines are read to: the client is gone, the end is said, or a line is no
JSON; up to there each is shaped, and so is the usage that stands then. -/
def linesShaped (std : Std) (ending : Ending) : Json → List (Bool × String) → Bool
  | usage, [] => ending = .undecodable || usageShaped usage
  | usage, (gone, line) :: lines =>
    if gone then usageShaped usage
    else
      match dataOf line with
      | none => linesShaped std ending usage lines
      | some data =>
        if data = "[DONE]" then usageShaped usage
        else
          match std.loads data.toUTF8.toList with
          | .ok chunk => chunkShaped chunk && linesShaped std ending (usageAfter usage chunk) lines
          | .error e => e = .invalid

/-- No stream is longer than a double counts. -/
def maxLines : ℕ := 2 ^ 64

/-- What comes of a request may be no answer, a refusal, or text that is no JSON; the JSON
of an answer is shaped. -/
def upstreamShaped (std : Std) (stream : Bool) : Upstream → Bool
  | .unreachable => true
  | .answered status _ content lines ending _ _ =>
    status ≠ 200 ||
      if stream then decide (lines.length ≤ maxLines) && linesShaped std ending .null lines
      else
        match std.loads content with
        | .ok chunk => chunkShaped chunk && usageShaped (usageAfter .null chunk)
        | .error e => e = .invalid

/-- The calls' arguments up to the first that are no JSON are not nested too deep. -/
def shallow (std : Std) : Dict Json.Key Slot → Bool
  | [] => true
  | (_, slot) :: calls =>
    match std.loads (if slot.arguments = "" then "\x7b\x7d" else slot.arguments).toUTF8.toList with
    | .ok _ => shallow std calls
    | .error e => e = .invalid

variable {r : Reply}

/-- What `take` leaves alone. -/
def Reply.frame (r : Reply) : ℤ × List (List UInt8) × Bool := (r.status, r.payloads, r.done)

theorem appendTo_of_textual {x : Json} (h : textual x = true) (text : String) :
    ∃ t, (x.or (.str "")).appendTo text = .ok t := by
  unfold textual at h
  unfold Json.or
  by_cases ht : x.truthy = true
  · cases x with
    | str s => exact ⟨text ++ s, by simp [ht, Json.appendTo]⟩
    | _ => simp [ht] at h
  · exact ⟨text ++ "", by simp [ht, Json.appendTo]⟩

theorem iter_of_listed {p : Json → Bool} {x : Json} (h : listed p x = true) :
    ∃ items, (x.or (.list [])).iter = .ok items ∧ ∀ y ∈ items, p y = true := by
  unfold listed at h
  unfold Json.or
  by_cases ht : x.truthy = true
  · cases x with
    | list items => exact ⟨items, by simp [ht, Json.iter], by simpa [ht] using h⟩
    | _ => simp [ht] at h
  · exact ⟨[], by simp [ht, Json.iter], by simp⟩

theorem dict_of_nested {p : List (String × Json) → Bool} {x : Json} (h : nested p x = true)
    (h0 : p [] = true) : ∃ entries, x.or (.dict []) = .dict entries ∧ p entries = true := by
  unfold nested at h
  unfold Json.or
  by_cases ht : x.truthy = true
  · cases x with
    | dict entries => exact ⟨entries, by simp [ht], by simpa [ht] using h⟩
    | _ => simp [ht] at h
  · exact ⟨[], by simp [ht], h0⟩

theorem takeReasoning_ok {delta : List (String × Json)} {name : String}
    (h : textual (Json.lookup delta name) = true) : ∃ r', r.takeReasoning (.dict delta) name = .ok r' ∧
      r'.frame = r.frame ∧ r'.usage = r.usage := by
  unfold Reply.takeReasoning
  by_cases ht : (Json.lookup delta name).truthy = true
  · obtain ⟨t, hap⟩ := appendTo_of_textual h r.reasoning
    rw [Json.or, if_pos ht] at hap
    exact ⟨{ r with reasoning := t, reasoningName := name },
      by simp [ht, hap, pure, Except.pure], rfl, rfl⟩
  · exact ⟨r, by simp [ht, pure, Except.pure], rfl, rfl⟩

theorem hashed_of_hashable {x : Json} (h : hashable x = true) : ∃ key, x.hashed = .ok key := by
  cases x with
  | list items => cases h
  | dict entries => cases h
  | _ => exact ⟨_, rfl⟩

theorem takeCall_ok {call : Json} (h : callShaped call = true) (n : ℕ) :
    ∃ r', r.takeCall n call = .ok r' ∧ r'.frame = r.frame ∧ r'.usage = r.usage := by
  cases call with
  | dict call =>
    simp only [callShaped, Bool.and_eq_true] at h
    have hindex : hashable ((List.lookup "index" call).getD (.int n)) = true := by
      cases hl : List.lookup "index" call with
      | none => rfl
      | some x => simpa [hl] using h.1
    obtain ⟨key, hkey⟩ := hashed_of_hashable hindex
    obtain ⟨function, hf, hshaped⟩ := dict_of_nested h.2 (by rfl)
    simp only [functionShaped, Bool.and_eq_true] at hshaped
    obtain ⟨name, hname⟩ :=
      appendTo_of_textual hshaped.1 ((r.calls.get? key).getD {}).name
    obtain ⟨arguments, harguments⟩ :=
      appendTo_of_textual hshaped.2 ((r.calls.get? key).getD {}).arguments
    let slot : Slot :=
      ⟨(Json.lookup call "id").or ((r.calls.get? key).getD {}).callId, name, arguments⟩
    refine ⟨{ r with calls := r.calls.set key slot }, ?_, rfl, rfl⟩
    simp only [Reply.takeCall, Json.getD, ok_bind, hkey, Json.get_dict, hf, hname, harguments]
    rfl
  | _ => cases h

theorem takeCalls_ok {calls : List Json} (h : ∀ c ∈ calls, callShaped c = true) (n : ℕ) :
    ∃ r', r.takeCalls n calls = .ok r' ∧ r'.frame = r.frame ∧ r'.usage = r.usage := by
  induction calls generalizing r n with
  | nil => exact ⟨r, rfl, rfl, rfl⟩
  | cons c calls ih =>
    obtain ⟨r₁, h₁, hf₁, hu₁⟩ := takeCall_ok (r := r) (h c (by simp)) n
    obtain ⟨r₂, h₂, hf₂, hu₂⟩ := ih (r := r₁) (fun d hd => h d (by simp [hd])) (n + 1)
    refine ⟨r₂, ?_, hf₂.trans hf₁, hu₂.trans hu₁⟩
    simp only [Reply.takeCalls, h₁, ok_bind, h₂]

theorem takeChoice_ok {choice : Json} (h : choiceShaped choice = true) :
    ∃ r', r.takeChoice choice = .ok r' ∧ r'.frame = r.frame ∧ r'.usage = r.usage := by
  cases choice with
  | dict choice =>
    obtain ⟨delta, hd, hshaped⟩ := dict_of_nested h (by rfl)
    simp only [deltaShaped, Bool.and_eq_true] at hshaped
    obtain ⟨⟨⟨hcontent, hreasoning⟩, hreason⟩, hcalls⟩ := hshaped
    obtain ⟨content, hc⟩ := appendTo_of_textual hcontent r.content
    obtain ⟨r₁, h₁, hf₁, hu₁⟩ := takeReasoning_ok (r := { r with content := content }) hreasoning
    obtain ⟨r₂, h₂, hf₂, hu₂⟩ := takeReasoning_ok (r := r₁) hreason
    obtain ⟨calls, hiter, hall⟩ := iter_of_listed hcalls
    obtain ⟨r₃, h₃, hf₃, hu₃⟩ := takeCalls_ok (r := r₂) hall 0
    have hframe : r₃.frame = r.frame := hf₃.trans (hf₂.trans hf₁)
    have husage : r₃.usage = r.usage := hu₃.trans (hu₂.trans hu₁)
    refine ⟨if (Json.lookup choice "finish_reason").truthy then
      { r₃ with finish := Json.lookup choice "finish_reason" } else r₃, ?_, ?_, ?_⟩
    · simp only [Reply.takeChoice, Json.get_dict, ok_bind, hd, hc, h₁, h₂, hiter, h₃]
      rfl
    · split_ifs
      · exact hframe
      · exact hframe
    · split_ifs
      · exact husage
      · exact husage
  | _ => cases h

theorem takeChoices_ok {choices : List Json} (h : ∀ c ∈ choices, choiceShaped c = true) :
    ∃ r', r.takeChoices choices = .ok r' ∧ r'.frame = r.frame ∧ r'.usage = r.usage := by
  induction choices generalizing r with
  | nil => exact ⟨r, rfl, rfl, rfl⟩
  | cons c choices ih =>
    obtain ⟨r₁, h₁, hf₁, hu₁⟩ := takeChoice_ok (r := r) (h c (by simp))
    obtain ⟨r₂, h₂, hf₂, hu₂⟩ := ih (r := r₁) fun d hd => h d (by simp [hd])
    refine ⟨r₂, ?_, hf₂.trans hf₁, hu₂.trans hu₁⟩
    simp only [Reply.takeChoices, h₁, ok_bind, h₂]

/-- A chunk of that shape is taken; of what `forward` reads it changes the usage. -/
theorem take_ok {chunk : Json} (h : chunkShaped chunk = true) :
    ∃ r', r.take chunk = .ok r' ∧ r'.frame = r.frame ∧ r'.usage = usageAfter r.usage chunk := by
  cases chunk with
  | dict chunk =>
    obtain ⟨choices, hiter, hall⟩ := iter_of_listed h
    let r₁ : Reply := if (Json.lookup chunk "usage").truthy then
      { r with usage := Json.lookup chunk "usage" } else r
    have hf₁ : r₁.frame = r.frame := by
      simp only [r₁]
      split_ifs <;> rfl
    have hu₁ : r₁.usage = usageAfter r.usage (.dict chunk) := by
      simp only [r₁, usageAfter, Json.or]
      split_ifs <;> rfl
    obtain ⟨r₂, h₂, hf₂, hu₂⟩ := takeChoices_ok (r := r₁) hall
    refine ⟨r₂, ?_, hf₂.trans hf₁, hu₂.trans hu₁⟩
    simp only [Reply.take, Json.get_dict, ok_bind, hiter]
    exact h₂
  | _ => cases h

/-- The reply's output tokens are a number that a double holds. -/
def Countable (r : Reply) : Prop := ∃ n q, r.completion = .ok n ∧ floatOfInt n = .ok q

theorem floatOfInt_ok {n : ℤ} (h : |n| ≤ 2 ^ 64) : ∃ q, floatOfInt n = .ok q := by
  have hle : |(n : ℚ)| ≤ 2 ^ 1024 - 2 ^ 971 := by
    have hcast : |(n : ℚ)| ≤ 2 ^ 64 := by exact_mod_cast h
    exact hcast.trans (two_pow_le_max (by norm_num))
  obtain ⟨q, hq⟩ := nearest_finite hle
  exact ⟨q, by simp [floatOfInt, ofInt, hq]⟩

theorem lt_of_floatOfInt {n : ℤ} {q : ℚ} (h : floatOfInt n = .ok q) : |q| < 2 ^ 1024 := by
  unfold floatOfInt ofInt at h
  cases hn : nearest (n : ℚ) with
  | finite p =>
    obtain rfl : p = q := by simpa [hn] using h
    exact lt_of_nearest hn
  | infinite b => simp [hn] at h
  | nan => simp [hn] at h

theorem countable_of_usage (h : usageShaped r.usage = true) (hl : r.payloads.length ≤ maxLines) :
    Countable r := by
  obtain ⟨entries, hd, hc⟩ := dict_of_nested h (by rfl)
  have hcompletion : r.completion =
      ((Json.lookup entries "completion_tokens").or (.int r.payloads.length)).toInt := by
    simp only [Reply.completion, hd, Json.get_dict, ok_bind]
  unfold Countable
  rw [hcompletion]
  unfold countShaped at hc
  unfold Json.or
  by_cases ht : (Json.lookup entries "completion_tokens").truthy = true
  · rw [if_pos ht]
    simp only [ht, Bool.not_true, Bool.false_or] at hc
    cases hi : (Json.lookup entries "completion_tokens").toInt with
    | error e => simp [hi] at hc
    | ok n =>
      rw [hi] at hc
      obtain ⟨q, hq⟩ := Option.isSome_iff_exists.mp hc
      exact ⟨n, q, rfl, by simp [floatOfInt, hq]⟩
  · rw [if_neg ht]
    have hle : |(r.payloads.length : ℤ)| ≤ 2 ^ 64 := by
      rw [abs_of_nonneg (by positivity)]
      exact_mod_cast hl
    obtain ⟨q, hq⟩ := floatOfInt_ok hle
    exact ⟨_, q, rfl, hq⟩

/-- Lines of that shape are read to a reply that can be counted, or to a line that is no JSON. -/
theorem readLines_ok {std : Std} {ending : Ending} {ttft : ℚ} {lines : List (Bool × String)}
    (h : linesShaped std ending r.usage lines = true)
    (hl : r.payloads.length + lines.length ≤ maxLines) :
    match readLines std ttft r lines with
    | .ok (r', left) => r'.status = r.status ∧ (left = true ∨ ending ≠ .undecodable → Countable r')
    | .error f => f = .exc .valueError := by
  induction lines generalizing r with
  | nil =>
    simp only [readLines]
    refine ⟨trivial, fun hleft => countable_of_usage ?_ (by simpa using hl)⟩
    have hending : ending ≠ .undecodable := by simpa using hleft
    simpa [linesShaped, hending] using h
  | cons x lines ih =>
    obtain ⟨gone, line⟩ := x
    have hlen : r.payloads.length + (lines.length + 1) ≤ maxLines := by simpa using hl
    simp only [linesShaped] at h
    simp only [readLines]
    cases gone with
    | true => exact ⟨rfl, fun _ => countable_of_usage (by simpa using h) (by omega)⟩
    | false =>
      simp only [Bool.false_eq_true, if_false] at h ⊢
      cases hdata : dataOf line with
      | none =>
        simp only [hdata] at h ⊢
        exact ih h (by omega)
      | some data =>
        simp only [hdata] at h ⊢
        by_cases hdone : data = "[DONE]"
        · simp only [hdone, if_true] at h ⊢
          exact ⟨trivial, fun _ => countable_of_usage (by simpa using h) (by dsimp only; omega)⟩
        · simp only [hdone, if_false] at h ⊢
          cases hloads : std.loads data.toUTF8.toList with
          | error e =>
            simp only [hloads, decide_eq_true_eq] at h
            simp only [loading, hloads, h, Undecoded.exc]
            rfl
          | ok chunk =>
            simp only [hloads, Bool.and_eq_true] at h
            obtain ⟨r', hr', hframe, husage⟩ := take_ok (r := { r with
              ttft := some (r.ttft.getD ttft), payloads := r.payloads ++ [data.toUTF8.toList] }) h.1
            have hstatus : r'.status = r.status := congrArg Prod.fst hframe
            have hpayloads : r'.payloads = r.payloads ++ [data.toUTF8.toList] :=
              congrArg (fun f => f.2.1) hframe
            simp only [loading, hloads, ok_bind, hr', raising]
            rw [← hstatus]
            refine ih (by rw [husage]; exact h.2) ?_
            rw [hpayloads, List.length_append, List.length_singleton]
            omega

/-- An answer of that shape comes back as a reply that can be counted, or as an error that
`forward` catches. -/
theorem exchange_ok {std : Std} {stream : Bool} {u : Upstream}
    (h : upstreamShaped std stream u = true) :
    match exchange std stream u with
    | .ok r => r.status = 200 → Countable r
    | .error f => f = .http ∨ f = .exc .valueError := by
  cases u with
  | unreachable => exact .inl rfl
  | answered status headers content lines ending ttft seconds =>
    by_cases hs : status = 200
    · simp only [upstreamShaped, hs, ne_eq, not_true_eq_false, decide_false, Bool.false_or] at h
      simp only [exchange, hs, ne_eq, not_true_eq_false, if_false]
      cases stream with
      | true =>
        simp only [if_true, Bool.and_eq_true, decide_eq_true_eq] at h ⊢
        have hread := @readLines_ok { status := 200, headers := headers, seconds := seconds }
          std ending ttft lines h.2 (by simpa using h.1)
        cases hrl : readLines std ttft
          { status := 200, headers := headers, seconds := seconds } lines with
        | error f =>
          rw [hrl] at hread
          simp only [bind, Except.bind]
          exact .inr hread
        | ok x =>
          obtain ⟨r', left⟩ := x
          rw [hrl] at hread
          simp only [ok_bind]
          by_cases hend : (!left) = true ∧ ending = .undecodable
          · rw [if_pos hend]
            exact .inl rfl
          · rw [if_neg hend]
            intro _
            apply hread.2
            cases left with
            | true => exact .inl rfl
            | false => exact .inr fun he => hend ⟨rfl, he⟩
      | false =>
        simp only [Bool.false_eq_true, if_false] at h ⊢
        cases hloads : std.loads content with
        | error e =>
          simp only [hloads, decide_eq_true_eq] at h
          simp only [loading, hloads, h, Undecoded.exc]
          exact .inr rfl
        | ok chunk =>
          simp only [hloads, Bool.and_eq_true] at h
          obtain ⟨r', hr', hframe, husage⟩ := take_ok
            (r := { status := 200, headers := headers, seconds := seconds }) h.1
          have hpayloads : r'.payloads = [] := congrArg (fun f => f.2.1) hframe
          simp only [loading, hloads, ok_bind, hr', raising, pure, Except.pure]
          intro _
          refine countable_of_usage ?_ ?_
          · rw [show ({ r' with done := true } : Reply).usage = r'.usage from rfl, husage]
            exact h.2
          · simp [hpayloads]
    · simp only [exchange, ne_eq, hs, not_false_eq_true, if_true]
      by_cases hbroken : (stream && decide (ending ≠ .whole)) = true
      · rw [if_pos hbroken]
        exact .inl rfl
      · rw [if_neg hbroken]
        intro h200
        exact absurd h200 hs

theorem badArguments_ok {std : Std} {calls : Dict Json.Key Slot} (h : shallow std calls = true) :
    ∃ b, Reply.badArguments std calls = .ok b := by
  induction calls with
  | nil => exact ⟨false, rfl⟩
  | cons c calls ih =>
    obtain ⟨key, slot⟩ := c
    simp only [shallow] at h
    simp only [Reply.badArguments]
    split at h
    · rename_i hl
      rw [hl]
      exact ih h
    · rename_i e hl
      obtain rfl : e = .invalid := by simpa using h
      rw [hl]
      exact ⟨true, rfl⟩

theorem problem_ok {std : Std} (h : r.done = true → shallow std r.calls = true) :
    ∃ p, r.problem std = .ok p := by
  unfold Reply.problem
  by_cases hd : r.done = true
  · obtain ⟨b, hb⟩ := badArguments_ok (h hd)
    by_cases hf : (r.finish.isStr "tool_calls" && r.calls.isEmpty) = true
    · exact ⟨some .noToolCall, by simp [hd, hf, pure, Except.pure]⟩
    · refine ⟨if b then some .badToolArguments else none, ?_⟩
      simp [hd, hf, hb, pure, Except.pure]
  · exact ⟨some .cut, by simp [hd, pure, Except.pure]⟩

theorem decode_ok (h : Countable r) : ∃ d, r.decode = .ok d := by
  obtain ⟨n, q, hn, hq⟩ := h
  unfold Reply.decode
  rw [hn]
  simp only [ok_bind]
  split_ifs
  · exact ⟨_, by rw [hq]; rfl⟩
  · exact ⟨none, rfl⟩

theorem cutShrink_eq : cutShrink = .finite (3602879701896397 / 4503599627370496) := by
  decide +kernel

theorem shrunk_ok (h : Countable r) (floor : ℤ) : ∃ n, shrunk floor r = .ok n := by
  obtain ⟨n, q, hn, hq⟩ := h
  have hbound : |(3602879701896397 / 4503599627370496 : ℚ) * q| ≤ 2 ^ 1024 - 2 ^ 971 := by
    have hlt := (lt_of_floatOfInt hq).le
    rw [abs_mul]
    have habs : |(3602879701896397 / 4503599627370496 : ℚ)| = 3602879701896397 / 4503599627370496 :=
      abs_of_pos (by norm_num)
    have htop : (2 : ℚ) ^ 1024 = 2 ^ 53 * 2 ^ 971 := by rw [← pow_add]
    have hpos : (0 : ℚ) < 2 ^ 971 := by positivity
    rw [htop] at hlt ⊢
    rw [habs]
    norm_num at hlt ⊢
    generalize (2 : ℚ) ^ 971 = x at hlt hpos
    linarith
  obtain ⟨p, hp⟩ := nearest_finite hbound
  refine ⟨max floor (truncate p), ?_⟩
  simp only [shrunk, hn, ok_bind, hq, cutShrink_eq, mul, hp, intOfFloat]
  rfl

end PurdueAF.LlmProxy

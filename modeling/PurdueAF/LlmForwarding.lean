import PurdueAF.LlmBalance

/-!
# What `forward` passes on, and that it ends

One loop counts cuts and failures, keeps a streamed reply whose tool calls were malformed,
and holds a deadline. Every round but the last uses up one of these: a cut, one of the
failures that a backoff can be worked out for, a second of the hold, or the one retry that
is not streamed.
-/
namespace PurdueAF.LlmProxy
open Py Binary64 Coroutine

/-- A reply that the upstream cut, but not so early that the model failed. -/
def lateCut (settings : Settings) (reply : Reply) : Bool :=
  reply.status = 200 && !reply.done &&
    !lt (.finite reply.seconds) (mul earlyCut (.finite settings.cutSeconds))

/-- Whether the thread waits on after this look of `acquire`. -/
def waitsOn (w : World) (g : Memory) : Pc → Answer → Bool
  | .acquire l a seq, .bool gone =>
    match (resumeAcquire w g l a seq gone).next with
    | some (.acquire _ _ _) => true
    | _ => false
  | _, _ => false

/-- The request that the thread sends when it is resumed. -/
def sentNow (w : World) (g : Memory) : Pc → Answer → Option Attempt
  | .acquire l a seq, .bool gone =>
    match (resumeAcquire w g l a seq gone).next with
    | some (.exchange _ _) => some a
    | _ => none
  | _, _ => none

/-- A tool call is missing although the reply says that it calls one, or one of its calls has
arguments that are no JSON. -/
def Malformed (std : Std) (reply : Reply) : Prop :=
  (reply.finish.isStr "tool_calls" = true ∧ reply.calls = []) ∨
    ∃ key slot, (key, slot) ∈ reply.calls ∧ slot.arguments ≠ "" ∧
      std.loads slot.arguments.toUTF8.toList = .error .invalid

/-- Every way on from a suspension, with what `forward` has made sure of there. -/
inductive Turn (settings : Settings) (std : Std) (w : World) :
    Pc → Answer → Option Pc → List Event → Prop
  | quits {pc : Pc} {a : Answer} {events : List Event}
      (h : ∀ reply, .returned reply ∈ events → reply.status ≠ 200) : Turn settings std w pc a none events
  | expires {l : Loop} {reply : Reply} (hs : l.streamed = some reply) (hd : l.deadline ≤ w.now) :
      Turn settings std w (.head l) (.bool false) none [.returned reply]
  | begins {l : Loop} (hg : l.gone = false) :
      Turn settings std w (.head l) (.bool false) (some (.pick l)) []
  | picks {l : Loop} {b : Backend} {prompt n : ℤ} :
      Turn settings std w (.pick l) .go (some (.cap l b prompt n)) []
  | shapes {l : Loop} {b : Backend} {prompt n : ℤ} {a : Attempt}
      (hs : a.payload.stream = l.streamed.isNone) :
      Turn settings std w (.cap l b prompt n) .go (some (.acquire l a none)) []
  | waits {l : Loop} {a : Attempt} {seq : Option ℕ} {n : ℕ} (hd : w.now < l.deadline) :
      Turn settings std w (.acquire l a seq) (.bool false) (some (.acquire l a (some n))) []
  | sends {l : Loop} {a : Attempt} {seq : Option ℕ} :
      Turn settings std w (.acquire l a seq) (.bool false) (some (.exchange l a))
        [.acquired a.backend.model.name a.tokens]
  | leaves {l : Loop} {a : Attempt} {seq : Option ℕ} {gone : Bool}
      (h : gone = true ∨ l.deadline ≤ w.now) :
      Turn settings std w (.acquire l a seq) (.bool gone) (some (.denied l)) []
  | denies {l : Loop} {reply : Reply} (hs : l.streamed = some reply) :
      Turn settings std w (.denied l) (.bool false) none [.returned reply]
  | answers {l : Loop} {a : Attempt} {u : Upstream} {reply : Reply} {n : ℤ} {raised : Option Exc}
      (hw : a.payload.stream = false → reply.status = 200 → reply.done = true) :
      Turn settings std w (.exchange l a) (.upstream u) (some (.release l a reply n raised)) []
  | fallsBack {l : Loop} {a : Attempt} {reply streamed : Reply} {n : ℤ} {events : List Event}
      (hs : l.streamed = some streamed) (he : ∀ r, .returned r ∈ events → r = streamed) :
      Turn settings std w (.release l a reply n none) .go none events
  | fails {l : Loop} {a : Attempt} {reply : Reply} {n : ℤ} {events : List Event}
      (hs : l.streamed = none) (hc : lateCut settings reply = false)
      (he : ∀ r, .returned r ∉ events) :
      Turn settings std w (.release l a reply n none) .go (some (.failing l a reply)) events
  | cuts {l : Loop} {a : Attempt} {reply : Reply} {n : ℤ} {d : Option Value} {events : List Event}
      (hs : l.streamed = none) (hc : lateCut settings reply = true)
      (he : ∀ r, .returned r ∉ events) :
      Turn settings std w (.release l a reply n none) .go (some (.observe l a reply d)) events
  | reshapes {l : Loop} {a : Attempt} {reply : Reply} {n : ℤ} {events : List Event}
      (hs : l.streamed = none) (h200 : reply.status = 200) (hdone : reply.done = true)
      (he : ∀ r, .returned r ∉ events) :
      Turn settings std w (.release l a reply n none) .go
        (some (.head { l with streamed := some reply })) events
  | fits {l : Loop} {a : Attempt} {reply : Reply} {n : ℤ} {d : Option Value} {events : List Event}
      (h200 : reply.status = 200) (hdone : reply.done = true)
      (hp : Malformed std reply → reply.finish.isStr "length" = true ∨ l.streamed ≠ none)
      (he : ∀ r, .returned r ∉ events) :
      Turn settings std w (.release l a reply n none) .go (some (.recovered a reply d)) events
  | givesUp {l : Loop} {a : Attempt} {reply : Reply} :
      Turn settings std w (.failing l a reply) (.bool true) (some (.head { l with gone := true })) []
  | counts {l : Loop} {a : Attempt} {reply : Reply} :
      Turn settings std w (.failing l a reply) (.bool false)
        (some (.failed { l with failures := l.failures + 1 } a reply)) []
  | pauses {l : Loop} {a : Attempt} {reply : Reply} {u q : ℚ} (hd : q < l.deadline)
      (hnow : w.now ≤ q) (hq : w.now + 1 ≤ q ∨ l.failures ≤ 1024) :
      Turn settings std w (.failed l a reply) (.uniform u) (some (.pause l (.finite q))) []
  | retries {l : Loop} {till : Value} :
      Turn settings std w (.pause l till) (.bool false) (some (.head l)) []
  | shrinks {l : Loop} {a : Attempt} {reply : Reply} {d : Option Value} {n : ℤ}
      (hc : l.cuts + 1 ≤ settings.cutRetries) :
      Turn settings std w (.observe l a reply d) .go
        (some (.head { l with cuts := l.cuts + 1, shrink := n })) []
  | recovers {a : Attempt} {reply : Reply} {d : Option Value} :
      Turn settings std w (.recovered a reply d) .go (some (.succeeded a reply d)) []
  | succeeds {a : Attempt} {reply : Reply} {d : Option Value} :
      Turn settings std w (.succeeded a reply d) .go none [.returned reply]

variable {config : Config} {settings : Settings} {std : Std} {w : World} {g : Memory} {pc : Pc}
  {a : Answer} {l : Loop} {x : Attempt} {reply : Reply}

theorem Turn.returns {r : Reply} (h : r.status ≠ 200) :
    Turn settings std w pc a (LlmProxy.returns g r).next (LlmProxy.returns g r).events := by
  refine .quits ?_
  intro r' hr'
  obtain rfl : r' = r := by simpa [LlmProxy.returns] using hr'
  exact h

theorem Turn.trying {α : Type} {y : Except Exc α} {next : α → Step}
    (hn : ∀ z, y = .ok z → Turn settings std w pc a (next z).next (next z).events) :
    Turn settings std w pc a (LlmProxy.trying g y next).next (LlmProxy.trying g y next).events := by
  cases y with
  | ok z => exact hn z rfl
  | error e =>
    refine .quits ?_
    intro r hr
    simp [LlmProxy.trying, raises] at hr

theorem Turn.resumeHead {gone : Bool} (hf : l.gone = true → gone = true) :
    Turn settings std w (.head l) (.bool gone) (LlmProxy.resumeHead w g l gone).next
      (LlmProxy.resumeHead w g l gone).events := by
  unfold LlmProxy.resumeHead
  cases gone with
  | true => exact .returns (by decide)
  | false =>
    have hg : l.gone = false := by
      cases hl : l.gone with
      | true => cases hf hl
      | false => rfl
    simp only [Bool.false_eq_true, if_false]
    cases hs : l.streamed with
    | none => exact .begins hg
    | some r =>
      dsimp only
      split_ifs with hd
      · exact .expires hs hd
      · exact .begins hg

theorem Turn.resumePick : Turn settings std w (.pick l) .go (LlmProxy.resumePick settings w g l).next
    (LlmProxy.resumePick settings w g l).events := by
  unfold LlmProxy.resumePick
  refine .trying fun z _ => .trying fun prompt _ => .trying fun n _ => ?_
  split_ifs
  · exact .returns (by decide)
  · exact .picks

theorem stream_of_shape {body : Body} {b : Backend} {cap : ℤ} {stream : Bool} {payload : Payload}
    (h : shape body b cap stream = .ok payload) : payload.stream = stream := by
  unfold shape at h
  obtain ⟨n, _, h⟩ := except_bind_ok h
  cases stream with
  | true =>
    obtain ⟨options, _, h⟩ := except_bind_ok h
    obtain rfl := Except.ok.inj h
    rfl
  | false =>
    obtain rfl := Except.ok.inj h
    rfl

theorem Turn.resumeCap {b : Backend} {prompt n : ℤ} :
    Turn settings std w (.cap l b prompt n) .go
      (LlmProxy.resumeCap settings w g l b prompt n).next
      (LlmProxy.resumeCap settings w g l b prompt n).events := by
  unfold LlmProxy.resumeCap
  exact .trying fun c _ => .trying fun payload hp => .shapes (stream_of_shape hp)

theorem Turn.resumeAcquire {seq : Option ℕ} {gone : Bool} :
    Turn settings std w (.acquire l x seq) (.bool gone)
      (LlmProxy.resumeAcquire w g l x seq gone).next
      (LlmProxy.resumeAcquire w g l x seq gone).events := by
  unfold LlmProxy.resumeAcquire
  dsimp only
  cases gone with
  | true => exact .leaves (.inl rfl)
  | false =>
    simp only [Bool.false_eq_true, if_false]
    split_ifs with hfits hd
    · exact .sends
    · exact .leaves (.inr hd)
    · exact .waits (not_le.mp hd)

theorem Turn.resumeDenied {gone : Bool} :
    Turn settings std w (.denied l) (.bool gone) (LlmProxy.resumeDenied g l gone).next
      (LlmProxy.resumeDenied g l gone).events := by
  unfold LlmProxy.resumeDenied
  cases gone with
  | true => exact .returns (by decide)
  | false =>
    cases hs : l.streamed with
    | none => exact .returns (by decide)
    | some r => exact .denies hs

theorem done_of_exchange {stream : Bool} {u : Upstream} {r : Reply} (hs : stream = false)
    (h : exchange std stream u = .ok r) (h200 : r.status = 200) : r.done = true := by
  subst hs
  cases u with
  | unreachable => cases h
  | answered status headers content lines ending ttft seconds =>
    simp only [exchange, Bool.false_and, Bool.false_eq_true, if_false] at h
    by_cases hstatus : status = 200
    · simp only [hstatus, ne_eq, not_true_eq_false, if_false] at h
      obtain ⟨chunk, _, h⟩ := except_bind_ok h
      obtain ⟨r', _, h⟩ := except_bind_ok h
      obtain rfl := Except.ok.inj h
      rfl
    · simp only [ne_eq, hstatus, not_false_eq_true, if_true] at h
      obtain rfl := Except.ok.inj h
      exact absurd h200 hstatus

theorem Turn.resumeExchange {u : Upstream} :
    Turn settings std w (.exchange l x) (.upstream u) (LlmProxy.resumeExchange std g l x u).next
      (LlmProxy.resumeExchange std g l x u).events := by
  unfold LlmProxy.resumeExchange
  cases hx : exchange std x.payload.stream u with
  | ok r =>
    have hdone (hs : x.payload.stream = false) (h200 : r.status = 200) : r.done = true :=
      done_of_exchange hs hx h200
    dsimp only
    split_ifs
    · exact .trying fun n _ => .answers hdone
    · exact .answers hdone
  | error f =>
    cases f with
    | http => exact .answers (by simp)
    | exc e =>
      cases e with
      | valueError => exact .answers (by simp)
      | _ => exact .answers (by simp)

theorem done_of_problem {p : Option Reply.Problem} (h : reply.problem std = .ok p)
    (hp : p ≠ some .cut) : reply.done = true := by
  unfold Reply.problem at h
  by_contra hd
  rw [if_pos (by simpa using hd)] at h
  exact hp (Except.ok.inj h).symm

theorem not_done_of_cut (h : reply.problem std = .ok (some .cut)) : reply.done = false := by
  unfold Reply.problem at h
  by_contra hd
  have hdone : reply.done = true := by simpa using hd
  simp only [hdone, Bool.not_true, Bool.false_eq_true, if_false] at h
  split_ifs at h
  · cases Except.ok.inj h
  · obtain ⟨bad, _, h⟩ := except_bind_ok h
    split_ifs at h
    · cases Except.ok.inj h
    · cases Except.ok.inj h

theorem badArguments_of_mem {calls : Dict Json.Key Slot} {bad : Bool} {key : Json.Key}
    {slot : Slot} (h : Reply.badArguments std calls = .ok bad) (hc : (key, slot) ∈ calls)
    (hne : slot.arguments ≠ "")
    (hl : std.loads slot.arguments.toUTF8.toList = .error .invalid) : bad = true := by
  induction calls with
  | nil => cases hc
  | cons c calls ih =>
    obtain ⟨key', slot'⟩ := c
    unfold Reply.badArguments at h
    rcases List.mem_cons.mp hc with heq | hc
    · obtain ⟨-, rfl⟩ := Prod.mk.inj heq
      rw [if_neg hne, hl] at h
      exact (Except.ok.inj h).symm
    · split at h
      · exact ih h hc
      · exact (Except.ok.inj h).symm
      · cases h

/-- `problem` finds what is wrong with a malformed reply, or fails. -/
theorem problem_of_malformed {problem : Option Reply.Problem} (hm : Malformed std reply)
    (h : reply.problem std = .ok problem) : ∃ p, problem = some p := by
  unfold Reply.problem at h
  by_cases hd : reply.done = true
  · simp only [hd, Bool.not_true, Bool.false_eq_true, if_false] at h
    by_cases hcall : (reply.finish.isStr "tool_calls" && reply.calls.isEmpty) = true
    · rw [if_pos hcall] at h
      exact ⟨_, (Except.ok.inj h).symm⟩
    · rw [if_neg hcall] at h
      obtain ⟨bad, hbad, h⟩ := except_bind_ok h
      rcases hm with ⟨hfinish, hnone⟩ | ⟨key, slot, hmem, hne, hl⟩
      · simp [hfinish, hnone] at hcall
      · obtain rfl := badArguments_of_mem hbad hmem hne hl
        exact ⟨_, (Except.ok.inj h).symm⟩
  · rw [if_pos (by simpa using hd)] at h
    exact ⟨_, (Except.ok.inj h).symm⟩

/-- What `forward` makes of a reply, once the streamed one is out of the way. -/
theorem Turn.going {n : ℤ} {problem : Option Reply.Problem} {first : List Event}
    (hfirst : ∀ r, .returned r ∉ first)
    (hp : (if reply.status = 200 then reply.problem std else .ok none) = .ok problem)
    (hs : l.streamed = none ∨ reply.status = 200 ∧ problem ≠ some .cut) :
    Turn settings std w (.release l x reply n none) .go
      (judged.going settings g l x reply problem).next
      (first ++ (judged.going settings g l x reply problem).events) := by
  unfold judged.going
  have hquiet (pc' : Pc) : ∀ r, .returned r ∉ first ++ (awaiting g pc').events := by
    simpa [awaiting] using hfirst
  have hnone (h : unhealthyReply reply problem settings.cutSeconds = true) : l.streamed = none := by
    rcases hs with hs | ⟨h200, hcut⟩
    · exact hs
    · simp [unhealthyReply, h200, hcut] at h
  split_ifs with hu h200 hcut hre
  · refine .fails (hnone hu) ?_ (hquiet _)
    by_contra hlate
    simp only [lateCut, Bool.and_eq_true, decide_eq_true_eq, Bool.not_eq_true', Bool.not_eq_false]
      at hlate
    simp [unhealthyReply, hlate.1.1, hlate.2] at hu
  · refine .quits ?_
    intro r hr
    rcases List.mem_append.mp hr with hr | hr
    · exact absurd hr (hfirst r)
    · obtain rfl : r = reply := by simpa [LlmProxy.returns] using hr
      exact h200
  · have hstatus : reply.status = 200 := by simpa using h200
    rw [if_pos hstatus, hcut] at hp
    have hdone := not_done_of_cut hp
    have hlate : lateCut settings reply = true := by
      simp only [unhealthyReply, hcut, decide_true, Bool.true_and, Bool.or_eq_true, not_or] at hu
      simp only [lateCut, hstatus, hdone, decide_true, Bool.not_false, Bool.true_and]
      simpa using hu.2
    have hl : l.streamed = none := by
      rcases hs with hs | ⟨_, hne⟩
      · exact hs
      · exact absurd hcut hne
    cases hd : reply.decode with
    | ok d => exact .cuts hl hlate (hquiet _)
    | error e =>
      refine .quits ?_
      intro r hr
      simp only [LlmProxy.trying, raises, List.mem_append, List.mem_singleton, reduceCtorEq,
        or_false] at hr
      exact absurd hr (hfirst r)
  · have hstatus : reply.status = 200 := by simpa using h200
    rw [if_pos hstatus] at hp
    have hl : l.streamed = none := by
      simp only [Bool.and_eq_true, Option.isNone_iff_eq_none] at hre
      exact hre.2
    exact .reshapes hl hstatus (done_of_problem hp hcut) (hquiet _)
  · have hstatus : reply.status = 200 := by simpa using h200
    rw [if_pos hstatus] at hp
    cases hd : reply.decode with
    | ok d =>
      refine .fits hstatus (done_of_problem hp hcut) ?_ (hquiet _)
      intro hmal
      obtain ⟨p, rfl⟩ := problem_of_malformed hmal hp
      by_contra hneither
      rw [not_or, not_not] at hneither
      exact hre (by simp [hneither.1, hneither.2])
    | error e =>
      refine .quits ?_
      intro r hr
      simp only [LlmProxy.trying, raises, List.mem_append, List.mem_singleton, reduceCtorEq,
        or_false] at hr
      exact absurd hr (hfirst r)

theorem Turn.resumeRelease {n : ℤ} {raised : Option Exc} :
    Turn settings std w (.release l x reply n raised) .go
      (LlmProxy.resumeRelease settings std w g l x reply n raised).next
      (LlmProxy.resumeRelease settings std w g l x reply n raised).events := by
  unfold LlmProxy.resumeRelease
  dsimp only
  cases raised with
  | some e =>
    refine .quits ?_
    intro r hr
    simp [raises] at hr
  | none =>
    dsimp only
    unfold judged
    cases hp : (if reply.status = 200 then reply.problem std else .ok none) with
    | error e =>
      refine .quits ?_
      intro r hr
      simp [LlmProxy.trying, raises] at hr
    | ok problem =>
      dsimp only [LlmProxy.trying]
      have hquiet : ∀ r, .returned r ∉ [Event.released x.backend.model.name x.tokens] := by simp
      cases hs : l.streamed with
      | none => exact Turn.going hquiet hp (.inl hs)
      | some streamed =>
        dsimp only
        split_ifs with hback
        · refine .fallsBack hs ?_
          intro r hr
          simpa [LlmProxy.returns] using hr
        · simp only [Bool.or_eq_true, decide_eq_true_eq, not_or, not_not] at hback
          exact Turn.going hquiet hp (.inr hback)

theorem Turn.resumeFailed (hs : 0 ≤ settings.backoffSeconds) (hm : 0 ≤ settings.backoffMaxSeconds)
    {u : ℚ} (hu : 0 ≤ u) :
    Turn settings std w (.failed l x reply) (.uniform u)
      (LlmProxy.resumeFailed settings w g l x reply u).next
      (LlmProxy.resumeFailed settings w g l x reply u).events := by
  have hwait (g' : Memory) {wait : Value} (h0 : le (.finite 0) wait = true)
      (h1 : le (.finite 1) wait = true ∨ l.failures ≤ 1024) :
      Turn settings std w (.failed l x reply) (.uniform u)
        (if le (.finite l.deadline) (later w.now wait) then LlmProxy.returns g' keptFailing
          else awaiting g' (.pause l (later w.now wait))).next
        (if le (.finite l.deadline) (later w.now wait) then LlmProxy.returns g' keptFailing
          else awaiting g' (.pause l (later w.now wait))).events := by
    split_ifs with hd
    · exact .returns (by decide)
    · cases wait with
      | finite q =>
        have hq : 0 ≤ q := by simpa [le, lt] using h0
        have hlt : w.now + q < l.deadline := by simpa [later, le, lt] using hd
        refine .pauses hlt (by linarith) ?_
        rcases h1 with h1 | h1
        · have hone : 1 ≤ q := by simpa [le, lt] using h1
          exact .inl (by linarith)
        · exact .inr h1
      | infinite n =>
        simp only [le, lt, Bool.not_eq_true'] at h0
        simp [later, le, lt, h0] at hd
      | nan => cases h0
  unfold LlmProxy.resumeFailed
  dsimp only
  split
  · exact hwait _ (retryAfter_nonneg reply) (.inl (one_le_retryAfter reply))
  · refine .trying fun wait hb => ?_
    refine hwait _ (backoff_nonneg hs hm hu hb) (.inr ?_)
    unfold backoff at hb
    split_ifs at hb
    omega

theorem Turn.resumeObserve {d : Option Value} :
    Turn settings std w (.observe l x reply d) .go
      (LlmProxy.resumeObserve settings w g l x reply d).next
      (LlmProxy.resumeObserve settings w g l x reply d).events := by
  unfold LlmProxy.resumeObserve
  dsimp only
  split_ifs with h
  · exact .returns (by decide)
  · simp only [Bool.or_eq_true, decide_eq_true_eq, not_or, not_lt] at h
    exact .trying fun n _ => .shrinks h.1

/-- A resumption is one of these turns. -/
theorem turn_of_resume (hs : 0 ≤ config.settings.backoffSeconds)
    (hm : 0 ≤ config.settings.backoffMaxSeconds) {r : Step} (hf : Fitting pc a)
    (h : resume config std w g pc a = some r) :
    Turn config.settings std w pc a r.next r.events := by
  cases pc <;> cases a
  case head.bool l gone => cases h; exact .resumeHead hf
  case pick.go l => cases h; exact .resumePick
  case cap.go l b prompt n => cases h; exact .resumeCap
  case acquire.bool l x seq gone => cases h; exact .resumeAcquire
  case denied.bool l gone => cases h; exact .resumeDenied
  case exchange.upstream l x u => cases h; exact .resumeExchange
  case release.go l x reply n raised => cases h; exact .resumeRelease
  case failing.bool l x reply gone =>
    cases h
    cases gone with
    | true => exact .givesUp
    | false => exact .counts
  case failed.uniform l x reply u => cases h; exact .resumeFailed hs hm hf
  case pause.bool l till stopping =>
    cases h
    cases stopping with
    | true => exact .returns (by decide)
    | false => exact .retries
  case observe.go l x reply d => cases h; exact .resumeObserve
  case recovered.go x reply d => cases h; exact .recovers
  case succeeded.go x reply d => cases h; exact .succeeds
  all_goals cases h

/-- The loop has cut replies to spare, and a streamed reply that it keeps is whole. -/
structure Live (settings : Settings) (l : Loop) : Prop where
  cuts : l.cuts ≤ settings.cutRetries
  streamed : ∀ r, l.streamed = some r → r.status = 200 ∧ r.done = true

/-- Only the first of its requests with malformed calls is asked again, and that not streamed. -/
def Keeps (settings : Settings) (std : Std) : Pc → Prop
  | .head l | .pick l | .cap l _ _ _ | .denied l => Live settings l
  | .acquire l a _ | .exchange l a => Live settings l ∧ a.payload.stream = l.streamed.isNone
  | .release l a reply _ _ => Live settings l ∧ a.payload.stream = l.streamed.isNone ∧
      (a.payload.stream = false → reply.status = 200 → reply.done = true)
  | .failing l _ _ | .observe l _ _ _ => Live settings l ∧ l.streamed = none
  | .failed l _ _ => Live settings l ∧ l.streamed = none ∧ 1 ≤ l.failures
  | .pause l till => Live settings l ∧ l.streamed = none ∧ ∃ q, till = .finite q
  | .recovered a reply _ | .succeeded a reply _ => reply.status = 200 ∧ reply.done = true ∧
      (Malformed std reply → reply.finish.isStr "length" = true ∨ a.payload.stream = false)

theorem Turn.keeps {next : Pc} {events : List Event}
    (h : Turn settings std w pc a (some next) events) (hk : Keeps settings std pc) :
    Keeps settings std next := by
  cases h with
  | begins _ => exact hk
  | picks => exact hk
  | shapes hs => exact ⟨hk, hs⟩
  | waits _ => exact hk
  | sends => exact hk
  | leaves _ => exact hk.1
  | answers hw => exact ⟨hk.1, hk.2, hw⟩
  | fails hs _ _ => exact ⟨hk.1, hs⟩
  | cuts hs _ _ => exact ⟨hk.1, hs⟩
  | reshapes hs h200 hdone _ =>
    refine ⟨hk.1.cuts, ?_⟩
    intro r hr
    obtain rfl := Option.some.inj hr
    exact ⟨h200, hdone⟩
  | fits h200 hdone hp _ =>
    refine ⟨h200, hdone, ?_⟩
    intro hmal
    refine (hp hmal).imp_right ?_
    intro hne
    rw [hk.2.1, Option.isNone_eq_false_iff, Option.isSome_iff_ne_none]
    exact hne
  | givesUp => exact ⟨hk.1.cuts, hk.1.streamed⟩
  | counts => exact ⟨⟨hk.1.cuts, hk.1.streamed⟩, hk.2, Nat.succ_le_succ (Nat.zero_le _)⟩
  | pauses _ _ _ => exact ⟨hk.1, hk.2.1, _, rfl⟩
  | retries => exact hk.1
  | shrinks hc => exact ⟨hc, hk.1.streamed⟩
  | recovers => exact hk

/-- The request whose reply the thread waits for or has. -/
def attemptOf : Pc → Option Attempt
  | .exchange _ a | .release _ a _ _ _ | .failing _ a _ | .failed _ a _ | .observe _ a _ _
  | .recovered a _ _ | .succeeded a _ _ => some a
  | _ => none

/-- The rounds that are left: cut replies, failures with a backoff, seconds of the hold and the
retry that is not streamed. -/
def rounds (settings : Settings) (l : Loop) (now : ℚ) : ℕ :=
  (settings.cutRetries + 1 - l.cuts).toNat + (1024 - l.failures) + ⌈l.deadline - now⌉₊ +
    if l.streamed = none then 1 else 0

theorem rounds_anti (settings : Settings) (l : Loop) {x y : ℚ} (h : x ≤ y) :
    rounds settings l y ≤ rounds settings l x := by
  have hceil : ⌈l.deadline - y⌉₊ ≤ ⌈l.deadline - x⌉₊ := Nat.ceil_mono (by linarith)
  unfold rounds
  omega

/-- The resumptions that are left, looks that wait on apart. -/
def left (settings : Settings) (w : World) : Pc → ℕ
  | .head l => if l.gone then 1 else 11 * rounds settings l w.now + 10
  | .pick l => 11 * rounds settings l w.now + 9
  | .cap l _ _ _ => 11 * rounds settings l w.now + 8
  | .acquire l _ _ => 11 * rounds settings l w.now + 7
  | .exchange l _ => 11 * rounds settings l w.now + 6
  | .release l _ _ _ _ => 11 * rounds settings l w.now + 5
  | .failing l _ _ | .observe l _ _ _ => 11 * rounds settings l w.now + 4
  | .failed l _ _ => 11 * rounds settings { l with failures := l.failures - 1 } w.now + 3
  | .pause l (.finite q) => 11 * rounds settings l q + 11
  | .pause _ _ => 1
  | .recovered _ _ _ => 2
  | .denied _ | .succeeded _ _ _ => 1

theorem left_anti (settings : Settings) {w w' : World} (h : w.now ≤ w'.now) (pc : Pc) :
    left settings w' pc ≤ left settings w pc := by
  cases pc with
  | head l =>
    have := rounds_anti settings l h
    simp only [left]
    split_ifs <;> omega
  | failed l x reply =>
    have := rounds_anti settings { l with failures := l.failures - 1 } h
    simp only [left]
    omega
  | pause l till =>
    cases till with
    | finite q => exact le_refl _
    | infinite n => exact le_refl _
    | nan => exact le_refl _
  | denied l => exact le_refl _
  | recovered x reply d => exact le_refl _
  | succeeded x reply d => exact le_refl _
  | pick l | cap l | acquire l | exchange l | release l | failing l | observe l =>
    have := rounds_anti settings l h
    simp only [left]
    omega

/-- Whether a look of `acquire` left the thread waiting. -/
def stays : Pc → Option Pc → Bool
  | .acquire _ _ _, some (.acquire _ _ _) => true
  | _, _ => false

theorem waitsOn_eq {r : Step} (h : resume config std w g pc a = some r) :
    waitsOn w g pc a = stays pc r.next := by
  cases pc with
  | acquire l x seq =>
    cases a with
    | bool gone =>
      obtain rfl := Option.some.inj h
      change (match (resumeAcquire w g l x seq gone).next with
        | some (.acquire _ _ _) => true
        | _ => false) = stays (.acquire l x seq) (resumeAcquire w g l x seq gone).next
      cases (resumeAcquire w g l x seq gone).next with
      | none => rfl
      | some pc' => cases pc' <;> rfl
    | _ => cases h
  | _ => rfl

theorem rounds_streamed (settings : Settings) {l : Loop} (h : l.streamed = none) (reply : Reply)
    (now : ℚ) :
    rounds settings { l with streamed := some reply } now + 1 ≤ rounds settings l now := by
  simp only [rounds, h, if_true, reduceCtorEq, if_false]
  omega

theorem rounds_cut {settings : Settings} {l : Loop} (h : l.cuts ≤ settings.cutRetries) (now : ℚ) :
    rounds settings { l with cuts := l.cuts + 1 } now + 1 ≤ rounds settings l now := by
  simp only [rounds]
  omega

/-- A pause takes a second of the hold, or one of the failures with a backoff. -/
theorem rounds_pause (settings : Settings) {l : Loop} {now q : ℚ} (hf : 1 ≤ l.failures)
    (hd : q < l.deadline) (hnow : now ≤ q) (hq : now + 1 ≤ q ∨ l.failures ≤ 1024) :
    rounds settings l q + 1 ≤ rounds settings { l with failures := l.failures - 1 } now := by
  have hceil : ⌈l.deadline - q⌉₊ ≤ ⌈l.deadline - now⌉₊ := Nat.ceil_mono (by linarith)
  simp only [rounds]
  rcases hq with hq | hq
  · have hless : ⌈l.deadline - q⌉₊ + 1 ≤ ⌈l.deadline - now⌉₊ := by
      rw [← Nat.ceil_add_one (by linarith)]
      exact Nat.ceil_mono (by linarith)
    omega
  · omega

theorem left_pos (settings : Settings) (w : World) (pc : Pc) : 1 ≤ left settings w pc := by
  cases pc with
  | head l =>
    simp only [left]
    split_ifs <;> omega
  | pause l till =>
    cases till with
    | finite q => simp [left]
    | infinite n => exact le_refl _
    | nan => exact le_refl _
  | _ => simp [left]

theorem Turn.left_le {next : Option Pc} {events : List Event}
    (h : Turn settings std w pc a next events) (hk : Keeps settings std pc)
    (hp : ∀ l q, pc = .pause l (.finite q) → a = .bool false → q ≤ w.now) :
    (if stays pc next then 0 else 1) + next.elim 0 (left settings w) ≤ left settings w pc := by
  have hends : next = none →
      (if stays pc next then 0 else 1) + next.elim 0 (left settings w) ≤ left settings w pc := by
    rintro rfl
    have hpos := left_pos settings w pc
    simp only [Option.elim_none, Nat.add_zero]
    split_ifs <;> omega
  cases h with
  | quits _ => exact hends rfl
  | expires _ _ => exact hends rfl
  | denies _ => exact hends rfl
  | fallsBack _ _ => exact hends rfl
  | succeeds => exact hends rfl
  | begins hg =>
    simp only [stays, Option.elim_some, left, hg, Bool.false_eq_true, if_false]
    omega
  | waits _ => simp only [stays, Option.elim_some, left, if_true]; omega
  | @reshapes l x reply n events hs _ _ _ =>
    have hround := rounds_streamed settings hs reply w.now
    simp only [stays, Option.elim_some, left, Bool.false_eq_true, if_false]
    split_ifs <;> omega
  | givesUp =>
    simp only [stays, Option.elim_some, left, Bool.false_eq_true, if_false, if_true]
    omega
  | @counts l x reply =>
    have hsame : rounds settings { l with failures := l.failures + 1 - 1 } w.now =
        rounds settings l w.now := rfl
    simp only [stays, Option.elim_some, left, Bool.false_eq_true, if_false, hsame]
    omega
  | pauses hd hnow hq =>
    have hround := rounds_pause settings hk.2.2 hd hnow hq
    simp only [stays, Option.elim_some, left, Bool.false_eq_true, if_false]
    omega
  | @retries l till =>
    obtain ⟨q, rfl⟩ := hk.2.2
    have hround := rounds_anti settings l (hp l q rfl rfl)
    simp only [stays, Option.elim_some, left, Bool.false_eq_true, if_false]
    split_ifs <;> omega
  | @shrinks l x reply d n hc =>
    have hround : rounds settings { l with cuts := l.cuts + 1, shrink := n } w.now + 1 ≤
        rounds settings l w.now := rounds_cut hk.1.cuts w.now
    simp only [stays, Option.elim_some, left, Bool.false_eq_true, if_false]
    split_ifs <;> omega
  | picks | shapes _ | sends | leaves _ | answers _ | fails _ _ _ | cuts _ _ _ | fits _ _ _ _
  | recovers =>
    simp only [stays, Option.elim_some, left, Bool.false_eq_true, if_false]
    omega

/-- The late cuts that are left; one that `observe` has in its hands is spent. -/
def cutsLeft (settings : Settings) : Pc → ℕ
  | .observe l _ _ _ => (settings.cutRetries - l.cuts).toNat
  | .head l | .pick l | .cap l _ _ _ | .acquire l _ _ | .exchange l _ | .release l _ _ _ _
  | .failing l _ _ | .failed l _ _ | .pause l _ => (settings.cutRetries + 1 - l.cuts).toNat
  | .denied _ | .recovered _ _ _ | .succeeded _ _ _ => 0

/-- Whether the thread has a late cut in its hands. -/
def lateCuts (settings : Settings) : Pc → ℕ
  | .release _ _ reply _ _ => if lateCut settings reply then 1 else 0
  | _ => 0

theorem Turn.cutsLeft_le {next : Option Pc} {events : List Event}
    (h : Turn settings std w pc a next events) (hk : Keeps settings std pc) :
    lateCuts settings pc + next.elim 0 (cutsLeft settings) ≤ cutsLeft settings pc := by
  have hends : lateCuts settings pc ≤ cutsLeft settings pc := by
    cases pc with
    | release l x reply n raised =>
      have hc := hk.1.cuts
      simp only [lateCuts, cutsLeft]
      split_ifs <;> omega
    | _ => exact Nat.zero_le _
  cases h with
  | quits _ => exact hends
  | expires _ _ => exact hends
  | denies _ => exact hends
  | fallsBack _ _ => exact hends
  | succeeds => exact hends
  | fails _ hc _ => simp [lateCuts, cutsLeft, hc]
  | cuts _ hc _ =>
    have hcuts := hk.1.cuts
    simp only [lateCuts, cutsLeft, hc, if_true, Option.elim_some]
    omega
  | reshapes _ _ hdone _ => simp [lateCuts, lateCut, cutsLeft, hdone]
  | fits _ hdone _ _ => simp [lateCuts, lateCut, cutsLeft, hdone]
  | shrinks hc =>
    simp only [lateCuts, cutsLeft, Option.elim_some]
    omega
  | begins _ | picks | shapes _ | waits _ | sends | leaves _ | answers _ | givesUp | counts
  | pauses _ _ _ | retries | recovers =>
    simp only [lateCuts, cutsLeft, Option.elim_some]
    omega

/-- The request that a look of `acquire` sent. -/
def sentTo : Pc → Option Pc → Option Attempt
  | .acquire _ x _, some (.exchange _ _) => some x
  | _, _ => none

theorem sentNow_eq {r : Step} (h : resume config std w g pc a = some r) :
    sentNow w g pc a = sentTo pc r.next := by
  cases pc with
  | acquire l x seq =>
    cases a with
    | bool gone =>
      obtain rfl := Option.some.inj h
      change (match (resumeAcquire w g l x seq gone).next with
        | some (.exchange _ _) => some x
        | _ => none) = sentTo (.acquire l x seq) (resumeAcquire w g l x seq gone).next
      cases (resumeAcquire w g l x seq gone).next with
      | none => rfl
      | some pc' => cases pc' <;> rfl
    | _ => cases h
  | _ => rfl

/-- The retries that are not streamed that are left. -/
def retriesLeft : Pc → ℕ
  | .exchange l _ | .release l _ _ _ _ => if l.streamed = none then 1 else 0
  | .denied _ | .recovered _ _ _ | .succeeded _ _ _ => 0
  | _ => 1

theorem Turn.retriesLeft_le {next : Option Pc} {events : List Event}
    (h : Turn settings std w pc a next events) (hk : Keeps settings std pc) :
    (if (sentTo pc next).any (fun x => !x.payload.stream) then 1 else 0) +
      next.elim 0 retriesLeft ≤ retriesLeft pc := by
  have hends : next = none → (if (sentTo pc next).any (fun x => !x.payload.stream) then 1 else 0) +
      next.elim 0 retriesLeft ≤ retriesLeft pc := by
    rintro rfl
    cases pc <;> simp [sentTo]
  cases h with
  | quits _ => exact hends rfl
  | expires _ _ => exact hends rfl
  | denies _ => exact hends rfl
  | fallsBack _ _ => exact hends rfl
  | succeeds => exact hends rfl
  | @sends l x seq =>
    have hstream : x.payload.stream = l.streamed.isNone := hk.2
    by_cases hs : l.streamed = none
    · simp [sentTo, retriesLeft, hstream, hs]
    · simp [sentTo, retriesLeft, hs]
      split_ifs <;> omega
  | fails hs _ _ => simp [sentTo, retriesLeft, hs]
  | cuts hs _ _ => simp [sentTo, retriesLeft, hs]
  | reshapes hs _ _ _ => simp [sentTo, retriesLeft, hs]
  | begins _ | picks | shapes _ | waits _ | leaves _ | answers _ | fits _ _ _ _ | givesUp | counts
  | pauses _ _ _ | retries | shrinks _ | recovers => simp [sentTo, retriesLeft]

theorem Turn.deadline {next : Pc} {events : List Event} {d : ℚ}
    (h : Turn settings std w pc a (some next) events) (hd : deadlineOf next = some d) :
    deadlineOf pc = some d := by
  cases h <;> first
    | exact hd
    | cases hd

/-- A request that is not streamed is out only if one was sent. -/
theorem Turn.attempt {next : Pc} {events : List Event} {x : Attempt}
    (h : Turn settings std w pc a (some next) events) (hx : attemptOf next = some x) :
    attemptOf pc = some x ∨ sentTo pc (some next) = some x := by
  cases h <;> first
    | exact .inl hx
    | exact .inr hx

variable {now : ℚ} {acts : List Act} {s : St} {t : ℕ}

/-- What a thread's resumptions count: those that do not wait on, the requests it sends, and
of these the ones that are not streamed. -/
def stepsOn (w : World) (g : Memory) (pc : Pc) (a : Answer) : ℕ := if waitsOn w g pc a then 0 else 1

def requestsOn (w : World) (g : Memory) (pc : Pc) (a : Answer) : ℕ :=
  if (sentNow w g pc a).isSome then 1 else 0

def unstreamedOn (w : World) (g : Memory) (pc : Pc) (a : Answer) : ℕ :=
  if (sentNow w g pc a).any (fun x => !x.payload.stream) then 1 else 0

def lateCutsOn (settings : Settings) (_ : World) (_ : Memory) (pc : Pc) (_ : Answer) : ℕ :=
  lateCuts settings pc

/-- The hold, in seconds. -/
def hold (settings : Settings) : ℚ := settings.holdHours * 3600

/-- The call that started the thread held it till then. -/
def HeldTill (config : Config) (std : Std) (now : ℚ) (acts : List Act) (t : ℕ) (d : ℚ) : Prop :=
  ∃ e ∈ (program config std).trail (initial config now) acts, (∃ i, e.2 = .call i) ∧
    e.1.threads.length = t ∧ e.1.world.now + hold config.settings = d

/-- A client that is gone stays so: once `cancelled` was true for a thread, it is. -/
def Lasting (acts : List Act) : Prop :=
  acts.Pairwise fun x y => ∀ t b, x = .serve t (.bool true) → y = .serve t (.bool b) → b = true

/-- The settings are positive. -/
structure Positive (settings : Settings) : Prop where
  bytesPerToken : 0 < settings.bytesPerToken
  holdHours : 0 < settings.holdHours
  streamSeconds : 0 < settings.streamSeconds
  cutSeconds : 0 < settings.cutSeconds
  backoffSeconds : 0 < settings.backoffSeconds
  backoffMaxSeconds : 0 < settings.backoffMaxSeconds
  cutRetries : 0 < settings.cutRetries

/-- What a suspended thread's past says of where it is. -/
structure Recalls (config : Config) (std : Std) (now : ℚ) (acts : List Act) (t : ℕ) (w : World)
    (pc : Pc) (answer : Option Answer) : Prop where
  keeps : Keeps config.settings std pc
  fits : ∀ a, answer = some a → Fitting pc a
  paused : ∀ l q, pc = .pause l (.finite q) → answer = some (.bool false) → q ≤ w.now
  held : ∀ d, deadlineOf pc = some d →
    HeldTill config std now acts t d ∧ d ≤ w.now + hold config.settings
  retried : ∀ x, attemptOf pc = some x → x.payload.stream = false →
    1 ≤ (program config std).tally unstreamedOn (initial config now) acts t
  asked : ∀ l x seq, pc = .acquire l x seq → answer = some (.bool true) →
    .serve t (.bool true) ∈ acts
  denied : ∀ l, pc = .denied l → l.deadline ≤ w.now ∨ .serve t (.bool true) ∈ acts
  late : Lasting acts → ∀ l, pc = .denied l → answer = some (.bool false) → l.deadline ≤ w.now

theorem now_le_of_step {s' : St} {act : Act} (h : (program config std).step s act = some s') :
    s.world.now ≤ s'.world.now := by
  cases act with
  | call i =>
    obtain ⟨r, _, rfl⟩ := Program.step_call h
    exact le_refl _
  | serve t c =>
    obtain ⟨pc, w, a, _, hv, rfl⟩ := Program.step_serve h
    obtain rfl := serve_world hv
    exact le_refl _
  | resume t =>
    obtain ⟨pc, a, r, _, _, rfl⟩ := Program.step_resume h
    exact le_refl _
  | env e =>
    obtain ⟨w, g, he, rfl⟩ := Program.step_env h
    exact (env_memory he).2

theorem HeldTill.snoc {d : ℚ} (h : HeldTill config std now acts t d)
    (hr : (program config std).run (initial config now) acts = some s) (act : Act) :
    HeldTill config std now (acts ++ [act]) t d := by
  obtain ⟨e, he, hrest⟩ := h
  refine ⟨e, ?_, hrest⟩
  rw [Program.trail_snoc act hr]
  exact List.mem_append_left _ he

theorem tally_le_snoc {f : World → Memory → Pc → Answer → ℕ}
    (hr : (program config std).run (initial config now) acts = some s) (act : Act) :
    (program config std).tally f (initial config now) acts t ≤
      (program config std).tally f (initial config now) (acts ++ [act]) t := by
  rw [tally_snoc act hr]
  exact Nat.le_add_right _ _

/-- Time passes and others move: the thread's past stays what it was. -/
theorem Recalls.still {answer : Option Answer} {w' : World}
    (h : Recalls config std now acts t w pc answer) (act : Act)
    (hr : (program config std).run (initial config now) acts = some s) (hw : w.now ≤ w'.now) :
    Recalls config std now (acts ++ [act]) t w' pc answer where
  keeps := h.keeps
  fits := h.fits
  paused l q hpc ha := (h.paused l q hpc ha).trans hw
  held d hd := by
    obtain ⟨hheld, hle⟩ := h.held d hd
    exact ⟨hheld.snoc hr act, by linarith⟩
  retried x hx hs := (h.retried x hx hs).trans (tally_le_snoc hr act)
  asked l x seq hpc ha := List.mem_append_left _ (h.asked l x seq hpc ha)
  denied l hpc := (h.denied l hpc).imp (fun hd => hd.trans hw) (List.mem_append_left _)
  late hl l hpc ha := (h.late (List.pairwise_append.mp hl).1 l hpc ha).trans hw

theorem Recalls.start {i : Call} {r : Step} {next : Pc} (hp : Positive config.settings)
    (hr : (program config std).run (initial config now) acts = some s)
    (h : start config s.world s.mem i = some r) (hn : r.next = some next) :
    Recalls config std now (acts ++ [.call i]) s.threads.length s.world next none := by
  obtain ⟨name, raw, body, session, role, rfl, _, rfl⟩ := start_cases h
  obtain rfl := Option.some.inj hn
  constructor
  · exact ⟨hp.cutRetries.le, by simp⟩
  · simp
  · simp
  · intro d hd
    obtain rfl := Option.some.inj hd
    refine ⟨⟨(s, .call (.forward name raw body session)), ?_, ⟨_, rfl⟩, rfl, rfl⟩, le_refl _⟩
    rw [Program.trail_snoc _ hr]
    exact List.mem_append_right _ (List.mem_singleton_self _)
  · intro x hx
    cases hx
  · simp
  · simp
  · simp

theorem Recalls.serve {c answer : Answer} {w' : World}
    (hr : (program config std).run (initial config now) acts = some s)
    (h : Recalls config std now acts t s.world pc none)
    (hv : serve s.world pc c = some (w', answer)) :
    Recalls config std now (acts ++ [.serve t c]) t w' pc (some answer) := by
  obtain rfl := serve_world hv
  have hstill := h.still (.serve t c) hr (le_refl _)
  constructor
  · exact hstill.keeps
  · intro a ha
    obtain rfl := Option.some.inj ha
    exact serve_fitting hv
  · rintro l q rfl ha
    obtain rfl := Option.some.inj ha
    cases c with
    | go =>
      simp only [LlmProxy.serve] at hv
      split_ifs at hv with hstop hle
      · cases hv
      · simpa [le, lt] using hle
    | _ => cases hv
  · exact hstill.held
  · exact hstill.retried
  · rintro l x seq rfl ha
    obtain rfl := Option.some.inj ha
    cases c with
    | bool b =>
      obtain rfl : b = true := by simpa [LlmProxy.serve] using hv
      exact List.mem_append_right _ (List.mem_singleton_self _)
    | _ => cases hv
  · exact hstill.denied
  · rintro hl l rfl ha
    obtain rfl := Option.some.inj ha
    cases c with
    | bool b =>
      obtain rfl : b = false := by simpa [LlmProxy.serve] using hv
      rcases h.denied l rfl with hd | hmem
      · exact hd
      · -- The client was gone before, and so it still is.
        have hlast := (List.pairwise_append.mp hl).2.2 _ hmem _ (List.mem_singleton_self _) t false
          rfl rfl
        cases hlast
    | _ => cases hv

theorem Recalls.resume {answer : Answer} {r : Step} {next : Pc} (hp : Positive config.settings)
    (hr : (program config std).run (initial config now) acts = some s)
    (ht : s.at t = some ⟨pc, some answer⟩)
    (h : Recalls config std now acts t s.world pc (some answer))
    (hre : resume config std s.world s.mem pc answer = some r) (hn : r.next = some next) :
    Recalls config std now (acts ++ [.resume t]) t s.world next none := by
  have hturn := turn_of_resume hp.backoffSeconds.le hp.backoffMaxSeconds.le (h.fits answer rfl) hre
  have hsent := sentNow_eq hre
  rw [hn] at hturn hsent
  have hstill := h.still (.resume t) hr (le_refl _)
  constructor
  · exact hturn.keeps h.keeps
  · simp
  · simp
  · intro d hd
    exact hstill.held d (hturn.deadline hd)
  · intro x hx hs
    rcases hturn.attempt hx with hx | hx
    · exact hstill.retried x hx hs
    · rw [tally_snoc _ hr, due_resume ht]
      have hone : unstreamedOn s.world s.mem pc answer = 1 := by
        simp [unstreamedOn, hsent, hx, hs]
      omega
  · simp
  · rintro l rfl
    generalize r.events = events at hturn
    cases hturn with
    | leaves hgone =>
      rcases hgone with rfl | hd
      · exact .inr (List.mem_append_left _ (h.asked _ _ _ rfl rfl))
      · exact .inl hd
  · simp

theorem recalls_of_run (hp : Positive config.settings)
    (hr : (program config std).run (initial config now) acts = some s) :
    ∀ t th, s.at t = some th → Recalls config std now acts t s.world th.pc th.reply := by
  refine run_each (P := program config std)
    (L := fun acts t w pc answer => Recalls config std now acts t w pc answer) rfl ?_ ?_ ?_ ?_ hr
  · intro acts m i r pc hrun hstart hn
    exact .start hp hrun hstart hn
  · intro acts m t c pc w a hrun _ hL hv
    exact .serve hrun hL hv
  · intro acts m t pc a r pc' hrun ht hL hre hn
    exact .resume hp hrun ht hL hre hn
  · intro acts m a m' t pc x hrun hstep _ _ _ hL
    exact hL.still _ hrun (now_le_of_step hstep)

/-- What a thread may still do at its start. -/
def most (settings : Settings) : ℕ :=
  11 * ((settings.cutRetries + 1).toNat + 1024 + ⌈hold settings⌉₊ + 1) + 10

theorem world_le_of_serve {Φ : World → Pc → ℕ} {w' : World} {c : Answer}
    (h : serve w pc c = some (w', a)) (pc' : Pc) : Φ w' pc' ≤ Φ w pc' := by
  obtain rfl := serve_world h
  exact le_refl _

theorem tally_steps (hp : Positive config.settings)
    (hr : (program config std).run (initial config now) acts = some s) (t : ℕ) :
    (program config std).tally stepsOn (initial config now) acts t ≤ most config.settings := by
  have hle := tally_le (P := program config std) (f := stepsOn) (Φ := left config.settings)
    (N := most config.settings)
    (L := fun acts t w pc answer => Recalls config std now acts t w pc answer) rfl
    (fun acts m hrun => recalls_of_run hp hrun) ?_ ?_ ?_ ?_ hr t
  · omega
  · intro w g i r pc hstart hn
    obtain ⟨name, raw, body, session, role, rfl, _, rfl⟩ := start_cases hstart
    obtain rfl := Option.some.inj hn
    have hhold : w.now + config.settings.holdHours * 3600 - w.now = hold config.settings := by
      rw [hold]
      ring
    simp only [left, rounds, Bool.false_eq_true, if_false, if_true, hhold, most]
    omega
  · intro w pc c w' a pc' hv
    exact world_le_of_serve hv pc'
  · intro w g e w' g' pc he
    exact left_anti _ (env_memory he).2 pc
  · intro acts t w g pc a r hL hre
    have hturn := turn_of_resume hp.backoffSeconds.le hp.backoffMaxSeconds.le (hL.fits a rfl) hre
    rw [stepsOn, waitsOn_eq hre]
    refine hturn.left_le hL.keeps ?_
    intro l q hpc ha
    exact hL.paused l q hpc (by rw [ha])

theorem tally_requests (hp : Positive config.settings)
    (hr : (program config std).run (initial config now) acts = some s) (t : ℕ) :
    (program config std).tally requestsOn (initial config now) acts t ≤ most config.settings := by
  refine le_trans (tally_mono ?_) (tally_steps hp hr t)
  intro w g pc a
  unfold requestsOn stepsOn
  by_cases hs : (sentNow w g pc a).isSome = true
  · have hw : waitsOn w g pc a = false := by
      unfold sentNow at hs
      unfold waitsOn
      split at hs
      · split at hs
        · rename_i heq
          simp [heq]
        · cases hs
      · cases hs
    simp [hs, hw]
  · simp [hs]

theorem tally_lateCuts (hp : Positive config.settings)
    (hr : (program config std).run (initial config now) acts = some s) (t : ℕ) :
    (program config std).tally (lateCutsOn config.settings) (initial config now) acts t ≤
      (config.settings.cutRetries + 1).toNat := by
  have hle := tally_le (P := program config std) (f := lateCutsOn config.settings)
    (Φ := fun _ => cutsLeft config.settings) (N := (config.settings.cutRetries + 1).toNat)
    (L := fun acts t w pc answer => Recalls config std now acts t w pc answer) rfl
    (fun acts m hrun => recalls_of_run hp hrun) ?_ ?_ ?_ ?_ hr t
  · omega
  · intro w g i r pc hstart hn
    obtain ⟨name, raw, body, session, role, rfl, _, rfl⟩ := start_cases hstart
    obtain rfl := Option.some.inj hn
    simp [cutsLeft]
  · intro w pc c w' a pc' _
    exact le_refl _
  · intro w g e w' g' pc _
    exact le_refl _
  · intro acts t w g pc a r hL hre
    have hturn := turn_of_resume hp.backoffSeconds.le hp.backoffMaxSeconds.le (hL.fits a rfl) hre
    exact hturn.cutsLeft_le hL.keeps

theorem tally_unstreamed (hp : Positive config.settings)
    (hr : (program config std).run (initial config now) acts = some s) (t : ℕ) :
    (program config std).tally unstreamedOn (initial config now) acts t ≤ 1 := by
  have hle := tally_le (P := program config std) (f := unstreamedOn)
    (Φ := fun _ => retriesLeft) (N := 1)
    (L := fun acts t w pc answer => Recalls config std now acts t w pc answer) rfl
    (fun acts m hrun => recalls_of_run hp hrun) ?_ ?_ ?_ ?_ hr t
  · omega
  · intro w g i r pc hstart hn
    obtain ⟨name, raw, body, session, role, rfl, _, rfl⟩ := start_cases hstart
    obtain rfl := Option.some.inj hn
    exact le_refl _
  · intro w pc c w' a pc' _
    exact le_refl _
  · intro w g e w' g' pc _
    exact le_refl _
  · intro acts t w g pc a r hL hre
    have hturn := turn_of_resume hp.backoffSeconds.le hp.backoffMaxSeconds.le (hL.fits a rfl) hre
    rw [unstreamedOn, sentNow_eq hre]
    exact hturn.retriesLeft_le hL.keeps

def waitingLook (t : ℕ) (e : St × Act) : Bool :=
  match e.2, e.1.at t with
  | .resume j, some ⟨pc, some a⟩ => j = t && waitsOn e.1.world e.1.mem pc a
  | _, _ => false

/-- When the thread looked and waited on. -/
def looks (config : Config) (std : Std) (now : ℚ) (acts : List Act) (t : ℕ) : List ℚ :=
  (((program config std).trail (initial config now) acts).filter (waitingLook t)).map
    fun e => e.1.world.now

/-- Each wait of the thread moves the clock on by that much. -/
def Paced (config : Config) (std : Std) (now : ℚ) (acts : List Act) (t : ℕ) (gap : ℚ) : Prop :=
  (looks config std now acts t).Pairwise fun x y => x + gap ≤ y

theorem looks_snoc (hr : (program config std).run (initial config now) acts = some s) (act : Act)
    (t : ℕ) : looks config std now (acts ++ [act]) t =
      looks config std now acts t ++ if waitingLook t (s, act) then [s.world.now] else [] := by
  unfold looks
  rw [Program.trail_snoc act hr, List.filter_append, List.map_append]
  cases h : waitingLook t (s, act) <;> simp [h]

theorem waitingLook_resume {answer : Answer} (ht : s.at t = some ⟨pc, some answer⟩) :
    waitingLook t (s, .resume t) = waitsOn s.world s.mem pc answer := by
  simp [waitingLook, ht]

theorem waitingLook_of_not_resumes {act : Act} (h : act.resumes t = false) :
    waitingLook t (s, act) = false := by
  cases act with
  | resume j =>
    have hj : j ≠ t := by simpa [Action.resumes] using h
    unfold waitingLook
    split
    · rename_i heq _
      obtain rfl : j = _ := by simpa using heq
      simp [hj]
    · rfl
  | _ => rfl

/-- A thread waits on only within its hold, and every other resumption is counted. -/
theorem looks_of_run (hp : Positive config.settings)
    (hr : (program config std).run (initial config now) acts = some s) (t : ℕ) :
    acts.countP (Action.resumes t) =
        (program config std).tally stepsOn (initial config now) acts t +
          (looks config std now acts t).length ∧
      ∀ x ∈ looks config std now acts t, ∃ d, HeldTill config std now acts t d ∧
        d ≤ x + hold config.settings ∧ x < d := by
  apply Program.run_history (s := initial config now) _ _ hr
  · simp [looks, Program.trail, Program.tally]
  · intro acts m act m' hrun hinv hstep
    obtain ⟨hcount, hin⟩ := hinv
    rw [looks_snoc hrun, tally_snoc act hrun, List.countP_append, List.length_append]
    have hkept : ∀ x ∈ looks config std now acts t, ∃ d,
        HeldTill config std now (acts ++ [act]) t d ∧ d ≤ x + hold config.settings ∧ x < d := by
      intro x hx
      obtain ⟨d, hheld, hbounds⟩ := hin x hx
      exact ⟨d, hheld.snoc hrun act, hbounds⟩
    by_cases ha : act.resumes t = true
    · obtain rfl : act = .resume t := by
        cases act with
        | resume j => simpa [Action.resumes] using ha
        | _ => cases ha
      obtain ⟨pc, answer, r, ht, hre, rfl⟩ := Program.step_resume hstep
      have hrec : Recalls config std now acts t m.world pc (some answer) :=
        recalls_of_run hp hrun t _ ht
      have hturn := turn_of_resume hp.backoffSeconds.le hp.backoffMaxSeconds.le
        (hrec.fits answer rfl) hre
      rw [due_resume ht, waitingLook_resume ht, stepsOn]
      have hone : [Action.resume t].countP (Action.resumes t : Act → Bool) = 1 := by
        simp [Action.resumes]
      cases hw : waitsOn m.world m.mem pc answer with
      | false =>
        simp only [Bool.false_eq_true, if_false, List.append_nil, List.length_nil, hone]
        exact ⟨by omega, hkept⟩
      | true =>
        simp only [if_true, List.length_singleton, hone]
        refine ⟨by omega, ?_⟩
        intro x hx
        rcases List.mem_append.mp hx with hx | hx
        · exact hkept x hx
        · obtain rfl := List.mem_singleton.mp hx
          rw [waitsOn_eq hre] at hw
          generalize r.next = next, r.events = events at hturn hw
          cases hturn with
          | @waits l x seq n hd =>
            obtain ⟨hheld, hle⟩ := hrec.held l.deadline rfl
            exact ⟨l.deadline, hheld.snoc hrun _, hle, hd⟩
          | quits h => cases pc <;> cases hw
          | _ => cases hw
    · have hnot : act.resumes t = false := by simpa using ha
      have hzero : [act].countP (Action.resumes t) = 0 := by simp [hnot]
      rw [due_of_not_resumes hnot, waitingLook_of_not_resumes hnot]
      simp only [Bool.false_eq_true, if_false, List.append_nil, List.length_nil, hzero]
      exact ⟨by omega, hkept⟩

/-- Moments that far apart, all within one span, are few. -/
theorem length_le_of_paced {gap b : ℚ} (hgap : 0 < gap) {xs : List ℚ} {a : ℚ}
    (hx : xs.Pairwise fun x y => x + gap ≤ y) (hin : ∀ x ∈ xs, a ≤ x ∧ x < b) :
    xs.length ≤ ⌈(b - a) / gap⌉₊ := by
  have hlast : ∀ n : ℕ, xs.length = n + 1 → a + n * gap < b := by
    induction xs generalizing a with
    | nil => simp
    | cons x xs ih =>
      intro n hn
      obtain ⟨hax, hxb⟩ := hin x (by simp)
      rw [List.pairwise_cons] at hx
      cases n with
      | zero =>
        simp only [Nat.cast_zero, zero_mul, add_zero]
        exact hax.trans_lt hxb
      | succ n =>
        have hnext := ih (a := a + gap) hx.2
          (fun y hy => ⟨by linarith [hx.1 y hy], (hin y (by simp [hy])).2⟩) n (by simpa using hn)
        push_cast
        linarith
  cases hlen : xs.length with
  | zero => exact Nat.zero_le _
  | succ n =>
    rw [Nat.succ_le_iff, Nat.lt_ceil, lt_div_iff₀ hgap]
    have := hlast n hlen
    linarith

/-- A thread that its waits move on in time is resumed only so often. -/
theorem resumed_le (hp : Positive config.settings)
    (hr : (program config std).run (initial config now) acts = some s) {gap : ℚ} (hgap : 0 < gap)
    (hpaced : Paced config std now acts t gap) :
    acts.countP (Action.resumes t) ≤ most config.settings + ⌈hold config.settings / gap⌉₊ := by
  obtain ⟨hcount, hin⟩ := looks_of_run hp hr t
  have hsteps := tally_steps hp hr t
  have hlooks : (looks config std now acts t).length ≤ ⌈hold config.settings / gap⌉₊ := by
    cases hx : looks config std now acts t with
    | nil => exact Nat.zero_le _
    | cons x xs =>
      obtain ⟨d, ⟨e, he, hcall, hlen, hd⟩, -, -⟩ := hin x (by simp [hx])
      have hspan : d - (d - hold config.settings) = hold config.settings := by ring
      rw [← hspan, ← hx]
      refine length_le_of_paced hgap hpaced ?_
      intro y hy
      obtain ⟨d', ⟨e', he', hcall', hlen', hd'⟩, hle, hlt⟩ := hin y hy
      -- Both looks are held by the one call of the thread.
      obtain rfl : e = e' := called_once hr he he' hcall hcall' (hlen.trans hlen'.symm)
      obtain rfl : d = d' := hd.symm.trans hd'
      exact ⟨by linarith, hlt⟩
  omega

theorem serve_after (hk : Keeps config.settings std pc) (w : World) :
    ∃ d c answer, 0 ≤ d ∧ serve { w with now := w.now + d } pc c =
      some ({ w with now := w.now + d }, answer) := by
  cases pc with
  | pause l till =>
    obtain ⟨q, rfl⟩ := hk.2.2
    refine ⟨max 0 (q - w.now), .go, ?_⟩
    have htill : le (.finite q) (.finite (w.now + max 0 (q - w.now))) = true := by
      have hmax := le_max_right 0 (q - w.now)
      simp only [le, lt, Bool.not_eq_true', decide_eq_false_iff_not, not_lt]
      linarith
    by_cases hstop : w.stopping = true
    · exact ⟨.bool true, le_max_left _ _, by simp [serve, hstop]⟩
    · exact ⟨.bool false, le_max_left _ _, by simp [serve, hstop, htill]⟩
  | head l => exact ⟨0, .bool true, .bool true, le_refl _, by simp [serve]⟩
  | acquire l x seq => exact ⟨0, .bool true, .bool true, le_refl _, rfl⟩
  | denied l => exact ⟨0, .bool true, .bool true, le_refl _, rfl⟩
  | failing l x reply => exact ⟨0, .bool true, .bool true, le_refl _, rfl⟩
  | failed l x reply => exact ⟨0, .uniform 1, .uniform 1, le_refl _, by norm_num [serve]⟩
  | exchange l x => exact ⟨0, .upstream .unreachable, .upstream .unreachable, le_refl _, rfl⟩
  | _ => exact ⟨0, .go, .go, le_refl _, rfl⟩

/-- A thread that has not ended can be resumed, or be served in a while. -/
def Awake (config : Config) (std : Std) (s : St) (t : ℕ) : Prop :=
  (∃ s', (program config std).step s (.resume t) = some s') ∨
    ∃ d c s₁ s₂, (program config std).step s (.env (.tick d)) = some s₁ ∧
      (program config std).step s₁ (.serve t c) = some s₂

theorem awake_of_recalls {th : Suspended Pc Answer} (ht : s.at t = some th)
    (h : Recalls config std now acts t s.world th.pc th.reply) : Awake config std s t := by
  obtain ⟨pc, answer⟩ := th
  cases answer with
  | some a =>
    obtain ⟨r, hre⟩ : ∃ r, resume config std s.world s.mem pc a = some r :=
      resume_enabled (h.fits a rfl)
    refine .inl ⟨⟨s.world, r.mem, s.threads.set t (suspend r.next)⟩, ?_⟩
    simp only [Program.step, ht, program, hre, Option.map_some]
  | none =>
    obtain ⟨d, c, a, hd, hv⟩ := serve_after h.keeps s.world
    let s₁ : St := ⟨{ s.world with now := s.world.now + d }, s.mem, s.threads⟩
    have hat : s₁.at t = some ⟨pc, none⟩ := ht
    refine .inr ⟨d, c, s₁, ⟨s₁.world, s.mem, s.threads.set t (some ⟨pc, some a⟩)⟩, ?_, ?_⟩
    · simp [Program.step, program, env, hd, s₁]
    · simp only [Program.step, hat]
      simp only [program, s₁, hv, Option.map_some]

/-- A reply that reaches the agent: it ended properly; and if its calls are malformed or missing,
it was asked for again unstreamed, or the hold was over, or it was cut to its length. -/
structure PassedOn (config : Config) (std : Std) (now : ℚ) (acts : List Act) (s : St) (t : ℕ)
    (reply : Reply) : Prop where
  whole : reply.done = true
  formed : Malformed std reply →
    (program config std).tally unstreamedOn (initial config now) acts t = 1 ∨
      (∃ d, HeldTill config std now acts t d ∧ d ≤ s.world.now) ∨
      reply.finish.isStr "length" = true

theorem passedOn_of_returned (hp : Positive config.settings) (hl : Lasting acts)
    (hr : (program config std).run (initial config now) acts = some s)
    (hret : .returned reply ∈ (program config std).emits s (.resume t))
    (h200 : reply.status = 200) : PassedOn config std now acts s t reply := by
  have hevents : ∃ pc answer r, s.at t = some ⟨pc, some answer⟩ ∧
      resume config std s.world s.mem pc answer = some r ∧ .returned reply ∈ r.events := by
    simp only [Program.emits] at hret
    split at hret
    · rename_i pc answer ht
      cases hre : resume config std s.world s.mem pc answer with
      | none => simp [program, hre] at hret
      | some r => exact ⟨pc, answer, r, ht, hre, by simpa [program, hre] using hret⟩
    · cases hret
  obtain ⟨pc, answer, r, ht, hre, hmem⟩ := hevents
  have hrec : Recalls config std now acts t s.world pc (some answer) := recalls_of_run hp hr t _ ht
  have hturn := turn_of_resume hp.backoffSeconds.le hp.backoffMaxSeconds.le (hrec.fits answer rfl) hre
  have hone (h : 1 ≤ (program config std).tally unstreamedOn (initial config now) acts t) :
      (program config std).tally unstreamedOn (initial config now) acts t = 1 :=
    le_antisymm (tally_unstreamed hp hr t) h
  generalize r.next = next, r.events = events at hturn hmem
  cases hturn with
  | quits h => exact absurd h200 (h reply hmem)
  | @expires l kept hs hd =>
    obtain rfl : reply = kept := by simpa using hmem
    have hlive : Live config.settings l := hrec.keeps
    exact ⟨(hlive.streamed _ hs).2, fun _ => .inr (.inl ⟨_, (hrec.held _ rfl).1, hd⟩)⟩
  | @denies l kept hs =>
    obtain rfl : reply = kept := by simpa using hmem
    have hlive : Live config.settings l := hrec.keeps
    exact ⟨(hlive.streamed _ hs).2,
      fun _ => .inr (.inl ⟨_, (hrec.held _ rfl).1, hrec.late hl l rfl rfl⟩)⟩
  | @fallsBack l x new kept n events hs he =>
    obtain rfl := he reply hmem
    refine ⟨(hrec.keeps.1.streamed _ hs).2, fun _ => .inl (hone ?_)⟩
    refine hrec.retried x rfl ?_
    rw [hrec.keeps.2.1, hs]
    rfl
  | @succeeds x kept d =>
    obtain rfl : reply = kept := by simpa using hmem
    obtain ⟨-, hdone, hproblem⟩ := hrec.keeps
    refine ⟨hdone, fun hmal => ?_⟩
    rcases hproblem hmal with hlength | hstream
    · exact .inr (.inr hlength)
    · exact .inl (hone (hrec.retried x rfl hstream))
  | fails _ _ he => exact absurd hmem (he reply)
  | cuts _ _ he => exact absurd hmem (he reply)
  | reshapes _ _ _ he => exact absurd hmem (he reply)
  | fits _ _ _ he => exact absurd hmem (he reply)
  | _ => simp at hmem

/-- The course of one thread of `forward` in a run. -/
structure Forwarded (config : Config) (std : Std) (now : ℚ) (acts : List Act) (s : St) (t : ℕ) :
    Prop where
  requests : (program config std).tally requestsOn (initial config now) acts t ≤ most config.settings
  lateCuts : ((program config std).tally (lateCutsOn config.settings) (initial config now) acts t : ℤ) ≤
    config.settings.cutRetries + 1
  unstreamed : (program config std).tally unstreamedOn (initial config now) acts t ≤ 1
  ends : ∀ gap, 0 < gap → Paced config std now acts t gap →
    acts.countP (Action.resumes t) ≤ most config.settings + ⌈hold config.settings / gap⌉₊
  awake : (s.at t).isSome → Awake config std s t
  passedOn : ∀ reply, .returned reply ∈ (program config std).emits s (.resume t) →
    reply.status = 200 → PassedOn config std now acts s t reply

/-- In every run `forward` sends so many requests and no more, comes to its end, and passes on
no reply that it should not. -/
theorem forwarded_of_run (hp : Positive config.settings) (hl : Lasting acts)
    (hr : (program config std).run (initial config now) acts = some s) (t : ℕ) :
    Forwarded config std now acts s t where
  requests := tally_requests hp hr t
  lateCuts := by
    have hcuts := tally_lateCuts hp hr t
    have hpos := hp.cutRetries
    omega
  unstreamed := tally_unstreamed hp hr t
  ends gap hgap hpaced := resumed_le hp hr hgap hpaced
  awake hsome := by
    obtain ⟨th, ht⟩ := Option.isSome_iff_exists.mp hsome
    exact awake_of_recalls ht (recalls_of_run hp hr t th ht)
  passedOn reply hret h200 := passedOn_of_returned hp hl hr hret h200

/-- The reply is passed on as it came from the model. -/
def answers : Event → Bool
  | .returned reply => reply.status = 200
  | _ => false

/-- A stream up to where its reply is returned. -/
theorem forwarded_of_run_stream :
    let std := usageJson "\x7b\"completion_tokens\": 3\x7d" (.dict [("completion_tokens", .int 3)])
    let acts := asking "\x7b\"completion_tokens\": 3\x7d" ++
      [.serve 0 .go, .resume 0, .serve 0 .go, .resume 0, .serve 0 .go]
    Positive smallConfig.settings ∧ Lasting acts ∧
      ∃ s reply, (program smallConfig std).run (initial smallConfig 0) acts = some s ∧
        .returned reply ∈ (program smallConfig std).emits s (.resume 0) ∧ reply.status = 200 ∧
        Forwarded smallConfig std 0 acts s 0 := by
  intro std acts
  have hp : Positive smallConfig.settings := by
    constructor <;> norm_num [smallConfig]
  have hl : Lasting acts := by
    refine List.pairwise_of_forall_mem_list ?_
    intro x hx y _ t b ht
    simp [acts, asking, ht] at hx
  have hany : ((program smallConfig std).run (initial smallConfig 0) acts).any
      (fun s => ((program smallConfig std).emits s (.resume 0)).any answers) = true := by
    decide +kernel
  obtain ⟨s, hs, hmem⟩ := (Option.any_eq_true _ _).mp hany
  obtain ⟨e, he, h200⟩ := List.any_eq_true.mp hmem
  cases e with
  | returned reply =>
    exact ⟨hp, hl, s, reply, hs, he, by simpa [answers] using h200, forwarded_of_run hp hl hs 0⟩
  | _ => cases h200

end PurdueAF.LlmProxy

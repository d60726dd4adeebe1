import PurdueAF.LlmFairUse
import PurdueAF.LlmReplies

/-!
# The gates are balanced

Every slot that `forward` is granted it gives back once, with the same tokens, and it ends
by returning a reply: as long as nothing it computes raises. What can raise is the walk over
the client's body and the upstream's JSON, and arithmetic on the upstream's own figures.
-/
namespace PurdueAF.LlmProxy
open Py Binary64 Coroutine

def isDict : Json → Bool
  | .dict _ => true
  | _ => false

/-- A token limit that is absent or a positive integer. -/
def limitFormed : Json → Bool
  | .null => true
  | .int n => 0 < n
  | _ => false

/-- A well-formed body: its token limits and its list of messages. -/
def bodyFormed (body : Body) : Bool :=
  limitFormed (Json.lookup body "max_tokens") &&
    limitFormed (Json.lookup body "max_completion_tokens") &&
    match Json.lookup body "messages" with
    | .list messages => messages.all isDict
    | _ => false

/-- The parts of a content that is a list are objects. -/
def contentFormed : Json → Bool
  | .dict message =>
    match Json.lookup message "content" with
    | .list parts => parts.all isDict
    | _ => true
  | _ => true

/-- What else of a body `forward` walks: the parts of contents, and the stream's options. -/
def partsFormed (body : Body) : Bool :=
  (match Json.lookup body "messages" with
    | .list messages => messages.all contentFormed
    | _ => true) &&
    nested (fun _ => true) (Json.lookup body "stream_options")

def maxBytes : ℕ := 2 ^ 64

/-- The speeds that a cap is worked out from do not overflow it. -/
def speedFinite (gate : Gate) (m : Model) (streamSeconds : ℚ) : Bool :=
  match gate.slowSpeed m with
  | .ok (slow, late) =>
    match mul slow (add (.finite streamSeconds) (neg late)) with
    | .finite _ => true
    | _ => false
  | .error _ => false

/-- Every request that comes in has a well-formed body. -/
def Formed (_ : St) : Act → Prop
  | .call (.forward _ raw body _) => raw.length ≤ maxBytes ∧ bodyFormed body = true
  | _ => True

instance (s : St) (a : Act) : Decidable (Formed s a) :=
  match a with
  | .call (.forward _ raw body _) =>
    inferInstanceAs (Decidable (raw.length ≤ maxBytes ∧ bodyFormed body = true))
  | .serve _ _ | .resume _ | .env _ => .isTrue trivial

/-- In every step: the parts of a request's body are objects too, an answer has the shape
that `take` and `completion` walk, a reply's tool calls are not nested too deep, the speeds do
not overflow the cap, and a failure that backs off is at most the 1024th. -/
def careful (config : Config) (std : Std) (s : St) : Act → Bool
  | .call (.forward _ raw body _) => decide (raw.length ≤ maxBytes) && bodyFormed body && partsFormed body
  | .resume t =>
    match s.at t with
    | some ⟨.cap _ b _ _, some .go⟩ =>
      speedFinite ((s.mem.gate b.model).trim s.world.now) b.model config.settings.streamSeconds
    | some ⟨.exchange _ a, some (.upstream u)⟩ => upstreamShaped std a.payload.stream u
    | some ⟨.release _ _ reply _ _, some .go⟩ =>
      reply.status ≠ 200 || !reply.done || shallow std reply.calls
    | some ⟨.failed l _ reply, some (.uniform _)⟩ => reply.status = 429 || l.failures ≤ 1024
    | _ => true
  | _ => true

def Careful (config : Config) (std : Std) (s : St) (a : Act) : Prop := careful config std s a = true

instance (config : Config) (std : Std) (s : St) (a : Act) : Decidable (Careful config std s a) :=
  inferInstanceAs (Decidable (_ = true))

/-- Figures of `models.toml` that the doubles are no limit for. -/
structure Ordinary (config : Config) : Prop where
  bytes : 1 ≤ 2 ^ 900 * |config.settings.bytesPerToken|
  contexts : ∀ name m, config.models.get? name = some m → |m.context| ≤ 2 ^ 64
  backoff : 0 ≤ config.settings.backoffSeconds
  backoffMax : 0 ≤ config.settings.backoffMaxSeconds

structure Proper (config : Config) (l : Loop) : Prop where
  role : ∃ name, config.roles.get? name = some l.req.role
  length : l.req.raw.length ≤ maxBytes
  body : bodyFormed l.req.body = true
  parts : partsFormed l.req.body = true

theorem countImages_ok {parts : List Json} (h : ∀ p ∈ parts, isDict p = true) :
    ∃ n, countImages parts = .ok n := by
  induction parts with
  | nil => exact ⟨0, rfl⟩
  | cons p parts ih =>
    obtain ⟨n, hn⟩ := ih fun q hq => h q (by simp [hq])
    cases p with
    | dict entries =>
      simp only [countImages, Json.get_dict, ok_bind, hn]
      exact ⟨_, rfl⟩
    | _ => cases h _ List.mem_cons_self

theorem imagesOf_ok {messages : List Json} (h : ∀ m ∈ messages, isDict m = true)
    (hc : ∀ m ∈ messages, contentFormed m = true) : ∃ n, imagesOf messages = .ok n := by
  induction messages with
  | nil => exact ⟨0, rfl⟩
  | cons m messages ih =>
    obtain ⟨n, hn⟩ := ih (fun x hx => h x (by simp [hx])) fun x hx => hc x (by simp [hx])
    cases m with
    | dict message =>
      have hm := hc _ (List.mem_cons_self)
      simp only [contentFormed] at hm
      simp only [imagesOf, Json.get_dict, ok_bind, hn]
      cases hcontent : Json.lookup message "content" with
      | list parts =>
        rw [hcontent] at hm
        obtain ⟨k, hk⟩ := countImages_ok (List.all_eq_true.mp hm)
        simp only [hk, ok_bind]
        exact ⟨_, rfl⟩
      | _ => exact ⟨_, rfl⟩
    | _ => cases h _ List.mem_cons_self

theorem images_ok {body : Body} (h : bodyFormed body = true) (hp : partsFormed body = true) :
    ∃ n, images body = .ok n := by
  simp only [bodyFormed, Bool.and_eq_true] at h
  simp only [partsFormed, Bool.and_eq_true] at hp
  obtain ⟨_, h⟩ := h
  split at h
  · rename_i messages hm
    have hc := hp.1
    rw [hm] at hc
    have hiter : ((Json.list messages).or (.list [])).iter = .ok messages := by
      unfold Json.or
      cases messages <;> rfl
    simp only [images, hm, hiter, ok_bind]
    exact imagesOf_ok (List.all_eq_true.mp h) (List.all_eq_true.mp hc)
  · cases h

variable {config : Config}

theorem estimate_ok (ho : Ordinary config) {l : Loop} (h : Proper config l) (m : Model) :
    ∃ n, estimate config.settings l.req.raw l.req.body m = .ok n := by
  set k := l.req.raw.length - pictureBytes l.req.raw.length l.req.raw with hk
  have hkle : |((k : ℕ) : ℚ)| ≤ 2 ^ 64 := by
    have hlen : k ≤ 2 ^ 64 := (Nat.sub_le _ _).trans h.length
    rw [abs_of_nonneg (by positivity)]
    exact_mod_cast hlen
  obtain ⟨q, hq, hqle⟩ := nearest_le_two_pow (by norm_num) hkle
  have hfloat : floatOfInt (k : ℕ) = .ok q := by
    simp only [floatOfInt, ofInt, Int.cast_natCast, hq]
  have hb0 : config.settings.bytesPerToken ≠ 0 := by
    intro h0
    have := ho.bytes
    rw [h0] at this
    norm_num at this
  have hquot : |q / config.settings.bytesPerToken| ≤ 2 ^ 964 := by
    have hpos : 0 < |config.settings.bytesPerToken| := abs_pos.mpr hb0
    rw [abs_div, div_le_iff₀ hpos]
    have h964 : (2 : ℚ) ^ 964 = 2 ^ 64 * 2 ^ 900 := by rw [← pow_add]
    calc |q| ≤ 2 ^ 64 * 1 := by rw [mul_one]; exact hqle
      _ ≤ 2 ^ 64 * (2 ^ 900 * |config.settings.bytesPerToken|) := by
        apply mul_le_mul_of_nonneg_left ho.bytes (by positivity)
      _ = 2 ^ 964 * |config.settings.bytesPerToken| := by rw [h964, mul_assoc]
  obtain ⟨p, hp, _⟩ := nearest_le_two_pow (by norm_num) hquot
  obtain ⟨n, hn⟩ := images_ok h.body h.parts
  refine ⟨truncate p + n * m.imageTokens, ?_⟩
  simp only [estimate, ← hk, hfloat, ok_bind, hb0, if_false, hp, intOfFloat, hn, pure, Except.pure]

theorem shareOfContext_eq : shareOfContext = .finite (6305039478318694 / 18014398509481984) := by
  decide +kernel

theorem share_finite (ho : Ordinary config) {name : String} {m : Model}
    (hm : config.models.get? name = some m) : ∃ q, share m = .ok (.finite q) := by
  have hle : |(m.context : ℚ)| ≤ 2 ^ 64 := by exact_mod_cast ho.contexts name m hm
  obtain ⟨c, hc, hcle⟩ := nearest_le_two_pow (by norm_num) hle
  have hfloat : floatOfInt m.context = .ok c := by simp only [floatOfInt, ofInt, hc]
  have hprod : |(6305039478318694 / 18014398509481984 : ℚ) * c| ≤ 2 ^ 64 := by
    rw [abs_mul, abs_of_pos (by norm_num : (0 : ℚ) < 6305039478318694 / 18014398509481984)]
    have := abs_nonneg c
    linarith
  obtain ⟨q, hq, _⟩ := nearest_le_two_pow (by norm_num) hprod
  refine ⟨q, ?_⟩
  simp only [share, hfloat, ok_bind, shareOfContext_eq, mul, hq]
  rfl

theorem room_ok (ho : Ordinary config) {name : String} {m : Model}
    (hm : config.models.get? name = some m) (prompt : ℤ) : ∃ n, room prompt m = .ok n := by
  obtain ⟨q, hq⟩ := share_finite ho hm
  exact ⟨truncate q - prompt - 1, by simp only [room, hq, ok_bind, intOfFloat]; rfl⟩

theorem Proper.known {l : Loop} (h : Proper config l) {b : Backend}
    (hb : b ∈ l.req.role.backends) : config.models.get? b.model.name = some b.model := by
  obtain ⟨name, hname⟩ := h.role
  exact config.known _ (Dict.mem_of_get? hname) b hb

theorem usable_ok (ho : Ordinary config) {l : Loop} (h : Proper config l) {b : Backend}
    (hb : b ∈ l.req.role.backends) :
    ∃ u, usable config.settings l.req.raw l.req.body b = .ok u := by
  obtain ⟨prompt, hp⟩ := estimate_ok ho h b.model
  obtain ⟨n, hn⟩ := room_ok ho (h.known hb) prompt
  exact ⟨decide (b.model.maxTokens.1 ≤ n), by simp only [usable, hp, ok_bind, hn]; rfl⟩

theorem usables_ok (ho : Ordinary config) {l : Loop} (h : Proper config l) {bs : List Backend}
    (hbs : ∀ b ∈ bs, b ∈ l.req.role.backends) :
    ∃ us, usables config.settings l.req.raw l.req.body bs = .ok us := by
  induction bs with
  | nil => exact ⟨[], rfl⟩
  | cons b bs ih =>
    obtain ⟨us, hus⟩ := ih fun c hc => hbs c (by simp [hc])
    obtain ⟨u, hu⟩ := usable_ok ho h (hbs b (by simp))
    exact ⟨if u then b :: us else us, by simp only [usables, hu, ok_bind, hus]; rfl⟩

theorem pick_succeeds (ho : Ordinary config) {l : Loop} (h : Proper config l) (w : World)
    (g : Memory) : ∃ x, pick config.settings w g l.req = .ok x := by
  have hall : ∀ b ∈ l.req.role.backends, b ∈ l.req.role.backends := fun _ hb => hb
  obtain ⟨us, hus⟩ := usables_ok ho h hall
  unfold pick
  split
  · rename_i b hb
    have hk := (Option.filter_eq_some_iff.mp hb).1
    have hmem : b ∈ l.req.role.backends := by
      unfold kept? at hk
      split_ifs at hk
      obtain ⟨d, _, hd⟩ := Option.bind_eq_some_iff.mp hk
      exact List.mem_of_find?_eq_some hd
    obtain ⟨u, hu⟩ := usable_ok ho h hmem
    simp only [hu, ok_bind, hus]
    cases u
    · exact ⟨_, rfl⟩
    · exact ⟨_, rfl⟩
  · simp only [hus, ok_bind]
    exact ⟨_, rfl⟩

theorem shape_ok {body : Body} (h : bodyFormed body = true) (hp : partsFormed body = true)
    (b : Backend) (cap : ℤ) (stream : Bool) : ∃ p, shape body b cap stream = .ok p := by
  simp only [bodyFormed, Bool.and_eq_true] at h
  simp only [partsFormed, Bool.and_eq_true] at hp
  obtain ⟨⟨hmax, hcompletion⟩, _⟩ := h
  have hint : ∃ k, (asked body cap).toInt = .ok k := by
    unfold asked Json.or
    unfold limitFormed at hmax hcompletion
    split at hmax
    · rename_i hm
      split at hcompletion
      · rename_i hc
        simp [hm, hc, Json.truthy, Json.toInt]
      · rename_i n hc
        have hn : n ≠ 0 := by
          have : 0 < n := by simpa using hcompletion
          omega
        simp [hm, hc, Json.truthy, hn, Json.toInt]
      · cases hcompletion
    · rename_i n hm
      have hn : n ≠ 0 := by
        have : 0 < n := by simpa using hmax
        omega
      simp [hm, Json.truthy, hn, Json.toInt]
    · cases hmax
  obtain ⟨k, hk⟩ := hint
  obtain ⟨options, hopt, _⟩ := dict_of_nested hp.2 (by rfl)
  unfold shape
  dsimp only
  simp only [hk, ok_bind]
  cases stream with
  | true =>
    simp only [if_true, hopt, Json.spread, ok_bind]
    exact ⟨_, rfl⟩
  | false => exact ⟨_, rfl⟩

theorem cap_ok {gate : Gate} {m : Model} {streamSeconds : ℚ}
    (h : speedFinite gate m streamSeconds = true) : ∃ c, gate.cap m streamSeconds = .ok c := by
  unfold speedFinite at h
  split at h
  · rename_i slow late hs
    split at h
    · rename_i q hq
      refine ⟨max m.maxTokens.1 (min m.maxTokens.2 (truncate q)), ?_⟩
      simp only [Gate.cap, Gate.within, hs, ok_bind, hq, intOfFloat]
      rfl
    · cases h
  · cases h

/-- What a suspended thread keeps is enough for it to go on without raising. -/
def Sane (config : Config) : Pc → Prop
  | .head l | .pick l | .denied l | .cap l _ _ _ | .acquire l _ _ | .exchange l _
  | .failing l _ _ | .failed l _ _ => Proper config l
  | .release l _ reply _ raised =>
    Proper config l ∧ raised = none ∧ (reply.status = 200 → Countable reply)
  | .pause l till => Proper config l ∧ le till (.finite l.deadline) = true
  | .observe l _ reply _ => Proper config l ∧ Countable reply
  | .recovered _ _ _ | .succeeded _ _ _ => True

/-- The answers that `serve` gives at a suspension. -/
def Fitting : Pc → Answer → Prop
  | .head l, .bool gone => l.gone = true → gone = true
  | .pick _, .go | .cap _ _ _ _, .go | .release _ _ _ _ _, .go | .observe _ _ _ _, .go
  | .recovered _ _ _, .go | .succeeded _ _ _, .go => True
  | .acquire _ _ _, .bool _ | .denied _, .bool _ | .failing _ _ _, .bool _ | .pause _ _, .bool _ => True
  | .failed _ _ _, .uniform r => 0 ≤ r
  | .exchange _ _, .upstream _ => True
  | _, _ => False

/-- A thread ran on without raising: to where it is sane again, or to a reply. -/
structure Unraised (config : Config) (r : Step) : Prop where
  quiet : ∀ e, .raised e ∉ r.events
  sane : ∀ pc, r.next = some pc → Sane config pc
  reply : r.next = none → ∃ reply, .returned reply ∈ r.events

variable {g : Memory} {w : World} {std : Std}

theorem Unraised.awaiting {pc : Pc} (h : Sane config pc) : Unraised config (LlmProxy.awaiting g pc) where
  quiet e := by simp [LlmProxy.awaiting]
  sane pc' h' := by
    obtain rfl := Option.some.inj h'
    exact h
  reply h' := by cases h'

theorem Unraised.returns (r : Reply) : Unraised config (LlmProxy.returns g r) where
  quiet e := by simp [LlmProxy.returns]
  sane pc h := by cases h
  reply _ := ⟨r, by simp [LlmProxy.returns]⟩

theorem Unraised.trying {α : Type} {x : Except Exc α} {next : α → Step} (hx : ∃ y, x = .ok y)
    (hn : ∀ y, x = .ok y → Unraised config (next y)) : Unraised config (LlmProxy.trying g x next) := by
  obtain ⟨y, rfl⟩ := hx
  exact hn y rfl

theorem Unraised.resumeHead {l : Loop} (h : Proper config l) (gone : Bool) :
    Unraised config (LlmProxy.resumeHead w g l gone) := by
  unfold LlmProxy.resumeHead
  split
  · exact .returns _
  · split
    · split_ifs
      · exact .returns _
      · exact .awaiting h
    · exact .awaiting h

theorem Unraised.resumePick (ho : Ordinary config) {l : Loop} (h : Proper config l) :
    Unraised config (LlmProxy.resumePick config.settings w g l) := by
  unfold LlmProxy.resumePick
  refine .trying (pick_succeeds ho h w g) fun (g', b) hp => ?_
  have hb : b ∈ l.req.role.backends := (pick_ok hp).2
  refine .trying (estimate_ok ho h b.model) fun prompt _ => ?_
  refine .trying (room_ok ho (h.known hb) prompt) fun n _ => ?_
  split_ifs
  · exact .returns _
  · exact .awaiting h

theorem Unraised.resumeCap {l : Loop} (h : Proper config l) {b : Backend} (prompt n : ℤ)
    (hs : speedFinite ((g.gate b.model).trim w.now) b.model config.settings.streamSeconds = true) :
    Unraised config (LlmProxy.resumeCap config.settings w g l b prompt n) := by
  unfold LlmProxy.resumeCap
  refine .trying (cap_ok hs) fun c _ => ?_
  refine .trying (shape_ok h.body h.parts b _ _) fun payload _ => ?_
  exact .awaiting h

theorem Unraised.resumeAcquire {l : Loop} (h : Proper config l) (a : Attempt) (seq : Option ℕ)
    (gone : Bool) : Unraised config (LlmProxy.resumeAcquire w g l a seq gone) := by
  unfold LlmProxy.resumeAcquire
  dsimp only
  split_ifs
  · exact .awaiting h
  · constructor
    · intro e he
      simp at he
    · intro pc hpc
      obtain rfl := Option.some.inj hpc
      exact h
    · intro hn
      cases hn
  · exact .awaiting h
  · exact .awaiting h

theorem Unraised.resumeDenied (l : Loop) (gone : Bool) :
    Unraised config (LlmProxy.resumeDenied g l gone) := by
  unfold LlmProxy.resumeDenied
  split_ifs
  · exact .returns _
  · split
    · exact .returns _
    · exact .returns _

theorem Unraised.resumeExchange {l : Loop} (h : Proper config l) {a : Attempt} {u : Upstream}
    (hu : upstreamShaped std a.payload.stream u = true) :
    Unraised config (LlmProxy.resumeExchange std g l a u) := by
  have hx := exchange_ok hu
  unfold LlmProxy.resumeExchange
  split at hx
  · rename_i reply he
    rw [he]
    dsimp only
    split_ifs with hstatus
    · obtain ⟨n, q, hn, hq⟩ := hx hstatus
      refine .trying ⟨n, hn⟩ fun k hk => ?_
      exact .awaiting ⟨h, rfl, hx⟩
    · exact .awaiting ⟨h, rfl, hx⟩
  · rename_i f he
    have hbad : (599 : ℤ) = 200 → Countable { status := 599 } := by
      intro h599
      omega
    rcases hx with rfl | rfl
    · rw [he]
      exact .awaiting ⟨h, rfl, hbad⟩
    · rw [he]
      exact .awaiting ⟨h, rfl, hbad⟩

theorem Unraised.going {l : Loop} (h : Proper config l) {a : Attempt} {reply : Reply}
    (hr : reply.status = 200 → Countable reply) (problem : Option Reply.Problem) :
    Unraised config (judged.going config.settings g l a reply problem) := by
  unfold judged.going
  split_ifs with hun hstatus hcut
  · exact .awaiting h
  · exact .returns _
  · have hc := hr (not_not.mp hstatus)
    exact .trying (decode_ok hc) fun d _ => .awaiting ⟨h, hc⟩
  · exact .awaiting ⟨h.role, h.length, h.body, h.parts⟩
  · have hc := hr (not_not.mp hstatus)
    exact .trying (decode_ok hc) fun d _ => .awaiting trivial

theorem Unraised.judged {l : Loop} (h : Proper config l) {a : Attempt} {reply : Reply}
    (hr : reply.status = 200 → Countable reply)
    (hd : reply.status = 200 → reply.done = true → shallow std reply.calls = true) :
    Unraised config (LlmProxy.judged config.settings std g l a reply) := by
  have hproblem : ∃ p, (if reply.status = 200 then reply.problem std else .ok none) = .ok p := by
    split_ifs with hstatus
    · exact problem_ok (hd hstatus)
    · exact ⟨none, rfl⟩
  unfold LlmProxy.judged
  refine .trying hproblem fun problem _ => ?_
  split
  · split_ifs
    · exact .returns _
    · exact .going h hr problem
  · exact .going h hr problem

theorem Unraised.resumeRelease {l : Loop} (h : Proper config l) {a : Attempt} {reply : Reply}
    (hr : reply.status = 200 → Countable reply)
    (hd : reply.status = 200 → reply.done = true → shallow std reply.calls = true) (n : ℤ) :
    Unraised config (LlmProxy.resumeRelease config.settings std w g l a reply n none) := by
  have hj := Unraised.judged (g := g.setGate a.backend.model
    ((g.gate a.backend.model).release a.tokens n w.now)) (a := a) h hr hd
  constructor
  · intro e he
    rcases List.mem_cons.mp he with he | he
    · cases he
    · exact hj.quiet e he
  · exact hj.sane
  · intro hn
    obtain ⟨r, hr⟩ := hj.reply hn
    exact ⟨r, List.mem_cons_of_mem _ hr⟩

/-- A model that names a wait names at least a second. -/
theorem one_le_retryAfter (r : Reply) : le (.finite 1) (retryAfter r) = true := by
  have hone (x : Value) : le (.finite 1) (Binary64.max (.finite 1) x) = true := by
    unfold Binary64.max
    split_ifs with h
    · cases x with
      | finite q =>
        have : 1 < q := by simpa [lt] using h
        simpa [le, lt] using this.le
      | infinite n => simpa [le, lt] using h
      | nan => cases h
    · rfl
  have hheader (name : String) (x : Value) (h : retryHeader r.headers name = some x) :
      le (.finite 1) x = true := by
    obtain ⟨y, _, rfl⟩ := Option.map_eq_some_iff.mp h
    exact hone y
  unfold retryAfter
  cases hafter : retryHeader r.headers "retry-after" with
  | some x => exact hheader _ x hafter
  | none =>
    cases hreset : retryHeader r.headers "x-ratelimit-reset" with
    | some x => exact hheader _ x hreset
    | none => rfl

theorem retryAfter_nonneg (r : Reply) : le (.finite 0) (retryAfter r) = true :=
  value_le_trans rfl (one_le_retryAfter r)

theorem backoff_nonneg {settings : Settings} (hs : 0 ≤ settings.backoffSeconds)
    (hm : 0 ≤ settings.backoffMaxSeconds) {attempt : ℕ} {u : ℚ} (hu : 0 ≤ u) {wait : Value}
    (h : backoff settings attempt u = .ok wait) : le (.finite 0) wait = true := by
  unfold backoff at h
  split_ifs at h
  obtain rfl := Except.ok.inj h
  have hp : ∃ p, Binary64.min (.finite settings.backoffMaxSeconds)
      (mul (.finite settings.backoffSeconds) (.finite (2 ^ (attempt - 1)))) = .finite p ∧
      0 ≤ p := by
    unfold Binary64.min
    split_ifs with hlt
    · have hbase : 0 ≤ settings.backoffSeconds * 2 ^ (attempt - 1) :=
        mul_nonneg hs (by positivity)
      have hle := zero_le_nearest hbase
      simp only [mul] at hlt ⊢
      cases hn : nearest (settings.backoffSeconds * 2 ^ (attempt - 1)) with
      | finite p =>
        rw [hn] at hle
        exact ⟨p, rfl, by simpa [le, lt] using hle⟩
      | infinite n =>
        rw [hn] at hle hlt
        simp [le, lt] at hle hlt
        simp [hle] at hlt
      | nan =>
        rw [hn] at hlt
        cases hlt
    · exact ⟨_, rfl, hm⟩
  obtain ⟨p, hp, hp0⟩ := hp
  rw [hp]
  exact zero_le_nearest (mul_nonneg hp0 hu)

/-- A wait that does not reach the deadline ends before it. -/
theorem till_le {now deadline : ℚ} {wait : Value} (h : le (.finite 0) wait = true)
    (hlt : le (.finite deadline) (later now wait) ≠ true) :
    le (later now wait) (.finite deadline) = true := by
  cases wait with
  | finite q =>
    simp [later, le, lt] at hlt ⊢
    exact hlt.le
  | infinite n =>
    simp [le, lt] at h
    simp [later, le, lt, h] at hlt
  | nan => cases h

/-- After the deadline no wait is left. -/
theorem deadline_le {now deadline : ℚ} {wait : Value} (h : le (.finite 0) wait = true)
    (hd : deadline ≤ now) : le (.finite deadline) (later now wait) = true := by
  cases wait with
  | finite q =>
    have hq : 0 ≤ q := by simpa [le, lt] using h
    simp [later, le, lt]
    linarith
  | infinite n => simpa [later, le, lt] using h
  | nan => cases h

theorem backoff_ok {attempt : ℕ} (h : attempt ≤ 1024) (settings : Settings) (u : ℚ) :
    ∃ wait, backoff settings attempt u = .ok wait := by
  unfold backoff
  rw [if_neg (by omega)]
  exact ⟨_, rfl⟩

theorem Unraised.resumeFailed (ho : Ordinary config) {l : Loop} (h : Proper config l) {a : Attempt}
    {reply : Reply} {u : ℚ} (hu : 0 ≤ u) (hf : reply.status = 429 ∨ l.failures ≤ 1024) :
    Unraised config (LlmProxy.resumeFailed config.settings w g l a reply u) := by
  have hwait (g' : Memory) {wait : Value} (hw : le (.finite 0) wait = true) :
      Unraised config (if le (.finite l.deadline) (later w.now wait) then
        LlmProxy.returns g' keptFailing
        else LlmProxy.awaiting g' (.pause l (later w.now wait))) := by
    split_ifs with hlate
    · exact .returns _
    · exact .awaiting ⟨h, till_le hw hlate⟩
  unfold LlmProxy.resumeFailed
  dsimp only
  split
  · exact hwait _ (retryAfter_nonneg reply)
  · rename_i hstatus
    refine .trying (backoff_ok (hf.resolve_left hstatus) _ _) fun wait hb => ?_
    exact hwait _ (backoff_nonneg ho.backoff ho.backoffMax hu hb)

theorem Unraised.resumeObserve {l : Loop} (h : Proper config l) {a : Attempt} {reply : Reply}
    (hr : Countable reply) (d : Option Value) :
    Unraised config (LlmProxy.resumeObserve config.settings w g l a reply d) := by
  unfold LlmProxy.resumeObserve
  dsimp only
  split_ifs
  · exact .returns _
  · refine .trying (shrunk_ok hr _) fun n _ => ?_
    exact .awaiting ⟨h.role, h.length, h.body, h.parts⟩

/-- Running a thread to its next suspension. -/
theorem resume_unraised (ho : Ordinary config) {s : St} {t : ℕ} {pc : Pc} {a : Answer} {r : Step}
    (ht : s.at t = some ⟨pc, some a⟩) (hs : Sane config pc) (ha : Fitting pc a)
    (hc : Careful config std s (.resume t))
    (h : resume config std s.world s.mem pc a = some r) : Unraised config r := by
  simp only [Careful, careful, ht] at hc
  cases pc with
  | head l =>
    cases a with
    | bool gone => cases h; exact .resumeHead hs gone
    | _ => cases h
  | pick l =>
    cases a with
    | go => cases h; exact .resumePick ho hs
    | _ => cases h
  | cap l b prompt n =>
    cases a with
    | go => cases h; exact .resumeCap hs prompt n hc
    | _ => cases h
  | acquire l at_ seq =>
    cases a with
    | bool gone => cases h; exact .resumeAcquire hs at_ seq gone
    | _ => cases h
  | denied l =>
    cases a with
    | bool gone => cases h; exact .resumeDenied l gone
    | _ => cases h
  | exchange l at_ =>
    cases a with
    | upstream u => cases h; exact .resumeExchange hs hc
    | _ => cases h
  | release l at_ reply n raised =>
    cases a with
    | go =>
      cases h
      obtain ⟨hl, rfl, hr⟩ := hs
      refine .resumeRelease hl hr (fun hstatus hdone => ?_) n
      simpa [hstatus, hdone] using hc
    | _ => cases h
  | failing l at_ reply =>
    cases a with
    | bool gone =>
      cases h
      split_ifs
      · exact .awaiting ⟨hs.role, hs.length, hs.body, hs.parts⟩
      · exact .awaiting ⟨hs.role, hs.length, hs.body, hs.parts⟩
    | _ => cases h
  | failed l at_ reply =>
    cases a with
    | uniform u =>
      cases h
      refine .resumeFailed ho hs ha ?_
      simpa using hc
    | _ => cases h
  | pause l till =>
    cases a with
    | bool stopping =>
      cases h
      unfold resumePause
      split_ifs
      · exact .returns _
      · exact .awaiting hs.1
    | _ => cases h
  | observe l at_ reply d =>
    cases a with
    | go => cases h; exact .resumeObserve hs.1 hs.2 d
    | _ => cases h
  | recovered at_ reply d =>
    cases a with
    | go => cases h; exact .awaiting trivial
    | _ => cases h
  | succeeded at_ reply d =>
    cases a with
    | go => cases h; exact .returns _
    | _ => cases h

def deadlineOf : Pc → Option ℚ
  | .head l | .pick l | .denied l | .cap l _ _ _ | .acquire l _ _ | .exchange l _
  | .failing l _ _ | .failed l _ _ | .release l _ _ _ _ | .pause l _ | .observe l _ _ _ =>
    some l.deadline
  | .recovered _ _ _ | .succeeded _ _ _ => none

/-- The hold of a request is over, or it has its reply. -/
def Overdue (w : World) (pc : Pc) : Prop := ∀ d, deadlineOf pc = some d → d ≤ w.now

/-- How often an overdue thread can be resumed. -/
def rank : Pc → ℕ
  | .head l => if l.gone || l.streamed.isSome then 1 else 8
  | .pick _ => 7
  | .cap _ _ _ _ => 6
  | .acquire _ _ _ => 5
  | .exchange _ _ => 4
  | .release _ _ _ _ _ => 3
  | .failing _ _ _ | .recovered _ _ _ => 2
  | .denied _ | .failed _ _ _ | .observe _ _ _ _ | .succeeded _ _ _ => 1
  | .pause _ _ => 9

theorem rank_pos (pc : Pc) : 0 < rank pc := by
  cases pc with
  | head l =>
    simp only [rank]
    split_ifs <;> decide
  | _ => simp [rank]

theorem rank_le (pc : Pc) : rank pc ≤ 9 := by
  cases pc with
  | head l =>
    simp only [rank]
    split_ifs <;> decide
  | _ => simp [rank]

/-- An overdue thread ran on: nearer to its end, and still overdue. -/
def Nearer (w : World) (pc : Pc) (r : Step) : Prop :=
  ∀ pc', r.next = some pc' → rank pc' < rank pc ∧ Overdue w pc'

theorem Nearer.awaiting {pc pc' : Pc} (hr : rank pc' < rank pc) (ho : Overdue w pc') :
    Nearer w pc (LlmProxy.awaiting g pc') := by
  intro p hp
  obtain rfl := Option.some.inj hp
  exact ⟨hr, ho⟩

theorem Nearer.returns {pc : Pc} (r : Reply) : Nearer w pc (LlmProxy.returns g r) := by
  intro p hp
  cases hp

theorem Nearer.trying {α : Type} {x : Except Exc α} {next : α → Step} {pc : Pc}
    (hn : ∀ y, x = .ok y → Nearer w pc (next y)) : Nearer w pc (LlmProxy.trying g x next) := by
  cases x with
  | ok y => exact hn y rfl
  | error e =>
    intro p hp
    cases hp

theorem Nearer.going {l : Loop} (hd : l.deadline ≤ w.now) {a : Attempt} {reply : Reply}
    {pc : Pc} (hpc : 2 < rank pc) (problem : Option Reply.Problem) (settings : Settings) :
    Nearer w pc (judged.going settings g l a reply problem) := by
  have ho : ∀ d, some l.deadline = some d → d ≤ w.now := by
    intro d he
    obtain rfl := Option.some.inj he
    exact hd
  unfold judged.going
  split_ifs
  · exact .awaiting hpc ho
  · exact .returns _
  · refine .trying fun d _ => .awaiting ?_ ho
    have hone : rank (.observe l a reply d) = 1 := rfl
    omega
  · refine .awaiting ?_ ho
    have hone : rank (.head { l with streamed := some reply }) = 1 := by simp [rank]
    omega
  · refine .trying fun d _ => .awaiting hpc ?_
    intro d he
    cases he

theorem Nearer.judged {l : Loop} (hd : l.deadline ≤ w.now) {a : Attempt} {reply : Reply}
    {pc : Pc} (hpc : 2 < rank pc) (settings : Settings) :
    Nearer w pc (LlmProxy.judged settings std g l a reply) := by
  unfold LlmProxy.judged
  refine .trying fun problem _ => ?_
  split
  · split_ifs
    · exact .returns _
    · exact .going hd hpc problem settings
  · exact .going hd hpc problem settings

theorem Nearer.resumeFailed (ho : Ordinary config) {l : Loop} (hd : l.deadline ≤ w.now)
    {a : Attempt} {reply : Reply} {u : ℚ} (hu : 0 ≤ u) {pc : Pc} :
    Nearer w pc (LlmProxy.resumeFailed config.settings w g l a reply u) := by
  unfold LlmProxy.resumeFailed
  dsimp only
  split
  · rw [if_pos (deadline_le (retryAfter_nonneg reply) hd)]
    exact .returns _
  · refine .trying fun wait hb => ?_
    rw [if_pos (deadline_le (backoff_nonneg ho.backoff ho.backoffMax hu hb) hd)]
    exact .returns _

theorem resume_nearer (ho : Ordinary config) {pc : Pc} {a : Answer} {r : Step}
    (hd : Overdue w pc) (ha : Fitting pc a) (h : resume config std w g pc a = some r) :
    Nearer w pc r := by
  cases pc with
  | head l =>
    cases a with
    | bool gone =>
      cases h
      have hl : l.deadline ≤ w.now := hd _ rfl
      unfold resumeHead
      split
      · exact .returns _
      · rename_i hgone
        have hfalse : l.gone = false := by
          by_contra hg
          exact hgone (ha (by simpa using hg))
        split
        · exact .returns _
        · rename_i hs
          exact .awaiting (by simp [rank, hfalse, hs]) hd
    | _ => cases h
  | pick l =>
    cases a with
    | go =>
      cases h
      unfold resumePick
      refine .trying fun x _ => .trying fun prompt _ => .trying fun n _ => ?_
      split_ifs
      · exact .returns _
      · exact .awaiting (by simp [rank]) hd
    | _ => cases h
  | cap l b prompt n =>
    cases a with
    | go =>
      cases h
      unfold resumeCap
      exact .trying fun c _ => .trying fun payload _ => .awaiting (by simp [rank]) hd
    | _ => cases h
  | acquire l at_ seq =>
    cases a with
    | bool gone =>
      cases h
      have hl : l.deadline ≤ w.now := hd _ rfl
      unfold resumeAcquire
      dsimp only
      split_ifs
      · exact .awaiting (by simp [rank]) hd
      · intro p hp
        obtain rfl := Option.some.inj hp
        exact ⟨by simp [rank], hd⟩
      · exact .awaiting (by simp [rank]) hd
    | _ => cases h
  | denied l =>
    cases a with
    | bool gone =>
      cases h
      unfold resumeDenied
      split_ifs
      · exact .returns _
      · split
        · exact .returns _
        · exact .returns _
    | _ => cases h
  | exchange l at_ =>
    cases a with
    | upstream u =>
      cases h
      unfold resumeExchange
      split
      · split_ifs
        · exact .trying fun n _ => .awaiting (by simp [rank]) hd
        · exact .awaiting (by simp [rank]) hd
      · exact .awaiting (by simp [rank]) hd
      · exact .awaiting (by simp [rank]) hd
      · exact .awaiting (by simp [rank]) hd
    | _ => cases h
  | release l at_ reply n raised =>
    cases a with
    | go =>
      cases h
      unfold resumeRelease
      cases raised with
      | some e =>
        intro p hp
        cases hp
      | none =>
        intro p hp
        exact Nearer.judged (hd _ rfl) (by simp [rank]) _ p hp
    | _ => cases h
  | failing l at_ reply =>
    cases a with
    | bool gone =>
      cases h
      split_ifs
      · exact .awaiting (by simp [rank]) hd
      · exact .awaiting (by simp [rank]) hd
    | _ => cases h
  | failed l at_ reply =>
    cases a with
    | uniform u => cases h; exact .resumeFailed ho (hd _ rfl) ha
    | _ => cases h
  | pause l till =>
    cases a with
    | bool stopping =>
      cases h
      unfold resumePause
      split_ifs
      · exact .returns _
      · refine .awaiting ?_ hd
        simp only [rank]
        split_ifs <;> decide
    | _ => cases h
  | observe l at_ reply d =>
    cases a with
    | go =>
      cases h
      have hl : l.deadline ≤ w.now := hd _ rfl
      unfold resumeObserve
      simp only [hl, decide_true, Bool.or_true, if_true]
      exact .returns _
    | _ => cases h
  | recovered at_ reply d =>
    cases a with
    | go => cases h; exact .awaiting (by simp [rank]) hd
    | _ => cases h
  | succeeded at_ reply d =>
    cases a with
    | go => cases h; exact .returns _
    | _ => cases h

theorem serve_fitting {w' : World} {pc : Pc} {c a : Answer} (h : serve w pc c = some (w', a)) :
    Fitting pc a := by
  unfold serve at h
  split at h
  case h_10 l b =>
    split_ifs at h with hg
    cases h
    intro hgone
    simpa [hgone] using hg
  case h_11 =>
    split_ifs at h with hr
    cases h
    have hle : (3 / 4 : ℚ) ≤ _ := (by simpa using hr : _ ∧ _).1
    exact le_trans (by norm_num) hle
  case h_13 =>
    split_ifs at h
    · cases h
      trivial
    · cases h
      trivial
  all_goals first
    | (cases h; done)
    | (cases h; trivial)

theorem serve_enabled {pc : Pc} (hs : Sane config pc) (hd : Overdue w pc) :
    ∃ c w' a, serve w pc c = some (w', a) := by
  cases pc with
  | head l => exact ⟨.bool true, w, .bool true, by simp [serve]⟩
  | acquire l a seq => exact ⟨.bool true, w, .bool true, rfl⟩
  | denied l => exact ⟨.bool true, w, .bool true, rfl⟩
  | failing l a reply => exact ⟨.bool true, w, .bool true, rfl⟩
  | failed l a reply => exact ⟨.uniform 1, w, .uniform 1, by norm_num [serve]⟩
  | exchange l a => exact ⟨.upstream .unreachable, w, .upstream .unreachable, rfl⟩
  | pause l till =>
    have hl : l.deadline ≤ w.now := hd _ rfl
    have htill : le till (.finite w.now) = true := by
      have hle := hs.2
      cases till with
      | finite q =>
        have hq : q ≤ l.deadline := by simpa [le, lt] using hle
        simpa [le, lt] using hq.trans hl
      | infinite n => simpa [le, lt] using hle
      | nan => cases hle
    by_cases hstop : w.stopping = true
    · exact ⟨.go, w, .bool true, by simp [serve, hstop]⟩
    · exact ⟨.go, w, .bool false, by simp [serve, hstop, htill]⟩
  | _ => exact ⟨.go, w, .go, rfl⟩

theorem resume_enabled {pc : Pc} {a : Answer} (ha : Fitting pc a) :
    ∃ r, resume config std w g pc a = some r := by
  unfold Fitting at ha
  split at ha
  all_goals first
    | exact ha.elim
    | exact ⟨_, rfl⟩

/-- Every suspended thread is sane, with an answer that fits. -/
abbrev Kept (config : Config) : St → Prop :=
  Holds (fun _ _ => True) fun _ _ pc reply => Sane config pc ∧ ∀ a, reply = some a → Fitting pc a

theorem kept_step (ho : Ordinary config) (s : St) (a : Act) (s' : St) (h : Kept config s)
    (hc : Careful config std s a) (hs : (program config std).step s a = some s') :
    Kept config s' := by
  refine Holds.step (C := Careful config std) ?_ ?_ ?_ ?_ s a s' h hc hs
  · intro s i r hk hc hr
    obtain ⟨name, raw, body, session, role, rfl, hrole, rfl⟩ := start_cases hr
    simp only [Careful, careful, Bool.and_eq_true, decide_eq_true_eq] at hc
    refine ⟨trivial, fun pc hpc => ?_, fun t pc a _ hl => hl⟩
    obtain rfl := Option.some.inj hpc
    refine ⟨⟨⟨name, hrole⟩, hc.1.1, hc.1.2, hc.2⟩, ?_⟩
    intro a ha
    cases ha
  · intro s t c pc w a hk hc ht hv
    refine ⟨trivial, ⟨(hk.each t _ ht).1, fun b hb => ?_⟩, fun j pc a _ _ hl => hl⟩
    obtain rfl := Option.some.inj hb
    exact serve_fitting hv
  · intro s t pc a r hk hc ht hr
    obtain ⟨hsane, hfit⟩ := hk.each t _ ht
    have hun := resume_unraised ho ht hsane (hfit a rfl) hc hr
    refine ⟨trivial, fun pc' hpc => ⟨hun.sane pc' hpc, ?_⟩, fun j pc a _ _ hl => hl⟩
    intro b hb
    cases hb
  · intro s e w g hk hc he
    exact ⟨trivial, fun t pc a _ hl => hl⟩

/-- Slots granted and given back in turn, each with what it was granted with; the last may
still be held. -/
inductive Paired : List Entry → Option (String × ℤ) → Prop
  | nil : Paired [] none
  | grant {es : List Entry} {m : String} {k : ℤ} (h : Paired es none) :
      Paired (es ++ [⟨true, m, k⟩]) (some (m, k))
  | giveBack {es : List Entry} {m : String} {k : ℤ} (h : Paired es (some (m, k))) :
      Paired (es ++ [⟨false, m, k⟩]) none

def Attempt.slot (a : Attempt) : String × ℤ := (a.backend.model.name, a.tokens)

/-- The slot that a thread holds. -/
def holding (s : St) (t : ℕ) : Option (String × ℤ) :=
  ((s.at t).bind fun th => flightOf th.pc).map Attempt.slot

variable {now : ℚ} {acts : List Act} {s : St}

/-- The gates' books are what the requests in flight account for; each thread gave back
every slot but one that it holds; none raised, and those that ended returned a reply. -/
structure Balanced (config : Config) (std : Std) (now : ℚ) (acts : List Act) (s : St) : Prop where
  books : ∀ name, books s.mem name =
    (s.total (weighAt one name), s.total (weighAt Attempt.tokens name))
  paired : ∀ t, Paired (entries ((program config std).told (initial config now) acts t)) (holding s t)
  quiet : ∀ t e, .raised e ∉ (program config std).told (initial config now) acts t
  replied : ∀ t, t < s.threads.length → s.at t = none →
    ∃ reply, .returned reply ∈ (program config std).told (initial config now) acts t

theorem balanced_initial : Balanced config std now [] (initial config now) where
  books name := rfl
  paired t := .nil
  quiet t e h := by cases h
  replied t h := by cases h

theorem entries_append (xs ys : List Event) : entries (xs ++ ys) = entries xs ++ entries ys :=
  List.filterMap_append

/-- A thread's entries go on from the slot it holds to the one it holds then. -/
theorem Booked.paired {pc : Pc} {r : Step} (h : Booked g pc r) (hq : ∀ e, .raised e ∉ r.events)
    {es : List Entry} (hp : Paired es ((flightOf pc).map Attempt.slot)) :
    Paired (es ++ entries r.events) ((r.next.bind flightOf).map Attempt.slot) := by
  cases h with
  | same _ hf he =>
    rw [he, hf, List.append_nil]
    exact hp
  | granted l x seq hpc hn _ _ he =>
    subst hpc
    rw [he, hn]
    exact .grant hp
  | returned l x reply n raised hpc hn _ he =>
    subst hpc
    rw [he, hn]
    exact .giveBack hp
  | leaked l x e _ _ _ he => exact absurd (by simp [he]) (hq e)

theorem balanced_call {r : Step} {i : Call} (h : Balanced config std now acts s)
    (hr : (program config std).run (initial config now) acts = some s)
    (hs : start config s.world s.mem i = some r) :
    Balanced config std now (acts ++ [.call i])
      ⟨s.world, r.mem, s.threads ++ [suspend r.next]⟩ := by
  have htold (t : ℕ) : (program config std).told (initial config now) (acts ++ [.call i]) t =
      (program config std).told (initial config now) acts t := by
    rw [told_snoc _ hr]
    obtain ⟨name, raw, body, session, role, rfl, _, rfl⟩ := start_cases hs
    simp [Program.emits, program, hs, awaiting]
  obtain ⟨name, raw, body, session, role, rfl, _, rfl⟩ := start_cases hs
  constructor
  · intro n
    rw [total_append, total_append]
    simpa [suspend, awaiting, weighAt, weigh, flightOf] using h.books n
  · intro t
    rw [htold]
    have hsame : holding ⟨s.world, (awaiting s.mem (.head ⟨⟨role, raw, body, session⟩,
        s.world.now + config.settings.holdHours * 3600, 0, 0, 0, none, false⟩)).mem,
        s.threads ++ [suspend (awaiting s.mem (.head ⟨⟨role, raw, body, session⟩,
        s.world.now + config.settings.holdHours * 3600, 0, 0, 0, none, false⟩)).next]⟩ t =
        holding s t := by
      unfold holding
      rw [at_append]
      split_ifs with ht
      · have hnone : s.at t = none := by
          simp [State.at, ← ht]
        rw [hnone]
        rfl
      · rfl
    rw [hsame]
    exact h.paired t
  · intro t
    rw [htold]
    exact h.quiet t
  · intro t hlt hnone
    rw [htold]
    rw [at_append] at hnone
    split_ifs at hnone with ht
    · cases hnone
    · refine h.replied t ?_ hnone
      simp only [List.length_append, List.length_cons, List.length_nil] at hlt
      omega

theorem balanced_resume {r : Step} {t : ℕ} {pc : Pc} {a : Answer}
    (h : Balanced config std now acts s)
    (hr : (program config std).run (initial config now) acts = some s)
    (ht : s.at t = some ⟨pc, some a⟩) (hun : Unraised config r)
    (hs : resume config std s.world s.mem pc a = some r) :
    Balanced config std now (acts ++ [.resume t])
      ⟨s.world, r.mem, s.threads.set t (suspend r.next)⟩ := by
  have hbooked := resume_booked hs
  have hown : (program config std).told (initial config now) (acts ++ [.resume t]) t =
      (program config std).told (initial config now) acts t ++ r.events := by
    rw [told_snoc _ hr]
    simp [Action.mover, Program.emits, program, ht, hs]
  have hother (j : ℕ) (hj : t ≠ j) :
      (program config std).told (initial config now) (acts ++ [.resume t]) j =
        (program config std).told (initial config now) acts j := by
    rw [told_snoc _ hr]
    simp [Action.mover, hj]
  have hat (j : ℕ) := at_set s s.world r.mem t j (suspend r.next) (by simp [ht])
  constructor
  · intro name
    rcases hbooked.balance with hbal | ⟨_, _, e, he⟩
    · obtain ⟨hone, htok⟩ := hbal name
      have hbooks := h.books name
      rw [total_weighAt ht, total_weighAt ht]
      apply Prod.ext
      · rw [hone, hbooks]
      · rw [htok, hbooks]
    · exact absurd (by simp [he]) (hun.quiet e)
  · intro j
    unfold holding
    rw [hat]
    split_ifs with hj
    · subst hj
      rw [hown, entries_append]
      have hp := h.paired t
      simp only [holding, ht, Option.bind_some] at hp
      have hnext : ((suspend r.next : Option (Suspended Pc Answer)).bind fun th => flightOf th.pc) =
          r.next.bind flightOf := by
        cases r.next <;> rfl
      rw [hnext]
      exact hbooked.paired hun.quiet hp
    · rw [hother j hj]
      exact h.paired j
  · intro j e he
    by_cases hj : t = j
    · subst hj
      rw [hown] at he
      rcases List.mem_append.mp he with he | he
      · exact h.quiet t e he
      · exact hun.quiet e he
    · rw [hother j hj] at he
      exact h.quiet j e he
  · intro j hlt hnone
    rw [hat] at hnone
    split_ifs at hnone with hj
    · subst hj
      rw [hown]
      obtain ⟨reply, hreply⟩ := hun.reply (by
        cases hn : r.next with
        | none => rfl
        | some p => simp [hn, suspend] at hnone)
      exact ⟨reply, List.mem_append_right _ hreply⟩
    · rw [hother j hj]
      exact h.replied j (by simpa using hlt) hnone

theorem balanced_still {a : Act} {w : World} {threads : List (Option (Suspended Pc Answer))}
    (h : Balanced config std now acts s)
    (hr : (program config std).run (initial config now) acts = some s) (ha : a.mover s = none)
    (hlen : threads.length = s.threads.length)
    (hpc : ∀ t, (State.at ⟨w, s.mem, threads⟩ t).map Suspended.pc = (s.at t).map Suspended.pc)
    (htotal : ∀ f, State.total f ⟨w, s.mem, threads⟩ = s.total f) :
    Balanced config std now (acts ++ [a]) ⟨w, s.mem, threads⟩ := by
  have htold (t : ℕ) : (program config std).told (initial config now) (acts ++ [a]) t =
      (program config std).told (initial config now) acts t := by
    rw [told_snoc _ hr]
    simp [ha]
  constructor
  · intro name
    rw [htotal, htotal]
    exact h.books name
  · intro t
    rw [htold]
    have hsame : holding ⟨w, s.mem, threads⟩ t = holding s t := by
      have hbind (x : Option (Suspended Pc Answer)) :
          (x.bind fun th => flightOf th.pc) = (x.map Suspended.pc).bind flightOf := by
        cases x <;> rfl
      unfold holding
      rw [hbind, hbind, hpc]
    rw [hsame]
    exact h.paired t
  · intro t
    rw [htold]
    exact h.quiet t
  · intro t hlt hnone
    rw [htold]
    refine h.replied t (hlen ▸ hlt) ?_
    have hmap := hpc t
    rw [hnone] at hmap
    simpa using hmap.symm

theorem balanced_step (ho : Ordinary config) {a : Act} {s' : St} (hk : Kept config s)
    (h : Balanced config std now acts s)
    (hr : (program config std).run (initial config now) acts = some s)
    (hc : Careful config std s a) (hs : (program config std).step s a = some s') :
    Balanced config std now (acts ++ [a]) s' := by
  cases a with
  | call i =>
    obtain ⟨r, hst, rfl⟩ := Program.step_call hs
    exact balanced_call h hr hst
  | serve t c =>
    obtain ⟨pc, w, x, ht, _, rfl⟩ := Program.step_serve hs
    have hat := at_set s w s.mem t
    refine balanced_still h hr rfl (by simp) (fun j => ?_) fun f => ?_
    · rw [hat _ _ (by simp [ht])]
      split_ifs with hj
      · rw [← hj, ht]
        rfl
      · rfl
    · rw [total_set f s w s.mem ht]
      simp
  | resume t =>
    obtain ⟨pc, x, r, ht, hre, rfl⟩ := Program.step_resume hs
    obtain ⟨hsane, hfit⟩ := hk.each t _ ht
    exact balanced_resume h hr ht (resume_unraised ho ht hsane (hfit x rfl) hc hre) hre
  | env e =>
    obtain ⟨w, g, he, rfl⟩ := Program.step_env hs
    obtain ⟨rfl, _⟩ := env_memory he
    exact balanced_still h hr rfl rfl (fun _ => rfl) fun _ => rfl

/-- A thread that can go on, and that nine resumptions end. -/
structure Ends (config : Config) (std : Std) (s : St) (t : ℕ) : Prop where
  awake : (∃ c s', (program config std).step s (.serve t c) = some s') ∨
    ∃ s', (program config std).step s (.resume t) = some s'
  soon : ∀ acts s', (program config std).Along (Careful config std) s acts →
    (program config std).run s acts = some s' → 9 ≤ acts.countP (Action.resumes t) →
    s'.at t = none

theorem overdue_step (ho : Ordinary config) {t : ℕ} {a : Act} {s s' : St}
    (h : Kept config s ∧ ∀ th, s.at t = some th → Overdue s.world th.pc) (hlt : t < s.threads.length)
    (hs : (program config std).step s a = some s') :
    ∀ th, s'.at t = some th → Overdue s'.world th.pc := by
  intro th hth
  cases a with
  | call i =>
    obtain ⟨r, _, rfl⟩ := Program.step_call hs
    rw [at_append, if_neg (by omega)] at hth
    exact h.2 th hth
  | serve j c =>
    obtain ⟨pc, w, x, hj, hv, rfl⟩ := Program.step_serve hs
    obtain rfl := serve_world hv
    rw [at_set s _ _ j t _ (by simp [hj])] at hth
    split_ifs at hth with hjt
    · obtain rfl := Option.some.inj hth
      exact h.2 ⟨pc, none⟩ (hjt ▸ hj)
    · exact h.2 th hth
  | resume j =>
    obtain ⟨pc, x, r, hj, hre, rfl⟩ := Program.step_resume hs
    rw [at_set s _ _ j t _ (by simp [hj])] at hth
    split_ifs at hth with hjt
    · subst hjt
      exact (resume_nearer ho (h.2 _ hj) ((h.1.each j _ hj).2 x rfl) hre _
        (suspend_eq_some hth).1).2
    · exact h.2 th hth
  | env e =>
    obtain ⟨w, g, he, rfl⟩ := Program.step_env hs
    intro d hd
    exact (h.2 th hth d hd).trans (env_memory he).2

theorem ends_of_overdue (ho : Ordinary config) (hk : Kept config s) {t : ℕ}
    {th : Suspended Pc Answer} (ht : s.at t = some th) (hd : Overdue s.world th.pc) :
    Ends config std s t := by
  obtain ⟨hsane, hfit⟩ := hk.each t th ht
  constructor
  · obtain ⟨pc, reply⟩ := th
    cases reply with
    | none =>
      obtain ⟨c, w, a, hv⟩ := serve_enabled hsane hd
      refine .inl ⟨c, ⟨w, s.mem, s.threads.set t (some ⟨pc, some a⟩)⟩, ?_⟩
      simp only [Program.step, ht, program, hv, Option.map_some]
    | some a =>
      obtain ⟨r, hr⟩ : ∃ r, resume config std s.world s.mem pc a = some r :=
        resume_enabled (hfit a rfl)
      refine .inr ⟨⟨s.world, r.mem, s.threads.set t (suspend r.next)⟩, ?_⟩
      simp only [Program.step, ht, program, hr, Option.map_some]
  · intro acts s' hc hr hlong
    let Inv (s : St) := (Kept config s ∧ ∀ th, s.at t = some th → Overdue s.world th.pc) ∧
      t < s.threads.length
    have hinv : Inv s := by
      refine ⟨⟨hk, fun th' ht' => ?_⟩, lt_of_at ht⟩
      rw [ht] at ht'
      obtain rfl := Option.some.inj ht'
      exact hd
    have hlong : rank th.pc ≤ acts.countP (Action.resumes t) := (rank_le _).trans hlong
    refine ends_of_rank ?_ rank_pos ?_ hinv hc hr ht hlong
    · intro s a s' hi hc hs
      exact ⟨⟨kept_step ho s a s' hi.1.1 hc hs, overdue_step ho hi.1 hi.2 hs⟩,
        hi.2.trans_le (length_le_of_step hs)⟩
    · intro s s' th th' hi hc hs hth hth'
      obtain ⟨pc, x, r, hj, hre, rfl⟩ := Program.step_resume hs
      rw [hj] at hth
      obtain rfl := Option.some.inj hth
      rw [at_set s _ _ t t _ (by simp [hj]), if_pos rfl] at hth'
      exact (resume_nearer ho (hi.1.2 _ hj) ((hi.1.1.each t _ hj).2 x rfl) hre _
        (suspend_eq_some hth').1).1

/-- A stream of one chunk, which gives its usage, and the end. -/
def streamed (usage : String) : Upstream :=
  .answered 200 [] [] [(false, "data: \x7b\"usage\": " ++ usage ++ "\x7d"), (false, "data: [DONE]")]
    .whole 1 2

/-- `json.loads` of such a chunk, where `usage` is the text of `value`. -/
def usageJson (usage : String) (value : Json) : Std where
  loads content := if content = ("\x7b\"usage\": " ++ usage ++ "\x7d").toUTF8.toList then
    .ok (.dict [("usage", value)]) else .error .invalid
  decode _ := ""

/-- A request of ten bytes up to the stream that answers it. -/
def asking (usage : String) : List Act :=
  [.call (.forward "agent" (List.replicate 10 65) [("messages", .list [])] ""),
   .serve 0 (.bool false), .resume 0, .serve 0 .go, .resume 0, .serve 0 .go, .resume 0,
   .serve 0 (.bool false), .resume 0, .serve 0 (.upstream (streamed usage)), .resume 0]

theorem ordinary_smallConfig : Ordinary smallConfig where
  bytes := by
    have hone : (1 : ℚ) ≤ 2 ^ 900 := one_le_pow₀ (by norm_num)
    simpa [smallConfig] using hone
  contexts name m hm := by
    obtain rfl := smallConfig_model hm
    norm_num [smallModel]
  backoff := by norm_num [smallConfig]
  backoffMax := by norm_num [smallConfig]

end PurdueAF.LlmProxy

import PurdueAF.LlmProxySteps

/-!
# The proxy's fair use of each model

What the requests in flight to a model may hold together is not checked anywhere: it
follows from the room each of them is capped to, and from the tokens their gate counts as
long as no request counts for less than it holds.
-/
namespace PurdueAF.LlmProxy
open Py Binary64 Coroutine

def nonneg : Except Exc ℤ → Bool
  | .ok n => 0 ≤ n
  | .error _ => true

/-- Whether neither the request's prompt estimate for one of its role's models nor the
figure it gives for its output is negative. -/
def modest (settings : Settings) (req : Request) : Bool :=
  (req.role.backends.all fun b => nonneg (estimate settings req.raw req.body b.model)) &&
    nonneg (asked req.body 0).toInt

/-- Every request that comes in is modest. -/
def Modest (config : Config) (_ : St) : Act → Prop
  | .call (.forward name raw body session) =>
    ∀ role, config.roles.get? name = some role →
      modest config.settings ⟨role, raw, body, session⟩ = true
  | _ => True

instance (config : Config) (s : St) : ∀ a, Decidable (Modest config s a)
  | .call (.forward name raw body session) =>
    match h : config.roles.get? name with
    | some role => decidable_of_iff (modest config.settings ⟨role, raw, body, session⟩ = true)
        ⟨fun hm r hr => by rw [h] at hr; cases hr; exact hm, fun hm => hm role h⟩
    | none => .isTrue fun r hr => by rw [h] at hr; cases hr
  | .serve _ _ | .resume _ | .env _ => .isTrue trivial

/-- What a request takes of its model's share: its prompt estimate and the output it asked for. -/
def Attempt.demand (a : Attempt) : ℤ := a.prompt + max 0 a.payload.maxTokens

structure Fine (config : Config) (l : Loop) : Prop where
  role : ∃ name, config.roles.get? name = some l.req.role
  modest : modest config.settings l.req = true
  shrink : 0 ≤ l.shrink

/-- An attempt as `forward` makes it: of a model of the configuration, not negative, and
below the model's share. -/
structure Valid (config : Config) (a : Attempt) : Prop where
  known : config.models.get? a.backend.model.name = some a.backend.model
  prompt : 0 ≤ a.prompt
  sent : 0 ≤ a.payload.maxTokens
  below : ∃ q, share a.backend.model = .ok (.finite q) ∧ (a.tokens : ℚ) < q

theorem Valid.tokens_nonneg {config : Config} {a : Attempt} (h : Valid config a) :
    0 ≤ a.tokens := add_nonneg h.prompt h.sent

theorem Valid.demand_eq {config : Config} {a : Attempt} (h : Valid config a) :
    a.demand = a.tokens := by
  rw [Attempt.demand, Attempt.tokens, max_eq_right h.sent]

/-- What holds of the thread's variables wherever it is suspended. -/
def Sound (config : Config) : Pc → Prop
  | .head l | .pick l | .denied l | .pause l _ => Fine config l
  | .cap l b prompt n => Fine config l ∧ b ∈ l.req.role.backends ∧
      estimate config.settings l.req.raw l.req.body b.model = .ok prompt ∧
      room prompt b.model = .ok n ∧ b.model.maxTokens.1 ≤ n
  | .acquire l a _ | .exchange l a | .release l a _ _ _ | .failing l a _ | .failed l a _
  | .observe l a _ _ => Fine config l ∧ Valid config a
  | .recovered _ _ _ | .succeeded _ _ _ => True

theorem Fine.known {config : Config} {l : Loop} (h : Fine config l) {b : Backend}
    (hb : b ∈ l.req.role.backends) : config.models.get? b.model.name = some b.model := by
  obtain ⟨name, hname⟩ := h.role
  exact config.known _ (Dict.mem_of_get? hname) b hb

theorem Fine.estimate_nonneg {config : Config} {l : Loop} (h : Fine config l) {b : Backend}
    (hb : b ∈ l.req.role.backends) {n : ℤ}
    (he : estimate config.settings l.req.raw l.req.body b.model = .ok n) : 0 ≤ n := by
  have hm := h.modest
  simp only [LlmProxy.modest, Bool.and_eq_true, List.all_eq_true] at hm
  have := hm.1 b hb
  rw [he] at this
  simpa [nonneg] using this

/-- The figure is the client's own, or the cap. -/
theorem toInt_asked {body : Body} {cap n : ℤ} (h : (asked body cap).toInt = .ok n) :
    (asked body 0).toInt = .ok n ∨ n = cap := by
  unfold asked Json.or at h ⊢
  split_ifs at h ⊢
  all_goals first
    | exact .inl h
    | exact .inr (by simpa [Json.toInt] using h.symm)

theorem Fine.figure_nonneg {config : Config} {l : Loop} (h : Fine config l) {cap n : ℤ}
    (hcap : 0 ≤ cap) (hn : (asked l.req.body cap).toInt = .ok n) : 0 ≤ n := by
  have hm := h.modest
  simp only [LlmProxy.modest, Bool.and_eq_true] at hm
  rcases toInt_asked hn with h0 | rfl
  · have := hm.2
    rw [h0] at this
    simpa [nonneg] using this
  · exact hcap

/-- A payload asks for at most the cap, and for no less than nothing. -/
theorem shape_sent {body : Body} {b : Backend} {cap : ℤ} {stream : Bool} {p : Payload}
    (h : shape body b cap stream = .ok p) :
    ∃ n, (asked body cap).toInt = .ok n ∧ p.maxTokens = min n cap := by
  unfold shape at h
  dsimp only at h
  obtain ⟨n, hn, h⟩ := except_bind_ok h
  refine ⟨n, hn, ?_⟩
  split_ifs at h
  · obtain ⟨options, _, h⟩ := except_bind_ok h
    cases h
    rfl
  · cases h
    rfl

theorem cap_pos {gate : Gate} {m : Model} {stream : ℚ} {c : ℤ} (h : gate.cap m stream = .ok c) :
    0 < c := by
  obtain ⟨n, _, h⟩ := except_bind_ok h
  cases h
  exact lt_of_lt_of_le m.maxTokens_ok.1 (le_max_left _ _)

/-- The room of a request leaves it below the model's share. -/
theorem room_below {prompt n : ℤ} {m : Model} (h : room prompt m = .ok n) :
    ∃ q, share m = .ok (.finite q) ∧ ((prompt + n : ℤ) : ℚ) < q := by
  obtain ⟨v, hv, h⟩ := except_bind_ok h
  obtain ⟨k, hk, h⟩ := except_bind_ok h
  cases v with
  | finite q =>
    refine ⟨q, hv, ?_⟩
    obtain rfl : truncate q = k := by simpa [intOfFloat] using hk
    obtain rfl : truncate q - prompt - 1 = n := by cases h; rfl
    have := truncate_lt q
    push_cast
    linarith
  | infinite neg => cases hk
  | nan => cases hk

variable {config : Config} {std : Std} {w : World} {g : Memory} {pc : Pc} {a : Answer} {r : Step}

/-- A thread that may raise goes on only where it does not. -/
theorem trying_next {α : Type} {x : Except Exc α} {next : α → Step} {pc' : Pc}
    (h : (trying g x next).next = some pc') : ∃ y, x = .ok y ∧ (next y).next = some pc' := by
  cases x with
  | ok y => exact ⟨y, rfl, h⟩
  | error e => cases h

theorem sound_resumePick {l : Loop} (h : Fine config l) {pc' : Pc}
    (hn : (resumePick config.settings w g l).next = some pc') : Sound config pc' := by
  obtain ⟨⟨g', b⟩, hp, hn⟩ := trying_next hn
  obtain ⟨prompt, he, hn⟩ := trying_next hn
  obtain ⟨n, hr, hn⟩ := trying_next hn
  split_ifs at hn with hlt
  · cases hn
  · cases hn
    exact ⟨h, (pick_ok hp).2, he, hr, not_lt.mp hlt⟩

theorem sound_resumeCap {l : Loop} {b : Backend} {prompt n : ℤ}
    (h : Sound config (.cap l b prompt n)) {pc' : Pc}
    (hn : (resumeCap config.settings w g l b prompt n).next = some pc') : Sound config pc' := by
  obtain ⟨hfine, hb, he, hroom, hfloor⟩ := h
  obtain ⟨c, hc, hn⟩ := trying_next hn
  obtain ⟨p, hp, hn⟩ := trying_next hn
  cases hn
  obtain ⟨k, hk, hsent⟩ := shape_sent hp
  have hnpos : 0 < n := lt_of_lt_of_le b.model.maxTokens_ok.1 hfloor
  have hcpos : 0 < c := cap_pos hc
  have hcap : 0 ≤ min (min c n) (if l.shrink = 0 then n else l.shrink) := by
    have := hfine.shrink
    split_ifs <;> omega
  have hle : p.maxTokens ≤ n := by
    rw [hsent]
    exact (min_le_right _ _).trans ((min_le_left _ _).trans (min_le_right _ _))
  have hknonneg : 0 ≤ k := hfine.figure_nonneg hcap hk
  obtain ⟨q, hq, hlt⟩ := room_below hroom
  refine ⟨hfine, hfine.known hb, hfine.estimate_nonneg hb he, ?_, q, hq, ?_⟩
  · rw [hsent]
    exact le_min hknonneg hcap
  · refine lt_of_le_of_lt ?_ hlt
    exact_mod_cast add_le_add_right hle prompt

theorem sound_judged {settings : Settings} {l : Loop} {at_ : Attempt} {reply : Reply}
    (h : Fine config l ∧ Valid config at_) {pc' : Pc}
    (hn : (judged settings std g l at_ reply).next = some pc') : Sound config pc' := by
  have hgoing {problem : Option Reply.Problem}
      (hn : (judged.going settings g l at_ reply problem).next = some pc') : Sound config pc' := by
    unfold judged.going at hn
    split_ifs at hn
    · cases hn
      exact h
    · cases hn
    · obtain ⟨d, _, hn⟩ := trying_next hn
      cases hn
      exact h
    · cases hn
      exact ⟨h.1.role, h.1.modest, h.1.shrink⟩
    · obtain ⟨d, _, hn⟩ := trying_next hn
      cases hn
      trivial
  obtain ⟨problem, _, hn⟩ := trying_next hn
  split at hn
  · split_ifs at hn
    · cases hn
    · exact hgoing hn
  · exact hgoing hn

/-- From suspension to suspension a thread keeps what it knows of its request. -/
theorem resume_sound (h : Sound config pc) (hr : resume config std w g pc a = some r) {pc' : Pc}
    (hn : r.next = some pc') : Sound config pc' := by
  cases pc with
  | head l =>
    cases a with
    | bool gone =>
      cases hr
      unfold resumeHead at hn
      split at hn
      · cases hn
      · split at hn
        · split_ifs at hn
          · cases hn
          · cases hn
            exact h
        · cases hn
          exact h
    | _ => cases hr
  | pick l =>
    cases a with
    | go => cases hr; exact sound_resumePick h hn
    | _ => cases hr
  | cap l b prompt n =>
    cases a with
    | go => cases hr; exact sound_resumeCap h hn
    | _ => cases hr
  | acquire l at_ seq =>
    cases a with
    | bool gone =>
      cases hr
      unfold resumeAcquire at hn
      dsimp only at hn
      split_ifs at hn
      · cases hn
        exact h.1
      · cases hn
        exact h
      · cases hn
        exact h.1
      · cases hn
        exact h
    | _ => cases hr
  | denied l =>
    cases a with
    | bool gone =>
      cases hr
      unfold resumeDenied at hn
      split at hn
      · cases hn
      · split at hn <;> cases hn
    | _ => cases hr
  | exchange l at_ =>
    cases a with
    | upstream u =>
      cases hr
      unfold resumeExchange at hn
      split at hn
      · split_ifs at hn
        · obtain ⟨n, _, hn⟩ := trying_next hn
          cases hn
          exact h
        · cases hn
          exact h
      · cases hn
        exact h
      · cases hn
        exact h
      · cases hn
        exact h
    | _ => cases hr
  | release l at_ reply n raised =>
    cases a with
    | go =>
      cases hr
      cases raised with
      | some e => cases hn
      | none => exact sound_judged h hn
    | _ => cases hr
  | failing l at_ reply =>
    cases a with
    | bool gone =>
      cases hr
      split_ifs at hn
      · cases hn
        exact ⟨h.1.role, h.1.modest, h.1.shrink⟩
      · cases hn
        exact ⟨⟨h.1.role, h.1.modest, h.1.shrink⟩, h.2⟩
    | _ => cases hr
  | failed l at_ reply =>
    cases a with
    | uniform u =>
      cases hr
      unfold resumeFailed at hn
      dsimp only at hn
      split at hn
      · split at hn <;> cases hn
        exact h.1
      · obtain ⟨wait, _, hn⟩ := trying_next hn
        split at hn <;> cases hn
        exact h.1
    | _ => cases hr
  | pause l till =>
    cases a with
    | bool stopping =>
      cases hr
      unfold resumePause at hn
      split at hn <;> cases hn
      exact h
    | _ => cases hr
  | observe l at_ reply d =>
    cases a with
    | go =>
      cases hr
      unfold resumeObserve at hn
      dsimp only at hn
      split at hn
      · cases hn
      · obtain ⟨n, hs, hn⟩ := trying_next hn
        cases hn
        refine ⟨h.1.role, h.1.modest, ?_⟩
        obtain ⟨c, _, hs⟩ := except_bind_ok hs
        obtain ⟨q, _, hs⟩ := except_bind_ok hs
        obtain ⟨k, _, hs⟩ := except_bind_ok hs
        cases hs
        exact (at_.backend.model.maxTokens_ok.1.le).trans (le_max_left _ _)
    | _ => cases hr
  | recovered at_ reply d =>
    cases a with
    | go =>
      cases hr
      cases hn
      trivial
    | _ => cases hr
  | succeeded at_ reply d =>
    cases a with
    | go =>
      cases hr
      cases hn
    | _ => cases hr

theorem valid_of_flight {pc : Pc} (h : Sound config pc) {x : Attempt}
    (hx : flightOf pc = some x) : Valid config x := by
  cases pc with
  | exchange l at_ | release l at_ _ _ _ =>
    obtain rfl : at_ = x := Option.some.inj hx
    exact h.2
  | _ => cases hx

/-- Each gate counts at least the requests in flight and the tokens they hold, and these
stay within the model's share. -/
structure Counted (config : Config) (s : St) : Prop where
  sound : ∀ t th, s.at t = some th → Sound config th.pc
  busy : ∀ name, s.total (weighAt one name) ≤ (books s.mem name).1
  held : ∀ name, s.total (weighAt Attempt.tokens name) ≤ (books s.mem name).2
  share : ∀ name m q, config.models.get? name = some m → LlmProxy.share m = .ok (.finite q) →
    0 ≤ q → (s.total (weighAt Attempt.tokens name) : ℚ) ≤ q

theorem Counted.tokens_nonneg {s : St} (h : Counted config s) (name : String) :
    ∀ t th, s.at t = some th → 0 ≤ weighAt Attempt.tokens name th.pc := fun t th ht =>
  weigh_nonneg fun _ hx => (valid_of_flight (h.sound t th ht) hx).tokens_nonneg

theorem one_nonneg (s : St) (name : String) :
    ∀ t th, s.at t = some th → 0 ≤ weighAt one name th.pc := fun _ _ _ =>
  weigh_nonneg fun _ _ => zero_le_one

/-- With no request counted there is none in flight. -/
theorem Counted.tokens_eq_zero {s : St} (h : Counted config s) {name : String}
    (hb : (books s.mem name).1 = 0) : s.total (weighAt Attempt.tokens name) = 0 := by
  apply total_eq_zero
  intro t th ht
  have hle : weighAt one name th.pc ≤ 0 := by
    rw [← hb]
    exact (le_total (one_nonneg s name) ht).trans (h.busy name)
  unfold weighAt at hle ⊢
  cases hx : flightOf th.pc with
  | none => rfl
  | some x =>
    simp only [hx, weigh, one] at hle ⊢
    split_ifs at hle ⊢
    · exact absurd hle (by decide)
    · rfl

/-- A request that its gate grants a slot fits into the model's share. -/
theorem Counted.granted {s : St} (h : Counted config s)
    (hbudget : ∀ name m q, config.models.get? name = some m →
      LlmProxy.share m = .ok (.finite q) → (m.budget : ℚ) ≤ q) {x : Attempt} {q : ℚ}
    (hx : Valid config x) (hq : LlmProxy.share x.backend.model = .ok (.finite q))
    (hroom : (s.mem.gate x.backend.model).held + x.tokens ≤ x.backend.model.budget ∨
      (s.mem.gate x.backend.model).busy = 0) :
    ((s.total (weighAt Attempt.tokens x.backend.model.name) + x.tokens : ℤ) : ℚ) ≤ q := by
  rcases hroom with hroom | hidle
  · have hheld := h.held x.backend.model.name
    have hsum : s.total (weighAt Attempt.tokens x.backend.model.name) + x.tokens ≤
        x.backend.model.budget := (add_le_add_left hheld _).trans hroom
    exact (Int.cast_le.mpr hsum).trans (hbudget _ _ q hx.known hq)
  · have hzero := h.tokens_eq_zero hidle
    obtain ⟨p, hp, hlt⟩ := hx.below
    obtain rfl : p = q := by
      rw [hq] at hp
      cases hp
      rfl
    rw [hzero, zero_add]
    exact hlt.le

theorem Counted.resume {s : St} (h : Counted config s) {t : ℕ} {pc : Pc} {x : Answer} {r : Step}
    (hbudget : ∀ name m q, config.models.get? name = some m →
      LlmProxy.share m = .ok (.finite q) → (m.budget : ℚ) ≤ q)
    (ht : s.at t = some ⟨pc, some x⟩) (hr : LlmProxy.resume config std s.world s.mem pc x = some r) :
    Counted config ⟨s.world, r.mem, s.threads.set t (suspend r.next)⟩ := by
  have hbooked := resume_booked hr
  have htokens (name : String) : 0 ≤ weighAt Attempt.tokens name pc := h.tokens_nonneg name t _ ht
  have hone (name : String) : 0 ≤ weighAt one name pc := one_nonneg s name t _ ht
  refine ⟨fun j th hj => ?_, fun name => ?_, fun name => ?_, fun name m q hm hq h0 => ?_⟩
  · rw [at_set s _ _ t j _ (by simp [ht])] at hj
    split_ifs at hj
    · exact resume_sound (h.sound t _ ht) hr (suspend_eq_some hj).1
    · exact h.sound j th hj
  · have hold := h.busy name
    have hnonneg := hone name
    rw [total_weighAt ht]
    rcases hbooked.balance with hbal | ⟨hb, hn, _⟩
    · have := (hbal name).1
      dsimp only
      omega
    · simp only [hb, hn, Option.bind_none, weigh]
      omega
  · have hold := h.held name
    have hnonneg := htokens name
    rw [total_weighAt ht]
    rcases hbooked.balance with hbal | ⟨hb, hn, _⟩
    · have := (hbal name).2
      dsimp only
      omega
    · simp only [hb, hn, Option.bind_none, weigh]
      omega
  · have hold := h.share name m q hm hq h0
    have hless {n : ℤ} (hn : n ≤ s.total (weighAt Attempt.tokens name)) : (n : ℚ) ≤ q :=
      (Int.cast_le.mpr hn).trans hold
    have hnonneg := htokens name
    rw [total_weighAt ht]
    -- Only a slot that is granted adds to what is in flight.
    cases hbooked with
    | same _ hf _ =>
      rw [hf]
      exact hless (by simp [weighAt])
    | granted l y seq hpc hn hroom _ _ =>
      subst hpc
      have hy : Valid config y := (h.sound t _ ht).2
      simp only [hn, weighAt, flightOf, weigh, Option.bind_some]
      split_ifs with hname
      · subst hname
        obtain rfl : y.backend.model = m := Option.some.inj (hy.known.symm.trans hm)
        simpa [weighAt] using h.granted hbudget hy hq hroom
      · simpa [weighAt] using hold
    | returned l y reply n raised hpc hn _ _ =>
      rw [hn]
      exact hless (by simp only [weigh]; omega)
    | leaked l y e hpc hn _ _ =>
      rw [hn]
      exact hless (by simp only [Option.bind_none, weigh]; omega)

theorem counted_initial (now : ℚ) : Counted config (initial config now) where
  sound t th ht := by simp [State.at, initial] at ht
  busy name := by simp [State.total, initial, books]
  held name := by simp [State.total, initial, books]
  share name m q _ _ h0 := by simpa [State.total, initial] using h0

theorem counted_step
    (hbudget : ∀ name m q, config.models.get? name = some m →
      LlmProxy.share m = .ok (.finite q) → (m.budget : ℚ) ≤ q)
    (s : St) (x : Act) (s' : St) (h : Counted config s) (hc : Modest config s x)
    (hs : (program config std).step s x = some s') : Counted config s' := by
  cases x with
  | call c =>
    obtain ⟨r, hr, rfl⟩ := Program.step_call hs
    obtain ⟨name, raw, body, session, role, rfl, hrole, rfl⟩ := start_cases hr
    have htotal (f : Attempt → ℤ) (n : String) (pc : Pc) (hp : flightOf pc = none) :
        State.total (weighAt f n) ⟨s.world, s.mem, s.threads ++ [suspend (some pc)]⟩ =
          s.total (weighAt f n) := by
      rw [total_append, elim_suspend]
      simp [weighAt, hp, weigh]
    refine ⟨fun t th ht => ?_, fun n => ?_, fun n => ?_, fun n m q hm hq h0 => ?_⟩
    · rw [at_append] at ht
      split_ifs at ht
      · rw [← Option.some.inj (suspend_eq_some ht).1]
        exact ⟨⟨name, hrole⟩, hc role hrole, le_refl _⟩
      · exact h.sound t th ht
    · exact (htotal one n _ rfl).trans_le (h.busy n)
    · exact (htotal Attempt.tokens n _ rfl).trans_le (h.held n)
    · have hold := h.share n m q hm hq h0
      rw [← htotal Attempt.tokens n (.head ⟨⟨role, raw, body, session⟩,
        s.world.now + config.settings.holdHours * 3600, 0, 0, 0, none, false⟩) rfl] at hold
      exact hold
  | serve t c =>
    obtain ⟨pc, w, a, ht, hv, rfl⟩ := Program.step_serve hs
    obtain rfl := serve_world hv
    have htotal (f : Pc → ℤ) :
        State.total f ⟨s.world, s.mem, s.threads.set t (some ⟨pc, some a⟩)⟩ = s.total f := by
      rw [total_set f s _ _ ht]
      simp
    refine ⟨fun j th hj => ?_, fun n => ?_, fun n => ?_, fun n m q hm hq h0 => ?_⟩
    · rw [at_set s _ _ t j _ (by simp [ht])] at hj
      split_ifs at hj
      · rw [← Option.some.inj hj]
        exact h.sound t ⟨pc, none⟩ ht
      · exact h.sound j th hj
    · rw [htotal]
      exact h.busy n
    · rw [htotal]
      exact h.held n
    · rw [htotal]
      exact h.share n m q hm hq h0
  | resume t =>
    obtain ⟨pc, a, r, ht, hr, rfl⟩ := Program.step_resume hs
    exact h.resume hbudget ht hr
  | env e =>
    obtain ⟨w, g, he, rfl⟩ := Program.step_env hs
    obtain ⟨rfl, _⟩ := env_memory he
    exact ⟨h.sound, h.busy, h.held, h.share⟩

theorem share_nonneg {m : Model} {q : ℚ} (hc : 0 ≤ m.context) (hq : share m = .ok (.finite q)) :
    0 ≤ q := by
  obtain ⟨c, hfc, hq⟩ := except_bind_ok hq
  have hc0 : 0 ≤ c := by
    unfold floatOfInt at hfc
    split at hfc
    · rename_i p hp
      cases hfc
      unfold ofInt at hp
      split at hp
      · rename_i p' hp'
        cases hp
        exact nearest_nonneg (by exact_mod_cast hc) hp'
      · cases hp
    · cases hfc
  have hmul : mul shareOfContext (.finite c) = .finite q := Except.ok.inj hq
  cases hshare : shareOfContext with
  | finite p =>
    have hp : 0 ≤ p := nearest_nonneg (by norm_num) hshare
    rw [hshare] at hmul
    exact nearest_nonneg (mul_nonneg hp hc0) hmul
  | infinite neg =>
    rw [hshare] at hmul
    simp only [mul] at hmul
    split_ifs at hmul
  | nan =>
    rw [hshare] at hmul
    cases hmul

/-- The requests in flight to a model stay within its share together, and each is below it. -/
def FairUse (config : Config) (s : St) : Prop :=
  ∀ name m q, config.models.get? name = some m → share m = .ok (.finite q) →
    (s.total (weighAt Attempt.demand name) : ℚ) ≤ q ∧
    ∀ t th x, s.at t = some th → flightOf th.pc = some x → x.backend.model.name = name →
      (x.demand : ℚ) < q

/-- With budgets within the models' shares and no negative context, the proxy keeps fair use
in every run whose requests are modest, whatever the upstream answers. -/
theorem fairUse_of_modest {acts : List Act} {now : ℚ} {s : St}
    (hbudget : ∀ name m q, config.models.get? name = some m →
      share m = .ok (.finite q) → (m.budget : ℚ) ≤ q)
    (hcontext : ∀ name m, config.models.get? name = some m → 0 ≤ m.context)
    (hc : (program config std).Along (Modest config) (initial config now) acts)
    (hr : (program config std).run (initial config now) acts = some s) : FairUse config s := by
  have h : Counted config s :=
    Program.run_invariant (counted_step hbudget) (counted_initial now) hc hr
  intro name m q hm hq
  have hdemand : s.total (weighAt Attempt.demand name) = s.total (weighAt Attempt.tokens name) := by
    apply total_congr
    intro t th ht
    unfold weighAt
    cases hx : flightOf th.pc with
    | none => rfl
    | some x => simp only [weigh, (valid_of_flight (h.sound t th ht) hx).demand_eq]
  refine ⟨?_, fun t th x ht hx hname => ?_⟩
  · rw [hdemand]
    exact h.share name m q hm hq (share_nonneg (hcontext name m hm) hq)
  · have hv := valid_of_flight (h.sound t th ht) hx
    obtain ⟨p, hp, hlt⟩ := hv.below
    subst hname
    obtain rfl : x.backend.model = m := Option.some.inj (hv.known.symm.trans hm)
    obtain rfl : p = q := by
      rw [hq] at hp
      cases hp
      rfl
    rw [hv.demand_eq]
    exact hlt

def smallModel : Model where
  name := "m"
  context := 1000
  slots := (3, 3)
  budget := 350
  outputPerMinute := 40800
  maxTokens := (10, 1000)
  imageTokens := 0
  ttft := (1, 1)
  decode := (30, 10)
  variants := []
  slots_ok := by decide
  maxTokens_ok := by decide

def smallRole : Role := ⟨"agent", [⟨smallModel, ""⟩], 0, by simp⟩

def smallConfig : Config where
  settings := ⟨1, 1, 1080, 1200, 30, 600, 3⟩
  models := [("m", smallModel)]
  roles := [("agent", smallRole)]
  known := by
    intro r hr b hb
    obtain rfl : r = ("agent", smallRole) := by simpa using hr
    obtain rfl : b = ⟨smallModel, ""⟩ := by simpa [smallRole] using hb
    rfl

/-- Nothing is read of a reply that is not JSON. -/
def noJson : Std := ⟨fun _ => .error .invalid, fun _ => ""⟩

/-- A request of ten bytes and its awaits up to the upstream's answer. -/
def sending (t : ℕ) (maxTokens : ℤ) : List Act :=
  [.call (.forward "agent" (List.replicate 10 65) [("max_tokens", .int maxTokens)] ""),
   .serve t (.bool false), .resume t, .serve t .go, .resume t, .serve t .go, .resume t,
   .serve t (.bool false), .resume t]

theorem share_smallModel : share smallModel = .ok (.finite 350) := by decide +kernel

theorem smallConfig_model {name : String} {m : Model}
    (h : smallConfig.models.get? name = some m) : m = smallModel := by
  have hmem : (name, m) = ("m", smallModel) := by
    simpa [smallConfig] using Dict.mem_of_get? h
  exact (Prod.mk.inj hmem).2

theorem smallConfig_budget (name : String) (m : Model) (q : ℚ)
    (hm : smallConfig.models.get? name = some m) (hq : share m = .ok (.finite q)) :
    (m.budget : ℚ) ≤ q := by
  obtain rfl := smallConfig_model hm
  rw [share_smallModel] at hq
  cases hq
  norm_num [smallModel]

/-- A request for -1000 tokens makes room for two that the share has no room for. -/
theorem not_fairUse_negative :
    ¬∀ config std now acts s,
      (∀ name m q, config.models.get? name = some m → share m = .ok (.finite q) →
        (m.budget : ℚ) ≤ q) →
      (program config std).run (initial config now) acts = some s → FairUse config s := by
  intro h
  let acts := sending 0 (-1000) ++ sending 1 300 ++ sending 2 300
  have hany : ((program smallConfig noJson).run (initial smallConfig 0) acts).any
      (fun s => 350 < s.total (weighAt Attempt.demand "m")) = true := by decide +kernel
  obtain ⟨s, hs, hover⟩ := (Option.any_eq_true _ _).mp hany
  have hfair := (h _ _ _ _ s smallConfig_budget hs "m" smallModel 350 rfl share_smallModel).1
  have hle : s.total (weighAt Attempt.demand "m") ≤ 350 := by exact_mod_cast hfair
  have hlt : 350 < s.total (weighAt Attempt.demand "m") := by simpa using hover
  omega

/-- Of three requests for 150 tokens, the third waits for the others. -/
theorem fairUse_of_modest_three :
    let acts := sending 0 150 ++ sending 1 150 ++ sending 2 150
    (program smallConfig noJson).Along (Modest smallConfig) (initial smallConfig 0) acts ∧
      ∃ s, (program smallConfig noJson).run (initial smallConfig 0) acts = some s ∧
        s.total (weighAt one "m") = 2 ∧ FairUse smallConfig s := by
  intro acts
  have hc : (program smallConfig noJson).Along (Modest smallConfig) (initial smallConfig 0) acts := by
    decide +kernel
  have hany : ((program smallConfig noJson).run (initial smallConfig 0) acts).any
      (fun s => s.total (weighAt one "m") = 2) = true := by decide +kernel
  obtain ⟨s, hs, htwo⟩ := (Option.any_eq_true _ _).mp hany
  have hcontext : ∀ name m, smallConfig.models.get? name = some m → 0 ≤ m.context := by
    intro name m hm
    obtain rfl := smallConfig_model hm
    decide
  exact ⟨hc, s, hs, by simpa using htwo, fairUse_of_modest smallConfig_budget hcontext hc hs⟩

end PurdueAF.LlmProxy

import PurdueAF.RayClusterSteps

/-!
# Idle clusters

A pass of `reap_idle` reads the clock once, at its beginning, and then waits for one head
after the other, while owners' calls and requests write `last_used`. A cluster goes too
early where a pass writes its own, older beginning over what its owner has written, or
where the owner's call is still to be written. What owners do is noted beside the gateway,
as it comes in and whatever becomes of it.
-/
namespace PurdueAF.RayClusters
open Ray Coroutine

/-- What is noted of the use of clusters: when an owner last made a call to their cluster,
when a notebook last sent a request on a relay, when a call or a request last got through,
and when the last pass began that found the cluster busy. -/
structure Uses where
  called : Dict (String × String) ℤ
  sent : Dict String ℤ
  through : Dict String ℤ
  busy : Dict String ℤ

def Uses.empty : Uses := ⟨[], [], [], []⟩

/-- The user whose call of `cluster_for` or `running` comes in here, their name known. -/
def calledBy (w : World) (g : Gateway) : Pc → Answer → Option User
  | .caller (.relay user _ client), .done =>
    if (toldGone w g client).isNone then some user else none
  | .caller (.http user), .done => some user
  | .caller (.own user _ .post), .done => some user
  | _, _ => none

/-- The cluster on whose relay a notebook sends a request here. -/
def sentOn (s : St) : Act → Option String
  | .serve t .request =>
    match s.at t with
    | some ⟨.relaying cluster, none⟩ => some cluster
    | _ => none
  | _ => none

def Uses.hear (u : Uses) (now : ℤ) : Option Use → Uses
  | some (.through n) => { u with through := u.through.set n now }
  | some (.busy n began) => { u with busy := u.busy.set n began }
  | none => u

def Uses.note (u : Uses) (s : St) (x : Act) : Uses :=
  let now := s.world.now
  let heard := u.hear now ((resumed s x).bind fun r => useOf s.world s.mem r.1 r.2)
  { heard with
    called := ((resumed s x).bind fun r => calledBy s.world s.mem r.1 r.2).elim u.called
      fun user => u.called.set (user.cluster, user.owner) now
    sent := (sentOn s x).elim u.sent fun n => u.sent.set n now }

/-- When its owner last made a call to the cluster, and when a request last came for it. -/
def Uses.times (u : Uses) (c : RayCluster) : List ℤ :=
  (u.called.get? (c.name, c.owner)).toList ++ (u.sent.get? c.name).toList

/-- The cluster to whose clock this action writes the beginning of a pass, if it does. -/
def passWrites (s : St) (x : Act) : Option (String × ℤ) :=
  match resumed s x with
  | some (.reapBusy c p, .bool busy) =>
    if busy = true ∨ s.mem.lastUsed.get? c.name = none then some (c.name, p.now) else none
  | _ => none

/-- The cluster of whose idle head a pass hears here. -/
def idleHead (s : St) (x : Act) : Option RayCluster :=
  match resumed s x with
  | some (.reapBusy c _, .bool false) => some c
  | _ => none

/-- Where a pass writes its beginning, no call or request has got through since. -/
def Undisturbed (u : Uses) (s : St) (x : Act) : Prop :=
  ∀ e ∈ passWrites s x, ∀ t ∈ u.through.get? e.1, t ≤ e.2

/-- Where a pass hears of the idle head of a cluster that its owner used within the idle
timeout, a call or a request has got through within it. -/
def Noticed (u : Uses) (s : St) (x : Act) : Prop :=
  ∀ c ∈ idleHead s x, ∀ t ∈ u.times c, s.world.now - t < idleTimeoutS →
    ∃ v ∈ u.through.get? c.name, s.world.now - v < idleTimeoutS

instance (u : Uses) (s : St) (x : Act) : Decidable (Undisturbed u s x) :=
  inferInstanceAs (Decidable (∀ e ∈ passWrites s x, ∀ t ∈ u.through.get? e.1, t ≤ e.2))

instance (u : Uses) (s : St) (x : Act) : Decidable (Noticed u s x) :=
  inferInstanceAs (Decidable (∀ c ∈ idleHead s x, ∀ t ∈ u.times c,
    s.world.now - t < idleTimeoutS → ∃ v ∈ u.through.get? c.name, s.world.now - v < idleTimeoutS))

/-- A pass deletes a cluster as idle only when its owner has not used it for the idle
timeout, nor has a pass that found it busy begun since; and no clock moves backwards. -/
def KeepsIdle (u : Uses) (s : St) (x : Act) (s' : St) : Prop :=
  (∀ n, .deletesIdle n ∈ program.emits s x → ∃ c ∈ idleHead s x, c.name = n ∧
    (∀ t ∈ u.times c, idleTimeoutS ≤ s.world.now - t) ∧
    ∀ t ∈ u.busy.get? n, idleTimeoutS ≤ s.world.now - t) ∧
  ∀ n, ∀ t ∈ s.mem.lastUsed.get? n, ∀ t' ∈ s'.mem.lastUsed.get? n, t ≤ t'

abbrev OnePass : St → Prop :=
  Exclusive (fun g (_ : Unit) => g.reaping) fun pc _ => reaps pc = true

/-- No clock is ahead of the time, nor behind what got through or a pass that found the
cluster busy. -/
structure Ordered (u : Uses) (w : World) (g : Gateway) : Prop where
  through : ∀ n t l, u.through.get? n = some t → g.lastUsed.get? n = some l → t ≤ l
  busy : ∀ n t l, u.busy.get? n = some t → g.lastUsed.get? n = some l → t ≤ l
  now : ∀ n l, g.lastUsed.get? n = some l → l ≤ w.now
  begun : ∀ n t, u.busy.get? n = some t → t ≤ w.now

/-- Only what got through sets a cluster's clock beyond the beginning of the pass, and no pass
that found a cluster busy began later. -/
structure Behind (u : Uses) (g : Gateway) (now : ℤ) : Prop where
  clock : ∀ n l, g.lastUsed.get? n = some l → l ≤ now ∨ ∃ t, u.through.get? n = some t ∧ l ≤ t
  begun : ∀ n t, u.busy.get? n = some t → t ≤ now

def InPass (u : Uses) (w : World) (g : Gateway) (pc : Pc) (_ : Option Answer) : Prop :=
  ∀ p, passOf pc = some p → p.now ≤ w.now ∧ Behind u g p.now

variable {u : Uses} {w : World} {g g' : Gateway} {pc : Pc} {a : Answer} {r : Step}

theorem onePass_step {s s' : St} {x : Act} (h : OnePass s) (hs : program.step s x = some s') :
    OnePass s' := by
  refine h.step (fun w g i r hr => ?_) (fun w g pc a r hr => (resume_effect hr).reaping)
    (fun w g e w' g' he _ hg => ?_) hs
  · rcases start_cases hr with ⟨hg, rfl⟩ | ⟨why, rfl⟩ | ⟨_, rfl⟩ | ⟨n, _, _, rfl⟩
    · exact ⟨fun _ _ _ => rfl, fun _ _ _ _ _ => ⟨hg, rfl⟩, fun _ _ _ _ _ _ => rfl⟩
    · exact .of_eq rfl (by simp)
    · exact .of_eq rfl (by simp [awaiting, reaps, passOf])
    · exact .of_eq rfl (by simp [awaiting, reaps, passOf])
  · obtain ⟨_, _, _, _, hr, _⟩ := env_keeps he
    rwa [hr]

/-- The condition, for the pass that resumes. -/
def Fresh (u : Uses) (g : Gateway) (pc : Pc) (a : Answer) : Prop :=
  ∀ c p busy, pc = .reapBusy c p → a = .bool busy →
    busy = true ∨ g.lastUsed.get? c.name = none → ∀ t, u.through.get? c.name = some t → t ≤ p.now

theorem Undisturbed.fresh {s : St} {t : ℕ} (h : Undisturbed u s (.resume t))
    (ht : s.at t = some ⟨pc, some a⟩) : Fresh u s.mem pc a := by
  intro c p busy hpc ha hw v hv
  subst hpc ha
  exact h (c.name, p.now) (by simp [passWrites, resumed_of_at ht, hw]) v hv

theorem seen_cases (g : Gateway) (name : String) (now : ℤ) :
    (seen g name now).lastUsed = g.lastUsed ∨
      g.lastUsed.get? name = none ∧ (seen g name now).lastUsed = g.lastUsed.set name now := by
  unfold seen
  split
  · exact .inl rfl
  · rename_i hnone
    exact .inr ⟨hnone, rfl⟩

/-- No clock that stays is moved backwards. -/
theorem Clocks.mono (hc : Clocks w g pc a g') (hI : Ordered u w g) (hp : InPass u w g pc (some a))
    (hf : Fresh u g pc a) {n : String} {l l' : ℤ} (hl : g.lastUsed.get? n = some l)
    (hl' : g'.lastUsed.get? n = some l') : l ≤ l' := by
  cases hc with
  | same _ h => simp_all
  | used m _ h =>
    rw [h, Dict.get?_set] at hl'
    split_ifs at hl'
    · cases hl'
      exact hI.now n l hl
    · simp_all
  | lost m _ h =>
    rw [h, Dict.get?_pop] at hl'
    split_ifs at hl'
    simp_all
  | busy c p hpc ha h =>
    subst hpc ha
    rw [h, reapBusy, Dict.get?_set] at hl'
    split_ifs at hl' with hn
    · cases hl'
      subst hn
      rcases (hp p rfl).2.clock c.name l hl with hle | ⟨t, ht, hle⟩
      · exact hle
      · exact hle.trans (hf c p true rfl rfl (.inl rfl) t ht)
    · simp_all
  | seen c p hpc ha h =>
    rcases seen_cases g c.name p.now with hs | ⟨hnone, hs⟩
    · simp_all
    · rw [h, hs, Dict.get?_set] at hl'
      split_ifs at hl' with hn
      · simp [hn, hnone] at hl
      · simp_all

theorem Ordered.congr {u' : Uses} {w' : World} (h : Ordered u w g) (ht : u'.through = u.through)
    (hb : u'.busy = u.busy) (hu : g'.lastUsed = g.lastUsed) (hnow : w.now ≤ w'.now) :
    Ordered u' w' g' where
  through := by rw [ht, hu]; exact h.through
  busy := by rw [hb, hu]; exact h.busy
  now := by
    rw [hu]
    intro n l hl
    exact (h.now n l hl).trans hnow
  begun := by
    rw [hb]
    intro n t hn
    exact (h.begun n t hn).trans hnow

/-- Whatever was noted of a name whose clock is set, the clock has it, and the others stay. -/
theorem Ordered.set {u' : Uses} {n : String} {v : ℤ} (hI : Ordered u w g)
    (hu : g'.lastUsed = g.lastUsed.set n v) (hv : v ≤ w.now)
    (hthrough : ∀ t, u'.through.get? n = some t → t ≤ v)
    (hbusy : ∀ t, u'.busy.get? n = some t → t ≤ v)
    (hothers : ∀ m, m ≠ n → u'.through.get? m = u.through.get? m ∧
      u'.busy.get? m = u.busy.get? m) : Ordered u' w g' where
  through m t l h h' := by
    rw [hu, Dict.get?_set] at h'
    split_ifs at h' with hm
    · cases h'
      exact hthrough t (hm ▸ h)
    · exact hI.through m t l ((hothers m hm).1 ▸ h) h'
  busy m t l h h' := by
    rw [hu, Dict.get?_set] at h'
    split_ifs at h' with hm
    · cases h'
      exact hbusy t (hm ▸ h)
    · exact hI.busy m t l ((hothers m hm).2 ▸ h) h'
  now m l h := by
    rw [hu, Dict.get?_set] at h
    split_ifs at h
    · cases h
      exact hv
    · exact hI.now m l h
  begun m t h := by
    by_cases hm : m = n
    · exact (hbusy t (hm ▸ h)).trans hv
    · exact hI.begun m t ((hothers m hm).2 ▸ h)

theorem Clocks.ordered (hc : Clocks w g pc a g') (hI : Ordered u w g)
    (hp : InPass u w g pc (some a)) (hf : Fresh u g pc a) :
    Ordered (u.hear w.now (useOf w g pc a)) w g' := by
  cases hc with
  | same hn hu =>
    rw [hn]
    exact hI.congr rfl rfl hu le_rfl
  | used m hn hu =>
    rw [hn]
    exact hI.set hu le_rfl (by simp [Uses.hear]) (hI.begun m)
      fun j hj => ⟨Dict.get?_set_ne _ _ hj, rfl⟩
  | lost m hn hu =>
    rw [hn]
    have hold (n : String) (l : ℤ) (h : g'.lastUsed.get? n = some l) :
        g.lastUsed.get? n = some l := by
      rw [hu, Dict.get?_pop] at h
      split_ifs at h
      exact h
    exact ⟨fun n t l h h' => hI.through n t l h (hold n l h'),
      fun n t l h h' => hI.busy n t l h (hold n l h'), fun n l h => hI.now n l (hold n l h), hI.begun⟩
  | busy c p hpc ha hu =>
    subst hpc ha
    exact hI.set hu (hp p rfl).1 (hf c p true rfl rfl (.inl rfl)) (by simp [useOf, Uses.hear])
      fun j hj => ⟨rfl, Dict.get?_set_ne _ _ hj⟩
  | seen c p hpc ha hu =>
    subst hpc ha
    obtain ⟨hpass, hbehind⟩ := hp p rfl
    rcases seen_cases g c.name p.now with hs | ⟨hnone, hs⟩
    · exact hI.congr rfl rfl (hu.trans hs) le_rfl
    · exact hI.set (hu.trans hs) hpass (hf c p false rfl rfl (.inr hnone))
        (hbehind.begun c.name) fun _ _ => ⟨rfl, rfl⟩

theorem Behind.set {u' : Uses} {n : String} {v now : ℤ} (hb : Behind u g now)
    (hu : g'.lastUsed = g.lastUsed.set n v)
    (hv : v ≤ now ∨ ∃ t, u'.through.get? n = some t ∧ v ≤ t)
    (hbusy : ∀ t, u'.busy.get? n = some t → t ≤ now)
    (hothers : ∀ m, m ≠ n → u'.through.get? m = u.through.get? m ∧
      u'.busy.get? m = u.busy.get? m) : Behind u' g' now where
  clock m l h := by
    rw [hu, Dict.get?_set] at h
    split_ifs at h with hm
    · cases h
      exact hm ▸ hv
    · rw [(hothers m hm).1]
      exact hb.clock m l h
  begun m t h := by
    by_cases hm : m = n
    · exact hbusy t (hm ▸ h)
    · exact hb.begun m t ((hothers m hm).2 ▸ h)

/-- A pass that began at `now` stays ahead of all but what got through, its own writes
included. -/
theorem Clocks.behind {now : ℤ} (hc : Clocks w g pc a g') (hb : Behind u g now)
    (hown : ∀ c p, pc = .reapBusy c p → p.now = now) :
    Behind (u.hear w.now (useOf w g pc a)) g' now := by
  cases hc with
  | same hn hu =>
    rw [hn]
    exact ⟨by rw [hu]; exact hb.clock, hb.begun⟩
  | used m hn hu =>
    rw [hn]
    exact hb.set hu (.inr ⟨w.now, Dict.get?_set_self .., le_rfl⟩) (hb.begun m)
      fun j hj => ⟨Dict.get?_set_ne _ _ hj, rfl⟩
  | lost m hn hu =>
    rw [hn]
    refine ⟨fun n l h => ?_, hb.begun⟩
    rw [hu, Dict.get?_pop] at h
    split_ifs at h
    exact hb.clock n l h
  | busy c p hpc ha hu =>
    subst hpc ha
    have hnow := hown c p rfl
    exact hb.set hu (.inl hnow.le) (by simp [useOf, Uses.hear, hnow])
      fun j hj => ⟨rfl, Dict.get?_set_ne _ _ hj⟩
  | seen c p hpc ha hu =>
    subst hpc ha
    rcases seen_cases g c.name p.now with hs | ⟨-, hs⟩
    · exact ⟨by rw [hu, hs]; exact hb.clock, hb.begun⟩
    · exact hb.set (hu.trans hs) (.inl (hown c p rfl).le) (hb.begun c.name) fun _ _ => ⟨rfl, rfl⟩

/-- The pass a coroutine goes on with, or begins, is ahead of all but what got through. -/
theorem Effect.inPass (he : Effect w g pc a r) (hI : Ordered u w g)
    (hp : InPass u w g pc (some a)) (hf : Fresh u g pc a) : ∀ pc', r.next = some pc' →
      InPass (u.hear w.now (useOf w g pc a)) w r.mem pc' none := by
  intro pc' hpc' p hpass
  have hnow := (he.next pc' hpc').pass p hpass
  have hI' := he.clocks.ordered hI hp hf
  rcases passNow_cases hnow with ⟨_, hw⟩ | ⟨q, hq, hqp⟩
  · rw [hw]
    exact ⟨le_refl _, fun n l h => .inl (hI'.now n l h), hI'.begun⟩
  · rw [← hqp]
    refine ⟨(hp q hq).1, he.clocks.behind (hp q hq).2 ?_⟩
    intro c p' hpc
    subst hpc
    cases hq
    rfl

/-- One pass at a time, with clocks in order. -/
structure IdleInv (u : Uses) (s : St) : Prop where
  onePass : OnePass s
  holds : Holds (Ordered u) (InPass u) s

theorem InPass.congr {u' : Uses} {w' : World} {reply : Option Answer} (h : InPass u w g pc reply)
    (ht : u'.through = u.through) (hb : u'.busy = u.busy) (hu : g'.lastUsed = g.lastUsed)
    (hnow : w.now ≤ w'.now) (reply' : Option Answer) : InPass u' w' g' pc reply' := by
  intro p hp
  obtain ⟨hle, hclock, hbegun⟩ := h p hp
  exact ⟨hle.trans hnow, by rw [hu, ht]; exact hclock, by rw [hb]; exact hbegun⟩

theorem idleInv_step (u : Uses) (s : St) (x : Act) (s' : St) (h : IdleInv u s)
    (hx : Undisturbed u s x ∧ Noticed u s x) (hs : program.step s x = some s') :
    IdleInv (u.note s x) s' := by
  refine ⟨onePass_step h.onePass hs, ?_⟩
  refine Holds.move ?_ ?_ ?_ ?_ h.holds hs
  · rintro i r rfl hr
    rcases start_cases hr with ⟨_, rfl⟩ | ⟨why, rfl⟩ | ⟨_, rfl⟩ | ⟨n, _, _, rfl⟩
    all_goals
      refine ⟨h.holds.shared.congr rfl rfl rfl le_rfl, fun pc hpc p hp => ?_,
        fun _ _ _ _ hL => hL.congr (by rfl) (by rfl) (by rfl) le_rfl _⟩
      cases hpc <;> cases hp
  · rintro t c pc w a rfl ht hv
    have hnow := (serve_now hv).ge
    exact ⟨h.holds.shared.congr rfl rfl rfl hnow,
      InPass.congr (h.holds.each t _ ht) (by rfl) (by rfl) (by rfl) hnow _,
      fun _ _ _ _ _ hL => InPass.congr hL (by rfl) (by rfl) (by rfl) hnow _⟩
  · rintro t pc a r rfl ht hr
    have he : Effect s.world s.mem pc a r := resume_effect hr
    have hp := h.holds.each t _ ht
    have hf := hx.1.fresh ht
    have hheard : (resumed s (.resume t)).bind (fun r => useOf s.world s.mem r.1 r.2) =
        useOf s.world s.mem pc a := by
      rw [resumed_of_at ht, Option.bind_some]
    simp only [Uses.note, hheard]
    refine ⟨(he.clocks.ordered h.holds.shared hp hf).congr rfl rfl rfl le_rfl,
      fun pc' hpc' => (he.inPass h.holds.shared hp hf pc' hpc').congr (by rfl) (by rfl) (by rfl) le_rfl _, ?_⟩
    intro j pcj aj hjt hj hL q hq
    -- Another pass would be a second one.
    have hother (c : RayCluster) (p : Pass) (hpc : pc = .reapBusy c p) : p.now = q.now := by
      have hreaps : reaps pcj = true := by cases pcj <;> simp_all [reaps, passOf]
      exact absurd (h.onePass.one j t _ _ () hj ht hreaps (by rw [hpc]; rfl)) hjt
    obtain ⟨hclock, hbegun⟩ := he.clocks.behind (hL q hq).2 hother
    exact ⟨(hL q hq).1, hclock, hbegun⟩
  · rintro e w g rfl he
    obtain ⟨hnow, hu, -⟩ := env_keeps he
    exact ⟨h.holds.shared.congr rfl rfl hu hnow,
      fun _ _ _ _ hL => hL.congr (by rfl) (by rfl) hu hnow _⟩

theorem idleInv_initial : IdleInv .empty initial where
  onePass := ⟨by simp [initial, State.at], by simp [initial, State.at]⟩
  holds := by
    refine ⟨⟨?_, ?_, ?_, ?_⟩, by simp [initial, State.at]⟩
    all_goals simp [initial, Uses.empty]

theorem keepsIdle_step {s s' : St} {x : Act} (h : IdleInv u s)
    (hx : Undisturbed u s x ∧ Noticed u s x) (hs : program.step s x = some s') :
    KeepsIdle u s x s' := by
  refine ⟨fun n hn => ?_, fun n l hl l' hl' => ?_⟩
  · rcases emits_reason hn with ⟨why, hwhy⟩ | ⟨j, pc, a, rfl, hj, hreason⟩
    · cases hwhy
    · obtain ⟨c, p, l, rfl, rfl, rfl, hl, hle⟩ := hreason
      have hpw := (h.holds.each j _ hj p rfl).1
      have hc : c ∈ idleHead s (.resume j) := by simp [idleHead, resumed_of_at hj]
      refine ⟨c, hc, rfl, fun t ht => ?_, fun t ht => ?_⟩
      · -- Were the use recent, what got through since would have kept the clock ahead.
        by_contra hrecent
        obtain ⟨v, hv, hthrough⟩ := hx.2 c hc t ht (by omega)
        have hvl := h.holds.shared.through _ v l hv hl
        omega
      · have htl := h.holds.shared.busy _ t l ht hl
        omega
  · cases x with
    | call i =>
      obtain ⟨r, hr, rfl⟩ := Program.step_call hs
      rcases start_cases hr with ⟨_, rfl⟩ | ⟨why, rfl⟩ | ⟨_, rfl⟩ | ⟨n, _, _, rfl⟩
      all_goals exact (Option.some.inj (hl.symm.trans hl')).le
    | serve t c =>
      obtain ⟨pc, w, a, _, _, rfl⟩ := Program.step_serve hs
      exact (Option.some.inj (hl.symm.trans hl')).le
    | resume t =>
      obtain ⟨pc, a, r, ht, hr, rfl⟩ := Program.step_resume hs
      have he : Effect s.world s.mem pc a r := resume_effect hr
      exact he.clocks.mono h.holds.shared (h.holds.each t _ ht) (hx.1.fresh ht) hl hl'
    | env e =>
      obtain ⟨w, g, he, rfl⟩ := Program.step_env hs
      obtain ⟨_, hlast, -⟩ := env_keeps he
      rw [hlast] at hl'
      exact (Option.some.inj (hl.symm.trans hl')).le

/-- In a run in which no pass writes its beginning over a later use, and none hears of an
idle head while all that its owner did lately is still to get through, no cluster is deleted
as idle before its time and no clock moves backwards. -/
theorem keepsIdle_of_undisturbed {acts : List Act} {x : Act} {s s' : St}
    (hx : program.Watched Uses.note (fun u s x => Undisturbed u s x ∧ Noticed u s x) .empty
      initial (acts ++ [x]))
    (hr : program.run initial acts = some s) (hs : program.step s x = some s') :
    KeepsIdle (program.noted Uses.note .empty initial acts) s x s' := by
  obtain ⟨hacts, hlast⟩ := hx.last hr
  exact keepsIdle_step (Program.run_noted idleInv_step idleInv_initial hacts hr) hlast hs
/-- A notebook opens a relay to its new cluster, and the first pass begins. -/
def relayedRun : List Act :=
  .call (.relay hubUser (shapeOf "1") "c1") :: creating 0 ++
    .env (.ready 0 true) :: answers 0 [.ok, .bool false] ++ .call .reap :: answers 1 [.ok]

/-- The notebook sends a request 20 s into the pass, whose busy answer comes after it; the
pass 900 s after the first began finds the head idle. -/
def overwrittenRun : List Act :=
  relayedRun ++ .env (.tick 20) :: answers 0 [.request] ++ answers 1 [.bool true] ++
    .env (.tick 880) :: .call .reap :: answers 2 [.ok] ++ [.serve 2 (.bool false)]

theorem not_keepsIdle_overwritten :
    ¬∀ acts x s s', program.run initial acts = some s → program.step s x = some s' →
      KeepsIdle (program.noted Uses.note .empty initial acts) s x s' := by
  intro h
  have hany : (program.run initial overwrittenRun).any (fun s =>
      (program.step s (.resume 2)).isSome &&
      decide (.deletesIdle hubUser.cluster ∈ program.emits s (.resume 2) ∧
        ((idleHead s (.resume 2)).map fun c => c.name) = some hubUser.cluster ∧
        s.world.now = 900)) = true := by
    decide +kernel
  have hsent : (program.noted Uses.note .empty initial overwrittenRun).sent.get? hubUser.cluster =
      some 20 := by
    decide +kernel
  obtain ⟨s, hs, hstep⟩ := (Option.any_eq_true _ _).mp hany
  simp only [Bool.and_eq_true, decide_eq_true_eq] at hstep
  obtain ⟨hsome, he, hname, hnow⟩ := hstep
  obtain ⟨s', hs'⟩ := Option.isSome_iff_exists.mp hsome
  obtain ⟨c, hc, hcn, hused, -⟩ := (h _ _ s s' hs hs').1 _ he
  have hle := hused 20 (by simp [Uses.times, hcn, hsent])
  rw [hnow] at hle
  exact absurd hle (by decide)

/-- The notebook's last request comes 20 s after the first pass found the cluster busy: the
pass 900 s after the request deletes the cluster in time. -/
theorem keepsIdle_of_undisturbed_idle :
    let acts := relayedRun ++ answers 1 [.bool true] ++
      .env (.tick 20) :: answers 0 [.request] ++
      .env (.tick 900) :: .call .reap :: answers 2 [.ok] ++ [.serve 2 (.bool false)]
    program.Watched Uses.note (fun u s x => Undisturbed u s x ∧ Noticed u s x) .empty initial
        (acts ++ [.resume 2]) ∧
      (program.noted Uses.note .empty initial acts).sent.get? hubUser.cluster = some 20 ∧
      ∃ s s', program.run initial acts = some s ∧ program.step s (.resume 2) = some s' ∧
        .deletesIdle hubUser.cluster ∈ program.emits s (.resume 2) ∧
        KeepsIdle (program.noted Uses.note .empty initial acts) s (.resume 2) s' := by
  intro acts
  have hx : program.Watched Uses.note (fun u s x => Undisturbed u s x ∧ Noticed u s x) .empty
      initial (acts ++ [.resume 2]) := by
    decide +kernel
  have hany : (program.run initial acts).any (fun s => (program.step s (.resume 2)).isSome &&
      decide (.deletesIdle hubUser.cluster ∈ program.emits s (.resume 2))) = true := by
    decide +kernel
  obtain ⟨s, hs, hstep⟩ := (Option.any_eq_true _ _).mp hany
  simp only [Bool.and_eq_true, decide_eq_true_eq] at hstep
  obtain ⟨s', hs'⟩ := Option.isSome_iff_exists.mp hstep.1
  exact ⟨hx, by decide +kernel, s, s', hs, hs', hstep.2, keepsIdle_of_undisturbed hx hs hs'⟩

end PurdueAF.RayClusters
